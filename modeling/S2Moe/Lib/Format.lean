import S2Moe.Lib.Bytes

/-!
# The format of a reader

* `Forms m F A` : `m` succeeds just where the input begins with bytes `w` that stand for its value (`F a w`), and stops the
process just where the input begins with bytes of `A`;
* `Forms.bind` and one rule for each primitive : the format of a reader from those of its steps;
* `leBytes_ofLe`, `intBytes_ofIntBytes` : fields of a fixed width have no second representation.
-/

namespace S2Moe.Lib

/-! ## Numbers -/

theorem ofLe_lt : ∀ bs : List UInt8, ofLe bs < 256 ^ bs.length
  | [] => Nat.one_pos
  | b :: bs => by
    have hb := b.toNat_lt
    have ih := ofLe_lt bs
    rw [ofLe, List.length_cons, pow_succ]
    omega

theorem leBytes_ofLe : ∀ bs : List UInt8, leBytes bs.length (ofLe bs) = bs
  | [] => rfl
  | b :: bs => by
    have hb := b.toNat_lt
    have hdiv : (b.toNat + 256 * ofLe bs) / 256 = ofLe bs := by omega
    have hlow : UInt8.ofNat (b.toNat + 256 * ofLe bs) = b := by
      apply UInt8.toNat_inj.mp
      rw [UInt8.toNat_ofNat']
      omega
    rw [List.length_cons, ofLe, leBytes, hdiv, hlow, leBytes_ofLe bs]

theorem fitsInt_ofIntBytes {w : Nat} {bs : List UInt8} (h : bs.length = w) : FitsInt w (ofIntBytes w bs) := by
  have hlt := ofLe_lt bs
  rw [h] at hlt
  unfold FitsInt ofIntBytes
  split
  · omega
  · omega

theorem intBytes_ofIntBytes {w : Nat} {bs : List UInt8} (h : bs.length = w) : intBytes w (ofIntBytes w bs) = bs := by
  have hlt := ofLe_lt bs
  rw [h] at hlt
  have hmod : (ofIntBytes w bs % (256 ^ w : Nat)).toNat = ofLe bs := by
    unfold ofIntBytes
    split
    · rw [← Int.natCast_mod, Nat.mod_eq_of_lt hlt, Int.toNat_natCast]
    · rw [Int.sub_emod_right, ← Int.natCast_mod, Nat.mod_eq_of_lt hlt, Int.toNat_natCast]
  unfold intBytes
  rw [hmod, ← h]
  exact leBytes_ofLe bs

/-! ## Formats -/

structure Forms {α : Type} (m : Read Unit α) (F : α → List UInt8 → Prop) (A : List UInt8 → Prop) : Prop where
  accepts : ∀ {bs : List UInt8} {a : α} {r : Input Unit}, m ⟨bs, ()⟩ = .ok a r ↔ ∃ w, F a w ∧ bs = w ++ r.bytes
  aborts : ∀ {bs : List UInt8}, (∃ r, m ⟨bs, ()⟩ = .error .aborted r) ↔ ∃ w rest, A w ∧ bs = w ++ rest

namespace Forms
variable {α β : Type} {m : Read Unit α} {F G : α → List UInt8 → Prop} {A B : List UInt8 → Prop}

/-- What stands behind a form is left. -/
theorem ok (h : Forms m F A) {a : α} {w : List UInt8} (hw : F a w) (rest : List UInt8) :
    m ⟨w ++ rest, ()⟩ = .ok a ⟨rest, ()⟩ := h.accepts.mpr ⟨w, hw, rfl⟩

theorem congr (h : Forms m F A) (hF : ∀ a w, F a w ↔ G a w) (hA : ∀ w, A w ↔ B w) : Forms m G B where
  accepts := by
    intro bs a r
    rw [h.accepts]
    simp only [hF]
  aborts := by
    intro bs
    rw [h.aborts]
    simp only [hA]

theorem pure (a : α) : Forms (pure a : Read Unit α) (fun b w => b = a ∧ w = []) fun _ => False where
  accepts := by
    intro bs b r
    constructor
    · intro h
      cases h
      exact ⟨[], ⟨rfl, rfl⟩, rfl⟩
    · rintro ⟨w, ⟨rfl, rfl⟩, rfl⟩
      rfl
  aborts := by
    intro bs
    constructor
    · rintro ⟨r, h⟩
      cases h
    · rintro ⟨w, rest, h, -⟩
      exact h.elim

theorem thrown : Forms (Read.fail .thrown : Read Unit α) (fun _ _ => False) fun _ => False where
  accepts := by
    intro bs b r
    constructor
    · intro h
      cases h
    · rintro ⟨w, h, -⟩
      exact h.elim
  aborts := by
    intro bs
    constructor
    · rintro ⟨r, h⟩
      cases h
    · rintro ⟨w, rest, h, -⟩
      exact h.elim

theorem aborted : Forms (Read.fail .aborted : Read Unit α) (fun _ _ => False) fun w => w = [] where
  accepts := by
    intro bs b r
    constructor
    · intro h
      cases h
    · rintro ⟨w, h, -⟩
      exact h.elim
  aborts := by
    intro bs
    constructor
    · intro _
      exact ⟨[], bs, rfl, rfl⟩
    · intro _
      exact ⟨_, rfl⟩

theorem bytes (n : Nat) : Forms (Read.bytes n) (fun a w => a = w ∧ w.length = n) fun _ => False where
  accepts := by
    intro bs a r
    unfold Read.bytes
    constructor
    · intro h
      split at h
      · cases h
      · cases h
        refine ⟨bs.take n, ⟨rfl, ?_⟩, (List.take_append_drop n bs).symm⟩
        rw [List.length_take]
        dsimp only at *
        omega
    · rintro ⟨w, ⟨rfl, hlen⟩, rfl⟩
      rw [if_neg (by simp [hlen]), ← hlen, List.take_left, List.drop_left]
  aborts := by
    intro bs
    unfold Read.bytes
    constructor
    · rintro ⟨r, h⟩
      split at h
      · cases h
      · cases h
    · rintro ⟨w, rest, h, -⟩
      exact h.elim

/-- **The format of two steps.** -/
theorem bind {f : α → Read Unit β} {H : α → β → List UInt8 → Prop} {C : α → List UInt8 → Prop} (h : Forms m F A)
    (k : ∀ a, Forms (f a) (H a) (C a)) :
    Forms (m >>= f) (fun b w => ∃ a u v, F a u ∧ H a b v ∧ w = u ++ v)
      fun w => A w ∨ ∃ a u v, F a u ∧ C a v ∧ w = u ++ v where
  accepts := by
    intro bs b r
    rw [Read.bind_run]
    constructor
    · intro hrun
      cases hm : m ⟨bs, ()⟩ with
      | error e s =>
          rw [hm] at hrun
          cases hrun
      | ok a s =>
          rw [hm] at hrun
          obtain ⟨u, hu, rfl⟩ := h.accepts.mp hm
          obtain ⟨v, hv, hs⟩ := (k a).accepts.mp hrun
          refine ⟨u ++ v, ⟨a, u, v, hu, hv, rfl⟩, ?_⟩
          rw [hs, List.append_assoc]
    · rintro ⟨w, ⟨a, u, v, hu, hv, rfl⟩, rfl⟩
      rw [List.append_assoc, h.ok hu]
      exact (k a).accepts.mpr ⟨v, hv, rfl⟩
  aborts := by
    intro bs
    constructor
    · rintro ⟨r, hrun⟩
      rw [Read.bind_run] at hrun
      cases hm : m ⟨bs, ()⟩ with
      | error e s =>
          rw [hm] at hrun
          cases hrun
          obtain ⟨w, rest, hw, rfl⟩ := h.aborts.mp ⟨_, hm⟩
          exact ⟨w, rest, .inl hw, rfl⟩
      | ok a s =>
          rw [hm] at hrun
          obtain ⟨u, hu, rfl⟩ := h.accepts.mp hm
          obtain ⟨v, rest, hv, hs⟩ := (k a).aborts.mp ⟨_, hrun⟩
          refine ⟨u ++ v, rest, .inr ⟨a, u, v, hu, hv, rfl⟩, ?_⟩
          rw [hs, List.append_assoc]
    · rintro ⟨w, rest, hw | ⟨a, u, v, hu, hv, rfl⟩, rfl⟩
      · obtain ⟨r, hr⟩ := h.aborts.mpr ⟨w, rest, hw, rfl⟩
        refine ⟨r, ?_⟩
        rw [Read.bind_run, hr]
      · obtain ⟨r, hr⟩ := (k a).aborts.mpr ⟨v, rest, hv, rfl⟩
        refine ⟨r, ?_⟩
        rw [Read.bind_run, List.append_assoc, h.ok hu]
        exact hr

/-- A step behind which the value is computed. -/
theorem map {f : α → β} (h : Forms m F A) : Forms (do return f (← m)) (fun b w => ∃ a, F a w ∧ b = f a) A := by
  refine (h.bind fun a => pure (f a)).congr (fun b w => ?_) fun w => ?_
  · constructor
    · rintro ⟨a, u, v, hu, ⟨rfl, rfl⟩, rfl⟩
      refine ⟨a, ?_, rfl⟩
      rwa [List.append_nil]
    · rintro ⟨a, ha, rfl⟩
      exact ⟨a, w, [], ha, ⟨rfl, rfl⟩, (List.append_nil w).symm⟩
  · simp

/-- A check between two steps. -/
theorem guard {p : Prop} [Decidable p] (h : Forms m F A) :
    Forms (if p then Read.fail .thrown else m) (fun a w => ¬ p ∧ F a w) fun w => ¬ p ∧ A w := by
  by_cases hp : p
  · rw [if_pos hp]
    exact thrown.congr (fun _ _ => by simp [hp]) fun _ => by simp [hp]
  · rw [if_neg hp]
    exact h.congr (fun _ _ => by simp [hp]) fun _ => by simp [hp]

theorem nat (w : Nat) : Forms (Read.nat w) (fun n bs => n < 256 ^ w ∧ bs = leBytes w n) fun _ => False := by
  refine (bytes w).map.congr (fun n bs => ?_) fun _ => Iff.rfl
  constructor
  · rintro ⟨a, ⟨rfl, rfl⟩, rfl⟩
    exact ⟨ofLe_lt _, (leBytes_ofLe _).symm⟩
  · rintro ⟨hn, rfl⟩
    exact ⟨leBytes w n, ⟨rfl, length_leBytes w n⟩, (ofLe_leBytes hn).symm⟩

theorem int (w : Nat) : Forms (Read.int w) (fun i bs => FitsInt w i ∧ bs = intBytes w i) fun _ => False := by
  refine (bytes w).map.congr (fun i bs => ?_) fun _ => Iff.rfl
  constructor
  · rintro ⟨a, ⟨rfl, hlen⟩, rfl⟩
    exact ⟨fitsInt_ofIntBytes hlen, (intBytes_ofIntBytes hlen).symm⟩
  · rintro ⟨hi, rfl⟩
    exact ⟨intBytes w i, ⟨rfl, length_intBytes w i⟩, (ofIntBytes_intBytes hi).symm⟩

end Forms

end S2Moe.Lib
