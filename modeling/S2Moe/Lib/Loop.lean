import Mathlib.Logic.Function.Basic
import Mathlib.Tactic

/-!
# Loops over an array

* `sweep f n cells acc` : the loop `for (i = 0; i < n; ++i)` whose body rewrites entry `i` and an accumulator, looking
only at that entry;
* `sweep_fst_of_lt`, `sweep_snd` : both results in terms of the entries before the loop;
* `foldl_range_rule` : a loop whose body may look at the whole state; `foldlM_range_rule`, `foldlM_range_some` : a loop
that may fail;
* `mapM_forall₂`, `forall₂_of_mapM` : a pass for each entry, which may fail;
* `seek p size k start` : the search from `start` onwards, wrapping around, for an entry with `p`, in `k` steps;
* `seek_eq` : it stops at the first one;
* `ahead size start i` : how many steps lie between `start` and `i`;
* `collect p size tests head need` : the search for several entries with `p`; `seekRun` : for neighbours.
-/

namespace S2Moe.Lib

section Sweep
variable {α β : Type*}

def sweep (f : Nat → α → β → α × β) : Nat → (Nat → α) → β → (Nat → α) × β
  | 0, cells, acc => (cells, acc)
  | n + 1, cells, acc =>
    let st := sweep f n cells acc
    let r := f n (st.1 n) st.2
    (Function.update st.1 n r.1, r.2)

variable {f : Nat → α → β → α × β}

theorem sweep_fst_of_le : ∀ (n : Nat) (cells : Nat → α) (acc : β) {j : Nat}, n ≤ j →
    (sweep f n cells acc).1 j = cells j
  | 0, _, _, _, _ => rfl
  | n + 1, cells, acc, j, h => by
    rw [sweep]
    dsimp only
    rw [Function.update_of_ne (by omega), sweep_fst_of_le n cells acc (by omega)]

/-- A body that rewrites entry `i` to `g i`, whatever the accumulator, rewrites all of them. -/
theorem sweep_fst_of_lt {g : Nat → α → α} (hg : ∀ i a b, (f i a b).1 = g i a) :
    ∀ (n : Nat) (cells : Nat → α) (acc : β) {j : Nat}, j < n → (sweep f n cells acc).1 j = g j (cells j)
  | n + 1, cells, acc, j, h => by
    rw [sweep]
    dsimp only
    rcases Nat.lt_or_ge j n with hlt | hge
    · rw [Function.update_of_ne (by omega), sweep_fst_of_lt hg n cells acc hlt]
    · obtain rfl : j = n := by omega
      rw [Function.update_self, hg, sweep_fst_of_le j cells acc le_rfl]

/-- The accumulator sees the entries as they were before the loop. -/
theorem sweep_snd : ∀ (n : Nat) (cells : Nat → α) (acc : β),
    (sweep f n cells acc).2 = (List.range n).foldl (fun b i => (f i (cells i) b).2) acc
  | 0, _, _ => rfl
  | n + 1, cells, acc => by
    rw [sweep, List.range_succ, List.foldl_append]
    dsimp only
    rw [sweep_fst_of_le n cells acc le_rfl, sweep_snd n cells acc]
    rfl

/-- A body that changes nothing. -/
theorem sweep_id : ∀ (n : Nat) (cells : Nat → α) (acc : β), (∀ i < n, ∀ b, f i (cells i) b = (cells i, b)) →
    sweep f n cells acc = (cells, acc)
  | 0, _, _, _ => rfl
  | n + 1, cells, acc, h => by
    rw [sweep, sweep_id n cells acc (fun i hi => h i (by omega))]
    dsimp only
    rw [h n (Nat.lt_succ_self n), Function.update_eq_self]

/-- A body that changes one entry. -/
theorem sweep_single {t : Nat} : ∀ (n : Nat) (cells : Nat → α) (acc : β), t < n →
    (∀ i < n, i ≠ t → ∀ b, f i (cells i) b = (cells i, b)) →
    sweep f n cells acc = (Function.update cells t (f t (cells t) acc).1, (f t (cells t) acc).2)
  | n + 1, cells, acc, ht, h => by
    rw [sweep]
    rcases Nat.lt_or_ge t n with hlt | hge
    · rw [sweep_single n cells acc hlt (fun i hi => h i (by omega))]
      dsimp only
      have hne : n ≠ t := by omega
      rw [Function.update_of_ne hne, h n (Nat.lt_succ_self n) hne]
      refine Prod.ext ?_ rfl
      funext j
      dsimp only
      by_cases hj : j = n
      · rw [hj, Function.update_self, Function.update_of_ne hne]
      · rw [Function.update_of_ne hj]
    · obtain rfl : t = n := by omega
      rw [sweep_id t cells acc (fun i hi => h i (by omega) (by omega))]

end Sweep

/-- The invariant rule for `for (i = 0; i < n; ++i)`. -/
theorem foldl_range_rule {S : Type*} {f : S → Nat → S} {P : Nat → S → Prop} {s : S} (h0 : P 0 s) :
    ∀ (n : Nat), (∀ i < n, ∀ t, P i t → P (i + 1) (f t i)) → P n ((List.range n).foldl f s)
  | 0, _ => h0
  | n + 1, hstep => by
    rw [List.range_succ, List.foldl_append, List.foldl_cons, List.foldl_nil]
    exact hstep n (Nat.lt_succ_self n) _ (foldl_range_rule h0 n fun i hi => hstep i (by omega))

/-- A loop that does not fail, because no pass does. -/
theorem foldlM_range_rule {S : Type*} {f : S → Nat → Option S} {P : Nat → S → Prop} {s : S} (h0 : P 0 s) :
    ∀ (n : Nat), (∀ i < n, ∀ t, P i t → ∃ u, f t i = some u ∧ P (i + 1) u) → ∃ r, (List.range n).foldlM f s = some r ∧ P n r
  | 0, _ => ⟨s, rfl, h0⟩
  | n + 1, hstep => by
    obtain ⟨t, ht, hP⟩ := foldlM_range_rule h0 n fun i hi => hstep i (by omega)
    obtain ⟨u, hu, hP'⟩ := hstep n (Nat.lt_succ_self n) t hP
    refine ⟨u, ?_, hP'⟩
    rw [List.range_succ, List.foldlM_append, ht]
    simp [hu]

/-- A loop that did not fail: neither did a pass. -/
theorem foldlM_range_some {S : Type*} {f : S → Nat → Option S} {P : Nat → S → Prop} {s : S} (h0 : P 0 s) :
    ∀ (n : Nat) {r : S}, (∀ i < n, ∀ t u, P i t → f t i = some u → P (i + 1) u) → (List.range n).foldlM f s = some r → P n r
  | 0, _, _, h => by
    cases h
    exact h0
  | n + 1, r, hstep, h => by
    rw [List.range_succ, List.foldlM_append] at h
    obtain ⟨t, ht, h⟩ := Option.bind_eq_some_iff.mp h
    have hP := foldlM_range_some h0 n (fun i hi => hstep i (by omega)) ht
    exact hstep n (Nat.lt_succ_self n) t r hP (by simpa using h)

theorem mapM_eq_map {α β : Type*} {f : α → Option β} {g : α → β} : ∀ {xs : List α}, (∀ x ∈ xs, f x = some (g x)) →
    xs.mapM f = some (xs.map g)
  | [], _ => rfl
  | x :: xs, h => by
    rw [List.mapM_cons, h x List.mem_cons_self, mapM_eq_map fun y hy => h y (List.mem_cons_of_mem _ hy)]
    rfl

/-- A pass for each entry, where none fails. -/
theorem mapM_forall₂ {α β γ : Type*} {f : β → Option γ} {P : α → β → Prop} {Q : α → γ → Prop} {xs : List α} {ys : List β}
    (h : List.Forall₂ P xs ys) (hstep : ∀ x ∈ xs, ∀ y, P x y → ∃ z, f y = some z ∧ Q x z) :
    ∃ zs, ys.mapM f = some zs ∧ List.Forall₂ Q xs zs := by
  induction h with
  | nil => exact ⟨[], rfl, .nil⟩
  | @cons x y xs ys hP _ ih =>
    obtain ⟨z, hz, hQ⟩ := hstep x List.mem_cons_self y hP
    obtain ⟨zs, hzs, hrest⟩ := ih fun x hx => hstep x (List.mem_cons_of_mem _ hx)
    refine ⟨z :: zs, ?_, .cons hQ hrest⟩
    rw [List.mapM_cons, hz, hzs]
    rfl

/-- A pass for each entry, where none failed. -/
theorem forall₂_of_mapM {α β γ : Type*} {f : β → Option γ} {P : α → β → Prop} {Q : α → γ → Prop} {xs : List α} {ys : List β}
    (h : List.Forall₂ P xs ys) (hstep : ∀ x ∈ xs, ∀ y z, P x y → f y = some z → Q x z) {zs : List γ}
    (hzs : ys.mapM f = some zs) :
    List.Forall₂ Q xs zs := by
  induction h generalizing zs with
  | nil =>
    obtain rfl := Option.some.inj hzs
    exact .nil
  | @cons x y xs ys hP _ ih =>
    rw [List.mapM_cons] at hzs
    obtain ⟨z, hz, hzs⟩ := Option.bind_eq_some_iff.mp hzs
    obtain ⟨rest, hrest, hzs⟩ := Option.bind_eq_some_iff.mp hzs
    obtain rfl := Option.some.inj hzs
    exact .cons (hstep x List.mem_cons_self y z hP hz) (ih (fun x hx => hstep x (List.mem_cons_of_mem _ hx)) hrest)

/-! ## Searching around -/

/-- At most `k` entries are looked at; an index past the end wraps around first. -/
def seek (p : Nat → Bool) (size : Nat) : Nat → Nat → Nat
  | 0, next => next
  | k + 1, next =>
    let next := if size ≤ next then next - size else next
    if p next then next else seek p size k (next + 1)

theorem wrap_eq_mod {size next : Nat} (h : next < 2 * size) :
    (if size ≤ next then next - size else next) = next % size := by
  split
  · rw [Nat.mod_eq_sub_mod ‹_›, Nat.mod_eq_of_lt (by omega)]
  · rw [Nat.mod_eq_of_lt (by omega)]

/-- The search ends at the first entry with `p`. -/
theorem seek_eq {p : Nat → Bool} {size : Nat} :
    ∀ (k next d : Nat), next < 2 * size → d < k → p ((next + d) % size) = true →
      (∀ j < d, p ((next + j) % size) = false) → seek p size k next = (next + d) % size
  | 0, _, d, _, hd, _, _ => by omega
  | k + 1, next, 0, hn, _, hp, _ => by
    change seek p size (k + 1) next = next % size
    rw [Nat.add_zero] at hp
    rw [seek, wrap_eq_mod hn, if_pos hp]
  | k + 1, next, d + 1, hn, hd, hp, hj => by
    have hsize : 0 < size := by omega
    have h0 := hj 0 (Nat.succ_pos d)
    rw [Nat.add_zero] at h0
    have hshift : ∀ j, (next % size + 1 + j) % size = (next + (j + 1)) % size := by
      intro j
      rw [Nat.add_assoc, Nat.mod_add_mod]
      congr 1
      omega
    rw [seek, wrap_eq_mod hn, h0, if_neg Bool.false_ne_true,
      seek_eq k (next % size + 1) d (by have := Nat.mod_lt next hsize; omega) (by omega) (by rw [hshift]; exact hp)
        (fun j hlt => by rw [hshift]; exact hj (j + 1) (by omega)), hshift]

/-- Steps from `start` to `i`. -/
def ahead (size start i : Nat) : Nat := (i + size - start % size) % size

theorem ahead_lt {size : Nat} (hs : 0 < size) (start i : Nat) : ahead size start i < size := Nat.mod_lt _ hs

theorem add_ahead {size : Nat} (start : Nat) {i : Nat} (hi : i < size) : (start + ahead size start i) % size = i := by
  have hlt : start % size < size := Nat.mod_lt _ (by omega)
  unfold ahead
  rw [Nat.add_mod_mod, ← Nat.mod_add_mod, show start % size + (i + size - start % size) = i + size by omega,
    Nat.add_mod_right, Nat.mod_eq_of_lt hi]

theorem ahead_add {size : Nat} (start : Nat) {j : Nat} (hj : j < size) : ahead size start ((start + j) % size) = j := by
  have hlt : start % size < size := Nat.mod_lt _ (by omega)
  have hmod : (start + j) % size = if size ≤ start % size + j then start % size + j - size else start % size + j := by
    rw [wrap_eq_mod (by omega), Nat.mod_add_mod]
  unfold ahead
  rw [hmod]
  split
  · rw [show start % size + j - size + size - start % size = j by omega, Nat.mod_eq_of_lt hj]
  · rw [show start % size + j + size - start % size = j + size by omega, Nat.add_mod_right, Nat.mod_eq_of_lt hj]

theorem ahead_inj {size start i j : Nat} (hi : i < size) (hj : j < size) (h : ahead size start i = ahead size start j) :
    i = j := by
  rw [← add_ahead start hi, h, add_ahead start hj]

/-- Steps from behind `next`, in terms of the steps from `start`. -/
theorem ahead_succ {size next i : Nat} (start : Nat) (hn : next < size) (hi : i < size) :
    ahead size (next + 1) i =
      if ahead size start next < ahead size start i then ahead size start i - ahead size start next - 1
      else size + ahead size start i - ahead size start next - 1 := by
  have hs : 0 < size := by omega
  have hlti := ahead_lt hs start i
  have hltn := ahead_lt hs start next
  have hstep : ∀ j, (next + 1 + j) % size = (start + (ahead size start next + 1 + j)) % size := by
    intro j
    rw [Nat.add_assoc, ← Nat.mod_add_mod, ← add_ahead start hn, ahead_add start hltn, Nat.mod_mod, Nat.mod_add_mod]
    congr 1
    omega
  split
  · rename_i hlt
    have hj : (next + 1 + (ahead size start i - ahead size start next - 1)) % size = i := by
      rw [hstep, show ahead size start next + 1 + (ahead size start i - ahead size start next - 1) =
        ahead size start i by omega, add_ahead start hi]
    rw [← hj, ahead_add (next + 1) (by omega), hj]
  · rename_i hge
    have hj : (next + 1 + (size + ahead size start i - ahead size start next - 1)) % size = i := by
      rw [hstep, show start + (ahead size start next + 1 + (size + ahead size start i - ahead size start next - 1)) =
        start + ahead size start i + size by omega, Nat.add_mod_right, add_ahead start hi]
    rw [← hj, ahead_add (next + 1) (by omega), hj]

/-- Among the entries with `p`, the search finds the one with the fewest steps. -/
theorem seek_eq_of_ahead {p : Nat → Bool} {size start e : Nat} (hstart : start < 2 * size) (he : e < size)
    (hp : p e = true) (hmin : ∀ i < size, p i = true → ahead size start e ≤ ahead size start i) :
    seek p size size start = e := by
  have hs : 0 < size := by omega
  rw [seek_eq size start (ahead size start e) hstart (ahead_lt hs start e) (by rw [add_ahead start he]; exact hp)
    (fun j hj => ?_), add_ahead start he]
  -- an entry with `p` met earlier would be fewer steps away
  cases hpj : p ((start + j) % size) with
  | false => rfl
  | true =>
      have hle := hmin _ (Nat.mod_lt _ hs) hpj
      have hlt := ahead_lt hs start e
      rw [ahead_add start (by omega)] at hle
      omega

/-- The same search when the index moves on before each look. -/
def seekAfter (p : Nat → Bool) (size : Nat) : Nat → Nat → Nat
  | 0, next => next
  | k + 1, next =>
    let next := if size ≤ next + 1 then next + 1 - size else next + 1
    if p next then next else seekAfter p size k next

/-- Among the entries with `p`, it finds the one with the fewest steps behind `next`. -/
theorem seekAfter_eq_of_ahead {p : Nat → Bool} {size next e : Nat} (hnext : next < size) (he : e < size)
    (hp : p e = true) (hmin : ∀ i < size, p i = true → ahead size (next + 1) e ≤ ahead size (next + 1) i) :
    seekAfter p size size next = e := by
  have hs : 0 < size := by omega
  have hfound : ∀ k n, n < size → (∃ d < k, p ((n + 1 + d) % size) = true) →
      seekAfter p size k n = seek p size k (n + 1) := by
    intro k
    induction k with
    | zero =>
        rintro n _ ⟨d, hd, _⟩
        omega
    | succ k ih =>
        rintro n hn ⟨d, hd, hpd⟩
        rw [seekAfter, seek, wrap_eq_mod (by omega)]
        split
        · rfl
        · rename_i hnot
          refine ih _ (Nat.mod_lt _ hs) ?_
          cases d with
          | zero => exact absurd hpd hnot
          | succ d =>
              refine ⟨d, by omega, ?_⟩
              rwa [Nat.add_assoc, Nat.mod_add_mod, show n + 1 + (1 + d) = n + 1 + (d + 1) by omega]
  rw [hfound size next hnext ⟨ahead size (next + 1) e, ahead_lt hs _ e, by rw [add_ahead _ he]; exact hp⟩]
  exact seek_eq_of_ahead (by omega) he hp hmin

/-! ## Collecting around -/

/-- At most `tests` entries are looked at, until `need` entries with `p` are found. -/
def collect (p : Nat → Bool) (size : Nat) : Nat → Nat → Nat → Option (List Nat)
  | 0, _, _ => none
  | tests + 1, head, need =>
    let idx := if size < head + 1 then 0 else head
    if p idx then
      if need ≤ 1 then some [idx] else (collect p size tests (idx + 1) (need - 1)).map (idx :: ·)
    else collect p size tests (idx + 1) need

/-- What is found are entries with `p`, in the order of the search. -/
theorem collect_spec {p : Nat → Bool} {size : Nat} (hsize : 0 < size) : ∀ (tests head need : Nat) {idxs : List Nat},
    0 < need → head ≤ size → tests ≤ size → collect p size tests head need = some idxs →
    idxs.length = need ∧ (∀ i ∈ idxs, i < size ∧ p i = true ∧ ahead size head i < tests) ∧
      idxs.Pairwise (fun i j => ahead size head i < ahead size head j)
  | 0, _, _, _, _, _, _, hfind => by cases hfind
  | tests + 1, head, need, idxs, hneed, hhead, htests, hfind => by
    rw [collect] at hfind
    have hidx : (if size < head + 1 then 0 else head) = head % size := by
      split
      · obtain rfl : head = size := by omega
        rw [Nat.mod_self]
      · rw [Nat.mod_eq_of_lt (by omega)]
    rw [hidx] at hfind
    have hlt : head % size < size := Nat.mod_lt _ hsize
    have hzero : ahead size head (head % size) = 0 := by
      have hstart : ahead size head ((head + 0) % size) = 0 := ahead_add head hsize
      rwa [Nat.add_zero] at hstart
    -- steps from behind the first cell are one fewer
    have hshift : ∀ i < size, ahead size (head % size + 1) i < tests →
        ahead size head i = ahead size (head % size + 1) i + 1 := by
      intro i hi hless
      rw [ahead_succ head hlt hi, hzero] at hless ⊢
      split at hless
      · rename_i hpos
        rw [if_pos hpos]
        omega
      · omega
    split at hfind
    · rename_i hempty
      split at hfind
      · cases hfind
        refine ⟨by rw [List.length_singleton]; omega, fun i hi => ?_, List.pairwise_singleton _ _⟩
        rw [List.mem_singleton.mp hi]
        exact ⟨hlt, hempty, by omega⟩
      · obtain ⟨rest, hrest, rfl⟩ := Option.map_eq_some_iff.mp hfind
        obtain ⟨hlen, hall, hpair⟩ := collect_spec hsize tests (head % size + 1) (need - 1) (by omega) (by omega)
          (by omega) hrest
        refine ⟨by rw [List.length_cons]; omega, fun i hi => ?_, ?_⟩
        · rcases List.mem_cons.mp hi with rfl | hi
          · exact ⟨hlt, hempty, by omega⟩
          · obtain ⟨h1, h2, h3⟩ := hall i hi
            exact ⟨h1, h2, by rw [hshift i h1 h3]; omega⟩
        · rw [List.pairwise_cons]
          constructor
          · intro i hi
            obtain ⟨h1, -, h3⟩ := hall i hi
            rw [hzero, hshift i h1 h3]
            omega
          · refine hpair.imp_of_mem fun {i j} hi hj hij => ?_
            obtain ⟨h1, -, h3⟩ := hall i hi
            obtain ⟨h4, -, h6⟩ := hall j hj
            rw [hshift i h1 h3, hshift j h4 h6]
            omega
    · obtain ⟨hlen, hall, hpair⟩ := collect_spec hsize tests (head % size + 1) need hneed (by omega) (by omega) hfind
      refine ⟨hlen, fun i hi => ?_, ?_⟩
      · obtain ⟨h1, h2, h3⟩ := hall i hi
        exact ⟨h1, h2, by rw [hshift i h1 h3]; omega⟩
      · refine hpair.imp_of_mem fun {i j} hi hj hij => ?_
        obtain ⟨h1, -, h3⟩ := hall i hi
        obtain ⟨h4, -, h6⟩ := hall j hj
        rw [hshift i h1 h3, hshift j h4 h6]
        omega

/-- **The search finds `need` entries if there are as many among those it looks at.** -/
theorem collect_isSome {p : Nat → Bool} {size : Nat} (hsize : 0 < size) : ∀ (tests head need : Nat), 0 < need → head ≤ size →
    tests ≤ size → need ≤ ((Finset.range size).filter fun i => p i = true ∧ ahead size head i < tests).card →
    (collect p size tests head need).isSome
  | 0, head, need, hneed, _, _, hcard => by
    rw [Finset.filter_false_of_mem fun i _ hc => Nat.not_lt_zero _ hc.2, Finset.card_empty] at hcard
    omega
  | tests + 1, head, need, hneed, hhead, htests, hcard => by
    rw [collect]
    have hidx : (if size < head + 1 then 0 else head) = head % size := by
      split
      · obtain rfl : head = size := by omega
        rw [Nat.mod_self]
      · rw [Nat.mod_eq_of_lt (by omega)]
    rw [hidx]
    have hlt : head % size < size := Nat.mod_lt _ hsize
    have hzero : ahead size head (head % size) = 0 := by
      have hstart : ahead size head ((head + 0) % size) = 0 := ahead_add head hsize
      rwa [Nat.add_zero] at hstart
    -- the entries ahead, without the first, are ahead of the next step
    have hsub : (Finset.range size).filter (fun i => p i = true ∧ ahead size head i < tests + 1) ⊆
        insert (head % size) ((Finset.range size).filter fun i => p i = true ∧ ahead size (head % size + 1) i < tests) := by
      intro i hi
      rw [Finset.mem_filter, Finset.mem_range] at hi
      rw [Finset.mem_insert, Finset.mem_filter, Finset.mem_range]
      by_cases hfirst : i = head % size
      · exact .inl hfirst
      · have hne : ahead size head i ≠ 0 := fun hc => hfirst (ahead_inj hi.1 hlt (hc.trans hzero.symm))
        refine .inr ⟨hi.1, hi.2.1, ?_⟩
        rw [ahead_succ head hlt hi.1, hzero, if_pos (Nat.pos_of_ne_zero hne)]
        omega
    have hle := Finset.card_le_card hsub
    split
    · split
      · rfl
      · rw [Option.isSome_map]
        have hins := Finset.card_insert_le (head % size)
          ((Finset.range size).filter fun i => p i = true ∧ ahead size (head % size + 1) i < tests)
        exact collect_isSome hsize tests _ _ (by omega) (by omega) (by omega) (by omega)
    · rename_i hnot
      refine collect_isSome hsize tests _ _ hneed (by omega) (by omega) (hcard.trans (Finset.card_le_card fun i hi => ?_))
      rcases Finset.mem_insert.mp (hsub hi) with rfl | hi'
      · exact absurd (Finset.mem_filter.mp hi).2.1 hnot
      · exact hi'

/-! ## Runs of entries -/

/-- How many of the `n` entries from `head` on have `p`, up to the first that has not. -/
def runLength (p : Nat → Bool) : Nat → Nat → Nat
  | _, 0 => 0
  | head, n + 1 => if p head then runLength p (head + 1) n + 1 else 0

/-- The search for `n` neighbours with `p`: behind an entry without `p` it goes on, from the start again where they would not
fit, until `size` entries were looked at or left out. -/
def seekRun (p : Nat → Bool) (size n : Nat) : Nat → Nat → Nat → Option Nat
  | 0, _, _ => none
  | fuel + 1, head, tested =>
    if size < head + n then seekRun p size n fuel 0 (tested + (size - head))
    else
      let m := runLength p head n
      if m = n then some head
      else if size ≤ tested + (m + 1) then none
      else seekRun p size n fuel (head + (m + 1)) (tested + (m + 1))

theorem runLength_le (p : Nat → Bool) : ∀ head n, runLength p head n ≤ n
  | _, 0 => le_rfl
  | head, n + 1 => by
    rw [runLength]
    split
    · exact Nat.succ_le_succ (runLength_le p (head + 1) n)
    · exact Nat.zero_le _

theorem of_lt_runLength {p : Nat → Bool} : ∀ {head n i : Nat}, i < runLength p head n → p (head + i) = true
  | _, 0, _, h => absurd h (Nat.not_lt_zero _)
  | head, n + 1, i, h => by
    rw [runLength] at h
    split at h
    · rename_i hp
      cases i with
      | zero => exact hp
      | succ i =>
          have := of_lt_runLength (show i < runLength p (head + 1) n by omega)
          rwa [show head + (i + 1) = head + 1 + i by omega]
    · exact absurd h (Nat.not_lt_zero _)

theorem not_of_runLength {p : Nat → Bool} : ∀ {head n : Nat}, runLength p head n < n → ¬ p (head + runLength p head n) = true
  | _, 0, h => absurd h (Nat.not_lt_zero _)
  | head, n + 1, h => by
    rw [runLength] at h ⊢
    split
    · rename_i hp
      rw [if_pos hp] at h
      rw [show head + (runLength p (head + 1) n + 1) = head + 1 + runLength p (head + 1) n by omega]
      exact not_of_runLength (by omega)
    · assumption

/-- What is found are `n` neighbours with `p`. -/
theorem seekRun_spec {p : Nat → Bool} {size n : Nat} : ∀ {fuel head tested start : Nat},
    seekRun p size n fuel head tested = some start → start + n ≤ size ∧ ∀ i < n, p (start + i) = true
  | 0, _, _, _, h => by cases h
  | fuel + 1, head, tested, start, h => by
    rw [seekRun] at h
    split at h
    · exact seekRun_spec h
    · dsimp only at h
      split at h
      · rename_i hrun
        cases h
        exact ⟨by omega, fun i hi => of_lt_runLength (n := n) (by omega)⟩
      · split at h
        · cases h
        · exact seekRun_spec h

section SeekRun
variable {p : Nat → Bool} {size n q : Nat}

/-- The entry that ended a run is in no run that begins behind the first entry looked at. -/
theorem lt_of_runLength (hrun : ∀ i < n, p (q + i) = true) {head : Nat} (hle : head ≤ q) (hm : runLength p head n ≠ n) :
    head + runLength p head n < q := by
  have hlen := runLength_le p head n
  by_contra hge
  have hstop := hrun (head + runLength p head n - q) (by omega)
  rw [show q + (head + runLength p head n - q) = head + runLength p head n by omega] at hstop
  exact not_of_runLength (lt_of_le_of_ne hlen hm) hstop

/-- A run ahead is found if the search gets there. -/
theorem seekRun_isSome_of_le (hq : q + n ≤ size) (hrun : ∀ i < n, p (q + i) = true) : ∀ {fuel head tested : Nat},
    head ≤ q → tested + (q - head) < size → q - head < fuel → (seekRun p size n fuel head tested).isSome
  | 0, _, _, _, _, hfuel => by omega
  | fuel + 1, head, tested, hle, htested, hfuel => by
    rw [seekRun, if_neg (by omega)]
    dsimp only
    split
    · rfl
    · rename_i hm
      have hlt := lt_of_runLength hrun hle hm
      rw [if_neg (by omega)]
      exact seekRun_isSome_of_le hq hrun (by omega) (by omega) (by omega)

/-- A run behind the head is found once the search has begun again at the start. -/
theorem seekRun_isSome_of_lt (hq : q + n ≤ size) (hrun : ∀ i < n, p (q + i) = true) {first : Nat} (hlt : q < first) :
    ∀ {fuel head tested : Nat}, head ≤ size → first ≤ head → tested = head - first → size - head + q + 1 < fuel →
      (seekRun p size n fuel head tested).isSome
  | 0, _, _, _, _, _, hfuel => by omega
  | fuel + 1, head, tested, hsize, hfirst, htested, hfuel => by
    rw [seekRun]
    split
    · exact seekRun_isSome_of_le hq hrun (Nat.zero_le _) (by omega) (by omega)
    · dsimp only
      split
      · rfl
      · rename_i hm
        have hlen := lt_of_le_of_ne (runLength_le p head n) hm
        rw [if_neg (by omega)]
        exact seekRun_isSome_of_lt hq hrun hlt (by omega) (by omega) (by omega) (by omega)

/-- **The search finds a run if there is one.** -/
theorem seekRun_isSome (hn : 0 < n) (hq : q + n ≤ size) (hrun : ∀ i < n, p (q + i) = true) {head : Nat}
    (hsize : head ≤ size) : (seekRun p size n (2 * size + 2) head 0).isSome := by
  rcases Nat.lt_or_ge q head with hlt | hge
  · exact seekRun_isSome_of_lt hq hrun hlt hsize le_rfl (Nat.sub_self head).symm (by omega)
  · exact seekRun_isSome_of_le hq hrun hge (by omega) (by omega)

end SeekRun

end S2Moe.Lib
