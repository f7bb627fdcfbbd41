import S2Moe.Recurrent.Staging
import S2Moe.Recurrent.Reachable

/-!
# Sources in a run, and slots for one token

* `OwnSources.step` : every step leaves the source of a cell at the cell, or none;
* `reachable_sound` : tails, cells and sources agree in every run of safe steps;
* `Sound.findSlot_single` : one token of one sequence moves no other sequence;
* `Sound.readSequence_seated` : a saved cell is read into a sequence, and no other sequence is moved.
-/

namespace S2Moe.Recurrent
open S2Moe.Lib

/-! ## Sources -/

section Sources
variable {m m' : Memory}

/-- Sources are kept or lost. -/
theorem OwnSources.of_src (h : OwnSources m) (hsize : m'.size = m.size)
    (hsrc : ∀ i < m.size, (m'.cells i).src = none ∨ (m'.cells i).src = some i ∨ (m'.cells i).src = (m.cells i).src) :
    OwnSources m' := by
  intro i hi
  rw [hsize] at hi
  rcases hsrc i hi with hnone | hself | hsame
  · exact .inl hnone
  · exact .inr hself
  · rw [hsame]
    exact h i hi

theorem OwnSources.detach (h : OwnSources m) (x : Nat) : OwnSources (m.detach x) := by
  refine h.of_src (Memory.size_detach m x) fun i _ => ?_
  rw [(Memory.cells_detach m x i).2]
  split
  · exact .inl rfl
  · exact .inr (.inr rfl)

theorem Memory.src_modify (m : Memory) (i : Nat) {f : MemCell → MemCell} (hf : ∀ c, (f c).src = c.src) (j : Nat) :
    ((m.modify i f).cells j).src = (m.cells j).src := by
  unfold Memory.modify
  dsimp only
  by_cases hj : j = i
  · rw [hj, Function.update_self, hf]
  · rw [Function.update_of_ne hj]

theorem OwnSources.modify (h : OwnSources m) (i : Nat) {f : MemCell → MemCell} (hf : ∀ c, (f c).src = c.src) :
    OwnSources (m.modify i f) := h.of_src rfl fun j _ => .inr (.inr (m.src_modify i hf j))

theorem OwnSources.attach (h : OwnSources m) (x t : Nat) : OwnSources (m.attach x t) :=
  (h.modify t (f := fun c => { c with seqId := insert x c.seqId }) fun _ => rfl).modify x fun _ => rfl

theorem OwnSources.seqRm (h : OwnSources m) (hc : Consistent m) {seq p0 p1 : Int}
    (hnone : seq < 0 → lower p0 = 0 → upper p1 = posMax → m.noneToRemove) : OwnSources (m.seqRm seq p0 p1).2 := by
  by_cases hneg : seq < 0
  · rw [hc.seqRm_all hneg (hnone hneg)]
    exact h
  · by_cases hin : (m.size : Int) ≤ seq
    · unfold Memory.seqRm
      dsimp only
      rw [if_pos hin]
      exact h
    · obtain ⟨x, rfl⟩ : ∃ x : Nat, seq = x := ⟨seq.toNat, by omega⟩
      obtain heq | ⟨_, k, -, heq⟩ := hc.seqRm_one (show x < m.size by omega) p0 p1
      · rw [heq]
        exact h
      · rw [heq]
        exact h.detach x

theorem OwnSources.seqCp (h : OwnSources m) (src dst p0 p1 : Int) : OwnSources (m.seqCp src dst p0 p1) := by
  unfold Memory.seqCp
  split
  · exact h
  · split
    · dsimp only
      cases (m.detach dst.toNat).tail src.toNat with
      | none => exact h.detach _
      | some t => exact (h.detach _).attach _ t
    · exact h

theorem OwnSources.seqKeep (h : OwnSources m) (seq : Int) : OwnSources (m.seqKeep seq) := by
  refine h.of_src rfl fun i hi => ?_
  rw [Memory.cells_seqKeep seq hi]
  unfold keepCell Memory.keepBody
  dsimp only
  split
  · exact .inl rfl
  · exact .inr (.inr rfl)

theorem OwnSources.moveTail (h : OwnSources m) (seq p0 p1 : Int) (f : Int → Int) : OwnSources (m.moveTail seq p0 p1 f) := by
  unfold Memory.moveTail
  dsimp only
  split
  · exact h
  · split
    · cases m.tail seq.toNat with
      | none => exact h
      | some t =>
          dsimp only
          split
          · exact h.modify t fun _ => rfl
          · exact h
    · exact h

theorem OwnSources.unshareIds : ∀ (ids : List Int) (m : Memory), OwnSources m → OwnSources (Memory.unshareIds ids m).2
  | [], _, h => h
  | x :: ids, m, h => by
    rw [Memory.unshareIds]
    split
    · exact OwnSources.unshareIds ids _ (h.detach _)
    · exact h

theorem OwnSources.unshare : ∀ (sets : List SeqSet) (m : Memory), OwnSources m → OwnSources (Memory.unshare sets m).2
  | [], _, h => h
  | s :: sets, m, h => by
    have hids := OwnSources.unshareIds s.secondary m h
    rw [Memory.unshare]
    split
    · cases hu : Memory.unshareIds s.secondary m with
      | mk b m1 =>
          rw [hu] at hids
          cases b with
          | false => exact hids
          | true => exact OwnSources.unshare sets m1 hids
    · exact h

theorem OwnSources.findSlot (h : OwnSources m) (hc : Consistent m) {ubatch : UBatch} (hdisj : ubatch.disjoint) {ok : Bool}
    (hfind : m.findSlot ubatch = some (ok, m')) : OwnSources m' := by
  obtain ⟨k, hk, hm0⟩ : ∃ k < m.size,
      (if m.used + 2 * ubatch.sets.length < m.head then { m with head := 0 } else m) = { m with head := k } := by
    split
    · exact ⟨0, m.size_pos, rfl⟩
    · exact ⟨m.head, hc.head_lt, rfl⟩
  have hshare : OwnSources (Memory.unshare ubatch.sets { m with head := k }).2 :=
    OwnSources.unshare ubatch.sets { m with head := k } h
  cases hu : Memory.unshare ubatch.sets { m with head := k } with
  | mk b m1 =>
      rw [hu] at hshare
      cases b with
      | false =>
          unfold Memory.findSlot at hfind
          rw [hm0] at hfind
          dsimp only at hfind
          rw [hu] at hfind
          cases hfind
          exact hshare
      | true =>
          obtain ⟨-, -, -, hall⟩ := Consistent.unshare ubatch.sets { m with head := k } (hc.withHead hk)
          rw [hu] at hall
          obtain ⟨m'', hfind', hplaced, -⟩ := hc.toLinked.findSlot_placed h
            (fun (s : SeqSet) (hs : s ∈ ubatch.sets) => ⟨(hall rfl s hs).1, fun x hx => ((hall rfl s hs).2 x hx).1⟩) hdisj
          rw [hfind] at hfind'
          cases hfind'
          exact hplaced.sources

theorem OwnSources.keepSources (h : OwnSources m) (count : Nat) : OwnSources (m.keepSources count) := by
  refine h.of_src rfl fun i _ => ?_
  unfold Memory.keepSources
  dsimp only
  split
  · exact .inr (.inl rfl)
  · exact .inr (.inr rfl)

theorem OwnSources.readIds {i : Nat} : ∀ (ids : List Int) (m : Memory), OwnSources m → Memory.readIds i ids m = some m' →
    OwnSources m'
  | [], m, h, hread => by
    cases hread
    exact h
  | x :: ids, m, h, hread => by
    rw [Memory.readIds] at hread
    split at hread
    · exact OwnSources.readIds ids _ (h.attach x.toNat i) hread
    · cases hread

theorem OwnSources.readCells : ∀ (saved : List SavedCell) (i : Nat) (m : Memory), OwnSources m →
    Memory.readCells i saved m = some m' → OwnSources m'
  | [], _, m, h, hread => by
    cases hread
    exact h
  | c :: saved, i, m, h, hread => by
    simp only [Memory.readCells, Option.bind_eq_bind, Option.bind_eq_some_iff] at hread
    obtain ⟨m1, hm1, hread⟩ := hread
    exact OwnSources.readCells saved (i + 1) m1 (OwnSources.readIds c.seqIds _
      (h.modify i (f := fun cell => { cell with pos := c.pos }) fun _ => rfl) hm1) hread

theorem OwnSources.clear (m : Memory) : OwnSources m.clear := by
  intro i hi
  have hi' : i < m.size := hi
  unfold Memory.clear
  dsimp only
  rw [if_pos hi']
  exact .inl rfl

/-- An id out of range gets no slot. -/
theorem Memory.findSlot_nonneg {dest p : Int} (hfind : m.findSlot ⟨[⟨dest, [], p⟩], List.cons_ne_nil _ _⟩ = some (true, m')) :
    0 ≤ dest := by
  by_contra hneg
  have hun : ∀ k : Memory, Memory.unshare [⟨dest, [], p⟩] k = (false, k) := by
    intro k
    rw [Memory.unshare, if_neg (fun hc => hneg hc.1)]
  unfold Memory.findSlot at hfind
  dsimp only at hfind
  rw [hun] at hfind
  cases hfind

theorem OwnSources.stateRead (h : OwnSources m) (hc : Consistent m) {dest : Int} {saved : List SavedCell}
    (hread : m.stateRead dest saved = some m') : OwnSources m' := by
  unfold Memory.stateRead at hread
  split at hread
  · unfold Memory.readSequence at hread
    dsimp only at hread
    split at hread
    · cases hread
    · cases saved with
      | nil => cases hread
      | cons c cs =>
          dsimp only at hread
          split at hread
          · rename_i m1 hfind
            have hdest : 0 ≤ dest := Memory.findSlot_nonneg hfind
            have hrm : Consistent (m.seqRm dest (-1) (-1)).2 := hc.seqRm fun hneg => by omega
            have hrm' : OwnSources (m.seqRm dest (-1) (-1)).2 := h.seqRm hc fun hneg => by omega
            have hdisj : UBatch.disjoint ⟨[⟨dest, [], ((c :: cs).getLast (List.cons_ne_nil c cs)).pos⟩],
              List.cons_ne_nil _ _⟩ := List.pairwise_singleton _ _
            split at hread
            · cases hread
              exact (hrm'.findSlot hrm hdisj hfind).keepSources _
            · cases hread
          · cases hread
  · unfold Memory.readWhole at hread
    split at hread
    · cases hread
    · simp only [Option.bind_eq_bind, Option.bind_eq_some_iff, Option.some.injEq] at hread
      obtain ⟨m1, hm1, rfl⟩ := hread
      have hm1' : OwnSources m1 := OwnSources.readCells saved 0 m.clear (OwnSources.clear m) hm1
      have hhead : OwnSources { m1 with head := 0, used := saved.length } := hm1'
      exact hhead.keepSources _

theorem OwnSources.step (h : OwnSources m) (hc : Consistent m) {op : Op} (hsafe : op.safe m) (hstep : step op m = some m') :
    OwnSources m' := by
  cases op with
  | clear =>
      cases hstep
      exact OwnSources.clear m
  | seqRm seq p0 p1 =>
      cases hstep
      exact h.seqRm hc hsafe.2
  | seqCp src dst p0 p1 =>
      cases hstep
      exact h.seqCp src dst p0 p1
  | seqKeep seq =>
      cases hstep
      exact h.seqKeep seq
  | seqAdd seq p0 p1 shift =>
      cases hstep
      unfold Memory.seqAdd
      split
      · exact h
      · exact h.moveTail seq p0 p1 _
  | seqDiv seq p0 p1 d =>
      cases hstep
      unfold Memory.seqDiv
      split
      · exact h
      · exact h.moveTail seq p0 p1 _
  | findSlot ubatch =>
      obtain ⟨⟨ok, m1⟩, hfind, rfl⟩ := Option.map_eq_some_iff.mp hstep
      exact h.findSlot hc hsafe.1 hfind
  | stateRead dest saved => exact h.stateRead hc hstep

end Sources

/-- The memory behind a run of safe steps. -/
structure Sound (m : Memory) : Prop extends Consistent m where
  sources : OwnSources m

/-- **Tails, cells and sources agree in every run of safe steps.** -/
theorem reachable_sound {size : Nat} {hpos : 0 < size} {hlt : size < 2 ^ 32} {m : Memory}
    (h : Reaches step Op.safe (Memory.create size hpos hlt) m) : Sound m :=
  h.invariant ⟨Consistent.create size hpos hlt, fun _ _ => .inl rfl⟩ fun _ _ _ hi hs hstep =>
    ⟨hi.toConsistent.step hs hstep, hi.sources.step hi.toConsistent hs hstep⟩

/-! ## One token -/

/-- The token of the sequence `x` at `p`. -/
def oneSlot (x : Nat) (p : Int) : UBatch := ⟨[⟨x, [], p⟩], List.cons_ne_nil _ _⟩

/-- The sequence `x` is alone in the cell at the head, in which no other one was; the others stay where they are. -/
structure Single (m m' : Memory) (x : Nat) (p : Int) : Prop where
  size_eq : m'.size = m.size
  head_lt : m'.head < m.size
  tail_self : m'.tail x = some m'.head
  seqs_self : m'.seqs m'.head = {x}
  pos_self : (m'.cells m'.head).pos = p
  sole : ∀ y ∈ m.seqs m'.head, y = x
  tail_other : ∀ y, y ≠ x → m'.tail y = m.tail y
  pos_other : ∀ i, i ≠ m'.head → (m'.cells i).pos = (m.cells i).pos

section Slot
variable {m m' : Memory} {x : Nat}

/-- Where a sequence set is put. -/
theorem Assign.step_tail {a b : Assign} {last : Bool} (hstep : a.step x last = some b) :
    ∃ t, b.mem.tail x = some t ∧ b.min = Nat.min a.min t ∧ b.max = Nat.max a.max t ∧
      (b.mem = a.mem ∧ a.mem.seqs t = {x} ∨ Taken a.mem b.mem x t ∧ a.mem.seqs t = ∅) := by
  simp only [Assign.step, Option.bind_eq_bind, Option.bind_eq_some_iff] at hstep
  obtain ⟨own, hown, hstep⟩ := hstep
  cases own with
  | true =>
      simp only [if_true, Option.bind_some, Option.bind_eq_some_iff] at hstep
      obtain ⟨t, ht, hb⟩ := hstep
      cases hb
      refine ⟨t, ht, rfl, rfl, .inl ⟨rfl, ?_⟩⟩
      unfold Memory.owns at hown
      rw [ht] at hown
      dsimp only at hown
      split at hown
      · rename_i hmem
        have hcard : (a.mem.seqs t).card = 1 := of_decide_eq_true (Option.some.inj hown)
        obtain ⟨y, hy⟩ := Finset.card_eq_one.mp hcard
        rw [hy, Finset.mem_singleton] at hmem
        rw [hy, hmem]
      · cases hown
  | false =>
      simp only [Bool.false_eq_true, if_false, Option.bind_some, Option.bind_eq_some_iff] at hstep
      obtain ⟨mem, htake, t, ht, hb⟩ := hstep
      cases hb
      have htaken := Memory.take_eq_some htake
      have hnext := htaken.tail_eq x
      rw [if_pos rfl, ht] at hnext
      cases hnext
      refine ⟨a.next, ht, rfl, rfl, .inr ⟨htaken, ?_⟩⟩
      unfold Memory.take at htake
      split at htake
      · cases htake
      · rename_i hempty
        exact not_not.mp hempty

/-- **One token of one sequence moves no other sequence.** -/
theorem Sound.findSlot_single (h : Sound m) (hx : x < m.size) (p : Int) :
    ∃ m', m.findSlot (oneSlot x p) = some (true, m') ∧ Single m m' x p := by
  have hin : m.inRange x := ⟨Int.natCast_nonneg x, by exact_mod_cast hx⟩
  have hdisj : (oneSlot x p).disjoint := List.pairwise_singleton _ _
  obtain ⟨m', hfind, hplaced, -⟩ := h.toLinked.findSlot_placed h.sources (fun s hs => by
    rw [List.mem_singleton.mp hs]
    exact ⟨hin, fun y hy => absurd hy List.not_mem_nil⟩) hdisj
  refine ⟨m', hfind, ?_⟩
  obtain ⟨k, hk, hm0⟩ : ∃ k < m.size,
      (if m.used + 2 * (oneSlot x p).sets.length < m.head then { m with head := 0 } else m) = { m with head := k } := by
    split
    · exact ⟨0, m.size_pos, rfl⟩
    · exact ⟨m.head, h.head_lt, rfl⟩
  have hun : Memory.unshare (oneSlot x p).sets { m with head := k } = (true, { m with head := k }) := by
    unfold oneSlot
    rw [Memory.unshare, if_pos (show Memory.inRange { m with head := k } x from hin)]
    rfl
  have hp : Placing { m with head := k } [] := (h.toConsistent.withHead hk).toLinked.placing
  unfold Memory.findSlot at hfind
  rw [hm0] at hfind
  dsimp only at hfind
  rw [hun] at hfind
  simp only [oneSlot, Assign.run, Memory.gather, Option.bind_eq_bind, Option.bind_eq_some_iff, Option.some.injEq,
    Prod.mk.injEq, exists_eq_right] at hfind
  obtain ⟨a, hstep, m2, hgather, m3, hstage, -, rfl⟩ := hfind
  rw [Int.toNat_natCast] at hstep hgather
  have hstart : Assigned ⟨{ m with head := k }, seek (Memory.isEmpty { m with head := k }) m.size m.size k, m.size - 1, 0⟩
      [] := ⟨hp, m.size_pos, fun y hy => absurd hy List.not_mem_nil⟩
  obtain ⟨hassigned, hsize, -, -, htails⟩ := hstart.step (hp.nextOk_seek hk) hx List.not_mem_nil hstep
  obtain ⟨t, ht, hmin, hmax, hcase⟩ := Assign.step_tail hstep
  have htlt : t < m.size := lt_of_le_of_lt ((Nat.le_max_right 0 t).trans_eq hmax.symm)
    (hassigned.max_lt.trans_eq hsize)
  have hmint : a.min = t := by
    rw [hmin]
    exact Nat.min_eq_right (Nat.le_sub_one_of_lt htlt)
  rw [ht] at hgather
  dsimp only at hgather
  rw [if_neg (not_not.mpr hmint), Option.some.injEq] at hgather
  subst hgather
  have hkept : (∀ y ∈ m.seqs t, y = x) ∧ ∀ i, i ≠ t → (a.mem.cells i).pos = (m.cells i).pos := by
    obtain ⟨hmem, hone⟩ | ⟨htaken, hempty⟩ := hcase
    · have hone' : m.seqs t = {x} := hone
      refine ⟨fun y hy => ?_, fun i _ => ?_⟩
      · rw [hone'] at hy
        exact Finset.mem_singleton.mp hy
      · rw [hmem]
    · have hempty' : m.seqs t = ∅ := hempty
      refine ⟨fun y hy => ?_, fun i hi => ?_⟩
      · rw [hempty'] at hy
        cases hy
      · have hnext := htaken.tail_eq x
        rw [if_pos rfl, ht] at hnext
        cases hnext
        exact htaken.pos_eq i hi
  rw [hmint] at hstage
  obtain ⟨hssize, hsame⟩ := Memory.stage_eq_some (m := a.mem.emplaceOne ⟨x, [], p⟩ t) hstage
  have hids : (⟨x, [], p⟩ : SeqSet).ids = [x] := rfl
  refine ⟨?_, ?_, ?_, ?_, ?_, ?_, fun y hy => ?_, fun i hi => ?_⟩
  · exact hssize.trans ((Memory.size_emplaceOne _ _ _).trans hsize)
  · exact hmint.trans_lt htlt
  · change m3.tail x = some a.min
    rw [(hsame x).1, Memory.tail_emplaceOne, hids, if_pos List.mem_cons_self, hmint]
  · change m3.seqs a.min = {x}
    rw [(hsame a.min).2.1, Memory.seqs_emplaceOne, hids, if_pos hmint]
    rfl
  · change (m3.cells a.min).pos = p
    rw [(hsame a.min).2.2, hmint]
    exact Memory.pos_emplaceOne_self a.mem _ t
  · change ∀ y ∈ m.seqs a.min, y = x
    rw [hmint]
    exact hkept.1
  · change m3.tail y = m.tail y
    rw [(hsame y).1, Memory.tail_emplaceOne, hids, if_neg (List.not_mem_cons_of_ne_of_not_mem hy List.not_mem_nil)]
    exact htails y hy
  · have hit : i ≠ t := fun hc => hi (hc.trans hmint.symm)
    change (m3.cells i).pos = (m.cells i).pos
    rw [(hsame i).2.2, Memory.pos_emplaceOne _ _ _ hit]
    exact hkept.2 i hit

/-- The sequence `d` is at `p` in the cell at the head, and no other sequence is touched. -/
structure Seated (m m' : Memory) (d : Nat) (p : Int) : Prop where
  size_eq : m'.size = m.size
  head_lt : m'.head < m.size
  tail_self : m'.tail d = some m'.head
  pos_self : (m'.cells m'.head).pos = p
  other : ∀ y < m.size, y ≠ d → m'.tail y = m.tail y ∧
    ∀ t, m.tail y = some t → t ≠ m'.head ∧ (m'.cells t).pos = (m.cells t).pos

theorem Sound.seqRm (h : Sound m) {seq p0 p1 : Int} (hseq : 0 ≤ seq) : Sound (m.seqRm seq p0 p1).2 :=
  ⟨h.toConsistent.seqRm fun hneg => by omega, h.sources.seqRm h.toConsistent fun hneg => by omega⟩

/-- A removal touches the sequence that is removed. -/
theorem Consistent.seqRm_other (h : Consistent m) {d : Nat} (hd : d < m.size) (p0 p1 : Int) :
    (m.seqRm d p0 p1).2.size = m.size ∧ ∀ y < m.size, y ≠ d → (m.seqRm d p0 p1).2.tail y = m.tail y ∧
      ∀ t, m.tail y = some t → ((m.seqRm d p0 p1).2.cells t).pos = (m.cells t).pos := by
  obtain heq | ⟨-, k, -, heq⟩ := h.seqRm_one hd p0 p1
  · rw [heq]
    exact ⟨rfl, fun _ _ _ => ⟨rfl, fun _ _ => rfl⟩⟩
  · rw [heq]
    refine ⟨Memory.size_detach m d, fun y hy hne => ⟨(Memory.tail_detach m d y).trans (if_neg hne), fun t ht => ?_⟩⟩
    have htlt := h.tail_lt y hy t ht
    have hmem := (h.tail_iff y hy t htlt).mp ht
    -- the cell is not emptied, since `y` is left in it
    refine (h.toLinked.pos_detach hd htlt).trans (if_neg fun hc => ?_)
    have hleft : y ∈ (m.seqs t).erase d := Finset.mem_erase.mpr ⟨hne, hmem⟩
    rw [hc.2] at hleft
    cases hleft

theorem Single.seated {m0 : Memory} {d : Nat} {p : Int} (h : Sound m) (hd : d < m.size) {p0 p1 : Int}
    (hm0 : (m.seqRm d p0 p1).2 = m0) (hs : Single m0 m' d p) : Seated m m' d p := by
  obtain ⟨hsize, hother⟩ := h.toConsistent.seqRm_other hd p0 p1
  have hsound : Sound (m.seqRm d p0 p1).2 := h.seqRm (Int.natCast_nonneg d)
  rw [hm0] at hsize hother hsound
  refine ⟨hs.size_eq.trans hsize, hs.head_lt.trans_eq hsize, hs.tail_self, hs.pos_self, fun y hy hne => ?_⟩
  obtain ⟨htail, hpos⟩ := hother y hy hne
  refine ⟨(hs.tail_other y hne).trans htail, fun t ht => ?_⟩
  have htlt : t < m0.size := (h.tail_lt y hy t ht).trans_eq hsize.symm
  have hmem : y ∈ m0.seqs t := (hsound.tail_iff y (hy.trans_eq hsize.symm) t htlt).mp (htail.trans ht)
  have hhead : t ≠ m'.head := fun hc => hne (hs.sole y (hc ▸ hmem))
  exact ⟨hhead, (hs.pos_other t hhead).trans (hpos t ht)⟩

/-- **One saved cell is read into one sequence.** -/
theorem Sound.readSequence_seated (h : Sound m) {d : Nat} (hd : d < m.size) (p : Int) :
    ∃ m', m.readSequence d [⟨p, []⟩] = some m' ∧ Seated m m' d p := by
  have hrm : Sound (m.seqRm d (-1) (-1)).2 := h.seqRm (Int.natCast_nonneg d)
  have hsize := (h.toConsistent.seqRm_other hd (-1) (-1)).1
  obtain ⟨m1, hfind, hs⟩ := hrm.findSlot_single (hd.trans_eq hsize.symm) p
  have hkeep : Single (m.seqRm d (-1) (-1)).2 (m1.keepSources 1) d p := by
    have hsame := m1.keepSources_same 1
    exact ⟨hs.size_eq, hs.head_lt, (hsame d).1.trans hs.tail_self, (hsame _).2.1.trans hs.seqs_self,
      (hsame _).2.2.trans hs.pos_self, hs.sole, fun y hy => (hsame y).1.trans (hs.tail_other y hy),
      fun i hi => (hsame i).2.2.trans (hs.pos_other i hi)⟩
  refine ⟨m1.keepSources 1, ?_, hkeep.seated h hd rfl⟩
  have hmem : (m1.cells m1.head).hasSeqId d := by
    rw [MemCell.hasSeqId_natCast]
    change d ∈ m1.seqs m1.head
    rw [hs.seqs_self]
    exact Finset.mem_singleton_self d
  have hlt : m1.head + 1 ≤ m1.size := hs.head_lt.trans_eq hs.size_eq.symm
  unfold oneSlot at hfind
  unfold Memory.readSequence
  simp only [List.any_cons, List.isEmpty_nil, Bool.not_true, List.any_nil, Bool.or_self, Bool.false_eq_true, if_false,
    List.getLast_singleton, hfind, List.length_singleton, Nat.add_sub_cancel]
  rw [if_pos ⟨hlt, hs.pos_self, hs.pos_self, hmem, hmem⟩]

end Slot

end S2Moe.Recurrent
