import S2Moe.Recurrent.FindSlot

/-!
# What `find_slot` stages

`find_slot` never fails on a ubatch of disjoint sequence sets. Every cell that it places gets a source `src0`: the cell
that held the state before the call, or the zeroed cell `rs_z`.

* `Memory.blank` : the memory without its positions, which `find_slot` does not look at;
* `Source m1 m y` : sequence `y` has in `m` a cell with the source it had in `m1`; kept by the loops;
* `exists_unreferenced` : a range that keeps its sources to itself and has a cell without one has a cell for `rs_z`;
* `Placed`, `Staged` : what holds behind the call;
* `findSlot_staged` : they do.
-/

namespace S2Moe.Recurrent
open S2Moe.Lib

/-! ## Positions play no part -/

/-- The memory with all positions forgotten. -/
def Memory.blank (m : Memory) : Memory := { m with cells := fun i => { m.cells i with pos := -1 } }

section Blank
variable (m : Memory)

theorem Memory.blank_modify (i : Nat) {f g : MemCell → MemCell}
    (h : { f (m.cells i) with pos := -1 } = g { m.cells i with pos := -1 }) :
    (m.modify i f).blank = m.blank.modify i g := by
  unfold Memory.blank Memory.modify
  dsimp only
  congr 1
  funext j
  by_cases hj : j = i
  · rw [hj, Function.update_self, Function.update_self]
    exact h
  · rw [Function.update_of_ne hj, Function.update_of_ne hj]

theorem Memory.blank_setTail (x : Nat) (t : Option Nat) : (m.setTail x t).blank = m.blank.setTail x t :=
  Memory.blank_modify m x rfl

theorem Memory.blank_detach (x : Nat) : (m.detach x).blank = m.blank.detach x := by
  unfold Memory.detach
  have htail : m.blank.tail x = m.tail x := rfl
  rw [htail]
  cases m.tail x with
  | none => rfl
  | some t =>
      dsimp only
      have hwithout : (m.modify t (MemCell.without · x)).blank = m.blank.modify t (MemCell.without · x) := by
        apply Memory.blank_modify
        unfold MemCell.without
        dsimp only
        split <;> rfl
      rw [← hwithout, ← Memory.blank_setTail]
      rfl

theorem Memory.blank_unshareIds : ∀ (ids : List Int) (m : Memory),
    Memory.unshareIds ids m.blank = ((Memory.unshareIds ids m).1, (Memory.unshareIds ids m).2.blank)
  | [], _ => rfl
  | x :: ids, m => by
    rw [Memory.unshareIds, Memory.unshareIds]
    change (if m.inRange x then _ else _) = _
    split
    · rw [← Memory.blank_detach, Memory.blank_unshareIds ids]
    · rfl

theorem Memory.blank_unshare : ∀ (sets : List SeqSet) (m : Memory),
    Memory.unshare sets m.blank = ((Memory.unshare sets m).1, (Memory.unshare sets m).2.blank)
  | [], _ => rfl
  | s :: sets, m => by
    rw [Memory.unshare, Memory.unshare, Memory.blank_unshareIds]
    change (if m.inRange s.primary then _ else _) = _
    split
    · cases Memory.unshareIds s.secondary m with
      | mk b m1 =>
          cases b with
          | false => rfl
          | true => exact Memory.blank_unshare sets m1
    · rfl

theorem Memory.blank_take (x next : Nat) : m.blank.take x next = (m.take x next).map Memory.blank := by
  unfold Memory.take
  have htail : m.blank.tail x = m.tail x := rfl
  have hseqs : ∀ t, m.blank.seqs t = m.seqs t := fun _ => rfl
  have hsrc : ∀ t, (m.blank.cells t).src = (m.cells t).src := fun _ => rfl
  simp only [htail, hseqs, hsrc]
  split
  · rfl
  · cases m.tail x with
    | none => rw [← Memory.blank_setTail]; rfl
    | some t =>
        dsimp only
        split
        · rfl
        · rw [Option.map_some, Memory.blank_setTail]
          congr 2
          symm
          rw [Memory.blank_modify]
          · congr 1
            apply Memory.blank_modify
            rfl
          · rfl

def Assign.blank (a : Assign) : Assign := { a with mem := a.mem.blank }

theorem Assign.blank_step (a : Assign) (x : Nat) (last : Bool) :
    a.blank.step x last = (a.step x last).map Assign.blank := by
  have hown : a.blank.mem.owns x = a.mem.owns x := rfl
  have htake : a.blank.mem.take x a.blank.next = (a.mem.take x a.next).map Memory.blank := Memory.blank_take a.mem x a.next
  simp only [Assign.step, Option.bind_eq_bind, hown, htake]
  cases a.mem.owns x with
  | none => rfl
  | some own =>
      cases own with
      | true =>
          simp only [if_true, Option.bind_some]
          change Option.bind (a.mem.tail x) _ = _
          cases a.mem.tail x <;> rfl
      | false =>
          simp only [Bool.false_eq_true, if_false, Option.bind_some]
          cases a.mem.take x a.next with
          | none => rfl
          | some m1 =>
              simp only [Option.map_some, Option.bind_some]
              change Option.bind (m1.tail x) _ = _
              cases m1.tail x <;> rfl

theorem Assign.blank_run : ∀ (sets : List SeqSet) (a : Assign),
    Assign.run sets a.blank = (Assign.run sets a).map Assign.blank
  | [], _ => rfl
  | s :: sets, a => by
    simp only [Assign.run, Option.bind_eq_bind, Assign.blank_step]
    cases a.step s.primary.toNat sets.isEmpty with
    | none => rfl
    | some b => exact Assign.blank_run sets b

theorem Memory.blank_swap (dst src : Nat) : (m.swap dst src).blank = m.blank.swap dst src := rfl

theorem Memory.blank_gather : ∀ (sets : List SeqSet) (dst : Nat) (m : Memory),
    Memory.gather sets dst m.blank = (Memory.gather sets dst m).map Memory.blank
  | [], _, _ => rfl
  | s :: sets, dst, m => by
    rw [Memory.gather, Memory.gather]
    have htail : m.blank.tail s.primary.toNat = m.tail s.primary.toNat := rfl
    rw [htail]
    cases m.tail s.primary.toNat with
    | none => rfl
    | some src =>
        dsimp only
        split
        · exact Memory.blank_gather sets (dst + 1) (m.swap dst src)
        · exact Memory.blank_gather sets (dst + 1) m

theorem Memory.blank_setTails (cell : Nat) : ∀ (ids : List Nat) (m : Memory),
    (ids.foldl (fun m x => m.setTail x (some cell)) m).blank = ids.foldl (fun m x => m.setTail x (some cell)) m.blank
  | [], _ => rfl
  | x :: ids, m => by
    rw [List.foldl_cons, List.foldl_cons, Memory.blank_setTails cell ids, Memory.blank_setTail]

/-- The fourth loop writes positions of its own. -/
theorem Memory.blank_emplace : ∀ (sets : List SeqSet) (cell : Nat) (m m' : Memory), m.blank = m'.blank →
    (Memory.emplace sets cell m).blank = (Memory.emplace sets cell m').blank
  | [], _, _, _, h => h
  | s :: sets, cell, m, m', h => by
    refine Memory.blank_emplace sets (cell + 1) _ _ ?_
    have hone : ∀ m : Memory, (m.modify cell fun c => { c with pos := s.lastPos, seqId := s.ids.toFinset }).blank =
        m.blank.modify cell fun c => { c with pos := -1, seqId := s.ids.toFinset } := by
      intro m
      exact Memory.blank_modify m cell rfl
    rw [Memory.blank_setTails, Memory.blank_setTails, hone, hone, h]

theorem Memory.blank_stage (lo hi : Nat) : m.blank.stage lo hi = (m.stage lo hi).map Memory.blank := by
  have hrefcount : ∀ i, m.blank.refcount i = m.refcount i := fun _ => rfl
  unfold Memory.stage
  simp only [hrefcount]
  by_cases hfail : (List.range' lo (hi + 1 - lo)).find? (fun i => decide (m.refcount i = 0)) = none ∧
      ∃ i ∈ List.range' lo (hi + 1 - lo), (m.cells i).src = none
  · rw [if_pos hfail]
    exact if_pos hfail
  · rw [if_neg hfail]
    refine (if_neg hfail).trans ?_
    rw [Option.map_some]
    unfold Memory.blank
    dsimp only
    congr 2
    funext i
    split <;> rfl

/-- **Whether and where `find_slot` places a ubatch does not depend on the positions.** -/
theorem Memory.blank_findSlot (ubatch : UBatch) :
    (m.blank.findSlot ubatch).map (fun r => (r.1, r.2.blank)) = (m.findSlot ubatch).map fun r => (r.1, r.2.blank) := by
  obtain ⟨m0, hm0, hb0⟩ : ∃ m0, (if m.used + 2 * ubatch.sets.length < m.head then { m with head := 0 } else m) = m0 ∧
      (if m.blank.used + 2 * ubatch.sets.length < m.blank.head then { m.blank with head := 0 } else m.blank) =
        m0.blank := by
    refine ⟨_, rfl, ?_⟩
    change (if m.used + 2 * ubatch.sets.length < m.head then _ else _) = _
    split <;> rfl
  unfold Memory.findSlot
  rw [hm0, hb0]
  dsimp only
  rw [Memory.blank_unshare]
  cases Memory.unshare ubatch.sets m0 with
  | mk b m1 =>
      cases b with
      | false => rfl
      | true =>
          dsimp only [Option.bind_eq_bind]
          have hrun := Assign.blank_run ubatch.sets ⟨m1, seek m1.isEmpty m1.size m1.size m1.head, m1.size - 1, 0⟩
          change Assign.run ubatch.sets ⟨m1.blank, seek m1.blank.isEmpty m1.blank.size m1.blank.size m1.blank.head,
            m1.blank.size - 1, 0⟩ = _ at hrun
          rw [hrun]
          cases Assign.run ubatch.sets ⟨m1, seek m1.isEmpty m1.size m1.size m1.head, m1.size - 1, 0⟩ with
          | none => rfl
          | some a =>
              simp only [Option.map_some, Option.bind_some]
              have hgather := Memory.blank_gather ubatch.sets a.min a.mem
              change Memory.gather ubatch.sets a.blank.min a.blank.mem = _ at hgather
              rw [hgather]
              cases Memory.gather ubatch.sets a.min a.mem with
              | none => rfl
              | some m2 =>
                  simp only [Option.map_some, Option.bind_some]
                  have hemplace : (Memory.emplace ubatch.sets a.min m2.blank).blank =
                      (Memory.emplace ubatch.sets a.min m2).blank := Memory.blank_emplace _ _ _ _ rfl
                  have hleft := Memory.blank_stage (Memory.emplace ubatch.sets a.min m2.blank) a.min a.max
                  have hright := Memory.blank_stage (Memory.emplace ubatch.sets a.min m2) a.min a.max
                  rw [hemplace, hright] at hleft
                  change Option.map _ (Option.bind (Memory.stage
                    (Memory.emplace ubatch.sets a.min m2.blank) a.min a.max) _) = _
                  cases hl : Memory.stage (Memory.emplace ubatch.sets a.min m2.blank) a.min a.max with
                  | none =>
                      cases hr : Memory.stage (Memory.emplace ubatch.sets a.min m2) a.min a.max with
                      | none => rfl
                      | some m4 => rw [hl, hr] at hleft; cases hleft
                  | some m3 =>
                      cases hr : Memory.stage (Memory.emplace ubatch.sets a.min m2) a.min a.max with
                      | none => rw [hl, hr] at hleft; cases hleft
                      | some m4 =>
                          rw [hl, hr, Option.map_some, Option.map_some, Option.some.injEq] at hleft
                          change some (decide (ubatch.sets.length ≤ a.max + 1 - a.min),
                            ({ m3.blank with head := a.min, n := a.max + 1 - a.min, used := m3.blank.countUsed } :
                              Memory)) = _
                          rw [← hleft]
                          rfl

end Blank

/-! ## The first loop -/

/-- A second or later id of a sequence set. -/
def UBatch.further (ubatch : UBatch) (y : Nat) : Prop := ∃ s ∈ ubatch.sets, y ∈ s.secondary.map Int.toNat

section Unshare
variable {m : Memory}

theorem Memory.cells_detach (m : Memory) (x i : Nat) :
    ((m.detach x).cells i).src0 = (m.cells i).src0 ∧
      ((m.detach x).cells i).src = if m.tail x = some i ∧ (m.seqs i).erase x = ∅ then none else (m.cells i).src := by
  unfold Memory.detach
  cases ht : m.tail x with
  | none =>
      refine ⟨rfl, ?_⟩
      rw [if_neg]
      rintro ⟨hc, -⟩
      cases hc
  | some t =>
      dsimp only [Memory.setTail, Memory.modify]
      have hset : ∀ (cells : Nat → MemCell), (Function.update cells x { cells x with tail := none } i).src0 = (cells i).src0 ∧
          (Function.update cells x { cells x with tail := none } i).src = (cells i).src := by
        intro cells
        by_cases hix : i = x
        · rw [hix, Function.update_self]
          exact ⟨rfl, rfl⟩
        · rw [Function.update_of_ne hix]
          exact ⟨rfl, rfl⟩
      rw [(hset _).1, (hset _).2]
      by_cases hit : i = t
      · subst hit
        rw [Function.update_self]
        unfold MemCell.without Memory.seqs
        by_cases he : (m.cells i).seqId.erase x = ∅
        · rw [if_pos he, if_pos ⟨rfl, he⟩]
          exact ⟨rfl, rfl⟩
        · rw [if_neg he, if_neg fun hc => he hc.2]
          exact ⟨rfl, rfl⟩
      · rw [Function.update_of_ne hit, if_neg fun hc => hit (Option.some.inj hc.1).symm]
        exact ⟨rfl, rfl⟩

/-- `m'` is `m` without the states of the sequences in `gone`. -/
structure Unshared (m m' : Memory) (gone : Nat → Prop) : Prop where
  linked : Linked m'
  size_eq : m'.size = m.size
  head_eq : m'.head = m.head
  tail_eq : ∀ y, ¬ gone y → m'.tail y = m.tail y
  tail_gone : ∀ y, gone y → m'.tail y = none
  src0_eq : ∀ i, (m'.cells i).src0 = (m.cells i).src0
  src_eq : ∀ i < m.size, (m'.seqs i ≠ ∅ ∨ m.seqs i = ∅) → (m'.cells i).src = (m.cells i).src
  src_none : ∀ i < m.size, m'.seqs i = ∅ → m.seqs i ≠ ∅ → (m'.cells i).src = none
  seqs_sub : ∀ i < m.size, m'.seqs i ⊆ m.seqs i

theorem Linked.unshared (h : Linked m) : Unshared m m (fun _ => False) where
  linked := h
  size_eq := rfl
  head_eq := rfl
  tail_eq _ _ := rfl
  tail_gone _ hc := absurd hc id
  src0_eq _ := rfl
  src_eq _ _ _ := rfl
  src_none _ _ he hne := absurd he hne
  seqs_sub _ _ := Finset.Subset.refl _

theorem Unshared.detach {m' : Memory} {gone : Nat → Prop} (h : Unshared m m' gone) {x : Nat} (hx : x < m.size) :
    Unshared m (m'.detach x) (fun y => gone y ∨ y = x) := by
  have hx' : x < m'.size := h.size_eq ▸ hx
  have hseqs : ∀ i < m.size, (m'.detach x).seqs i = (m'.seqs i).erase x :=
    fun i hi => h.linked.seqs_detach hx' (h.size_eq ▸ hi)
  have htail : ∀ i < m.size, m'.tail x = some i ↔ x ∈ m'.seqs i :=
    fun i hi => h.linked.tail_iff x hx' i (h.size_eq ▸ hi)
  refine ⟨h.linked.detach hx', ?_, ?_, fun y hy => ?_, fun y hy => ?_, fun i => ?_, fun i hi hor => ?_,
    fun i hi he hne => ?_, fun i hi => ?_⟩
  · rw [Memory.size_detach, h.size_eq]
  · rw [Memory.head_detach, h.head_eq]
  · rw [not_or] at hy
    rw [Memory.tail_detach, if_neg hy.2, h.tail_eq y hy.1]
  · rw [Memory.tail_detach]
    split
    · rfl
    · rename_i hyx
      exact h.tail_gone y (hy.resolve_right hyx)
  · rw [(Memory.cells_detach m' x i).1, h.src0_eq]
  · rw [hseqs i hi] at hor
    rw [(Memory.cells_detach m' x i).2, if_neg]
    · refine h.src_eq i hi (hor.imp_left fun hrest he => hrest ?_)
      rw [he]
      rfl
    · rintro ⟨hti, he⟩
      obtain hrest | hempty := hor
      · exact hrest he
      · have hmem := h.seqs_sub i hi ((htail i hi).mp hti)
        rw [hempty] at hmem
        cases hmem
  · rw [hseqs i hi] at he
    rw [(Memory.cells_detach m' x i).2]
    split
    · rfl
    · rename_i hno
      have hnot : x ∉ m'.seqs i := fun hmem => hno ⟨(htail i hi).mpr hmem, he⟩
      rw [Finset.erase_eq_of_notMem hnot] at he
      exact h.src_none i hi he hne
  · rw [hseqs i hi]
    exact (Finset.erase_subset _ _).trans (h.seqs_sub i hi)

theorem Unshared.congr {m' : Memory} {gone gone' : Nat → Prop} (h : Unshared m m' gone) (hg : ∀ y, gone' y ↔ gone y) :
    Unshared m m' gone' := by
  have heq : gone' = gone := funext fun y => propext (hg y)
  rwa [heq]

theorem Unshared.unshareIds : ∀ (ids : List Int) {m' : Memory} {gone : Nat → Prop}, Unshared m m' gone →
    (∀ x ∈ ids, m.inRange x) → ∃ m'', Memory.unshareIds ids m' = (true, m'') ∧
      Unshared m m'' (fun y => gone y ∨ y ∈ ids.map Int.toNat)
  | [], m', gone, h, _ => by
    refine ⟨m', rfl, h.congr fun y => ?_⟩
    rw [List.map_nil]
    exact or_iff_left List.not_mem_nil
  | x :: ids, m', gone, h, hids => by
    have hx := hids x List.mem_cons_self
    have hx' : m'.inRange x := by
      unfold Memory.inRange
      rw [h.size_eq]
      exact hx
    have hlt : x.toNat < m.size := by
      have := hx.1
      have := hx.2
      omega
    obtain ⟨m'', hrun, hm''⟩ := Unshared.unshareIds ids (h.detach hlt) fun z hz => hids z (List.mem_cons_of_mem _ hz)
    refine ⟨m'', ?_, hm''.congr fun y => ?_⟩
    · rw [Memory.unshareIds, if_pos hx']
      exact hrun
    · rw [List.map_cons, List.mem_cons, or_assoc]

/-- The whole loop takes the further sequences out of their cells. -/
theorem Unshared.unshare : ∀ (sets : List SeqSet) {m' : Memory} {gone : Nat → Prop}, Unshared m m' gone →
    (∀ s ∈ sets, m.inRange s.primary ∧ ∀ x ∈ s.secondary, m.inRange x) → ∃ m'', Memory.unshare sets m' = (true, m'') ∧
      Unshared m m'' (fun y => gone y ∨ ∃ s ∈ sets, y ∈ s.secondary.map Int.toNat)
  | [], m', gone, h, _ => by
    refine ⟨m', rfl, h.congr fun y => or_iff_left ?_⟩
    rintro ⟨s, hs, -⟩
    exact List.not_mem_nil hs
  | s :: sets, m', gone, h, hsets => by
    obtain ⟨hprim, hsec⟩ := hsets s List.mem_cons_self
    have hprim' : m'.inRange s.primary := by
      unfold Memory.inRange
      rw [h.size_eq]
      exact hprim
    obtain ⟨m1, hrun1, hm1⟩ := Unshared.unshareIds s.secondary h hsec
    obtain ⟨m2, hrun2, hm2⟩ := Unshared.unshare sets hm1 fun u hu => hsets u (List.mem_cons_of_mem _ hu)
    refine ⟨m2, ?_, hm2.congr fun y => ?_⟩
    · rw [Memory.unshare, if_pos hprim', hrun1]
      exact hrun2
    · rw [or_assoc]
      simp only [List.mem_cons, exists_eq_or_imp]

end Unshare

/-! ## The second loop -/

section AssignLoop
variable {m m' m'' : Memory} {reserved : List Nat} {x next : Nat} {a : Assign}

theorem Memory.src_take (htake : m.take x next = some m') (i : Nat) :
    (m'.cells i).src0 = (m.cells i).src0 ∧
      (i ≠ next → (m'.cells i).src = (m.cells i).src) ∧
      (m.tail x = none → (m'.cells i).src = (m.cells i).src) ∧
      ∀ t, m.tail x = some t → (m'.cells next).src = (m.cells t).src := by
  have hset : ∀ (m : Memory) (t : Option Nat) (i : Nat), ((m.setTail x t).cells i).src0 = (m.cells i).src0 ∧
      ((m.setTail x t).cells i).src = (m.cells i).src := by
    intro m t i
    unfold Memory.setTail Memory.modify
    dsimp only
    by_cases hix : i = x
    · rw [hix, Function.update_self]
      exact ⟨rfl, rfl⟩
    · rw [Function.update_of_ne hix]
      exact ⟨rfl, rfl⟩
  unfold Memory.take at htake
  split at htake
  · cases htake
  · rename_i hempty
    rw [not_not] at hempty
    cases ht : m.tail x with
    | none =>
        rw [ht] at htake
        cases htake
        exact ⟨(hset m _ i).1, fun _ => (hset m _ i).2, fun _ => (hset m _ i).2, fun t hc => by cases hc⟩
    | some t =>
        rw [ht] at htake
        dsimp only at htake
        split at htake
        · cases htake
        · rename_i hrest
          cases htake
          have hne : next ≠ t := by
            rintro rfl
            rw [hempty] at hrest
            exact hrest rfl
          -- the cell that is left only loses an id
          have hleft : ∀ (n : Memory) (i : Nat), ((n.modify t fun c => { c with seqId := c.seqId.erase x }).cells i).src0 =
              (n.cells i).src0 ∧
              ((n.modify t fun c => { c with seqId := c.seqId.erase x }).cells i).src = (n.cells i).src := by
            intro n i
            unfold Memory.modify
            dsimp only
            by_cases hit : i = t
            · rw [hit, Function.update_self]
              exact ⟨rfl, rfl⟩
            · rw [Function.update_of_ne hit]
              exact ⟨rfl, rfl⟩
          refine ⟨?_, fun hi => ?_, fun hc => (by cases hc), fun u hu => ?_⟩
          · rw [(hset _ _ i).1, (hleft _ i).1]
            unfold Memory.modify
            dsimp only
            by_cases hi : i = next
            · rw [hi, Function.update_self]
            · rw [Function.update_of_ne hi]
          · rw [(hset _ _ i).2, (hleft _ i).2]
            unfold Memory.modify
            dsimp only
            rw [Function.update_of_ne hi]
          · cases hu
            rw [(hset _ _ next).2, (hleft _ next).2]
            unfold Memory.modify
            dsimp only
            rw [Function.update_self]

/-- Since `m` the sequences in `reserved` may have moved to empty cells, with their sources. -/
structure Traced (m m' : Memory) (reserved : List Nat) : Prop where
  size_eq : m'.size = m.size
  same : ∀ y, y ∉ reserved → m'.tail y = m.tail y
  empty : ∀ i < m.size, m'.seqs i = ∅ → m.seqs i = ∅
  src0_eq : ∀ i, (m'.cells i).src0 = (m.cells i).src0
  out : ∀ c < m.size, (∀ y ∈ reserved, m'.tail y ≠ some c) → (m'.cells c).src = (m.cells c).src
  old : ∀ y < m.size, ∀ t, m.tail y = some t → ∃ c, m'.tail y = some c ∧ (m'.cells c).src = (m.cells t).src
  new : ∀ y < m.size, m.tail y = none → ∀ c, m'.tail y = some c →
    ∃ e < m.size, m.seqs e = ∅ ∧ (m'.cells c).src = (m.cells e).src
  known : ∀ c < m.size, ∃ e < m.size, (m'.cells c).src = (m.cells e).src

theorem Traced.refl (m : Memory) : Traced m m [] where
  size_eq := rfl
  same _ _ := rfl
  empty _ _ h := h
  src0_eq _ := rfl
  out _ _ _ := rfl
  old _ _ t ht := ⟨t, ht, rfl⟩
  new y _ hn c hc := by
    rw [hn] at hc
    cases hc
  known c hc := ⟨c, hc, rfl⟩

theorem Traced.reserve (h : Traced m m' reserved) (x : Nat) : Traced m m' (x :: reserved) where
  size_eq := h.size_eq
  same y hy := h.same y fun hc => hy (List.mem_cons_of_mem _ hc)
  empty := h.empty
  src0_eq := h.src0_eq
  out c hc hno := h.out c hc fun y hy => hno y (List.mem_cons_of_mem _ hy)
  old := h.old
  new := h.new
  known := h.known

theorem Traced.take (h : Traced m m' reserved) (hp : Placing m' reserved) (hx : x < m.size) (hnew : x ∉ reserved)
    (hfree : m'.Free next) (htake : m'.take x next = some m'') : Traced m m'' (x :: reserved) := by
  have ht := Memory.take_eq_some htake
  have hsrc := Memory.src_take htake
  have hnext : next < m.size := h.size_eq ▸ hfree.1
  have hnextsrc : (m'.cells next).src = (m.cells next).src :=
    h.out next hnext fun y hy => hfree.2 y (hp.reserved_lt y hy)
  refine ⟨ht.size_eq.trans h.size_eq, fun y hy => ?_, fun i hi he => ?_, fun i => ?_, fun c hc hno => ?_,
    fun y hy t hyt => ?_, fun y hy hyn c hc => ?_, fun c hc => ?_⟩
  · rw [List.mem_cons, not_or] at hy
    rw [ht.tail_eq, if_neg hy.1]
    exact h.same y hy.2
  · exact h.empty i hi (ht.empty_of_empty he)
  · rw [(hsrc i).1, h.src0_eq]
  · have hcn : c ≠ next := by
      rintro rfl
      exact hno x List.mem_cons_self (by rw [ht.tail_eq, if_pos rfl])
    rw [(hsrc c).2.1 hcn]
    refine h.out c hc fun y hy hyc => ?_
    have hyx : y ≠ x := fun heq => hnew (heq ▸ hy)
    exact hno y (List.mem_cons_of_mem _ hy) (by rw [ht.tail_eq, if_neg hyx]; exact hyc)
  · obtain ⟨c, hc, hcs⟩ := h.old y hy t hyt
    rw [ht.tail_eq]
    by_cases hyx : y = x
    · subst hyx
      rw [if_pos rfl]
      exact ⟨next, rfl, ((hsrc next).2.2.2 c hc).trans hcs⟩
    · rw [if_neg hyx]
      have hcn : c ≠ next := by
        rintro rfl
        exact hfree.2 y (h.size_eq ▸ hy) hc
      exact ⟨c, hc, ((hsrc c).2.1 hcn).trans hcs⟩
  · rw [ht.tail_eq] at hc
    by_cases hyx : y = x
    · subst hyx
      rw [if_pos rfl] at hc
      cases hc
      -- the sequence had no cell, so the empty cell keeps its source
      have hnone : m'.tail y = none := (h.same y hnew).trans hyn
      exact ⟨next, hnext, h.empty next hnext (hp.seqs_of_free hfree), ((hsrc next).2.2.1 hnone).trans hnextsrc⟩
    · rw [if_neg hyx] at hc
      obtain ⟨e, he, hempty, hes⟩ := h.new y hy hyn c hc
      have hcn : c ≠ next := by
        rintro rfl
        exact hfree.2 y (h.size_eq ▸ hy) hc
      exact ⟨e, he, hempty, ((hsrc c).2.1 hcn).trans hes⟩
  · by_cases hcn : c = next
    · subst hcn
      cases htx : m'.tail x with
      | none =>
          obtain ⟨e, he, hes⟩ := h.known c hc
          exact ⟨e, he, ((hsrc c).2.2.1 htx).trans hes⟩
      | some t =>
          obtain ⟨e, he, hes⟩ := h.known t (h.size_eq ▸ hp.tail_lt x (h.size_eq ▸ hx) t htx)
          exact ⟨e, he, ((hsrc c).2.2.2 t htx).trans hes⟩
    · obtain ⟨e, he, hes⟩ := h.known c hc
      exact ⟨e, he, ((hsrc c).2.1 hcn).trans hes⟩

/-- A pass of the loop does not fail. -/
theorem Assigned.step_traced (h : Assigned a reserved) (hnext : NextOk a.mem a.next) (ht : Traced m a.mem reserved)
    (hx : x < m.size) (hnew : x ∉ reserved) (last : Bool) :
    ∃ b, a.step x last = some b ∧ Traced m b.mem (x :: reserved) := by
  have hx' : x < a.mem.size := ht.size_eq ▸ hx
  have hmem : ∀ t, a.mem.tail x = some t → x ∈ a.mem.seqs t := by
    intro t htx
    obtain hmem | ⟨hc, -⟩ := h.placing.tail_mem x hx' t htx
    · exact hmem
    · exact absurd hc hnew
  obtain ⟨own, hown⟩ : ∃ own, a.mem.owns x = some own := by
    unfold Memory.owns
    cases htx : a.mem.tail x with
    | none => exact ⟨false, rfl⟩
    | some t => exact ⟨_, if_pos (hmem t htx)⟩
  unfold Assign.step
  simp only [Option.bind_eq_bind, hown, Option.bind_some]
  cases own with
  | true =>
      obtain ⟨i, hi, -⟩ := (h.placing.reserve hx' hown).own x List.mem_cons_self
      simp only [if_true, Option.bind_some, hi]
      exact ⟨_, rfl, ht.reserve x⟩
  | false =>
      obtain ⟨e, he⟩ := h.placing.exists_free hx' hnew (by rw [hown]; simp)
      have hfree := (hnext e he).1
      obtain ⟨m1, htake⟩ : ∃ m1, a.mem.take x a.next = some m1 := by
        unfold Memory.take
        rw [if_neg (not_not.mpr (h.placing.seqs_of_free hfree))]
        cases htx : a.mem.tail x with
        | none => exact ⟨_, rfl⟩
        | some t =>
            dsimp only
            -- the cell is shared: another sequence remains
            rw [if_neg]
            · exact ⟨_, rfl⟩
            · intro hrest
              unfold Memory.owns at hown
              rw [htx] at hown
              dsimp only at hown
              rw [if_pos (hmem t htx), Option.some.injEq, decide_eq_false_iff_not] at hown
              apply hown
              have hcard := Finset.card_erase_of_mem (hmem t htx)
              have hpos := Finset.card_pos.mpr ⟨x, hmem t htx⟩
              rw [hrest, Finset.card_empty] at hcard
              omega
      have htail : m1.tail x = some a.next := by
        rw [(Memory.take_eq_some htake).tail_eq, if_pos rfl]
      simp only [Bool.false_eq_true, if_false, htake, Option.bind_some, htail]
      exact ⟨_, rfl, ht.take h.placing hx hnew hfree htake⟩

/-- The whole loop does not fail. -/
theorem Assigned.run_traced : ∀ (sets : List SeqSet) (a : Assign) (reserved : List Nat), Assigned a reserved →
    (sets ≠ [] → NextOk a.mem a.next) → (sets.map (·.primary.toNat)).Nodup →
    (∀ s ∈ sets, s.primary.toNat < m.size ∧ s.primary.toNat ∉ reserved) → Traced m a.mem reserved →
    ∃ b, Assign.run sets a = some b ∧ Traced m b.mem ((sets.map (·.primary.toNat)).reverse ++ reserved)
  | [], a, reserved, _, _, _, _, ht => ⟨a, rfl, ht⟩
  | s :: sets, a, reserved, h, hnext, hnodup, hmem, ht => by
    obtain ⟨hs, hs'⟩ := hmem s List.mem_cons_self
    obtain ⟨c, hc, htc⟩ := h.step_traced (hnext (List.cons_ne_nil _ _)) ht hs hs' sets.isEmpty
    obtain ⟨hstep, -, -, hnext', -⟩ := h.step (hnext (List.cons_ne_nil _ _)) (ht.size_eq ▸ hs) hs' hc
    rw [List.map_cons, List.nodup_cons] at hnodup
    have hmem' : ∀ u ∈ sets, u.primary.toNat < m.size ∧ u.primary.toNat ∉ s.primary.toNat :: reserved := by
      intro u hu
      obtain ⟨h1, h2⟩ := hmem u (List.mem_cons_of_mem _ hu)
      refine ⟨h1, fun hc => ?_⟩
      obtain heq | hc := List.mem_cons.mp hc
      · exact hnodup.1 (heq ▸ List.mem_map_of_mem hu)
      · exact h2 hc
    obtain ⟨b, hb, htb⟩ := Assigned.run_traced sets c _ hstep
      (fun hne => hnext' (by cases sets with | nil => exact absurd rfl hne | cons _ _ => rfl)) hnodup.2 hmem' htc
    refine ⟨b, ?_, ?_⟩
    · simp only [Assign.run, Option.bind_eq_bind, hc, Option.bind_some]
      exact hb
    · rw [List.map_cons, List.reverse_cons, List.append_assoc]
      exact htb

end AssignLoop

/-! ## The third loop -/

section Gather
variable {m m' : Memory} {reserved : List Nat} {lo hi : Nat}

/-- `m'` is `m` with the cells between `lo` and `hi` permuted, and the tails to them. -/
structure Moved (m m' : Memory) (lo hi : Nat) : Prop where
  size_eq : m'.size = m.size
  src0_eq : ∀ i, (m'.cells i).src0 = (m.cells i).src0
  out : ∀ c, ¬ (lo ≤ c ∧ c ≤ hi) → (m'.cells c).src = (m.cells c).src
  none : ∀ y < m.size, m.tail y = none → m'.tail y = none
  tail : ∀ y < m.size, ∀ c, m.tail y = some c → ∃ d, m'.tail y = some d ∧ (m'.cells d).src = (m.cells c).src ∧
    (lo ≤ c ∧ c ≤ hi → lo ≤ d ∧ d ≤ hi) ∧ (¬ (lo ≤ c ∧ c ≤ hi) → d = c)
  known : ∀ c < m.size, ∃ e < m.size, (m'.cells c).src = (m.cells e).src

theorem Moved.refl (m : Memory) (lo hi : Nat) : Moved m m lo hi where
  size_eq := rfl
  src0_eq _ := rfl
  out _ _ := rfl
  none _ _ h := h
  tail _ _ c hc := ⟨c, hc, rfl, id, fun _ => rfl⟩
  known c hc := ⟨c, hc, rfl⟩

theorem Moved.swap (h : Moved m m' lo hi) {dst src : Nat} (hhi : hi < m.size) (hd : lo ≤ dst ∧ dst ≤ hi)
    (hs : lo ≤ src ∧ src ≤ hi) : Moved m (m'.swap dst src) lo hi := by
  have hin : ∀ c, lo ≤ c ∧ c ≤ hi → lo ≤ swapIndex dst src c ∧ swapIndex dst src c ≤ hi := by
    intro c hc
    unfold swapIndex
    split_ifs
    · exact hd
    · exact hs
    · exact hc
  have hout : ∀ c, ¬ (lo ≤ c ∧ c ≤ hi) → swapIndex dst src c = c := by
    intro c hc
    unfold swapIndex
    rw [if_neg, if_neg]
    · rintro rfl
      exact hc hd
    · rintro rfl
      exact hc hs
  refine ⟨h.size_eq, h.src0_eq, fun c hc => ?_, fun y hy hyn => ?_, fun y hy c hc => ?_, fun c hc => ?_⟩
  · change (m'.cells (swapIndex dst src c)).src = _
    rw [hout c hc]
    exact h.out c hc
  · rw [Memory.tail_swap m' dst src (h.size_eq ▸ hy), h.none y hy hyn]
    rfl
  · obtain ⟨d, hyd, hds, hcin, hcout⟩ := h.tail y hy c hc
    refine ⟨swapIndex dst src d, ?_, ?_, fun hr => hin d (hcin hr), fun hr => ?_⟩
    · rw [Memory.tail_swap m' dst src (h.size_eq ▸ hy), hyd]
      rfl
    · change (m'.cells (swapIndex dst src (swapIndex dst src d))).src = _
      rw [swapIndex_swapIndex]
      exact hds
    · rw [hcout hr]
      exact hout c hr
  · exact h.known _ (swapIndex_lt (by omega) (by omega) hc)

/-- The loop does not fail, and stays between `lo` and `hi`. -/
theorem Moved.gather : ∀ (sets : List SeqSet) (dst : Nat) (m' : Memory), Placing m' reserved → Moved m m' lo hi →
    hi < m.size → (∀ s ∈ sets, s.primary.toNat ∈ reserved) →
    (∀ y ∈ reserved, ∀ c, m'.tail y = some c → lo ≤ c ∧ c ≤ hi) → lo ≤ dst → dst + sets.length ≤ hi + 1 →
    ∃ m'', Memory.gather sets dst m' = some m'' ∧ Moved m m'' lo hi
  | [], _, m', _, h, _, _, _, _, _ => ⟨m', rfl, h⟩
  | s :: sets, dst, m', hp, h, hhi, hres, hin, hlo, hlen => by
    rw [List.length_cons] at hlen
    obtain ⟨src, hsrc, -⟩ := hp.own _ (hres s List.mem_cons_self)
    have hsrcin := hin _ (hres s List.mem_cons_self) src hsrc
    have hdstin : lo ≤ dst ∧ dst ≤ hi := ⟨hlo, by omega⟩
    rw [Memory.gather, hsrc]
    dsimp only
    split
    · have hdst : dst < m'.size := by rw [h.size_eq]; omega
      have hsrclt : src < m'.size := by rw [h.size_eq]; omega
      refine Moved.gather sets (dst + 1) _ (hp.swap hdst hsrclt) (h.swap hhi hdstin hsrcin) hhi
        (fun u hu => hres u (List.mem_cons_of_mem _ hu)) (fun y hy c hc => ?_) (by omega) (by omega)
      rw [Memory.tail_swap_eq_some (hp.reserved_lt y hy)] at hc
      have hc' := hin y hy _ hc
      rw [← swapIndex_swapIndex dst src c]
      generalize swapIndex dst src c = d at hc' ⊢
      unfold swapIndex
      split_ifs
      · exact hdstin
      · exact hsrcin
      · exact hc'
    · exact Moved.gather sets (dst + 1) m' hp h hhi (fun u hu => hres u (List.mem_cons_of_mem _ hu)) hin (by omega)
        (by omega)

end Gather

/-! ## The fourth loop -/

section Emplace

theorem Memory.src_setTails (cell : Nat) : ∀ (ids : List Nat) (m : Memory) (i : Nat),
    ((ids.foldl (fun m x => m.setTail x (some cell)) m).cells i).src = (m.cells i).src ∧
      ((ids.foldl (fun m x => m.setTail x (some cell)) m).cells i).src0 = (m.cells i).src0
  | [], _, _ => ⟨rfl, rfl⟩
  | x :: ids, m, i => by
    rw [List.foldl_cons, (Memory.src_setTails cell ids _ i).1, (Memory.src_setTails cell ids _ i).2]
    unfold Memory.setTail Memory.modify
    dsimp only
    by_cases hix : i = x
    · rw [hix, Function.update_self]
      exact ⟨rfl, rfl⟩
    · rw [Function.update_of_ne hix]
      exact ⟨rfl, rfl⟩

theorem Memory.src_emplaceOne (m : Memory) (s : SeqSet) (cell i : Nat) :
    ((m.emplaceOne s cell).cells i).src = (m.cells i).src ∧
      ((m.emplaceOne s cell).cells i).src0 = (m.cells i).src0 := by
  unfold Memory.emplaceOne
  rw [(Memory.src_setTails cell s.ids _ i).1, (Memory.src_setTails cell s.ids _ i).2]
  unfold Memory.modify
  dsimp only
  by_cases hi : i = cell
  · rw [hi, Function.update_self]
    exact ⟨rfl, rfl⟩
  · rw [Function.update_of_ne hi]
    exact ⟨rfl, rfl⟩

theorem Memory.pos_emplaceOne_self (m : Memory) (s : SeqSet) (cell : Nat) :
    ((m.emplaceOne s cell).cells cell).pos = s.lastPos := by
  unfold Memory.emplaceOne
  rw [((Memory.setTails_spec cell s.ids _).2.2 cell).2.2]
  unfold Memory.modify
  dsimp only
  rw [Function.update_self]

/-- The loop writes the cells of the sets, and the tails of their sequences. -/
theorem Memory.emplace_spec : ∀ (sets : List SeqSet) (cell : Nat) (m : Memory),
    (∀ i, ((Memory.emplace sets cell m).cells i).src = (m.cells i).src ∧
      ((Memory.emplace sets cell m).cells i).src0 = (m.cells i).src0) ∧
    (∀ y, (∀ s ∈ sets, y ∉ s.ids) → (Memory.emplace sets cell m).tail y = m.tail y) ∧
    (∀ i < cell, (Memory.emplace sets cell m).seqs i = m.seqs i ∧
      ((Memory.emplace sets cell m).cells i).pos = (m.cells i).pos) ∧
    ∀ (k : Nat) (hk : k < sets.length), (Memory.emplace sets cell m).seqs (cell + k) = (sets[k]).ids.toFinset ∧
      ((Memory.emplace sets cell m).cells (cell + k)).pos = (sets[k]).lastPos
  | [], _, _ => ⟨fun _ => ⟨rfl, rfl⟩, fun _ _ => rfl, fun _ _ => ⟨rfl, rfl⟩, fun k hk => absurd hk (Nat.not_lt_zero k)⟩
  | s :: sets, cell, m => by
    obtain ⟨hsrc, htail, hlow, hat⟩ := Memory.emplace_spec sets (cell + 1) (m.emplaceOne s cell)
    change (∀ i, ((Memory.emplace sets (cell + 1) (m.emplaceOne s cell)).cells i).src = _ ∧ _) ∧
      (∀ y, _ → (Memory.emplace sets (cell + 1) (m.emplaceOne s cell)).tail y = _) ∧
      (∀ i < cell, (Memory.emplace sets (cell + 1) (m.emplaceOne s cell)).seqs i = _ ∧ _) ∧
      ∀ (k : Nat) (hk : k < (s :: sets).length),
        (Memory.emplace sets (cell + 1) (m.emplaceOne s cell)).seqs (cell + k) = _ ∧
        ((Memory.emplace sets (cell + 1) (m.emplaceOne s cell)).cells (cell + k)).pos = _
    refine ⟨fun i => ?_, fun y hy => ?_, fun i hi => ?_, fun k hk => ?_⟩
    · obtain ⟨h1, h2⟩ := Memory.src_emplaceOne m s cell i
      exact ⟨(hsrc i).1.trans h1, (hsrc i).2.trans h2⟩
    · rw [htail y fun u hu => hy u (List.mem_cons_of_mem _ hu), Memory.tail_emplaceOne,
        if_neg (hy s List.mem_cons_self)]
    · obtain ⟨h1, h2⟩ := hlow i (by omega)
      have hic : i ≠ cell := by omega
      rw [Memory.seqs_emplaceOne, if_neg hic] at h1
      exact ⟨h1, h2.trans (Memory.pos_emplaceOne m s cell hic)⟩
    · cases k with
      | zero =>
          obtain ⟨h1, h2⟩ := hlow cell (Nat.lt_succ_self cell)
          rw [Memory.seqs_emplaceOne, if_pos rfl] at h1
          exact ⟨h1, h2.trans (Memory.pos_emplaceOne_self m s cell)⟩
      | succ k =>
          rw [List.length_cons] at hk
          have := hat k (by omega)
          rw [show cell + (k + 1) = cell + 1 + k by omega]
          exact this

end Emplace

/-! ## The last block -/

section Stage
variable {m : Memory} {lo hi : Nat}

/-- A source outside the range is the cell itself, so the references to the range come from it; a cell without a source leaves
one cell without a reference. -/
theorem exists_unreferenced
    (hout : ∀ c < m.size, ¬ (lo ≤ c ∧ c ≤ hi) → (m.cells c).src = none ∨ (m.cells c).src = some c)
    {i : Nat} (hi' : lo ≤ i ∧ i ≤ hi) (hnone : (m.cells i).src = none) : ∃ z, (lo ≤ z ∧ z ≤ hi) ∧ m.refcount z = 0 := by
  by_contra hno
  have hall : ∀ z ∈ Finset.Icc lo hi, ∃ j ∈ Finset.Icc lo hi, (m.cells j).src = some z := by
    intro z hz
    rw [Finset.mem_Icc] at hz
    have hcount : m.refcount z ≠ 0 := fun hc => hno ⟨z, hz, hc⟩
    unfold Memory.refcount at hcount
    obtain ⟨j, hj⟩ := Finset.card_pos.mp (Nat.pos_of_ne_zero hcount)
    obtain ⟨hj, hjz⟩ := Finset.mem_filter.mp hj
    refine ⟨j, ?_, hjz⟩
    rw [Finset.mem_Icc]
    by_contra hjout
    obtain hc | hc := hout j (Finset.mem_range.mp hj) hjout
    · rw [hc] at hjz
      cases hjz
    · rw [hc] at hjz
      cases hjz
      exact hjout hz
  choose! f hf using hall
  have hinj : Set.InjOn f (Finset.Icc lo hi) := by
    intro a ha b hb heq
    have ha' := (hf a ha).2
    rw [heq, (hf b hb).2] at ha'
    exact (Option.some.inj ha').symm
  obtain ⟨z, hz, heq⟩ := Finset.surjOn_of_injOn_of_card_le f (fun z hz => (hf z hz).1) hinj le_rfl
    (Finset.mem_coe.mpr (Finset.mem_Icc.mpr hi'))
  have hz' := (hf z hz).2
  rw [heq, hnone] at hz'
  cases hz'

/-- The block does not fail. -/
theorem Memory.stage_total
    (hout : ∀ c < m.size, ¬ (lo ≤ c ∧ c ≤ hi) → (m.cells c).src = none ∨ (m.cells c).src = some c) :
    ∃ m', m.stage lo hi = some m' ∧
      (∀ i, lo ≤ i ∧ i ≤ hi → (m'.cells i).src = some i ∧ (m'.cells i).src0 = ((m.cells i).src <|> m'.rsZ) ∧
        ((m.cells i).src = none → m'.rsZ ≠ none)) ∧
      (∀ i, ¬ (lo ≤ i ∧ i ≤ hi) → m'.cells i = m.cells i) ∧
      ∀ z, m'.rsZ = some z → ∀ j < m.size, (m.cells j).src ≠ some z := by
  have hrange : ∀ i, i ∈ List.range' lo (hi + 1 - lo) ↔ lo ≤ i ∧ i ≤ hi := by
    intro i
    rw [List.mem_range'_1]
    omega
  have hfound : ∀ i, lo ≤ i ∧ i ≤ hi → (m.cells i).src = none →
      (List.range' lo (hi + 1 - lo)).find? (fun i => decide (m.refcount i = 0)) ≠ none := by
    intro i hi' hnone hc
    obtain ⟨z, hz, hcount⟩ := exists_unreferenced hout hi' hnone
    rw [List.find?_eq_none] at hc
    exact hc z ((hrange z).mpr hz) (decide_eq_true hcount)
  unfold Memory.stage
  dsimp only
  rw [if_neg]
  · refine ⟨_, rfl, fun i hi' => ?_, fun i hi' => ?_, fun z hz j hj hc => ?_⟩
    · dsimp only
      rw [if_pos hi']
      exact ⟨rfl, rfl, hfound i hi'⟩
    · exact if_neg hi'
    · have hfind : (List.range' lo (hi + 1 - lo)).find? (fun i => decide (m.refcount i = 0)) = some z := hz
      have hcount := of_decide_eq_true (List.find?_some (p := fun i => decide (m.refcount i = 0)) hfind)
      unfold Memory.refcount at hcount
      rw [Finset.card_eq_zero] at hcount
      have hmem : j ∈ (Finset.range m.size).filter fun j => (m.cells j).src = some z :=
        Finset.mem_filter.mpr ⟨Finset.mem_range.mpr hj, hc⟩
      rw [hcount] at hmem
      cases hmem
  · rintro ⟨hc, i, hi', hnone⟩
    exact hfound i ((hrange i).mp hi') hnone hc

end Stage

/-! ## The whole call -/

/-- The source of a cell is the cell, or none. -/
def OwnSources (m : Memory) : Prop := ∀ i < m.size, (m.cells i).src = none ∨ (m.cells i).src = some i

/-- The state of cell `c` is copied from what was in cell `j`; the cell that is zeroed is another one. -/
def Memory.Copied (m' : Memory) (c j : Nat) : Prop := (m'.cells c).src0 = some j ∧ m'.rsZ ≠ some j

/-- The state of cell `c` is copied from the zeroed cell. -/
def Memory.Zeroed (m' : Memory) (c : Nat) : Prop := (m'.cells c).src0 = m'.rsZ ∧ m'.rsZ ≠ none

/-- The cells of the graph inputs. -/
def Memory.InRange (m' : Memory) (c : Nat) : Prop := m'.head ≤ c ∧ c < m'.head + m'.n

/-- The sequence sets are in consecutive cells from `head` on, and the memory is consistent. -/
structure Placed (ubatch : UBatch) (m m' : Memory) : Prop where
  size_eq : m'.size = m.size
  links : Links m'
  used_eq : m'.used = m'.countUsed
  sources : OwnSources m'
  length_le : ubatch.sets.length ≤ m'.n
  range_le : m'.head + m'.n ≤ m'.size
  cell : ∀ (k : Nat) (hk : k < ubatch.sets.length), m'.seqs (m'.head + k) = (ubatch.sets[k]).ids.toFinset ∧
    (m'.cells (m'.head + k)).pos = (ubatch.sets[k]).lastPos

/-- The states that the cells of the range are given. -/
structure Staged (ubatch : UBatch) (m m' : Memory) : Prop where
  /-- A sequence takes its state with it; outside the range nothing is staged. -/
  old : ∀ y < m.size, ¬ ubatch.further y → ∀ t, m.tail y = some t → ∃ c, m'.tail y = some c ∧
    (m'.InRange c ∧ (if (m.cells t).src = none then m'.Zeroed c else m'.Copied c t) ∨
      c = t ∧ ¬ m'.InRange t ∧ (∀ s ∈ ubatch.sets, y ∉ s.ids) ∧ (m'.cells t).src = (m.cells t).src ∧
        (m'.cells t).src0 = (m.cells t).src0)
  /-- A set whose first sequence had no cell is given zeros, or an empty cell with its own content. -/
  new : ∀ (k : Nat) (hk : k < ubatch.sets.length),
    m.tail (ubatch.sets[k]).primary.toNat = none ∨ ubatch.further (ubatch.sets[k]).primary.toNat →
      m'.Zeroed (m'.head + k) ∨ ∃ e < m.size, m.seqs e = ∅ ∧ (m.cells e).src = some e ∧ m'.Copied (m'.head + k) e
  every : ∀ c, m'.InRange c → m'.Zeroed c ∨ ∃ j < m.size, (m.cells j).src = some j ∧ m'.Copied c j

section Whole
variable {m : Memory} {ubatch : UBatch}

theorem UBatch.ids_cases {s : SeqSet} {y : Nat} (hy : y ∈ s.ids) :
    y = s.primary.toNat ∨ y ∈ s.secondary.map Int.toNat := by
  unfold SeqSet.ids at hy
  rwa [List.map_cons, List.mem_cons] at hy

theorem Aligned.tail_eq {m : Memory} : ∀ {sets : List SeqSet} {dst : Nat}, Aligned sets dst m → ∀ (k : Nat)
    (hk : k < sets.length), m.tail (sets[k]).primary.toNat = some (dst + k)
  | [], _, _, k, hk => absurd hk (Nat.not_lt_zero k)
  | s :: sets, dst, h, 0, _ => h.1
  | s :: sets, dst, h, k + 1, hk => by
    rw [show dst + (k + 1) = dst + 1 + k by omega]
    exact Aligned.tail_eq h.2 k (by rw [List.length_cons] at hk; omega)

/-- What a cell has as source behind the first loop. -/
theorem Unshared.src_cases {m' : Memory} {gone : Nat → Prop} (h : Unshared m m' gone) (hsrc : OwnSources m) {e : Nat}
    (he : e < m.size) : (m'.cells e).src = none ∨
      (m'.cells e).src = some e ∧ (m.cells e).src = some e ∧ (m'.seqs e = ∅ → m.seqs e = ∅) := by
  by_cases hm' : m'.seqs e = ∅
  · by_cases hm : m.seqs e = ∅
    · rw [h.src_eq e he (.inr hm)]
      exact (hsrc e he).imp_right fun hs => ⟨hs, hs, fun _ => hm⟩
    · exact .inl (h.src_none e he hm' hm)
  · rw [h.src_eq e he (.inl hm')]
    exact (hsrc e he).imp_right fun hs => ⟨hs, hs, fun hc => absurd hc hm'⟩

/-- The cells behind the four loops, against the memory behind the first one. -/
structure Gathered (ubatch : UBatch) (m m' : Memory) (lo hi : Nat) : Prop where
  placing : Placing m' []
  size_eq : m'.size = m.size
  length_le : lo + ubatch.sets.length ≤ hi + 1
  hi_lt : hi < m.size
  cell : ∀ (k : Nat) (hk : k < ubatch.sets.length), m'.seqs (lo + k) = (ubatch.sets[k]).ids.toFinset
  src0_eq : ∀ i, (m'.cells i).src0 = (m.cells i).src0
  out : ∀ c < m.size, ¬ (lo ≤ c ∧ c ≤ hi) → (m'.cells c).src = (m.cells c).src
  old : ∀ y < m.size, ∀ t, m.tail y = some t → ∃ d, m'.tail y = some d ∧ (m'.cells d).src = (m.cells t).src ∧
    ((lo ≤ d ∧ d ≤ hi) ∨ d = t ∧ ¬ (lo ≤ t ∧ t ≤ hi) ∧ ∀ s ∈ ubatch.sets, y ∉ s.ids)
  new : ∀ (k : Nat) (hk : k < ubatch.sets.length), m.tail (ubatch.sets[k]).primary.toNat = none →
    ∃ e < m.size, m.seqs e = ∅ ∧ (m'.cells (lo + k)).src = (m.cells e).src
  known : ∀ c < m.size, ∃ e < m.size, (m'.cells c).src = (m.cells e).src

/-- A primary sequence is in a cell of its own, one of the range; the other sequences of the sets have none. -/
theorem Linked.gathered (h : Linked m) (hdisj : ubatch.disjoint)
    (hids : ∀ s ∈ ubatch.sets, ∀ y ∈ s.ids, y < m.size)
    (hfurther : ∀ s ∈ ubatch.sets, ∀ y ∈ s.secondary.map Int.toNat, m.tail y = none) :
    ∃ a m', Assign.run ubatch.sets ⟨m, seek m.isEmpty m.size m.size m.head, m.size - 1, 0⟩ = some a ∧
      Memory.gather ubatch.sets a.min a.mem = some m' ∧
      Gathered ubatch m (Memory.emplace ubatch.sets a.min m') a.min a.max := by
  have hnodup := UBatch.disjoint.nodup hdisj
  have hp1 : Placing m [] := h.placing
  have hassigned : Assigned ⟨m, seek m.isEmpty m.size m.size m.head, m.size - 1, 0⟩ [] :=
    ⟨hp1, m.size_pos, fun y hy => absurd hy List.not_mem_nil⟩
  have hnext := fun _ : ubatch.sets ≠ [] => hp1.nextOk_seek h.head_lt
  have hnew : ∀ s ∈ ubatch.sets, s.primary.toNat < m.size ∧ s.primary.toNat ∉ ([] : List Nat) :=
    fun s hs => ⟨hids s hs _ List.mem_cons_self, List.not_mem_nil⟩
  obtain ⟨a, hrun, htr⟩ := Assigned.run_traced ubatch.sets _ [] hassigned hnext hnodup hnew (Traced.refl m)
  obtain ⟨harun, hasize, hasame⟩ := Assigned.run ubatch.sets _ [] hassigned hnext hnodup hnew hrun
  rw [List.append_nil] at harun htr
  have hne : (ubatch.sets.map (·.primary.toNat)).reverse ≠ [] := by
    intro hc
    exact ubatch.ne (List.map_eq_nil_iff.mp (List.reverse_eq_nil_iff.mp hc))
  have hlen := harun.length_le (List.nodup_reverse.mpr hnodup) hne
  have hmax := harun.max_lt
  rw [List.length_reverse, List.length_map] at hlen
  have hlen1 : 0 < ubatch.sets.length := List.length_pos_iff.mpr ubatch.ne
  have hp2 : Placing a.mem (ubatch.sets.map (·.primary.toNat)) :=
    harun.placing.congr_reserved fun y => List.mem_reverse.symm
  have hbounds : ∀ y ∈ ubatch.sets.map (·.primary.toNat), ∀ c, a.mem.tail y = some c → a.min ≤ c ∧ c ≤ a.max :=
    fun y hy => harun.bounds y (List.mem_reverse.mpr hy)
  have hres : ∀ s ∈ ubatch.sets, s.primary.toNat ∈ ubatch.sets.map (·.primary.toNat) := fun s hs => List.mem_map_of_mem hs
  obtain ⟨m2, hgather, hmoved⟩ := Moved.gather ubatch.sets a.min a.mem hp2 (Moved.refl a.mem a.min a.max) hmax hres
    hbounds le_rfl hlen
  obtain ⟨hp3, hgsize, haligned, -, hgnone⟩ := Placing.gather ubatch.sets a.min a.mem [] hp2 hres hnodup (by omega)
    (fun y hy => absurd hy List.not_mem_nil) hgather
  have hsize2 : m2.size = m.size := hgsize.trans hasize
  have hm2ids : ∀ s ∈ ubatch.sets, ∀ y ∈ s.ids, y < m2.size ∧ (y = s.primary.toNat ∨ m2.tail y = none) := by
    intro s hs y hy
    refine ⟨hsize2 ▸ hids s hs y hy, ?_⟩
    obtain hyp | hyf := UBatch.ids_cases hy
    · exact .inl hyp
    · by_cases hyp : y = s.primary.toNat
      · exact .inl hyp
      · right
        refine hgnone y (by rw [hasize]; exact hids s hs y hy) ?_
        rw [hasame]
        · exact hfurther s hs y hyf
        · intro hc
          obtain ⟨u, hu, heq⟩ := List.mem_map.mp hc
          have hmem : y ∈ u.ids := heq ▸ List.mem_cons_self
          rw [UBatch.disjoint.eq_of_mem hdisj hu hs hmem hy] at heq
          exact hyp heq.symm
  obtain ⟨hp4, hesize⟩ := Placing.emplace ubatch.sets a.min m2 hp3 haligned hdisj hm2ids
  obtain ⟨hesrc, hetail, -, heat⟩ := Memory.emplace_spec ubatch.sets a.min m2
  have hsize4 := hesize.trans hsize2
  have htail4 : ∀ (k : Nat) (hk : k < ubatch.sets.length), ∀ y ∈ (ubatch.sets[k]).ids,
      (Memory.emplace ubatch.sets a.min m2).tail y = some (a.min + k) := by
    intro k hk y hy
    refine hp4.mem_tail (a.min + k) (by rw [hsize4]; omega) y ?_
    rw [(heat k hk).1]
    exact List.mem_toFinset.mpr hy
  refine ⟨a, m2, hrun, hgather, hp4, hsize4, hlen, hasize ▸ hmax, fun k hk => (heat k hk).1, fun i => ?_, fun c hc hout => ?_,
    fun y hy t hyt => ?_, fun k hk hnone => ?_, fun c hc => ?_⟩
  · rw [(hesrc i).2, hmoved.src0_eq, htr.src0_eq]
  · rw [(hesrc c).1, hmoved.out c hout]
    refine htr.out c hc fun y hy hyc => hout ?_
    exact harun.bounds y hy c hyc
  · obtain ⟨c, hc, hcs⟩ := htr.old y hy t hyt
    obtain ⟨d, hd, hds, hcin, hcout⟩ := hmoved.tail y (by rw [hasize]; exact hy) c hc
    -- the fourth loop leaves the tail of `y` at `d`
    have hyd : (Memory.emplace ubatch.sets a.min m2).tail y = some d := by
      by_cases hyid : ∃ s ∈ ubatch.sets, y ∈ s.ids
      · obtain ⟨s, hs, hys⟩ := hyid
        obtain ⟨k, hk, rfl⟩ := List.getElem_of_mem hs
        obtain hyp | hyf := UBatch.ids_cases hys
        · have hal := haligned.tail_eq k hk
          rw [← hyp, hd] at hal
          rw [htail4 k hk y hys, hal]
        · rw [hfurther _ hs y hyf] at hyt
          cases hyt
      · rw [hetail y fun s hs hys => hyid ⟨s, hs, hys⟩]
        exact hd
    refine ⟨d, hyd, (hesrc d).1.trans (hds.trans hcs), ?_⟩
    by_cases hcr : a.min ≤ c ∧ c ≤ a.max
    · exact .inl (hcin hcr)
    · right
      have hyres : y ∉ ubatch.sets.map (·.primary.toNat) := fun hmem => hcr (hbounds y hmem c hc)
      have hct : c = t := by
        rw [hasame y hyres, hyt] at hc
        exact (Option.some.inj hc).symm
      rw [hcout hcr, hct]
      refine ⟨rfl, hct ▸ hcr, fun s hs hys => ?_⟩
      obtain hyp | hyf := UBatch.ids_cases hys
      · exact hyres (hyp ▸ hres s hs)
      · rw [hfurther s hs y hyf] at hyt
        cases hyt
  · have hlt := hids _ (List.getElem_mem hk) _ List.mem_cons_self
    obtain ⟨c, hc, -⟩ := hp2.own _ (hres _ (List.getElem_mem hk))
    obtain ⟨e, he, hempty, hes⟩ := htr.new _ hlt hnone c hc
    obtain ⟨d, hd, hds, -⟩ := hmoved.tail _ (by rw [hasize]; exact hlt) c hc
    rw [haligned.tail_eq k hk] at hd
    cases hd
    exact ⟨e, he, hempty, (hesrc _).1.trans (hds.trans hes)⟩
  · obtain ⟨d, hd, hds⟩ := hmoved.known c (by rw [hasize]; exact hc)
    obtain ⟨e, he, hes⟩ := htr.known d (by rw [← hasize]; exact hd)
    exact ⟨e, he, (hesrc c).1.trans (hds.trans hes)⟩

/-- The last positions are those of the sets. -/
theorem Memory.pos_findSlot {m' : Memory} (hfind : m.findSlot ubatch = some (true, m')) (k : Nat)
    (hk : k < ubatch.sets.length) : (m'.cells (m'.head + k)).pos = (ubatch.sets[k]).lastPos := by
  unfold Memory.findSlot at hfind
  dsimp only at hfind
  cases hu : Memory.unshare ubatch.sets
      (if m.used + 2 * ubatch.sets.length < m.head then { m with head := 0 } else m) with
  | mk b m1 =>
      rw [hu] at hfind
      cases b with
      | false => cases hfind
      | true =>
          simp only [Option.bind_eq_bind, Option.bind_eq_some_iff, Option.some.injEq, Prod.mk.injEq] at hfind
          obtain ⟨a, -, m2, -, m3, hstage, -, rfl⟩ := hfind
          obtain ⟨-, hsame⟩ := Memory.stage_eq_some hstage
          obtain ⟨-, -, -, hat⟩ := Memory.emplace_spec ubatch.sets a.min m2
          exact (hsame _).2.2.trans (hat k hk).2

theorem Linked.findSlot_placed (h : Linked m) (hsrc : OwnSources m)
    (hids : ∀ s ∈ ubatch.sets, m.inRange s.primary ∧ ∀ x ∈ s.secondary, m.inRange x) (hdisj : ubatch.disjoint) :
    ∃ m', m.findSlot ubatch = some (true, m') ∧ Placed ubatch m m' ∧ Staged ubatch m m' := by
  obtain ⟨k, hk, hm0⟩ : ∃ k < m.size,
      (if m.used + 2 * ubatch.sets.length < m.head then { m with head := 0 } else m) = { m with head := k } := by
    split
    · exact ⟨0, m.size_pos, rfl⟩
    · exact ⟨m.head, h.head_lt, rfl⟩
  have h0 : Linked { m with head := k } := ⟨⟨h.tail_iff, h.tail_lt, h.seq_lt⟩, h.empty_pos, hk⟩
  obtain ⟨m1, hun, hu⟩ := Unshared.unshare ubatch.sets h0.unshared hids
  have hu : Unshared { m with head := k } m1 ubatch.further := hu.congr fun y => (false_or _).symm ▸ Iff.rfl
  have hsize1 : m1.size = m.size := hu.size_eq
  have hsrc1 := fun {e : Nat} (he : e < m1.size) => hu.src_cases hsrc (hsize1 ▸ he)
  obtain ⟨a, m2, hrun, hgather, hg⟩ := hu.linked.gathered hdisj (fun s hs y hy => by
    obtain ⟨hp, hf⟩ := hids s hs
    unfold Memory.inRange at hp hf
    rw [hsize1]
    obtain rfl | hy := UBatch.ids_cases hy
    · omega
    · obtain ⟨x, hx, rfl⟩ := List.mem_map.mp hy
      have := hf x hx
      omega) fun s hs y hy => hu.tail_gone y ⟨s, hs, hy⟩
  have hout : ∀ c < m1.size, ¬ (a.min ≤ c ∧ c ≤ a.max) → ((Memory.emplace ubatch.sets a.min m2).cells c).src = none ∨
      ((Memory.emplace ubatch.sets a.min m2).cells c).src = some c := by
    intro c hc hno
    rw [hg.out c hc hno]
    exact (hsrc1 hc).imp_right fun hs => hs.1
  obtain ⟨m4, hstage, hin, hrest, hz⟩ := Memory.stage_total fun c hc => hout c (hg.size_eq ▸ hc)
  obtain ⟨hsize4, hsame⟩ := Memory.stage_eq_some hstage
  have hlen := hg.length_le
  have hlen1 : 0 < ubatch.sets.length := List.length_pos_iff.mpr ubatch.ne
  have hhi := hg.hi_lt
  have hsize : m4.size = m.size := hsize4.trans (hg.size_eq.trans hsize1)
  let m' : Memory := { m4 with head := a.min, n := a.max + 1 - a.min, used := m4.countUsed }
  have hrange : ∀ c, m'.InRange c ↔ a.min ≤ c ∧ c ≤ a.max := by
    intro c
    change a.min ≤ c ∧ c < a.min + (a.max + 1 - a.min) ↔ _
    omega
  have htail : ∀ y, m'.tail y = (Memory.emplace ubatch.sets a.min m2).tail y := fun y => (hsame y).1
  -- a cell of the range is zeroed when nothing is to be copied
  have hzero : ∀ c, m'.InRange c → ((Memory.emplace ubatch.sets a.min m2).cells c).src = none → m'.Zeroed c := by
    intro c hc hnone
    obtain ⟨-, hsrc0, hrsz⟩ := hin c ((hrange c).mp hc)
    rw [hnone] at hsrc0
    exact ⟨hsrc0, hrsz hnone⟩
  have hcopy : ∀ c, m'.InRange c → ∀ j, ((Memory.emplace ubatch.sets a.min m2).cells c).src = some j → m'.Copied c j := by
    intro c hc j hj
    have hcr := (hrange c).mp hc
    obtain ⟨-, hsrc0, -⟩ := hin c hcr
    rw [hj] at hsrc0
    refine ⟨hsrc0, fun hc' => hz j hc' c ?_ hj⟩
    rw [hg.size_eq]
    omega
  have hfind : m.findSlot ubatch = some (true, m') := by
    have hn : ubatch.sets.length ≤ a.max + 1 - a.min := by omega
    unfold Memory.findSlot
    rw [hm0]
    dsimp only
    rw [hun]
    simp only [Option.bind_eq_bind, hrun, Option.bind_some, hgather, hstage, decide_eq_true hn]
    rfl
  refine ⟨m', hfind, ?_, ?_⟩
  · have hplacing : Placing m' [] := hg.placing.congr hsize4 hsame
    refine ⟨hsize, (hplacing.linked ?_).toLinks, rfl, fun i hi => ?_, ?_, ?_, fun s hs => ?_⟩
    · change a.min < m4.size
      omega
    · by_cases hir : a.min ≤ i ∧ i ≤ a.max
      · exact .inr (hin i hir).1
      · change (m4.cells i).src = none ∨ (m4.cells i).src = some i
        rw [hrest i hir]
        refine hout i ?_ hir
        change i < m4.size at hi
        omega
    · change ubatch.sets.length ≤ a.max + 1 - a.min
      omega
    · change a.min + (a.max + 1 - a.min) ≤ m4.size
      omega
    · exact ⟨(hsame _).2.1.trans (hg.cell s hs), Memory.pos_findSlot hfind s hs⟩
  · refine ⟨fun y hy hfur t hyt => ?_, fun s hs hnone => ?_, fun c hc => ?_⟩
    · have hyt1 : m1.tail y = some t := (hu.tail_eq y hfur).trans hyt
      have ht : t < m1.size := hu.linked.tail_lt y (hsize1 ▸ hy) t hyt1
      have hfull : m1.seqs t ≠ ∅ := by
        intro hc
        have hmem := (hu.linked.tail_iff y (hsize1 ▸ hy) t ht).mp hyt1
        rw [hc] at hmem
        cases hmem
      have hsrct : (m1.cells t).src = (m.cells t).src := hu.src_eq t (hsize1 ▸ ht) (.inl hfull)
      obtain ⟨d, hd, hds, hplace⟩ := hg.old y (hsize1 ▸ hy) t hyt1
      refine ⟨d, (htail y).trans hd, ?_⟩
      obtain hdr | ⟨rfl, hno, hnot⟩ := hplace
      · left
        have hdr' := (hrange d).mpr hdr
        refine ⟨hdr', ?_⟩
        rw [hsrct] at hds
        obtain hs | hs := hsrc t (hsize1 ▸ ht)
        · rw [if_pos hs]
          exact hzero d hdr' (hds.trans hs)
        · rw [if_neg (by rw [hs]; simp)]
          exact hcopy d hdr' t (hds.trans hs)
      · right
        refine ⟨rfl, fun hc => hno ((hrange d).mp hc), hnot, ?_, ?_⟩
        · change (m4.cells d).src = _
          rw [hrest d hno]
          exact hds.trans hsrct
        · change (m4.cells d).src0 = _
          rw [hrest d hno]
          exact (hg.src0_eq d).trans (hu.src0_eq d)
    · have hnone1 : m1.tail (ubatch.sets[s]).primary.toNat = none := by
        by_cases hfur : ubatch.further (ubatch.sets[s]).primary.toNat
        · exact hu.tail_gone _ hfur
        · rw [hu.tail_eq _ hfur]
          exact hnone.resolve_right hfur
      obtain ⟨e, he, hempty, hes⟩ := hg.new s hs hnone1
      have hcr : m'.InRange (m'.head + s) := (hrange _).mpr (by change a.min ≤ a.min + s ∧ a.min + s ≤ a.max; omega)
      obtain hs0 | ⟨hs0, hse, hemp⟩ := hsrc1 he
      · exact .inl (hzero _ hcr (hes.trans hs0))
      · exact .inr ⟨e, hsize1 ▸ he, hemp hempty, hse, hcopy _ hcr e (hes.trans hs0)⟩
    · obtain ⟨e, he, hes⟩ := hg.known c (by have := (hrange c).mp hc; omega)
      obtain hs0 | ⟨hs0, hse, -⟩ := hsrc1 he
      · exact .inl (hzero c hc (hes.trans hs0))
      · exact .inr ⟨e, hsize1 ▸ he, hse, hcopy c hc e (hes.trans hs0)⟩

/-- **`find_slot` places every ubatch of disjoint sequence sets, and stages the states of its cells.** -/
theorem findSlot_staged (m : Memory) (h : Links m) (hhead : m.head < m.size) (hsrc : OwnSources m) (ubatch : UBatch)
    (hids : ∀ s ∈ ubatch.sets, m.inRange s.primary ∧ ∀ x ∈ s.secondary, m.inRange x) (hdisj : ubatch.disjoint) :
    ∃ m', m.findSlot ubatch = some (true, m') ∧ Placed ubatch m m' ∧ Staged ubatch m m' := by
  -- the positions of empty cells do not matter, so they may as well be negative
  have hblank : Linked m.blank := ⟨⟨h.tail_iff, h.tail_lt, h.seq_lt⟩, fun _ _ _ => Int.negSucc_lt_zero 0, hhead⟩
  obtain ⟨r, hr, hp, hs⟩ := hblank.findSlot_placed hsrc hids hdisj
  have hmap := Memory.blank_findSlot m ubatch
  rw [hr, Option.map_some] at hmap
  obtain ⟨⟨ok, m'⟩, hfind, heq⟩ := Option.map_eq_some_iff.mp hmap.symm
  obtain ⟨rfl, hb⟩ := Prod.mk.inj heq
  have hl : Links r.blank := ⟨hp.links.tail_iff, hp.links.tail_lt, hp.links.seq_lt⟩
  have hst : Staged ubatch m r.blank := ⟨hs.old, hs.new, hs.every⟩
  have hused : r.blank.used = r.blank.countUsed := hp.used_eq
  have hown : OwnSources r.blank := hp.sources
  have hlen : ubatch.sets.length ≤ r.blank.n := hp.length_le
  have hle : r.blank.head + r.blank.n ≤ r.blank.size := hp.range_le
  have hcell : ∀ (k : Nat) (hk : k < ubatch.sets.length), r.blank.seqs (r.blank.head + k) = (ubatch.sets[k]).ids.toFinset :=
    fun k hk => (hp.cell k hk).1
  rw [← hb] at hl hst hused hown hlen hle hcell
  refine ⟨m', hfind, ⟨?_, ⟨hl.tail_iff, hl.tail_lt, hl.seq_lt⟩, hused, hown, hlen, hle, fun k hk => ?_⟩,
    ⟨hst.old, hst.new, hst.every⟩⟩
  · exact (congrArg Memory.size hb).trans hp.size_eq
  · exact ⟨hcell k hk, Memory.pos_findSlot hfind k hk⟩

end Whole

/-- Sequence 0 in cell 0, sequence 1 in cell 1, each with its own source. -/
def twoCells : Memory where
  size := 2
  size_pos := Nat.zero_lt_two
  size_lt := two_lt_size
  used := 2
  n := 2
  rsZ := some 0
  cells i := if i < 2 then { pos := 0, src := some i, src0 := some 0, tail := some i, seqId := {i} } else {}

/-- One token of both sequences. -/
def sharedToken : UBatch := ⟨[⟨0, [1], 1⟩], List.cons_ne_nil _ _⟩

theorem links_twoCells : Links twoCells where
  tail_iff := by decide
  tail_lt x hx i hi := by
    obtain rfl | rfl : x = 0 ∨ x = 1 := by
      change x < 2 at hx
      omega
    · cases hi
      decide
    · cases hi
      decide
  seq_lt := by decide

theorem findSlot_staged_twoCells :
    ∃ m', twoCells.findSlot sharedToken = some (true, m') ∧ Placed sharedToken twoCells m' ∧ Staged sharedToken twoCells m' :=
  findSlot_staged twoCells links_twoCells (by decide) (by unfold OwnSources; decide) sharedToken (by decide) (by decide)

/-- The second sequence of the set gives up its own state. -/
theorem src0_of_sharedToken :
    ¬ ∀ (m : Memory) (ubatch : UBatch), Links m → m.head < m.size → OwnSources m →
      (∀ s ∈ ubatch.sets, m.inRange s.primary ∧ ∀ x ∈ s.secondary, m.inRange x) → ubatch.disjoint →
      ∃ m', m.findSlot ubatch = some (true, m') ∧ ∀ y < m.size, ∀ t c, m.tail y = some t → m'.tail y = some c →
        (m'.cells c).src0 = some t := by
  intro h
  obtain ⟨m', hfind, hold⟩ := h twoCells sharedToken links_twoCells (by decide) (by unfold OwnSources; decide) (by decide)
    (by decide)
  have hmap : (twoCells.findSlot sharedToken).map (fun r => (r.2.tail 1, (r.2.cells 0).src0)) = some (some 0, some 0) := by
    decide
  rw [hfind, Option.map_some, Option.some.injEq, Prod.mk.injEq] at hmap
  have hbad := hold 1 (by decide) 1 0 rfl hmap.1
  rw [hmap.2] at hbad
  cases hbad

end S2Moe.Recurrent
