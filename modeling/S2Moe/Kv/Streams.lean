import S2Moe.Kv.Batch
import S2Moe.Lib.Run

/-!
# `llama_kv_cache`: streams and sliding windows

A unified cache has one stream for all sequences; otherwise each sequence has a stream of its own.

* `Swa.isMasked`, `Cells.canUse` : behind the window, a cell of one sequence may be used again;
* `Streams` and its operations, with the assertions that abort as the missing result;
* `findSlot`, `applyUbatch` : a ubatch has one part for each stream it goes to;
* `CellsInv` : the invariant of the cells in the words of their users; `reaches_cellsInv` : it holds in every run of steps
  that respect the preconditions of the cell operations.
-/

namespace S2Moe.Kv
open S2Moe.Lib
open S2Moe.Recurrent (lower upper posMax)

inductive SwaType where
  | none
  | standard
  | chunked
  | symmetric
deriving DecidableEq

structure Swa where
  nSwa : Nat := 0
  type : SwaType := .none

def Swa.isMasked (w : Swa) (p0 p1 : Int) : Bool :=
  match w.type with
  | .none => false
  | .standard => decide (w.nSwa ≤ p1 - p0)
  | .chunked => decide (p0 < p1 / w.nSwa * w.nSwa)
  | .symmetric => decide (p1 - p0 < -((w.nSwa / 2 : Nat) : Int)) || decide (((w.nSwa / 2 : Nat) : Int) < p1 - p0)

/-- `LLAMA_MAX_SEQ`. -/
def maxSeq : Nat := 256

namespace Cells

/-- The sequence of a cell that has one. -/
def seqGet (c : Cells) (i : Nat) : Option Nat := (List.range maxSeq).find? fun s => decide (s ∈ (c.cell i).seq)

def canUse (w : Swa) (c : Cells) (i : Nat) : Bool :=
  c.isEmpty i || (decide ((c.cell i).seq.card = 1) &&
    (c.seqGet i).any fun s => w.isMasked (c.cell i).pos (c.seqPosMax s + 1))

/-- The token is stored, and what the cell held before is remembered in `seq_pos_max_rm`. -/
def write (c : Cells) (rm : Nat → Int) (i : Nat) (p : Int) (ids : List Nat) : Cells × (Nat → Int) :=
  if c.isEmpty i then (c.place i p ids, rm)
  else
    ((c.rm i).place i p ids,
      (c.seqGet i).elim rm fun s => Function.update rm s (max (rm s) (c.cell i).pos))

/-- One cell of a copy between streams: without its shift first, and then shifted. -/
def copyCell (src : Cells) (seq dst : Nat) (d : Cells) (i : Nat) : Cells :=
  if src.seqHas i seq then
    let x := src.cell i
    if x.shift = 0 then (d.posSet i x.pos).seqAdd i dst
    else (((d.posSet i (x.pos - x.shift)).seqAdd i dst).posAdd i x.shift).2
  else d

end Cells

/-- The tokens of a ubatch that go to the stream of sequence `seq`; for a unified cache there is one part. -/
structure Part (D : Type) where
  seq : Nat
  rows : List (Row D)

section
variable {D : Type}

namespace Cache

def findSlotIn (w : Swa) (c : Cache D) (nTokens : Nat) (cont : Bool) : Option (List Nat) :=
  let head := if c.cells.getUsed + 2 * nTokens < c.head then 0 else c.head
  if c.cells.size < nTokens then none
  else if cont then
    (seekRun (c.cells.canUse w) c.cells.size nTokens (2 * c.cells.size + 2) head 0).map (List.range' · nTokens)
  else collect (c.cells.canUse w) c.cells.size c.cells.size head nTokens

def writeRows (c : Cache D) (rm : Nat → Int) : List Nat → List (Row D) → Cache D × (Nat → Int)
  | i :: idxs, r :: rows =>
    let w := c.cells.write rm i r.pos r.ids
    writeRows { c with cells := w.1, data := Function.update c.data i r.val } w.2 idxs rows
  | _, _ => (c, rm)

end Cache

/-- `copies` are the buffers that the next update copies between streams. -/
structure Streams (D : Type) where
  swa : Swa
  nStream : Nat
  strm : Nat → Cache D
  copies : List (Nat × Nat) := []

namespace Streams

/-- The size of `seq_to_stream`. -/
def seqCap (st : Streams D) : Nat := if 1 < st.nStream then st.nStream else maxSeq

def streamOf (st : Streams D) (seq : Nat) : Nat := if 1 < st.nStream then seq else 0

def set (st : Streams D) (k : Nat) (c : Cache D) : Streams D := { st with strm := Function.update st.strm k c }

def clear (st : Streams D) : Streams D :=
  { st with strm := fun k => if k < st.nStream then (st.strm k).clear else st.strm k }

def seqRm (st : Streams D) (seq p0 p1 : Int) : Option (Streams D) :=
  if seq = -1 then
    some { st with strm := fun k => if k < st.nStream then (st.strm k).seqRm seq p0 p1 else st.strm k }
  else if 0 ≤ seq ∧ seq < st.seqCap then
    some (st.set (st.streamOf seq.toNat) ((st.strm (st.streamOf seq.toNat)).seqRm seq p0 p1))
  else none

/-- Copies between streams are for the whole buffer only. -/
def isFull (size : Nat) (p0 p1 : Int) : Bool :=
  !(decide (0 < p0 ∧ p0 + 1 < size)) && !(decide (0 < p1 ∧ p1 + 1 < size))

def copyStream (st : Streams D) (src dst : Nat) : Streams D :=
  let c := st.strm (st.streamOf src)
  let d := st.strm (st.streamOf dst)
  { st.set (st.streamOf dst) { d with
      cells := (List.range c.cells.size).foldl (c.cells.copyCell src dst) d.cells.reset, head := c.head } with
    copies := st.copies ++ [(st.streamOf src, st.streamOf dst)] }

def seqCp (st : Streams D) (src dst : Nat) (p0 p1 : Int) : Option (Streams D) :=
  if src < st.seqCap ∧ dst < st.seqCap then
    if st.streamOf src = st.streamOf dst then
      some (st.set (st.streamOf src) ((st.strm (st.streamOf src)).seqCp src dst p0 p1))
    else if isFull (st.strm 0).cells.size p0 p1 then some (st.copyStream src dst)
    else none
  else none

/-- The operations on the stream of one sequence. -/
def onStream (st : Streams D) (seq : Nat) (f : Cache D → Cache D) : Option (Streams D) :=
  if seq < st.seqCap then some (st.set (st.streamOf seq) (f (st.strm (st.streamOf seq)))) else none

def seqKeep (st : Streams D) (seq : Nat) : Option (Streams D) := st.onStream seq fun c => c.seqKeep seq

def seqAdd (st : Streams D) (seq : Nat) (p0 p1 shift : Int) : Option (Streams D) :=
  st.onStream seq fun c => c.seqAdd seq p0 p1 shift

/-- Nothing for a division by zero. -/
def seqDiv (st : Streams D) (seq : Nat) (p0 p1 d : Int) : Option (Streams D) :=
  if d = 0 then none else st.onStream seq fun c => c.seqDiv seq p0 p1 d

/-- With several streams the first token of a part has the sequence of the part and no other. -/
def admits (st : Streams D) (u : List (Part D)) : Bool :=
  u.all fun part => decide (part.seq < st.seqCap) &&
    (!decide (1 < st.nStream) || decide ((part.rows.head?.map Row.ids) = some [part.seq]))

def findSlot (st : Streams D) (cont : Bool) : List (Part D) → Option (List (Part D × List Nat))
  | [] => some []
  | part :: u =>
    match (st.strm (st.streamOf part.seq)).findSlotIn st.swa part.rows.length cont with
    | none => none
    | some idxs => (findSlot st cont u).map ((part, idxs) :: ·)

def writeParts (st : Streams D) (rm : Nat → Int) : List (Part D × List Nat) → Streams D × (Nat → Int)
  | [] => (st, rm)
  | (part, idxs) :: slots =>
    let w := (st.strm (st.streamOf part.seq)).writeRows rm idxs part.rows
    writeParts (st.set (st.streamOf part.seq) w.1) w.2 slots

/-- Positions before those that were overwritten are removed. -/
def purge (st : Streams D) (rm : Nat → Int) : Streams D :=
  (List.range maxSeq).foldl (fun st s =>
    let c := st.strm (st.streamOf s)
    if rm s = -1 then st
    else if c.cells.seqPosMin s ≤ rm s then
      st.set (st.streamOf s) (c.seqRm s (c.cells.seqPosMin s) (rm s + 1))
    else st) st

def setHeads (st : Streams D) : List (Part D × List Nat) → Streams D
  | [] => st
  | (part, idxs) :: slots =>
    setHeads (st.set (st.streamOf part.seq)
      { st.strm (st.streamOf part.seq) with head := idxs.getLast?.elim 0 (· + 1) }) slots

def applyUbatch (st : Streams D) (slots : List (Part D × List Nat)) : Streams D :=
  let w := st.writeParts (fun _ => -1) slots
  (w.1.purge w.2).setHeads slots

/-- `find_slot` and `apply_ubatch`. -/
def emplace (st : Streams D) (u : List (Part D)) (cont : Bool) : Option (Streams D) :=
  if st.admits u then (st.findSlot cont u).map st.applyUbatch else none

end Streams

/-! ## The invariant of the cells -/

/-- The cells of sequence `s` at position `p`. -/
def Cells.holding (c : Cells) (s : Nat) (p : Int) : Finset Nat :=
  (Finset.range c.size).filter fun i => (c.cell i).pos = p ∧ s ∈ (c.cell i).seq

/-- `used` are the cells with a position, cells without one have no sequence and no shift, and the counts of `seq_pos` are
numbers of cells; so the two ends are the first and the last position of a sequence, and -1 for one without cells. -/
structure CellsInv (c : Cells) : Prop where
  used_iff : ∀ i, i ∈ c.used ↔ i < c.size ∧ (c.cell i).pos ≠ -1
  empty : ∀ i < c.size, (c.cell i).pos = -1 → (c.cell i).seq = ∅ ∧ (c.cell i).shift = 0
  count : ∀ s p, (c.seqPos s).count p = (c.holding s p).card
  max_none : ∀ s, c.seqPosMax s = -1 ↔ ∀ i < c.size, s ∉ (c.cell i).seq
  min_none : ∀ s, c.seqPosMin s = -1 ↔ ∀ i < c.size, s ∉ (c.cell i).seq
  max_mem : ∀ s, c.seqPosMax s ≠ -1 → (c.holding s (c.seqPosMax s)).Nonempty
  min_mem : ∀ s, c.seqPosMin s ≠ -1 → (c.holding s (c.seqPosMin s)).Nonempty
  le_max : ∀ s, ∀ i < c.size, s ∈ (c.cell i).seq → (c.cell i).pos ≤ c.seqPosMax s
  min_le : ∀ s, ∀ i < c.size, s ∈ (c.cell i).seq → c.seqPosMin s ≤ (c.cell i).pos

theorem fold_max_mem {m : Multiset Int} (h : m.fold max (-1) ≠ -1) : m.fold max (-1) ∈ m := by
  induction m using Multiset.induction_on with
  | empty => exact absurd rfl h
  | cons q m ih =>
      rw [Multiset.fold_cons_left] at h ⊢
      rcases le_total q (m.fold max (-1)) with hle | hle
      · rw [max_eq_right hle] at h ⊢
        exact Multiset.mem_cons_of_mem (ih h)
      · rw [max_eq_left hle]
        exact Multiset.mem_cons_self q m

theorem fold_min_le {m : Multiset Int} {p b : Int} (hp : p ∈ m) : m.fold min b ≤ p := by
  induction m using Multiset.induction_on with
  | empty => exact absurd hp (Multiset.notMem_zero p)
  | cons q m ih =>
      rw [Multiset.fold_cons_left]
      rcases Multiset.mem_cons.mp hp with rfl | hp
      · exact min_le_left _ _
      · exact (min_le_right _ _).trans (ih hp)

theorem fold_min_mem {m : Multiset Int} {b : Int} (hne : m ≠ 0) (hle : ∀ p ∈ m, p ≤ b) : m.fold min b ∈ m := by
  induction m using Multiset.induction_on with
  | empty => exact absurd rfl hne
  | cons q m ih =>
      rw [Multiset.fold_cons_left]
      by_cases hm : m = 0
      · rw [hm, Multiset.fold_zero, min_eq_left (hle q (Multiset.mem_cons_self q m))]
        exact Multiset.mem_cons_self q 0
      · have hmem := ih hm fun p hp => hle p (Multiset.mem_cons_of_mem hp)
        rcases min_choice q (m.fold min b) with hmin | hmin
        · rw [hmin]
          exact Multiset.mem_cons_self q m
        · rw [hmin]
          exact Multiset.mem_cons_of_mem hmem

theorem Rep.cellsInv {c : Cells} (h : Rep c) (hle : ∀ i < c.size, (c.cell i).pos ≤ posMax) : CellsInv c := by
  have hzero : ∀ s, c.seqPos s = 0 ↔ ∀ i < c.size, s ∉ (c.cell i).seq := by
    intro s
    rw [Multiset.eq_zero_iff_forall_notMem]
    constructor
    · intro hno i hi hs
      exact hno _ (h.mem_seqPos.mpr ⟨i, hi, hs, rfl⟩)
    · intro hno p hp
      obtain ⟨i, hi, hs, -⟩ := h.mem_seqPos.mp hp
      exact hno i hi hs
  have hmem : ∀ s p, p ∈ c.seqPos s → (c.holding s p).Nonempty := by
    intro s p hp
    obtain ⟨i, hi, hs, hpos⟩ := h.mem_seqPos.mp hp
    exact ⟨i, Finset.mem_filter.mpr ⟨Finset.mem_range.mpr hi, hpos, hs⟩⟩
  have hnonneg : ∀ s, ∀ p ∈ c.seqPos s, 0 ≤ p := by
    intro s p hp
    obtain ⟨i, hi, hs, rfl⟩ := h.mem_seqPos.mp hp
    exact h.nonneg i hi (h.pos_ne hi hs)
  have hbound : ∀ s, ∀ p ∈ c.seqPos s, p ≤ posMax := by
    intro s p hp
    obtain ⟨i, hi, -, rfl⟩ := h.mem_seqPos.mp hp
    exact hle i hi
  have hcell : ∀ s, ∀ i < c.size, s ∈ (c.cell i).seq → (c.cell i).pos ∈ c.seqPos s :=
    fun s i hi hs => h.mem_seqPos.mpr ⟨i, hi, hs, rfl⟩
  have hmin : ∀ s, c.seqPos s ≠ 0 → c.seqPosMin s ∈ c.seqPos s := by
    intro s hne
    unfold Cells.seqPosMin
    rw [if_neg hne]
    exact fold_min_mem hne (hbound s)
  refine ⟨h.used_iff, h.empty, fun s p => ?_, fun s => ⟨fun hm => ?_, h.seqPosMax_none⟩, fun s =>
    ⟨fun hm => ?_, fun hno => ?_⟩,
    fun s hm => hmem s _ (fold_max_mem hm), fun s hm => ?_, fun s i hi hs => le_fold_max (hcell s i hi hs),
      fun s i hi hs => ?_⟩
  · rw [h.seqPos_eq, Multiset.count_sum', Cells.holding, Finset.card_filter]
    refine Finset.sum_congr rfl fun i _ => ?_
    unfold Cell.contrib
    by_cases hs : s ∈ (c.cell i).seq
    · rw [if_pos hs, Multiset.count_singleton]
      exact if_congr ⟨fun hp => ⟨hp.symm, hs⟩, fun hp => hp.1.symm⟩ rfl rfl
    · rw [if_neg hs, Multiset.count_zero, if_neg fun hc => hs hc.2]
  · rw [← hzero s]
    by_contra hne
    obtain ⟨p, hp⟩ := Multiset.exists_mem_of_ne_zero hne
    have hle := le_fold_max hp
    have h0 := hnonneg s p hp
    unfold Cells.seqPosMax at hm
    omega
  · rw [← hzero s]
    by_contra hne
    have h0 := hnonneg s _ (hmin s hne)
    omega
  · unfold Cells.seqPosMin
    rw [if_pos ((hzero s).mpr hno)]
  · have hne : c.seqPos s ≠ 0 := fun hc => hm (if_pos hc)
    exact hmem s _ (hmin s hne)
  · have hpos := hcell s i hi hs
    unfold Cells.seqPosMin
    rw [if_neg fun hc => by rw [hc] at hpos; exact Multiset.notMem_zero _ hpos]
    exact fold_min_le hpos

/-! ## What the operations keep -/

/-- A stream of `n` cells in good order. -/
structure Cache.Good (n : Nat) (c : Cache D) : Prop where
  ok : c.Ok
  bounded : ∀ i < c.cells.size, (c.cells.cell i).pos ≤ posMax
  size_eq : c.cells.size = n

section Good
variable {n : Nat} {c c' : Cache D}

/-- Operations that change each cell for itself and no position for a larger one. -/
theorem Cache.Good.each {g : Cell → Cell} (h : c.Good n) (he : Each c c' g)
    (hg : ∀ i < c.cells.size, (g (c.cells.cell i)).pos ≤ posMax) : c'.Good n where
  ok := he.ok
  bounded i hi := by
    rw [he.size_eq] at hi
    rw [he.cell_eq i hi]
    exact hg i hi
  size_eq := he.size_eq.trans h.size_eq

theorem pos_empty_le : ({} : Cell).pos ≤ posMax := by decide

theorem Cache.Good.clear (h : c.Good n) : c.clear.Good n := h.each h.ok.clear fun _ _ => pos_empty_le

theorem Cache.Good.seqRm (h : c.Good n) (seq p0 p1 : Int) : (c.seqRm seq p0 p1).Good n := by
  by_cases hseq : 0 ≤ seq
  · obtain ⟨s, rfl⟩ := Int.eq_ofNat_of_zero_le hseq
    refine h.each (h.ok.seqRm s p0 p1) fun i hi => ?_
    unfold Cell.removed
    split
    · split
      · exact pos_empty_le
      · exact h.bounded i hi
    · exact h.bounded i hi
  · refine h.each (h.ok.seqRm_all (by omega) p0 p1) fun i hi => ?_
    split
    · exact pos_empty_le
    · exact h.bounded i hi

theorem Cache.Good.seqCp (h : c.Good n) {src dst : Nat} {p0 p1 : Int} (hnew : src ≠ dst → ∀ j < c.cells.size,
    (c.cells.cell j).within p0 p1 → src ∈ (c.cells.cell j).seq → dst ∉ (c.cells.cell j).seq) :
    (c.seqCp src dst p0 p1).Good n := by
  by_cases hne : src = dst
  · unfold Cache.seqCp
    rwa [if_pos hne]
  · refine h.each (h.ok.seqCp_disjoint hne (hnew hne)) fun i hi => ?_
    unfold Cell.copied
    split
    · exact h.bounded i hi
    · exact h.bounded i hi

theorem Cache.Good.seqKeep (h : c.Good n) (seq : Nat) : (c.seqKeep seq).Good n := by
  refine h.each (h.ok.seqKeep seq) fun i hi => ?_
  unfold Cell.kept
  split
  · exact h.bounded i hi
  · exact pos_empty_le

theorem Cache.Good.seqAdd (h : c.Good n) {seq : Nat} {p0 p1 shift : Int} (hadd : ∀ j < c.cells.size,
    (c.cells.cell j).within p0 p1 → seq ∈ (c.cells.cell j).seq → (c.cells.cell j).pos + shift ≤ posMax) :
    (c.seqAdd seq p0 p1 shift).Good n := by
  by_cases hnone : shift = 0 ∨ lower p0 = upper p1
  · unfold Cache.seqAdd
    split
    · exact h
    · rwa [if_pos (hnone.resolve_left ‹_›)]
  · rw [not_or] at hnone
    refine h.each (h.ok.seqAdd seq hnone.1 hnone.2) fun i hi => ?_
    unfold Cell.moved
    split
    · rename_i hc
      split
      · exact pos_empty_le
      · exact hadd i hi hc.1 hc.2
    · exact h.bounded i hi

theorem Cache.Good.seqDiv (h : c.Good n) {seq : Nat} {p0 p1 d : Int} (hdiv : ∀ j < c.cells.size,
    (c.cells.cell j).within p0 p1 → seq ∈ (c.cells.cell j).seq → 0 ≤ (c.cells.cell j).pos.tdiv d) :
    (c.seqDiv seq p0 p1 d).Good n := by
  by_cases hnone : d = 1 ∨ lower p0 = upper p1
  · unfold Cache.seqDiv
    split
    · exact h
    · rwa [if_pos (hnone.resolve_left ‹_›)]
  · rw [not_or] at hnone
    refine h.each (h.ok.seqDiv seq hnone.1 hnone.2 hdiv) fun i hi => ?_
    unfold Cell.divided
    split
    · rename_i hc
      -- a quotient is not larger than what is divided
      have hpos := h.ok.rep.nonneg i hi (h.ok.rep.pos_ne hi hc.2)
      have hle := Int.natAbs_tdiv_le_natAbs (c.cells.cell i).pos d
      have := h.bounded i hi
      dsimp only
      omega
    · exact h.bounded i hi

/-! ### Storing tokens -/

theorem Rep.write {d : Cells} (h : Rep d) (rm : Nat → Int) {i : Nat} (hi : i < d.size) {p : Int} {ids : List Nat}
    (hp : 0 ≤ p) (hne : ids ≠ []) (hnodup : ids.Nodup) :
    Rep (d.write rm i p ids).1 ∧ (d.write rm i p ids).1.size = d.size ∧
      (d.write rm i p ids).1.cell = Function.update d.cell i ⟨p, 0, ids.toFinset⟩ := by
  unfold Cells.write
  split
  · rename_i he
    have hempty := of_decide_eq_true he
    obtain ⟨h1, -, h3, -⟩ := h.place_spec (p := p) hi hempty hnodup
    exact ⟨h.place hi hempty hnodup hne hp, h1, h3⟩
  · have hrm := h.rm hi
    have hempty : ((d.rm i).cell i).pos = -1 := by
      change (Function.update d.cell i {} i).pos = -1
      rw [Function.update_self]
    obtain ⟨h1, -, h3, -⟩ := hrm.place_spec (p := p) hi hempty hnodup
    refine ⟨hrm.place hi hempty hnodup hne hp, h1, h3.trans ?_⟩
    change Function.update (Function.update d.cell i {}) i _ = _
    rw [Function.update_idem]

theorem Cache.Good.writeRows : ∀ (idxs : List Nat) (rows : List (Row D)) (c : Cache D) (rm : Nat → Int), c.Good n →
    (∀ i ∈ idxs, i < n) → (∀ r ∈ rows, r.Ok ∧ r.pos ≤ posMax) → (c.writeRows rm idxs rows).1.Good n
  | [], _, _, _, h, _, _ => h
  | _ :: _, [], _, _, h, _, _ => h
  | i :: idxs, r :: rows, c, rm, h, hlt, hok => by
    have hi : i < c.cells.size := by
      rw [h.size_eq]
      exact hlt i List.mem_cons_self
    obtain ⟨hr, hle⟩ := hok r List.mem_cons_self
    obtain ⟨h1, h2, h3⟩ := h.ok.rep.write rm hi hr.pos hr.ne hr.nodup
    rw [Cache.writeRows]
    refine Cache.Good.writeRows idxs rows _ _ ⟨⟨h1, ?_⟩, fun j hj => ?_, h2.trans h.size_eq⟩
      (fun j hj => hlt j (List.mem_cons_of_mem _ hj)) (fun q hq => hok q (List.mem_cons_of_mem _ hq))
    · dsimp only
      rw [h2]
      exact h.ok.head_le
    · dsimp only at hj ⊢
      rw [h2] at hj
      rw [h3]
      by_cases hji : j = i
      · rw [hji, Function.update_self]
        exact hle
      · rw [Function.update_of_ne hji]
        exact h.bounded j hj

theorem Cache.Good.findSlotIn (h : c.Good n) {w : Swa} {nTokens : Nat} {cont : Bool} {idxs : List Nat} (hpos : 0 < nTokens)
    (hfind : c.findSlotIn w nTokens cont = some idxs) : ∀ i ∈ idxs, i < n := by
  rw [← h.size_eq]
  unfold Cache.findSlotIn at hfind
  dsimp only at hfind
  split at hfind
  · cases hfind
  · have hhead := h.ok.head_le
    split at hfind
    · obtain ⟨start, hseek, rfl⟩ := Option.map_eq_some_iff.mp hfind
      obtain ⟨hfit, -⟩ := seekRun_spec hseek
      intro i hi
      have := List.mem_range'_1.mp hi
      omega
    · obtain ⟨-, hall, -⟩ := collect_spec (by omega) _ _ _ hpos (by split <;> omega) le_rfl hfind
      exact fun i hi => (hall i hi).1

end Good

/-! ### Copies between streams -/

/-- A cell that is copied, in a stream where it is empty. -/
theorem Rep.copyCell {src d : Cells} (hsrc : Rep src) (hd : Rep d) {seq i : Nat} (dst : Nat) (hi : i < d.size)
    (hsi : i < src.size)
    (hempty : (d.cell i).pos = -1) (hs : seq ∈ (src.cell i).seq) :
    Rep (src.copyCell seq dst d i) ∧ (src.copyCell seq dst d i).size = d.size ∧
      (src.copyCell seq dst d i).cell = Function.update d.cell i { src.cell i with seq := {dst} } := by
  have hnonneg := hsrc.nonneg i hsi (hsrc.pos_ne hsi hs)
  obtain ⟨hseq, hshift⟩ := hd.empty i hi hempty
  -- the cell in the end, and what happens to the positions of `dst`
  have key : ∀ e : Cells, e.size = d.size → e.used = insert i d.used →
      e.cell = Function.update d.cell i { src.cell i with seq := {dst} } →
      e.seqPos = Function.update d.seqPos dst ((src.cell i).pos ::ₘ d.seqPos dst) → Rep e := by
    intro e hsize hused hcell hpos
    refine hd.set hi hsize hcell (fun j => ?_) (fun hc => ?_) (fun _ => ⟨Finset.singleton_ne_empty dst, hnonneg⟩)
      fun s rest hrest => ?_
    · rw [hused, Finset.mem_insert]
      by_cases hj : j = i
      · rw [if_pos hj]
        exact ⟨fun _ hc => by dsimp only at hc; omega, fun _ => .inl hj⟩
      · rw [if_neg hj]
        exact ⟨fun hc => hc.resolve_left hj, .inr⟩
    · dsimp only at hc
      omega
    · rw [Cell.contrib, hseq, if_neg (Finset.notMem_empty s), zero_add] at hrest
      rw [hpos, Cell.contrib]
      dsimp only
      by_cases hsd : s = dst
      · rw [hsd, Function.update_self, if_pos (Finset.mem_singleton_self dst), ← hsd, hrest, Multiset.singleton_add]
      · rw [Function.update_of_ne hsd, if_neg fun hc => hsd (Finset.mem_singleton.mp hc), zero_add, hrest]
  have hhas : src.seqHas i seq = true := decide_eq_true hs
  unfold Cells.copyCell
  rw [if_pos hhas]
  dsimp only
  split
  · rename_i hzero
    have hcell : ((d.posSet i (src.cell i).pos).seqAdd i dst).cell =
        Function.update d.cell i { src.cell i with seq := {dst} } := by
      funext j
      by_cases hj : j = i
      · subst hj
        simp [Cells.posSet, Cells.seqAdd, Cells.set, Cells.seqPosInc, hseq, hshift, hzero]
      · simp [Cells.posSet, Cells.seqAdd, Cells.set, Cells.seqPosInc, hj]
    refine ⟨key _ rfl rfl hcell ?_, rfl, hcell⟩
    simp [Cells.posSet, Cells.seqAdd, Cells.set, Cells.seqPosInc]
  · have hback : (src.cell i).pos - (src.cell i).shift + (src.cell i).shift = (src.cell i).pos := by omega
    have hadd : ((d.posSet i ((src.cell i).pos - (src.cell i).shift)).seqAdd i dst).posAdd i (src.cell i).shift =
        (false, ((({ ((d.posSet i ((src.cell i).pos - (src.cell i).shift)).seqAdd i dst).seqPosRm i with
          hasShift := true } : Cells).set i { src.cell i with seq := {dst} }).seqPosAdd i)) := by
      unfold Cells.posAdd
      simp only [Cells.posSet, Cells.seqAdd, Cells.set, Cells.seqPosInc, Function.update_self, hseq, hshift, hback,
        zero_add, insert_empty_eq]
      rw [if_neg (by omega)]
    rw [hadd]
    have hcell : (({ ((d.posSet i ((src.cell i).pos - (src.cell i).shift)).seqAdd i dst).seqPosRm i with
          hasShift := true } : Cells).set i { src.cell i with seq := {dst} }).cell =
        Function.update d.cell i { src.cell i with seq := {dst} } := by
      funext j
      by_cases hj : j = i
      · subst hj
        simp [Cells.set]
      · simp [Cells.posSet, Cells.seqAdd, Cells.set, Cells.seqPosInc, Cells.seqPosRm, hj]
    refine ⟨key _ rfl rfl hcell ?_, rfl, hcell⟩
    funext s
    rw [seqPosAdd_eq, hcell, Function.update_self]
    unfold Cell.contrib
    dsimp only
    by_cases hsd : s = dst
    · subst hsd
      rw [Function.update_self, if_pos (Finset.mem_singleton_self s), Multiset.singleton_add]
      simp [Cells.posSet, Cells.seqAdd, Cells.set, Cells.seqPosInc, Cells.seqPosRm, hseq]
    · rw [Function.update_of_ne hsd, if_neg fun hc => hsd (Finset.mem_singleton.mp hc), zero_add]
      simp [Cells.posSet, Cells.seqAdd, Cells.set, Cells.seqPosInc, Cells.seqPosRm, hseq, hsd]

/-- The cells of `seq` alone, for `dst`. -/
theorem Rep.copyCells {src d : Cells} (hsrc : Rep src) (hd : Rep d) (hsize : d.size = src.size) (seq dst : Nat) :
    Rep ((List.range src.size).foldl (src.copyCell seq dst) d.reset) ∧
      ((List.range src.size).foldl (src.copyCell seq dst) d.reset).size = src.size ∧
      ∀ j < src.size, ((List.range src.size).foldl (src.copyCell seq dst) d.reset).cell j =
        if seq ∈ (src.cell j).seq then { src.cell j with seq := {dst} } else {} := by
  have hrun := foldl_range_rule (f := src.copyCell seq dst) (s := d.reset)
    (P := fun i e => Rep e ∧ e.size = src.size ∧ ∀ j < src.size, e.cell j =
      if j < i ∧ seq ∈ (src.cell j).seq then { src.cell j with seq := {dst} } else {})
    ⟨hd.reset, hsize, fun j hj => (if_pos (by rw [hsize]; exact hj)).trans (if_neg fun hc => Nat.not_lt_zero j hc.1).symm⟩
    src.size ?_
  · refine ⟨hrun.1, hrun.2.1, fun j hj => (hrun.2.2 j hj).trans ?_⟩
    exact if_congr (and_iff_right hj) rfl rfl
  · rintro i hi e ⟨hrep, hesize, hcell⟩
    by_cases hs : seq ∈ (src.cell i).seq
    · have hempty : (e.cell i).pos = -1 := by
        rw [hcell i hi, if_neg fun hc => lt_irrefl i hc.1]
      obtain ⟨h1, h2, h3⟩ := hsrc.copyCell hrep dst (by omega) hi hempty hs
      refine ⟨h1, h2.trans hesize, fun j hj => ?_⟩
      rw [h3]
      by_cases hji : j = i
      · rw [hji, Function.update_self, if_pos ⟨Nat.lt_succ_self i, hs⟩]
      · rw [Function.update_of_ne hji, hcell j hj]
        exact if_congr (and_congr_left fun _ => by omega) rfl rfl
    · have hskip : src.copyCell seq dst e i = e := by
        have hhas : ¬ src.seqHas i seq = true := fun hc => hs (of_decide_eq_true hc)
        unfold Cells.copyCell
        rw [if_neg hhas]
      rw [hskip]
      refine ⟨hrep, hesize, fun j hj => (hcell j hj).trans ?_⟩
      by_cases hji : j = i
      · rw [hji, if_neg fun hc => hs hc.2, if_neg fun hc => hs hc.2]
      · exact if_congr (and_congr_left fun _ => by omega) rfl rfl

/-! ## Runs -/

structure Streams.Inv (n : Nat) (st : Streams D) : Prop where
  pos : 0 < st.nStream
  good : ∀ k < st.nStream, (st.strm k).Good n

inductive StreamOp (D : Type) where
  | clear
  | seqRm (seq p0 p1 : Int)
  | seqCp (src dst : Nat) (p0 p1 : Int)
  | seqKeep (seq : Nat)
  | seqAdd (seq : Nat) (p0 p1 shift : Int)
  | seqDiv (seq : Nat) (p0 p1 d : Int)
  | emplace (u : List (Part D)) (cont : Bool)

def streamStep : StreamOp D → Streams D → Option (Streams D)
  | .clear, st => some st.clear
  | .seqRm seq p0 p1, st => st.seqRm seq p0 p1
  | .seqCp src dst p0 p1, st => st.seqCp src dst p0 p1
  | .seqKeep seq, st => st.seqKeep seq
  | .seqAdd seq p0 p1 shift, st => st.seqAdd seq p0 p1 shift
  | .seqDiv seq p0 p1 d, st => st.seqDiv seq p0 p1 d
  | .emplace u cont, st => st.emplace u cont

/-- Tokens with a position and at least one sequence; the parts of a ubatch go to different streams. -/
def StreamOp.wellFormed (st : Streams D) : StreamOp D → Prop
  | .emplace u _ =>
    (u.map fun part => st.streamOf part.seq).Nodup ∧
      ∀ part ∈ u, part.rows ≠ [] ∧ ∀ r ∈ part.rows, -1 ≤ r.pos ∧ r.pos ≤ posMax ∧ r.ids ≠ []
  | .seqAdd seq p0 p1 shift => ∀ j < (st.strm (st.streamOf seq)).cells.size,
      ((st.strm (st.streamOf seq)).cells.cell j).within p0 p1 → seq ∈ ((st.strm (st.streamOf seq)).cells.cell j).seq →
        ((st.strm (st.streamOf seq)).cells.cell j).pos + shift ≤ posMax
  | _ => True

/-- No cell gets a sequence that it has, no position becomes negative. -/
def StreamOp.safe (st : Streams D) (op : StreamOp D) : Prop :=
  op.wellFormed st ∧
    match op with
    | .seqCp src dst p0 p1 =>
      src ≠ dst → st.streamOf src = st.streamOf dst → ∀ j < (st.strm (st.streamOf src)).cells.size,
        ((st.strm (st.streamOf src)).cells.cell j).within p0 p1 →
          src ∈ ((st.strm (st.streamOf src)).cells.cell j).seq → dst ∉ ((st.strm (st.streamOf src)).cells.cell j).seq
    | .seqDiv seq p0 p1 d =>
      ∀ j < (st.strm (st.streamOf seq)).cells.size, ((st.strm (st.streamOf seq)).cells.cell j).within p0 p1 →
        seq ∈ ((st.strm (st.streamOf seq)).cells.cell j).seq →
          0 ≤ ((st.strm (st.streamOf seq)).cells.cell j).pos.tdiv d
    | .emplace u _ => ∀ part ∈ u, ∀ r ∈ part.rows, 0 ≤ r.pos ∧ r.ids.Nodup
    | _ => True

section Inv
variable {n : Nat} {st st' : Streams D}

theorem Streams.Inv.set (h : st.Inv n) {k : Nat} {c : Cache D} (hc : k < st.nStream → c.Good n) : (st.set k c).Inv n where
  pos := h.pos
  good j hj := by
    change (Function.update st.strm k c j).Good n
    by_cases hjk : j = k
    · rw [hjk, Function.update_self]
      exact hc (hjk ▸ hj)
    · rw [Function.update_of_ne hjk]
      exact h.good j hj

theorem Streams.Inv.streamOf_lt (h : st.Inv n) {seq : Nat} (hseq : seq < st.seqCap) : st.streamOf seq < st.nStream := by
  unfold Streams.streamOf
  unfold Streams.seqCap at hseq
  split
  · rename_i hmany
    rwa [if_pos hmany] at hseq
  · exact h.pos

theorem Streams.Inv.onStream (h : st.Inv n) {seq : Nat} {f : Cache D → Cache D}
    (hf : (st.strm (st.streamOf seq)).Good n → (f (st.strm (st.streamOf seq))).Good n)
    (hrun : st.onStream seq f = some st') : st'.Inv n := by
  unfold Streams.onStream at hrun
  split at hrun
  · cases hrun
    exact h.set fun hk => hf (h.good _ hk)
  · cases hrun

theorem Streams.Inv.seqCp (h : st.Inv n) {src dst : Nat} {p0 p1 : Int}
    (hsafe : StreamOp.safe st (.seqCp src dst p0 p1)) (hrun : st.seqCp src dst p0 p1 = some st') : st'.Inv n := by
  unfold Streams.seqCp at hrun
  split at hrun
  · rename_i hcap
    have hsrc := h.good _ (h.streamOf_lt hcap.1)
    have hdst := h.good _ (h.streamOf_lt hcap.2)
    split at hrun
    · rename_i hsame
      cases hrun
      exact h.set fun _ => hsrc.seqCp fun hne => hsafe.2 hne hsame
    · split at hrun
      · cases hrun
        obtain ⟨h1, h2, h3⟩ :=
          hsrc.ok.rep.copyCells hdst.ok.rep (hdst.size_eq.trans hsrc.size_eq.symm) src dst
        refine ⟨h.pos, (h.set fun _ => ⟨⟨h1, ?_⟩, fun j hj => ?_, h2.trans hsrc.size_eq⟩).good⟩
        · dsimp only
          rw [h2]
          exact hsrc.ok.head_le
        · dsimp only at hj ⊢
          rw [h2] at hj
          rw [h3 j hj]
          split
          · exact hsrc.bounded j hj
          · exact pos_empty_le
      · cases hrun
  · cases hrun

theorem Streams.findSlot_lt (h : st.Inv n) {cont : Bool} : ∀ {u : List (Part D)} {slots : List (Part D × List Nat)},
    (∀ part ∈ u, part.seq < st.seqCap ∧ part.rows ≠ []) → st.findSlot cont u = some slots →
    ∀ x ∈ slots, x.1 ∈ u ∧ ∀ i ∈ x.2, i < n
  | [], slots, _, hfind, x, hx => by
    cases hfind
    exact absurd hx List.not_mem_nil
  | part :: u, slots, hu, hfind, x, hx => by
    rw [Streams.findSlot] at hfind
    split at hfind
    · cases hfind
    · rename_i idxs hidxs
      obtain ⟨rest, hrest, rfl⟩ := Option.map_eq_some_iff.mp hfind
      obtain ⟨hcap, hne⟩ := hu part List.mem_cons_self
      rcases List.mem_cons.mp hx with rfl | hx
      · exact ⟨List.mem_cons_self,
          (h.good _ (h.streamOf_lt hcap)).findSlotIn (List.length_pos_iff.mpr hne) hidxs⟩
      · obtain ⟨h1, h2⟩ := Streams.findSlot_lt h (fun q hq => hu q (List.mem_cons_of_mem _ hq)) hrest x hx
        exact ⟨List.mem_cons_of_mem _ h1, h2⟩

theorem Streams.Inv.writeParts : ∀ (slots : List (Part D × List Nat)) (st : Streams D) (rm : Nat → Int), st.Inv n →
    (∀ x ∈ slots, (∀ i ∈ x.2, i < n) ∧ ∀ r ∈ x.1.rows, r.Ok ∧ r.pos ≤ posMax) → (st.writeParts rm slots).1.Inv n
  | [], _, _, h, _ => h
  | (part, idxs) :: slots, st, rm, h, hall => by
    obtain ⟨hlt, hok⟩ := hall _ List.mem_cons_self
    exact Streams.Inv.writeParts slots _ _
      (h.set fun hk => Cache.Good.writeRows idxs part.rows _ rm (h.good _ hk) hlt hok)
      fun x hx => hall x (List.mem_cons_of_mem _ hx)

theorem Streams.Inv.purge (h : st.Inv n) (rm : Nat → Int) : (st.purge rm).Inv n := by
  unfold Streams.purge
  refine foldl_range_rule (P := fun _ (st : Streams D) => st.Inv n) h maxSeq ?_
  intro s _ t ht
  dsimp only
  split
  · exact ht
  · split
    · exact ht.set fun hk => (ht.good _ hk).seqRm _ _ _
    · exact ht

theorem Streams.Inv.setHeads : ∀ (slots : List (Part D × List Nat)) (st : Streams D), st.Inv n →
    (∀ x ∈ slots, ∀ i ∈ x.2, i < n) → (st.setHeads slots).Inv n
  | [], _, h, _ => h
  | (part, idxs) :: slots, st, h, hlt => by
    refine Streams.Inv.setHeads slots _ (h.set fun hk => ?_) fun x hx => hlt x (List.mem_cons_of_mem _ hx)
    have hgood := h.good _ hk
    refine ⟨⟨hgood.ok.rep, ?_⟩, hgood.bounded, hgood.size_eq⟩
    cases hlast : idxs.getLast? with
    | none => exact Nat.zero_le _
    | some i =>
        have hi := hlt _ List.mem_cons_self i (List.mem_of_getLast? hlast)
        have hsize := hgood.size_eq
        dsimp only [Option.elim_some]
        omega

theorem Streams.Inv.emplace (h : st.Inv n) {u : List (Part D)} {cont : Bool} (hsafe : StreamOp.safe st (.emplace u cont))
    (hrun : st.emplace u cont = some st') : st'.Inv n := by
  unfold Streams.emplace at hrun
  split at hrun
  · rename_i hadmits
    obtain ⟨slots, hfind, rfl⟩ := Option.map_eq_some_iff.mp hrun
    have hcap : ∀ part ∈ u, part.seq < st.seqCap ∧ part.rows ≠ [] := by
      intro part hpart
      have hadm := List.all_eq_true.mp hadmits part hpart
      rw [Bool.and_eq_true] at hadm
      exact ⟨of_decide_eq_true hadm.1, (hsafe.1.2 part hpart).1⟩
    have hslots := Streams.findSlot_lt h hcap hfind
    refine Streams.Inv.setHeads slots _ (Streams.Inv.purge (Streams.Inv.writeParts slots st _ h fun x hx => ?_) _)
      fun x hx => (hslots x hx).2
    obtain ⟨hmem, hlt⟩ := hslots x hx
    refine ⟨hlt, fun r hr => ?_⟩
    obtain ⟨-, hle, hne⟩ := (hsafe.1.2 _ hmem).2 r hr
    obtain ⟨hpos, hnodup⟩ := hsafe.2 _ hmem r hr
    exact ⟨⟨hpos, hne, hnodup⟩, hle⟩
  · cases hrun

theorem Streams.Inv.step {op : StreamOp D} (h : st.Inv n) (hsafe : op.safe st) (hstep : streamStep op st = some st') :
    st'.Inv n := by
  cases op with
  | clear =>
      cases hstep
      refine ⟨h.pos, fun k hk => ?_⟩
      have hlt : k < st.nStream := hk
      change (if k < st.nStream then _ else _ : Cache D).Good n
      rw [if_pos hlt]
      exact (h.good k hlt).clear
  | seqRm seq p0 p1 =>
      change st.seqRm seq p0 p1 = some st' at hstep
      unfold Streams.seqRm at hstep
      split at hstep
      · cases hstep
        refine ⟨h.pos, fun k hk => ?_⟩
        change (if k < st.nStream then _ else _ : Cache D).Good n
        rw [if_pos hk]
        exact (h.good k hk).seqRm seq p0 p1
      · split at hstep
        · cases hstep
          exact h.set fun hk => (h.good _ hk).seqRm seq p0 p1
        · cases hstep
  | seqCp src dst p0 p1 => exact h.seqCp hsafe hstep
  | seqKeep seq =>
      change st.onStream seq (fun c => c.seqKeep seq) = some st' at hstep
      exact h.onStream (fun hg => hg.seqKeep seq) hstep
  | seqAdd seq p0 p1 shift =>
      change st.onStream seq (fun c => c.seqAdd seq p0 p1 shift) = some st' at hstep
      exact h.onStream (fun hg => hg.seqAdd hsafe.1) hstep
  | seqDiv seq p0 p1 d =>
      change st.seqDiv seq p0 p1 d = some st' at hstep
      unfold Streams.seqDiv at hstep
      split at hstep
      · cases hstep
      · exact h.onStream (fun hg => hg.seqDiv hsafe.2) hstep
  | emplace u cont => exact h.emplace hsafe hstep

/-- An empty cache. -/
def Streams.create (swa : Swa) (nStream size : Nat) (data : Nat → Nat → D) : Streams D where
  swa := swa
  nStream := nStream
  strm k := { cells := { size := size }, data := data k }

/-- **The cells of every stream keep their invariant in every run of safe steps.** -/
theorem reaches_cellsInv (swa : Swa) {nStream : Nat} (hpos : 0 < nStream) (size : Nat) (data : Nat → Nat → D) (st : Streams D)
    (h : Reaches streamStep StreamOp.safe (Streams.create swa nStream size data) st) :
    ∀ k < st.nStream, CellsInv (st.strm k).cells := by
  have hstart : (Streams.create swa nStream size data).Inv size :=
    ⟨hpos, fun k _ => ⟨⟨Rep.init size, Nat.zero_le _⟩, fun _ _ => pos_empty_le, rfl⟩⟩
  have hinv : st.Inv size := h.invariant hstart fun _ _ _ hi hs hstep => hi.step hs hstep
  exact fun k hk => (hinv.good k hk).ok.rep.cellsInv (hinv.good k hk).bounded

end Inv

end

/-! ## A copy, and the same copy again -/

def twoCells : Streams Unit := Streams.create {} 1 2 fun _ _ => ()

def firstToken : StreamOp Unit := .emplace [⟨0, [⟨0, [0], ()⟩]⟩] false

def copyZero : StreamOp Unit := .seqCp 0 1 (-1) (-1)

theorem firstToken_safe : firstToken.safe twoCells := by
  refine ⟨⟨by decide, fun part hpart => ?_⟩, fun part hpart r hr => ?_⟩
  · rw [List.mem_singleton.mp hpart]
    refine ⟨List.cons_ne_nil _ _, fun r hr => ?_⟩
    rw [List.mem_singleton.mp hr]
    decide
  · rw [List.mem_singleton.mp hpart] at hr
    rw [List.mem_singleton.mp hr]
    decide

theorem reaches_cellsInv_copied :
    ∃ st st', streamStep firstToken twoCells = some st ∧ streamStep copyZero st = some st' ∧
      (st'.strm 0).cells.seqPosMax 1 = 0 ∧ CellsInv (st'.strm 0).cells := by
  have hone : ((streamStep firstToken twoCells).map fun st =>
      (st.nStream, (st.strm 0).cells.size, (st.strm 0).cells.cell 0, (st.strm 0).cells.cell 1)) =
      some (1, 2, ⟨0, 0, {0}⟩, {}) := by decide +kernel
  obtain ⟨st, hst, heq⟩ := Option.map_eq_some_iff.mp hone
  simp only [Prod.mk.injEq] at heq
  obtain ⟨hn, hsize, hzero, hnext⟩ := heq
  have htwo : ((runList streamStep [firstToken, copyZero] twoCells).map fun st =>
      (st.nStream, (st.strm 0).cells.seqPosMax 1)) = some (1, 0) := by decide +kernel
  obtain ⟨st', hst', heq⟩ := Option.map_eq_some_iff.mp htwo
  obtain ⟨hn', hmax⟩ := Prod.mk.inj heq
  have hcopy : streamStep copyZero st = some st' := by
    rw [runList, hst] at hst'
    dsimp only at hst'
    rw [runList] at hst'
    split at hst'
    · cases hst'
    · rename_i hstep
      rw [hstep]
      exact hst'
  have hsafe : copyZero.safe st := by
    refine ⟨trivial, fun _ _ j hj _ hs => ?_⟩
    have hstream : st.streamOf 0 = 0 := if_neg (by omega)
    rw [hstream] at hj hs ⊢
    rw [hsize] at hj
    interval_cases j
    · rw [hzero]
      decide
    · rw [hnext] at hs
      exact absurd hs (Finset.notMem_empty 0)
  refine ⟨st, st', hst, hcopy, hmax, ?_⟩
  exact reaches_cellsInv {} Nat.one_pos 2 _ st' (.step copyZero (.step firstToken .start firstToken_safe hst) hsafe hcopy) 0
    (by omega)

/-- The second copy counts the cell of sequence 1 once more. -/
theorem seqCp_counts_twice :
    ¬ ∀ st, Reaches streamStep (fun st op => StreamOp.wellFormed st op) twoCells st →
      ∀ k < st.nStream, CellsInv (st.strm k).cells := by
  intro h
  have hrun : ((runList streamStep [firstToken, copyZero, copyZero] twoCells).map fun st =>
      (st.nStream, ((st.strm 0).cells.seqPos 1).count 0, ((st.strm 0).cells.holding 1 0).card)) =
      some (1, 2, 1) := by decide +kernel
  obtain ⟨st, hst, heq⟩ := Option.map_eq_some_iff.mp hrun
  simp only [Prod.mk.injEq] at heq
  obtain ⟨hn, hcount, hcard⟩ := heq
  have hreach : Reaches streamStep (fun st op => StreamOp.wellFormed st op) twoCells st := by
    rw [runList] at hst
    split at hst
    · cases hst
    · rename_i one hone
      exact Reaches.runList (.step firstToken .start firstToken_safe.1 hone)
        (fun op hop _ => by
          rcases List.mem_cons.mp hop with rfl | hop
          · trivial
          · rw [List.mem_singleton.mp hop]
            trivial) hst
  have hinv := (h st hreach 0 (by omega)).count 1 0
  omega

end S2Moe.Kv
