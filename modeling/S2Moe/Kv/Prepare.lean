import S2Moe.Kv.Apply

/-!
# `prepare`

Slots for all ubatches of a batch are found by storing them one after the other; the cells and heads are put back in the end.

* `Cells.cp`, `Cells.setCells` : copies of some cells, and their return;
* `Saved` : an entry of the recovery stack; the old heads are those of all streams, and are read with the number of the part;
* `prepare` : the dry run and its undoing;
* `Undone` : every step of the dry run can be taken back; `prepare_pure` : exactly then nothing has changed, and without a
  window and with one stream always (`prepare_pure_unified`).
-/

namespace S2Moe.Kv
open S2Moe.Lib
open S2Moe.Recurrent (posMax)

namespace Cells

/-- `cp` : positions and sequences without the shifts. -/
def cp (c : Cells) (idxs : List Nat) : List Cell := idxs.map fun i => { c.cell i with shift := 0 }

/-- One cell of `set`, whose shift stays. -/
def setCell (c : Cells) (i : Nat) (x : Cell) : Cells :=
  let y := c.cell i
  let d := if y.pos = -1 ∧ x.pos ≠ -1 then { c with used := insert i c.used } else c
  let d := if y.pos ≠ -1 ∧ x.pos = -1 then d.eraseUsed i else d
  let d := if y.pos ≠ -1 then d.seqPosRm i else d
  let d := d.set i { x with shift := y.shift }
  if x.pos ≠ -1 then d.seqPosAdd i else d

/-- `set` of some cells. -/
def setCells (c : Cells) : List Nat → List Cell → Cells
  | i :: idxs, x :: saved => (c.setCell i x).setCells idxs saved
  | _, _ => c

end Cells

/-- `state_t`: the slots, all heads and the cells of the slots from before the ubatch. -/
structure Saved where
  slots : List (Part Unit × List Nat)
  heads : Nat → Nat
  cells : List (List Cell)

namespace Streams

def save (st : Streams Unit) (slots : List (Part Unit × List Nat)) : Saved where
  slots := slots
  heads k := (st.strm k).head
  cells := slots.map fun x => (st.strm (st.streamOf x.1.seq)).cells.cp x.2

/-- The cells go back to their streams; the head comes from the entry of `heads` with the number of the part. -/
def restoreParts (heads : Nat → Nat) : Nat → List (Part Unit × List Nat) → List (List Cell) → Streams Unit → Streams Unit
  | s, x :: slots, saved :: cells, st =>
    let c := st.strm (st.streamOf x.1.seq)
    restoreParts heads (s + 1) slots cells
      (st.set (st.streamOf x.1.seq) { c with cells := c.cells.setCells x.2 saved, head := heads s })
  | _, _, _, st => st

def restore (state : Saved) (st : Streams Unit) : Streams Unit := restoreParts state.heads 0 state.slots state.cells st

/-- Whether slots were found for all ubatches, the recovery stack and the cache; nothing if an assertion fails. -/
def dryRun (st : Streams Unit) : List (List (Part Unit)) → Option (Bool × List Saved × Streams Unit)
  | [] => some (true, [], st)
  | u :: us =>
    if st.admits u then
      match st.findSlot false u with
      | none => some (false, [], st)
      | some slots => (dryRun (st.applyUbatch slots) us).map fun r => (r.1, st.save slots :: r.2.1, r.2.2)
    else none

/-- The last entry of the stack first. -/
def undo (states : List Saved) (st : Streams Unit) : Streams Unit := states.foldr restore st

/-- The slots if there are some for all ubatches, and the cache in the end. -/
def prepare (st : Streams Unit) (us : List (List (Part Unit))) :
    Option (Option (List (List (Part Unit × List Nat))) × Streams Unit) :=
  (st.dryRun us).bind fun r =>
    if r.1 && r.2.1.isEmpty then none
    else some (if r.1 then some (r.2.1.map Saved.slots) else none, undo r.2.1 r.2.2)

end Streams

/-! ## Cells that are put back -/

theorem Rep.setCell {c : Cells} (h : Rep c) {i : Nat} (hi : i < c.size) {x : Cell} (hshift : (c.cell i).shift = 0)
    (hempty : x.pos = -1 → x.seq = ∅) (hfull : x.pos ≠ -1 → x.seq ≠ ∅ ∧ 0 ≤ x.pos) :
    Rep (c.setCell i x) ∧ (c.setCell i x).size = c.size ∧
      (c.setCell i x).cell = Function.update c.cell i { x with shift := 0 } := by
  have hcell : (c.setCell i x).cell = Function.update c.cell i { x with shift := 0 } := by
    unfold Cells.setCell
    simp only [hshift]
    split_ifs <;> rfl
  have hsize : (c.setCell i x).size = c.size := by
    unfold Cells.setCell
    dsimp only
    split_ifs <;> rfl
  refine ⟨h.set hi hsize hcell (fun j => ?_) (fun hc => ⟨hempty hc, rfl⟩) hfull fun s rest hrest => ?_, hsize, hcell⟩
  · have hused : (c.setCell i x).used = if x.pos = -1 then c.used.erase i else insert i c.used := by
      by_cases hy : (c.cell i).pos = -1
      · have hnot : i ∉ c.used := fun hu => ((h.used_iff i).mp hu).2 hy
        by_cases hx : x.pos = -1
        · simp [Cells.setCell, Cells.set, hy, hx, Finset.erase_eq_of_notMem hnot]
        · simp [Cells.setCell, Cells.set, Cells.seqPosAdd, hy, hx]
      · have hmem : i ∈ c.used := (h.used_iff i).mpr ⟨hi, hy⟩
        by_cases hx : x.pos = -1
        · simp [Cells.setCell, Cells.set, Cells.seqPosRm, Cells.eraseUsed, hy, hx]
        · simp [Cells.setCell, Cells.set, Cells.seqPosAdd, Cells.seqPosRm, hy, hx, Finset.insert_eq_of_mem hmem]
    rw [hused]
    dsimp only
    by_cases hx : x.pos = -1
    · rw [if_pos hx, Finset.mem_erase]
      split
      · rename_i hj
        exact ⟨fun hc => absurd hj hc.1, fun hc => absurd hx hc⟩
      · exact and_iff_right ‹_›
    · rw [if_neg hx, Finset.mem_insert]
      split
      · exact ⟨fun _ => hx, fun _ => .inl ‹_›⟩
      · exact or_iff_right ‹_›
  · -- the positions without those of the old cell
    have hout : ((if (c.cell i).pos ≠ -1 then c.seqPosRm i else c).seqPos s) = rest := by
      split
      · exact seqPosRm_eq hrest
      · rename_i hy
        rw [Cell.contrib, (h.empty i hi (not_not.mp hy)).1, if_neg (Finset.notMem_empty s), zero_add] at hrest
        exact hrest
    have hnone : x.pos = -1 → ({ x with shift := 0 } : Cell).contrib s = 0 := by
      intro hx
      unfold Cell.contrib
      dsimp only
      rw [hempty hx, if_neg (Finset.notMem_empty s)]
    rw [← hout]
    by_cases hx : x.pos = -1
    · rw [hnone hx, zero_add]
      by_cases hy : (c.cell i).pos = -1
      · simp [Cells.setCell, Cells.set, hy, hx]
      · simp [Cells.setCell, Cells.set, Cells.seqPosRm, Cells.eraseUsed, hy, hx]
    · by_cases hy : (c.cell i).pos = -1
      · simp only [Cells.setCell, hy, hx, ne_eq, not_true_eq_false, not_false_eq_true, and_self, if_true, if_false]
        rw [seqPosAdd_eq]
        simp [Cells.set, Cell.contrib]
      · simp only [Cells.setCell, hy, hx, ne_eq, not_false_eq_true, and_false, false_and, if_true, if_false]
        rw [seqPosAdd_eq]
        simp [Cells.set, Cells.seqPosRm, Cell.contrib]

/-- What `set` needs of the cells it gets. -/
def Cell.Sound (x : Cell) : Prop := (x.pos = -1 → x.seq = ∅) ∧ (x.pos ≠ -1 → x.seq ≠ ∅ ∧ 0 ≤ x.pos)

theorem Rep.sound {c : Cells} (h : Rep c) {i : Nat} (hi : i < c.size) : (c.cell i).Sound :=
  ⟨fun he => (h.empty i hi he).1, fun hne => ⟨h.full i hi hne, h.nonneg i hi hne⟩⟩

/-- Cells that are put back are as they were copied, those without shift wholly. -/
theorem Rep.setCells {src : Cells} (hsrc : ∀ i < src.size, (src.cell i).Sound) : ∀ (idxs : List Nat) {c : Cells}, Rep c →
    c.size = src.size → idxs.Nodup → (∀ i ∈ idxs, i < src.size ∧ (c.cell i).shift = 0) →
    Rep (c.setCells idxs (src.cp idxs)) ∧ (c.setCells idxs (src.cp idxs)).size = src.size ∧
      ∀ i, (c.setCells idxs (src.cp idxs)).cell i = if i ∈ idxs then { src.cell i with shift := 0 } else c.cell i
  | [], c, h, hsize, _, _ => ⟨h, hsize, fun i => (if_neg List.not_mem_nil).symm⟩
  | j :: idxs, c, h, hsize, hnodup, hidxs => by
    obtain ⟨hnot, hnodup⟩ := List.nodup_cons.mp hnodup
    obtain ⟨hj, hshift⟩ := hidxs j List.mem_cons_self
    obtain ⟨hempty, hfull⟩ := hsrc j hj
    obtain ⟨h1, h2, h3⟩ := h.setCell (by rw [hsize]; exact hj) hshift (x := { src.cell j with shift := 0 }) hempty hfull
    obtain ⟨h4, h5, h6⟩ := Rep.setCells hsrc idxs h1 (h2.trans hsize) hnodup fun i hi => by
      refine ⟨(hidxs i (List.mem_cons_of_mem _ hi)).1, ?_⟩
      have hne : i ≠ j := fun hc => hnot (hc ▸ hi)
      rw [h3, Function.update_of_ne hne]
      exact (hidxs i (List.mem_cons_of_mem _ hi)).2
    refine ⟨h4, h5, fun i => (h6 i).trans ?_⟩
    rw [h3]
    by_cases hij : i = j
    · subst hij
      rw [if_neg hnot, Function.update_self, if_pos List.mem_cons_self]
    · rw [Function.update_of_ne hij]
      exact if_congr ⟨List.mem_cons_of_mem _, fun hc => (List.mem_cons.mp hc).resolve_left hij⟩ rfl rfl

namespace Streams

/-- Cell `i` of stream `k` is in one of the slots. -/
def InSlots (st : Streams Unit) (slots : List (Part Unit × List Nat)) (k i : Nat) : Prop :=
  ∃ x ∈ slots, st.streamOf x.1.seq = k ∧ i ∈ x.2

section
variable {n : Nat} {st : Streams Unit}

/-- The cells and heads behind one entry of the recovery stack. -/
theorem restoreParts_spec (h : st.Inv n) (heads : Nat → Nat) : ∀ (slots : List (Part Unit × List Nat)) (s : Nat)
    (cur : Streams Unit), st.Slotted n slots → cur.Inv n → cur.nStream = st.nStream →
    (∀ k i, st.InSlots slots k i → ((cur.strm k).cells.cell i).shift = 0) → (∀ j < slots.length, heads (s + j) ≤ n) →
    let fin := restoreParts heads s slots (slots.map fun x => (st.strm (st.streamOf x.1.seq)).cells.cp x.2) cur
    fin.Inv n ∧ fin.nStream = st.nStream ∧
      (∀ k i, st.InSlots slots k i → (fin.strm k).cells.cell i = { (st.strm k).cells.cell i with shift := 0 }) ∧
      (∀ k i, ¬ st.InSlots slots k i → (fin.strm k).cells.cell i = (cur.strm k).cells.cell i) ∧
      (∀ j x, slots[j]? = some x → (fin.strm (st.streamOf x.1.seq)).head = heads (s + j)) ∧
      ∀ k, (∀ x ∈ slots, st.streamOf x.1.seq ≠ k) → fin.strm k = cur.strm k
  | [], _, _, _, hcur, hn, _, _ =>
    ⟨hcur, hn, fun _ _ hin => (by obtain ⟨_, hx, -⟩ := hin; cases hx), fun _ _ _ => rfl, fun _ _ hx => (by cases hx),
      fun _ _ => rfl⟩
  | x :: slots, s, cur, hs, hcur, hn, hshift, hheads => by
    have hstream : cur.streamOf = st.streamOf := by
      funext t
      unfold streamOf
      rw [hn]
    have hk := hs.stream x List.mem_cons_self
    have hgood := hcur.good _ (hn.symm ▸ hk)
    have hsrc := h.good _ hk
    obtain ⟨c1, c2, c3⟩ := Rep.setCells (fun i hi => hsrc.ok.rep.sound hi) x.2 hgood.ok.rep
      (hgood.size_eq.trans hsrc.size_eq.symm) (hs.nodup x List.mem_cons_self) fun i hi =>
        ⟨hsrc.size_eq.symm ▸ hs.lt x List.mem_cons_self i hi, hshift _ i ⟨x, List.mem_cons_self, rfl, hi⟩⟩
    rw [List.map_cons, restoreParts, hstream]
    dsimp only
    generalize hnew : ({ cur.strm (st.streamOf x.1.seq) with
      cells := (cur.strm (st.streamOf x.1.seq)).cells.setCells x.2 ((st.strm (st.streamOf x.1.seq)).cells.cp x.2),
      head := heads s } : Cache Unit) = c
    have hcells : c.cells =
        (cur.strm (st.streamOf x.1.seq)).cells.setCells x.2 ((st.strm (st.streamOf x.1.seq)).cells.cp x.2) := by rw [← hnew]
    have hhead : c.head = heads s := by rw [← hnew]
    rw [← hcells] at c1 c2 c3
    have hcgood : c.Good n := by
      refine ⟨⟨c1, ?_⟩, fun i hi => ?_, c2.trans hsrc.size_eq⟩
      · rw [c2, hsrc.size_eq, hhead]
        exact hheads 0 (Nat.succ_pos _)
      · rw [c3]
        rw [c2] at hi
        split
        · exact hsrc.bounded i hi
        · exact hgood.bounded i (by rw [hgood.size_eq, ← hsrc.size_eq]; exact hi)
    have hself : (cur.set (st.streamOf x.1.seq) c).strm (st.streamOf x.1.seq) = c := Function.update_self _ _ _
    have hother : ∀ k, st.streamOf x.1.seq ≠ k → (cur.set (st.streamOf x.1.seq) c).strm k = cur.strm k :=
      fun k hk => Function.update_of_ne (Ne.symm hk) _ _
    have hne : ∀ y ∈ slots, st.streamOf y.1.seq ≠ st.streamOf x.1.seq := fun y hy => hs.ne hy
    have hshift' : ∀ k i, st.InSlots slots k i → (((cur.set (st.streamOf x.1.seq) c).strm k).cells.cell i).shift = 0 := by
      rintro k i ⟨y, hy, hyk, hi⟩
      rw [hother k fun hc => hne y hy (hyk.trans hc.symm)]
      exact hshift k i ⟨y, List.mem_cons_of_mem _ hy, hyk, hi⟩
    have hheads' : ∀ j < slots.length, heads (s + 1 + j) ≤ n := by
      intro j hj
      rw [Nat.add_right_comm, Nat.add_assoc]
      exact hheads (j + 1) (Nat.succ_lt_succ hj)
    obtain ⟨r1, r2, r3, r4, r5, r6⟩ := restoreParts_spec h heads slots (s + 1) (cur.set (st.streamOf x.1.seq) c) hs.tail
      (hcur.set fun _ => hcgood) hn hshift' hheads'
    refine ⟨r1, r2, fun k i hin => ?_, fun k i hout => ?_, fun j y hy => ?_, fun k hk => ?_⟩
    · obtain ⟨y, hy, rfl, hi⟩ := hin
      rcases List.mem_cons.mp hy with rfl | hy
      · rw [r6 _ hne, hself, c3, if_pos hi]
      · exact r3 _ i ⟨y, hy, rfl, hi⟩
    · rw [r4 k i fun ⟨y, hy, hyk, hi⟩ => hout ⟨y, List.mem_cons_of_mem _ hy, hyk, hi⟩]
      by_cases hxk : st.streamOf x.1.seq = k
      · rw [← hxk, hself, c3, if_neg fun hi => hout ⟨x, List.mem_cons_self, hxk, hi⟩]
      · rw [hother k hxk]
    · cases j with
      | zero =>
          obtain rfl : x = y := by simpa using hy
          rw [r6 _ hne, hself]
          exact hhead
      | succ j =>
          rw [r5 j y (by simpa using hy), Nat.add_right_comm, Nat.add_assoc]
    · rw [r6 k fun y hy => hk y (List.mem_cons_of_mem _ hy), hother k (hk x List.mem_cons_self)]

end

/-! ## Steps that can be taken back -/

/-- Each step of the dry run can be taken back: the cells of `touched` and the streams of `moved` are in the slots of
earlier ubatches. A sequence that loses a cell of this slot has its earlier cells in slots too, cells in a slot for the
first time have no shift that is not applied yet, and the heads agree between a stream that gets tokens for the first time
and the stream whose number is the place of its part in the ubatch. -/
def Undone (touched : Nat → Nat → Prop) (moved : Nat → Prop) (st : Streams Unit) : List (List (Part Unit)) → Prop
  | [] => True
  | u :: us =>
    match st.findSlot false u with
    | none => True
    | some slots =>
      (∀ s p, st.Taken slots s p → ∀ k < st.nStream, ∀ i < (st.strm k).cells.size,
          s ∈ ((st.strm k).cells.cell i).seq → ((st.strm k).cells.cell i).pos ≤ p → touched k i ∨ st.InSlots slots k i) ∧
        (∀ k i, st.InSlots slots k i → touched k i ∨ ((st.strm k).cells.cell i).shift = 0) ∧
        (∀ s x, slots[s]? = some x →
          moved (st.streamOf x.1.seq) ∨ (st.strm s).head = (st.strm (st.streamOf x.1.seq)).head) ∧
        Undone (fun k i => touched k i ∨ st.InSlots slots k i)
          (fun k => moved k ∨ ∃ x ∈ slots, st.streamOf x.1.seq = k) (st.applyUbatch slots) us

/-- The caches agree, but for the cells of `touched` and the heads of `moved`. -/
structure Agree (n : Nat) (touched : Nat → Nat → Prop) (moved : Nat → Prop) (st fin : Streams Unit) : Prop where
  cell : ∀ k < st.nStream, ∀ i < n, ¬ touched k i → (fin.strm k).cells.cell i = (st.strm k).cells.cell i
  head : ∀ k < st.nStream, ¬ moved k → (fin.strm k).head = (st.strm k).head

section
variable {n : Nat} {st : Streams Unit}

theorem Slotted.length_le {slots : List (Part Unit × List Nat)} (hs : st.Slotted n slots) : slots.length ≤ st.nStream := by
  have hsub : (slots.map fun x => st.streamOf x.1.seq) ⊆ List.range st.nStream := by
    intro k hk
    obtain ⟨x, hx, rfl⟩ := List.mem_map.mp hk
    exact List.mem_range.mpr (hs.stream x hx)
  have hle := (hs.distinct.subperm hsub).length_le
  rwa [List.length_map, List.length_range] at hle

/-- What the entry of one ubatch brings back, over what the later ones have left. -/
theorem restore_spec (h : st.Inv n) {slots : List (Part Unit × List Nat)} (hs : st.Slotted n slots) {cur : Streams Unit}
    (hcur : cur.Inv n) (hn : cur.nStream = st.nStream)
    (hshift : ∀ k i, st.InSlots slots k i → ((cur.strm k).cells.cell i).shift = 0) :
    (restore (st.save slots) cur).Inv n ∧ (restore (st.save slots) cur).nStream = st.nStream ∧
      (∀ k i, st.InSlots slots k i →
        ((restore (st.save slots) cur).strm k).cells.cell i = { (st.strm k).cells.cell i with shift := 0 }) ∧
      (∀ k i, ¬ st.InSlots slots k i →
        ((restore (st.save slots) cur).strm k).cells.cell i = (cur.strm k).cells.cell i) ∧
      (∀ s x, slots[s]? = some x →
        ((restore (st.save slots) cur).strm (st.streamOf x.1.seq)).head = (st.strm s).head) ∧
      ∀ k, (∀ x ∈ slots, st.streamOf x.1.seq ≠ k) → (restore (st.save slots) cur).strm k = cur.strm k := by
  have hle : ∀ j < slots.length, (fun k => (st.strm k).head) (0 + j) ≤ n := by
    intro j hj
    rw [Nat.zero_add]
    have hk : j < st.nStream := lt_of_lt_of_le hj hs.length_le
    have hhead := (h.good j hk).ok.head_le
    rwa [(h.good j hk).size_eq] at hhead
  have hspec := restoreParts_spec h (fun k => (st.strm k).head) slots 0 cur hs hcur hn hshift hle
  simp only [Nat.zero_add] at hspec
  exact hspec

/-- The cell of a token has no shift, with or without all of its sequences. -/
theorem Applied.shift {slots : List (Part Unit × List Nat)} {rm : Nat → Int} {st' : Streams Unit}
    (ha : Applied n st slots rm st') (hs : st.Slotted n slots) {k i : Nat} (hin : st.InSlots slots k i) :
    ((st'.strm k).cells.cell i).shift = 0 := by
  obtain ⟨x, hx, rfl, hi⟩ := hin
  obtain ⟨r, -, hzip⟩ := hs.row_of_mem hx hi
  have hshed := ha.stored x hx _ hzip
  by_cases hempty : ((st'.strm (st.streamOf x.1.seq)).cells.cell i).seq = ∅
  · rw [hshed.empty hempty]
  · exact (hshed.kept hempty).2

/-- A cell outside the slots is unchanged exactly if none of its sequences loses a token of this position or a later one. -/
theorem Applied.cell_eq_iff {slots : List (Part Unit × List Nat)} {rm : Nat → Int} {st' : Streams Unit}
    (ha : Applied n st slots rm st') (h : st.Inv n) {k i : Nat} (hk : k < st.nStream) (hi : i < n)
    (hout : ¬ st.InSlots slots k i) : (st'.strm k).cells.cell i = (st.strm k).cells.cell i ↔
      ∀ s p, st.Taken slots s p → s ∈ ((st.strm k).cells.cell i).seq → p < ((st.strm k).cells.cell i).pos := by
  have hshed := ha.left k hk i hi fun x hx hxk hix => hout ⟨x, hx, hxk, hix⟩
  constructor
  · intro heq s p htaken hmem
    have hlt := ((hshed.mem s).mp (heq ▸ hmem)).2
    exact lt_of_le_of_lt (ha.remembers.le s p htaken) hlt
  · intro hall
    refine hshed.eq_self (h.empty_of_seq hk hi) fun s hmem => ?_
    rcases ha.remembers.last s with heq | htaken
    · have := h.nonneg hk hi hmem
      omega
    · exact hall s _ htaken hmem

theorem Applied.cell_eq_of_subset {slots : List (Part Unit × List Nat)} {rm : Nat → Int} {st' : Streams Unit}
    (ha : Applied n st slots rm st') (h : st.Inv n) {k i : Nat} (hk : k < st.nStream) (hi : i < n)
    (hout : ¬ st.InSlots slots k i) (hsub : ((st.strm k).cells.cell i).seq ⊆ ((st'.strm k).cells.cell i).seq) :
    (st'.strm k).cells.cell i = (st.strm k).cells.cell i := by
  have hshed := ha.left k hk i hi fun x hx hxk hix => hout ⟨x, hx, hxk, hix⟩
  exact hshed.eq_self (h.empty_of_seq hk hi) fun s hmem => ((hshed.mem s).mp (hsub hmem)).2

/-- What the undone rest of a dry run has to do with the cache `st` where it began. -/
structure Rest (n : Nat) (st : Streams Unit) (us : List (List (Part Unit))) (fin : Streams Unit) : Prop where
  inv : fin.Inv n
  nStream : fin.nStream = st.nStream
  subset : ∀ k < st.nStream, ∀ i < n, ((fin.strm k).cells.cell i).seq ⊆ ((st.strm k).cells.cell i).seq
  shift : ∀ k < st.nStream, ∀ i < n, ((st.strm k).cells.cell i).shift = 0 → ((fin.strm k).cells.cell i).shift = 0
  agree_iff : ∀ touched moved, Agree n touched moved st fin ↔ Undone touched moved st us

theorem Rest.refl (h : st.Inv n) {us : List (List (Part Unit))} (hus : ∀ touched moved, Undone touched moved st us) :
    Rest n st us st where
  inv := h
  nStream := rfl
  subset _ _ _ _ := subset_rfl
  shift _ _ _ _ := id
  agree_iff touched moved := ⟨fun _ => hus touched moved, fun _ => ⟨fun _ _ _ _ _ => rfl, fun _ _ _ => rfl⟩⟩

/-- One step back. -/
theorem Rest.restore (h : st.Inv n) {u : List (Part Unit)} {us : List (List (Part Unit))}
    {slots : List (Part Unit × List Nat)} (hs : st.Slotted n slots) {rm : Nat → Int}
    (ha : Applied n st slots rm (st.applyUbatch slots)) (hfind : st.findSlot false u = some slots) {fin : Streams Unit}
    (hrest : Rest n (st.applyUbatch slots) us fin) : Rest n st (u :: us) (Streams.restore (st.save slots) fin) := by
  have hslot : ∀ k i, st.InSlots slots k i → k < st.nStream ∧ i < n := by
    rintro k i ⟨x, hx, rfl, hi⟩
    exact ⟨hs.stream x hx, hs.lt x hx i hi⟩
  have hshift : ∀ k i, st.InSlots slots k i → ((fin.strm k).cells.cell i).shift = 0 := by
    intro k i hin
    obtain ⟨hk, hi⟩ := hslot k i hin
    exact hrest.shift k (ha.nStream.symm ▸ hk) i hi (ha.shift hs hin)
  obtain ⟨r1, r2, r3, r4, r5, r6⟩ := restore_spec h hs hrest.inv (hrest.nStream.trans ha.nStream) hshift
  generalize Streams.restore (st.save slots) fin = back at r1 r2 r3 r4 r5 r6
  have hsub : ∀ k < st.nStream, ∀ i < n, ¬ st.InSlots slots k i → ((fin.strm k).cells.cell i).seq ⊆
      (((st.applyUbatch slots).strm k).cells.cell i).seq := fun k hk i hi _ =>
    hrest.subset k (ha.nStream.symm ▸ hk) i hi
  have hshed : ∀ k < st.nStream, ∀ i < n, ¬ st.InSlots slots k i → ((st.strm k).cells.cell i).Sheds
      (((st.applyUbatch slots).strm k).cells.cell i) fun s => rm s < ((st.strm k).cells.cell i).pos :=
    fun k hk i hi hout => ha.left k hk i hi fun x hx hxk hix => hout ⟨x, hx, hxk, hix⟩
  refine ⟨r1, r2, fun k hk i hi => ?_, fun k hk i hi hzero => ?_, fun touched moved => ?_⟩
  · by_cases hin : st.InSlots slots k i
    · rw [r3 k i hin]
    · rw [r4 k i hin]
      exact (hsub k hk i hi hin).trans fun s hmem => (((hshed k hk i hi hin).mem s).mp hmem).1
  · by_cases hin : st.InSlots slots k i
    · rw [r3 k i hin]
    · rw [r4 k i hin]
      refine hrest.shift k (ha.nStream.symm ▸ hk) i hi ?_
      by_cases hempty : (((st.applyUbatch slots).strm k).cells.cell i).seq = ∅
      · rw [(hshed k hk i hi hin).empty hempty]
      · exact ((hshed k hk i hi hin).kept hempty).2.trans hzero
  · rw [Undone, hfind]
    dsimp only
    rw [← hrest.agree_iff]
    constructor
    · intro hagree
      have hsame : ∀ k < st.nStream, ∀ i < n, ¬ (touched k i ∨ st.InSlots slots k i) →
          (fin.strm k).cells.cell i = (st.strm k).cells.cell i ∧
            ((st.applyUbatch slots).strm k).cells.cell i = (st.strm k).cells.cell i := by
        intro k hk i hi hout
        rw [not_or] at hout
        have hfin := (r4 k i hout.2).symm.trans (hagree.cell k hk i hi hout.1)
        exact ⟨hfin, ha.cell_eq_of_subset h hk hi hout.2 (hfin ▸ hsub k hk i hi hout.2)⟩
      refine ⟨fun s p htaken k hk i hi hmem hle => ?_, fun k i hin => ?_, fun s x hx => ?_,
        fun k hk i hi hout => ?_, fun k hk hout => ?_⟩
      · rw [(h.good k hk).size_eq] at hi
        by_contra hout
        have hlt := (ha.cell_eq_iff h hk hi fun hin => hout (.inr hin)).mp (hsame k hk i hi hout).2 s p htaken hmem
        omega
      · by_cases ht : touched k i
        · exact .inl ht
        · obtain ⟨hk, hi⟩ := hslot k i hin
          have hcell := hagree.cell k hk i hi ht
          rw [r3 k i hin] at hcell
          exact .inr (congrArg Cell.shift hcell).symm
      · by_cases hm : moved (st.streamOf x.1.seq)
        · exact .inl hm
        · rw [← hagree.head _ (hs.stream x (List.mem_of_getElem? hx)) hm, r5 s x hx]
          exact .inr rfl
      · obtain ⟨h1, h2⟩ := hsame k (ha.nStream ▸ hk) i hi hout
        exact h1.trans h2.symm
      · rw [not_or] at hout
        have hnone : ∀ x ∈ slots, st.streamOf x.1.seq ≠ k := fun x hx hxk => hout.2 ⟨x, hx, hxk⟩
        rw [ha.other k hnone, ← hagree.head k (ha.nStream ▸ hk) hout.1, r6 k hnone]
    · rintro ⟨hpurge, hzero, hheads, hagree⟩
      refine ⟨fun k hk i hi ht => ?_, fun k hk hm => ?_⟩
      · by_cases hin : st.InSlots slots k i
        · rw [r3 k i hin]
          have hz := (hzero k i hin).resolve_left ht
          rw [← hz]
        · rw [r4 k i hin, hagree.cell k (ha.nStream.symm ▸ hk) i hi fun hc => hc.elim ht hin, ha.cell_eq_iff h hk hi hin]
          intro s p htaken hmem
          by_contra hge
          exact (hpurge s p htaken k hk i (by rw [(h.good k hk).size_eq]; exact hi) hmem (not_lt.mp hge)).elim ht hin
      · by_cases hin : ∃ x ∈ slots, st.streamOf x.1.seq = k
        · obtain ⟨x, hx, rfl⟩ := hin
          obtain ⟨s, hs', hxs⟩ := List.getElem_of_mem hx
          have hget : slots[s]? = some x := by rw [List.getElem?_eq_getElem hs', hxs]
          rw [r5 s x hget]
          exact (hheads s x hget).resolve_left hm
        · have hnone : ∀ x ∈ slots, st.streamOf x.1.seq ≠ k := fun x hx hxk => hin ⟨x, hx, hxk⟩
          rw [r6 k hnone, hagree.head k (ha.nStream.symm ▸ hk) fun hc => hc.elim hm hin, ha.other k hnone]

/-- What the dry run and its undoing leave of a cache; by recursion over the ubatches. -/
theorem dryRun_rest : ∀ (us : List (List (Part Unit))) (st : Streams Unit) {r : Bool × List Saved × Streams Unit}, st.Inv n →
    st.Home → (∀ u ∈ us, st.Fits u) → st.dryRun us = some r → Rest n st us (undo r.2.1 r.2.2)
  | [], st, r, h, _, _, hrun => by
    cases hrun
    exact Rest.refl h fun _ _ => trivial
  | u :: us, st, r, h, hhome, hfits, hrun => by
    rw [dryRun] at hrun
    split at hrun
    · cases hfind : st.findSlot false u with
      | none =>
          rw [hfind] at hrun
          cases hrun
          refine Rest.refl h fun _ _ => ?_
          rw [Undone, hfind]
          trivial
      | some slots =>
          rw [hfind] at hrun
          obtain ⟨r', hrun', rfl⟩ := Option.map_eq_some_iff.mp hrun
          obtain ⟨-, hs, -⟩ := (hfits u List.mem_cons_self).slots h hfind
          obtain ⟨rm, ha⟩ := applyUbatch_spec h hhome hs
          have hundo : undo (st.save slots :: r'.2.1) r'.2.2 = Streams.restore (st.save slots) (undo r'.2.1 r'.2.2) := rfl
          rw [hundo]
          exact Rest.restore h hs ha hfind (dryRun_rest us (st.applyUbatch slots) ha.inv ha.home
            (fun v hv => (hfits v (List.mem_cons_of_mem _ hv)).of_nStream ha.nStream) hrun')
    · cases hrun

/-! ## The cache behind `prepare` -/

/-- The caches are the same: cells, the positions of the sequences and heads. -/
structure Same (n : Nat) (st fin : Streams Unit) : Prop where
  nStream : fin.nStream = st.nStream
  cell : ∀ k < st.nStream, ∀ i < n, (fin.strm k).cells.cell i = (st.strm k).cells.cell i
  seqPos : ∀ k < st.nStream, (fin.strm k).cells.seqPos = (st.strm k).cells.seqPos
  used : ∀ k < st.nStream, (fin.strm k).cells.used = (st.strm k).cells.used
  head : ∀ k < st.nStream, (fin.strm k).head = (st.strm k).head

theorem Agree.same {fin : Streams Unit} (h : st.Inv n) (h' : fin.Inv n) (hn : fin.nStream = st.nStream)
    (hagree : Agree n (fun _ _ => False) (fun _ => False) st fin) : Same n st fin := by
  have hcell : ∀ k < st.nStream, ∀ i < n, (fin.strm k).cells.cell i = (st.strm k).cells.cell i :=
    fun k hk i hi => hagree.cell k hk i hi not_false
  refine ⟨hn, hcell, fun k hk => ?_, fun k hk => ?_, fun k hk => hagree.head k hk not_false⟩
  · have hrep := (h.good k hk).ok.rep
    have hrep' := (h'.good k (hn.symm ▸ hk)).ok.rep
    funext s
    rw [hrep.seqPos_eq, hrep'.seqPos_eq, (h.good k hk).size_eq, (h'.good k (hn.symm ▸ hk)).size_eq]
    exact Finset.sum_congr rfl fun i hi => by rw [hcell k hk i (Finset.mem_range.mp hi)]
  · have hrep := (h.good k hk).ok.rep
    have hrep' := (h'.good k (hn.symm ▸ hk)).ok.rep
    ext i
    rw [hrep.used_iff, hrep'.used_iff, (h.good k hk).size_eq, (h'.good k (hn.symm ▸ hk)).size_eq]
    exact and_congr_right fun hi => by rw [hcell k hk i hi]

/-- **`prepare` leaves the cache as it was exactly if every step of its dry run can be taken back.** -/
theorem prepare_pure (h : st.Inv n) (hhome : st.Home) {us : List (List (Part Unit))} (hfits : ∀ u ∈ us, st.Fits u)
    {res : Option (List (List (Part Unit × List Nat)))} {fin : Streams Unit} (hrun : st.prepare us = some (res, fin)) :
    Same n st fin ↔ Undone (fun _ _ => False) (fun _ => False) st us := by
  unfold prepare at hrun
  obtain ⟨r, hdry, hrun⟩ := Option.bind_eq_some_iff.mp hrun
  have hrest := dryRun_rest us st h hhome hfits hdry
  split at hrun
  · cases hrun
  · cases hrun
    rw [← hrest.agree_iff]
    exact ⟨fun hsame => ⟨fun k hk i hi _ => hsame.cell k hk i hi, fun k hk _ => hsame.head k hk⟩,
      fun hagree => hagree.same h hrest.inv hrest.nStream⟩

/-! ### Without a window -/

theorem writeParts_swa : ∀ (slots : List (Part Unit × List Nat)) (st : Streams Unit) (rm : Nat → Int),
    (st.writeParts rm slots).1.swa = st.swa
  | [], _, _ => rfl
  | (_, _) :: slots, st, rm => by rw [writeParts, writeParts_swa slots]; rfl

theorem setHeads_swa : ∀ (slots : List (Part Unit × List Nat)) (st : Streams Unit), (st.setHeads slots).swa = st.swa
  | [], _ => rfl
  | (_, _) :: slots, st => by rw [setHeads, setHeads_swa slots]; rfl

theorem applyUbatch_swa (st : Streams Unit) (slots : List (Part Unit × List Nat)) : (st.applyUbatch slots).swa = st.swa := by
  unfold applyUbatch
  dsimp only
  rw [setHeads_swa, purge_eq]
  refine foldl_range_rule (P := fun _ (t : Streams Unit) => t.swa = st.swa) (writeParts_swa slots st _) maxSeq ?_
  intro s _ t ht
  rw [← ht]
  unfold purgeAt
  dsimp only
  split
  · rfl
  · split
    · rfl
    · rfl

/-- Only empty cells are used, and there is one head. -/
theorem undone_unified : ∀ (us : List (List (Part Unit))) (st : Streams Unit) (touched : Nat → Nat → Prop)
    (moved : Nat → Prop), st.Inv n → st.Home → (∀ u ∈ us, st.Fits u) → st.swa.type = .none → st.nStream = 1 →
    Undone touched moved st us
  | [], _, _, _, _, _, _, _, _ => trivial
  | u :: us, st, touched, moved, h, hhome, hfits, hswa, hone => by
    rw [Undone]
    cases hfind : st.findSlot false u with
    | none => trivial
    | some slots =>
        obtain ⟨-, hs, husable⟩ := (hfits u List.mem_cons_self).slots h hfind
        obtain ⟨rm, ha⟩ := applyUbatch_spec h hhome hs
        have hempty : ∀ x ∈ slots, ∀ i ∈ x.2, ((st.strm (st.streamOf x.1.seq)).cells.cell i).pos = -1 := by
          intro x hx i hi
          rcases husable x hx i hi with he | ⟨s, -, -, hmask⟩
          · exact he
          · unfold Swa.isMasked at hmask
            rw [hswa] at hmask
            cases hmask
        have hzero : ∀ s, st.streamOf s = 0 := fun s => if_neg (by omega)
        refine ⟨fun s p htaken => ?_, fun k i hin => ?_, fun s x hx => ?_, undone_unified us _ _ _ ha.inv ha.home
          (fun v hv => (hfits v (List.mem_cons_of_mem _ hv)).of_nStream ha.nStream) (applyUbatch_swa st slots ▸ hswa)
          (ha.nStream.trans hone)⟩
        · obtain ⟨x, hx, i, hi, hpos, hne, -⟩ := htaken
          exact absurd (hpos.symm.trans (hempty x hx i hi)) hne
        · obtain ⟨x, hx, rfl, hi⟩ := hin
          have hk := hs.stream x hx
          have hlt : i < (st.strm (st.streamOf x.1.seq)).cells.size := by
            rw [(h.good _ hk).size_eq]
            exact hs.lt x hx i hi
          exact .inr ((h.good _ hk).ok.rep.empty i hlt (hempty x hx i hi)).2
        · have hlt : s < slots.length := (List.getElem?_eq_some_iff.mp hx).1
          have hle := hs.length_le
          have hs0 : s = 0 := by omega
          rw [hzero, hs0]
          exact .inr rfl

/-- A unified cache without a window is left as it was by every dry run. -/
theorem prepare_pure_unified (h : st.Inv n) (hhome : st.Home) {us : List (List (Part Unit))} (hfits : ∀ u ∈ us, st.Fits u)
    (hswa : st.swa.type = .none) (hone : st.nStream = 1) {res : Option (List (List (Part Unit × List Nat)))}
    {fin : Streams Unit} (hrun : st.prepare us = some (res, fin)) : Same n st fin := by
  unfold prepare at hrun
  obtain ⟨r, hdry, hrun⟩ := Option.bind_eq_some_iff.mp hrun
  have hrest := dryRun_rest us st h hhome hfits hdry
  split at hrun
  · cases hrun
  · cases hrun
    exact ((hrest.agree_iff _ _).mpr (undone_unified us st _ _ h hhome hfits hswa hone)).same h hrest.inv hrest.nStream

end

end Streams

/-! ## A head that moves, and a position that is lost -/

/-- Tokens of one sequence, for a cache with or without streams. -/
def ownTokens (seq : Nat) (pos : List Int) : List (Part Unit) := [⟨seq, pos.map fun p => ⟨p, [seq], ()⟩⟩]

theorem ownTokens_ok {seq : Nat} {pos : List Int} (hseq : seq < maxSeq) (hne : pos ≠ [])
    (hpos : ∀ p ∈ pos, 0 ≤ p ∧ p ≤ posMax)
    (v : Streams Unit) : StreamOp.safe v (.emplace (ownTokens seq pos) false) ∧
      StreamOp.homed v (.emplace (ownTokens seq pos) false) := by
  have hrow : ∀ part ∈ ownTokens seq pos, part.seq = seq ∧ part.rows ≠ [] ∧
      ∀ r ∈ part.rows, 0 ≤ r.pos ∧ r.pos ≤ posMax ∧ r.ids = [seq] := by
    intro part hpart
    rw [List.mem_singleton.mp hpart]
    refine ⟨rfl, fun hc => hne (List.map_eq_nil_iff.mp hc), fun r hr => ?_⟩
    obtain ⟨p, hp, rfl⟩ := List.mem_map.mp hr
    exact ⟨(hpos p hp).1, (hpos p hp).2, rfl⟩
  refine ⟨⟨⟨List.nodup_singleton _, fun part hpart => ⟨(hrow part hpart).2.1, fun r hr => ?_⟩⟩, fun part hpart r hr => ?_⟩,
    fun part hpart r hr s hs => ?_⟩
  · obtain ⟨h0, hle, hids⟩ := (hrow part hpart).2.2 r hr
    exact ⟨by omega, hle, hids ▸ List.cons_ne_nil _ _⟩
  · obtain ⟨h0, -, hids⟩ := (hrow part hpart).2.2 r hr
    exact ⟨h0, hids ▸ List.nodup_singleton _⟩
  · obtain ⟨-, -, hids⟩ := (hrow part hpart).2.2 r hr
    rw [hids] at hs
    rw [List.mem_singleton.mp hs, (hrow part hpart).1]
    exact ⟨hseq, rfl⟩

theorem ownTokens_fits {st : Streams Unit} {seq : Nat} {pos : List Int} (hseq : seq < maxSeq) (hne : pos ≠ [])
    (hpos : ∀ p ∈ pos, 0 ≤ p ∧ p ≤ posMax) (hstream : st.streamOf seq < st.nStream) : st.Fits (ownTokens seq pos) := by
  obtain ⟨hsafe, hhomed⟩ := ownTokens_ok hseq hne hpos st
  refine ⟨hsafe.1.1, fun part hpart => ?_, fun part hpart => (hsafe.1.2 part hpart).1, fun part hpart r hr => ?_, hhomed⟩
  · rw [List.mem_singleton.mp hpart]
    exact hstream
  · obtain ⟨-, hle, hids⟩ := (hsafe.1.2 part hpart).2 r hr
    obtain ⟨h0, hnodup⟩ := hsafe.2 part hpart r hr
    exact ⟨⟨h0, hids, hnodup⟩, hle⟩

/-- Two streams, of which the first has a token. -/
def headsApart : Option (Streams Unit) :=
  runList streamStep [.emplace (ownTokens 0 [0]) false] (Streams.create {} 2 2 fun _ _ => ())

/-- A window of one position; sequence 0 has position 2 before position 1. -/
def outOfOrder : Option (Streams Unit) :=
  runList streamStep [.emplace (ownTokens 1 [0]) false, .emplace (ownTokens 0 [0, 1]) false, .seqRm 0 0 1,
    .emplace (ownTokens 0 [2]) false, .seqRm 1 (-1) (-1)]
    (Streams.create { nSwa := 1, type := .standard } 1 3 fun _ _ => ())

/-- The head of the second stream becomes that of the first; and a sequence has lost its position 1 behind a dry run that
fails at its second ubatch. -/
theorem prepare_impure :
    (∃ st res fin, Reaches streamStep (fun st op => op.safe st ∧ op.homed st) (Streams.create {} 2 2 fun _ _ => ()) st ∧
      st.prepare [ownTokens 1 [0]] = some (res, fin) ∧ (st.strm 1).head = 0 ∧ (fin.strm 1).head = 1) ∧
    ∃ st fin, Reaches streamStep (fun st op => op.safe st ∧ op.homed st)
        (Streams.create { nSwa := 1, type := .standard } 1 3 fun _ _ => ()) st ∧
      st.prepare [ownTokens 0 [3, 4], ownTokens 0 [5, 6, 7, 8]] = some (none, fin) ∧
      (st.strm 0).cells.cell 2 = ⟨1, 0, {0}⟩ ∧ (fin.strm 0).cells.cell 2 = {} := by
  constructor
  · have hrun : (headsApart.bind fun st => (st.prepare [ownTokens 1 [0]]).map fun r =>
        ((st.strm 1).head, (r.2.strm 1).head)) = some (0, 1) := by decide +kernel
    obtain ⟨st, hst, hrest⟩ := Option.bind_eq_some_iff.mp hrun
    obtain ⟨⟨res, fin⟩, hprep, heq⟩ := Option.map_eq_some_iff.mp hrest
    obtain ⟨h0, h1⟩ := Prod.mk.inj heq
    refine ⟨st, res, fin, Reaches.runList .start (fun op hop v => ?_) hst, hprep, h0, h1⟩
    rw [List.mem_singleton.mp hop]
    exact ownTokens_ok (by decide) (by decide) (by decide) v
  · have hrun : (outOfOrder.bind fun st => (st.prepare [ownTokens 0 [3, 4], ownTokens 0 [5, 6, 7, 8]]).map fun r =>
        ((st.strm 0).cells.cell 2, r.1.isNone, (r.2.strm 0).cells.cell 2)) = some (⟨1, 0, {0}⟩, true, {}) := by decide +kernel
    obtain ⟨st, hst, hrest⟩ := Option.bind_eq_some_iff.mp hrun
    obtain ⟨⟨res, fin⟩, hprep, heq⟩ := Option.map_eq_some_iff.mp hrest
    simp only [Prod.mk.injEq, Option.isNone_iff_eq_none] at heq
    obtain ⟨h0, rfl, h1⟩ := heq
    refine ⟨st, fin, Reaches.runList .start (fun op hop v => ?_) hst, hprep, h0, h1⟩
    simp only [List.mem_cons, List.not_mem_nil, or_false] at hop
    rcases hop with rfl | rfl | rfl | rfl | rfl
    · exact ownTokens_ok (by decide) (by decide) (by decide) v
    · exact ownTokens_ok (by decide) (by decide) (by decide) v
    · exact ⟨⟨trivial, trivial⟩, trivial⟩
    · exact ownTokens_ok (by decide) (by decide) (by decide) v
    · exact ⟨⟨trivial, trivial⟩, trivial⟩

theorem prepare_pure_first : ∃ res fin,
    (Streams.create {} 2 2 fun _ _ => ()).prepare [ownTokens 1 [0], ownTokens 1 [1]] = some (res, fin) ∧
    (Streams.Same 2 (Streams.create {} 2 2 fun _ _ => ()) fin ↔
      Streams.Undone (fun _ _ => False) (fun _ => False) (Streams.create {} 2 2 fun _ _ => ())
        [ownTokens 1 [0], ownTokens 1 [1]]) := by
  have hrun : ((Streams.create {} 2 2 fun _ _ => ()).prepare [ownTokens 1 [0], ownTokens 1 [1]]).isSome := by decide +kernel
  obtain ⟨⟨res, fin⟩, hprep⟩ := Option.isSome_iff_exists.mp hrun
  obtain ⟨hinv, hhome⟩ := reaches_home {} (show 0 < 2 by decide) (by decide) 2 (fun _ _ => ()) _ .start
  refine ⟨res, fin, hprep, Streams.prepare_pure hinv hhome (fun u hu => ?_) hprep⟩
  simp only [List.mem_cons, List.not_mem_nil, or_false] at hu
  rcases hu with rfl | rfl
  · exact ownTokens_fits (by decide) (by decide) (by decide) (by decide)
  · exact ownTokens_fits (by decide) (by decide) (by decide) (by decide)

end S2Moe.Kv
