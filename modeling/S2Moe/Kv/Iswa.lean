import S2Moe.Kv.Commit
import S2Moe.Kv.Window

/-!
# `llama_kv_cache_iswa`

Two caches take the same operations; one of them has a window. The positions of a sequence are asked of the one with the
window.

* `Iswa` and its operations, `initBatch`, `decode` : the splits that are tried, and the first with slots in both caches;
* `Acts` : an operation changes every cell for itself; `streamStep_acts` : the cells of every stream behind it;
* `Agree` : what is stored in the cache with the window is stored in the base cache, which has nothing more behind it;
each sequence of the base cache is in both;
* `IswaOp.ok` : the steps that keep it; `reaches_agree`.
-/

namespace S2Moe.Kv
open S2Moe.Lib
open S2Moe.Recurrent (lower upper posMax)

/-- `kv_base` and `kv_swa` -/
structure Iswa where
  base : Streams Unit
  swa : Streams Unit

/-- What both caches are to store in: the slots of the ubatches in each. -/
structure IswaSlots where
  base : List (List (Part Unit × List Nat))
  swa : List (List (Part Unit × List Nat))

namespace Iswa

/-- An operation on both caches; nothing if an assertion of one fails. -/
def both (st : Iswa) (op : StreamOp Unit) : Option Iswa :=
  (streamStep op st.base).bind fun base => (streamStep op st.swa).map fun swa => ⟨base, swa⟩

/-- `seq_pos_max` asks the cache with the window. -/
def seqPosMax (st : Iswa) (s : Nat) : Int := st.swa.seqPosMax s

/-- One split of a batch: no slots if one of the caches has none, and then the other has tried or not. -/
def prepare (st : Iswa) (us : List (List (Part Unit))) : Option (Option IswaSlots × Iswa) :=
  (st.base.prepare us).bind fun r =>
    match r.1 with
    | none => some (none, ⟨r.2, st.swa⟩)
    | some base => (st.swa.prepare us).map fun q => (q.1.map fun swa => ⟨base, swa⟩, ⟨r.2, q.2⟩)

/-- `init_batch` : the splits that cover the batch are tried in turn, the simple one of a unified cache and the equal one. -/
def initBatch (st : Iswa) : List (List (List (Part Unit))) → Option (Option IswaSlots × Iswa)
  | [] => some (none, st)
  | us :: splits =>
    (st.prepare us).bind fun r =>
      match r.1 with
      | none => initBatch r.2 splits
      | some slots => some (some slots, r.2)

/-- A batch that is decoded: its ubatches go to their slots one after the other. -/
def decode (st : Iswa) (splits : List (List (List (Part Unit)))) : Option Iswa :=
  (st.initBatch splits).bind fun r =>
    r.1.map fun slots => ⟨slots.base.foldl Streams.applyUbatch r.2.base, slots.swa.foldl Streams.applyUbatch r.2.swa⟩

/-- Two empty caches. -/
def create (w : Swa) (nStream sizeBase sizeSwa : Nat) : Iswa :=
  ⟨Streams.create {} nStream sizeBase fun _ _ => (), Streams.create w nStream sizeSwa fun _ _ => ()⟩

end Iswa

inductive IswaOp where
  | clear
  | seqRm (seq p0 p1 : Int)
  | seqCp (src dst : Nat) (p0 p1 : Int)
  | seqKeep (seq : Nat)
  | seqAdd (seq : Nat) (p0 p1 shift : Int)
  | seqDiv (seq : Nat) (p0 p1 d : Int)
  | decode (splits : List (List (List (Part Unit))))

def iswaStep : IswaOp → Iswa → Option Iswa
  | .clear, st => st.both .clear
  | .seqRm seq p0 p1, st => st.both (.seqRm seq p0 p1)
  | .seqCp src dst p0 p1, st => st.both (.seqCp src dst p0 p1)
  | .seqKeep seq, st => st.both (.seqKeep seq)
  | .seqAdd seq p0 p1 shift, st => st.both (.seqAdd seq p0 p1 shift)
  | .seqDiv seq p0 p1 d, st => st.both (.seqDiv seq p0 p1 d)
  | .decode splits, st => st.decode splits

/-! ## The cells behind an operation -/

section Acts
variable {n : Nat} {st st' : Streams Unit}

/-- The stream whose cells are in stream `k` behind the operation. -/
def StreamOp.source (st : Streams Unit) : StreamOp Unit → Nat → Nat
  | .seqCp src dst _ _, k => if st.streamOf src ≠ st.streamOf dst ∧ k = st.streamOf dst then st.streamOf src else k
  | _, k => k

/-- What the operation makes of a cell for stream `k`. -/
def StreamOp.onCell (st : Streams Unit) : StreamOp Unit → Nat → Cell → Cell
  | .clear, _, _ => {}
  | .seqRm seq p0 p1, k, x =>
    if seq = -1 then (if x.within p0 p1 then {} else x)
    else if k = st.streamOf seq.toNat then x.removed seq.toNat p0 p1 else x
  | .seqCp src dst p0 p1, k, x =>
    if st.streamOf src = st.streamOf dst then (if k = st.streamOf src ∧ src ≠ dst then x.copied src dst p0 p1 else x)
    else if k = st.streamOf dst then (if src ∈ x.seq then { x with seq := {dst} } else {}) else x
  | .seqKeep seq, k, x => if k = st.streamOf seq then x.kept seq else x
  | .seqAdd seq p0 p1 shift, k, x => if k = st.streamOf seq then x.moved seq p0 p1 shift else x
  | .seqDiv seq p0 p1 d, k, x => if k = st.streamOf seq then x.divided seq p0 p1 d else x
  | .emplace _ _, _, x => x

/-- The operation changes every cell for itself. -/
structure Acts (n : Nat) (st st' : Streams Unit) (op : StreamOp Unit) : Prop where
  nStream : st'.nStream = st.nStream
  swa : st'.swa = st.swa
  source : ∀ k < st.nStream, op.source st k < st.nStream
  cell : ∀ k < st.nStream, ∀ i < n,
    (st'.strm k).cells.cell i = op.onCell st k ((st.strm (op.source st k)).cells.cell i)

theorem Streams.strm_set_self (st : Streams Unit) (k : Nat) (c : Cache Unit) : (st.set k c).strm k = c :=
  Function.update_self _ _ _

theorem Streams.strm_set_of_ne (st : Streams Unit) {j k : Nat} (h : j ≠ k) (c : Cache Unit) :
    (st.set k c).strm j = st.strm j := Function.update_of_ne h _ _

/-- An operation on the stream of one sequence. -/
theorem Acts.onStream (h : st.Inv n) {op : StreamOp Unit} {seq : Nat} {f : Cache Unit → Cache Unit} {g : Cell → Cell}
    (hsource : op.source st = id) (hcell : ∀ k x, op.onCell st k x = if k = st.streamOf seq then g x else x)
    (hf : (st.strm (st.streamOf seq)).Good n → ∀ i < n,
      (f (st.strm (st.streamOf seq))).cells.cell i = g ((st.strm (st.streamOf seq)).cells.cell i))
    (hrun : st.onStream seq f = some st') : Acts n st st' op := by
  unfold Streams.onStream at hrun
  split at hrun
  · rename_i hcap
    cases hrun
    refine ⟨rfl, rfl, fun k hk => by rw [hsource]; exact hk, fun k hk i hi => ?_⟩
    rw [hcell, hsource]
    by_cases hks : k = st.streamOf seq
    · rw [if_pos hks, hks, Streams.strm_set_self]
      exact hf (h.good _ (h.streamOf_lt hcap)) i hi
    · rw [if_neg hks, Streams.strm_set_of_ne _ hks]
      rfl
  · cases hrun

theorem Cell.moved_zero {x : Cell} {seq : Nat} {p0 p1 : Int} (h : seq ∈ x.seq → 0 ≤ x.pos) : x.moved seq p0 p1 0 = x := by
  unfold Cell.moved
  split
  · rename_i hc
    have := h hc.2
    rw [if_neg (by omega), Int.add_zero, Int.add_zero]
  · rfl

theorem Cell.moved_nowhere {x : Cell} {seq : Nat} {p0 p1 shift : Int} (h : lower p0 = upper p1) :
    x.moved seq p0 p1 shift = x := by
  refine if_neg fun hc => ?_
  have := hc.1.1
  have := hc.1.2
  omega

theorem Cell.divided_one {x : Cell} {seq : Nat} {p0 p1 : Int} : x.divided seq p0 p1 1 = x := by
  unfold Cell.divided
  split
  · rw [Int.tdiv_one, Int.sub_self, Int.add_zero]
  · rfl

theorem Cell.divided_nowhere {x : Cell} {seq : Nat} {p0 p1 d : Int} (h : lower p0 = upper p1) :
    x.divided seq p0 p1 d = x := by
  refine if_neg fun hc => ?_
  have := hc.1.1
  have := hc.1.2
  omega

/-- **The cells behind a step** that stores nothing. -/
theorem streamStep_acts (h : st.Inv n) {op : StreamOp Unit} (hsafe : op.safe st) (hop : ∀ u cont, op ≠ .emplace u cont)
    (hstep : streamStep op st = some st') : Acts n st st' op := by
  cases op with
  | clear =>
      cases hstep
      refine ⟨rfl, rfl, fun k hk => hk, fun k hk i hi => ?_⟩
      change ((if k < st.nStream then (st.strm k).clear else st.strm k).cells.cell i) = {}
      rw [if_pos hk]
      exact (h.good k hk).ok.clear.cell_eq i (by rw [(h.good k hk).size_eq]; exact hi)
  | seqRm seq p0 p1 =>
      change st.seqRm seq p0 p1 = some st' at hstep
      unfold Streams.seqRm at hstep
      split at hstep
      · rename_i hall
        cases hstep
        refine ⟨rfl, rfl, fun k hk => hk, fun k hk i hi => ?_⟩
        change ((if k < st.nStream then (st.strm k).seqRm seq p0 p1 else st.strm k).cells.cell i) = _
        rw [if_pos hk, StreamOp.onCell, if_pos hall]
        exact ((h.good k hk).ok.seqRm_all (by omega) p0 p1).cell_eq i (by rw [(h.good k hk).size_eq]; exact hi)
      · rename_i hall
        split at hstep
        · rename_i hin
          cases hstep
          obtain ⟨s, rfl⟩ := Int.eq_ofNat_of_zero_le hin.1
          refine ⟨rfl, rfl, fun k hk => hk, fun k hk i hi => ?_⟩
          rw [StreamOp.onCell, if_neg hall, Int.toNat_natCast]
          change _ = if k = st.streamOf s then ((st.strm k).cells.cell i).removed s p0 p1 else (st.strm k).cells.cell i
          by_cases hks : k = st.streamOf s
          · subst hks
            rw [if_pos rfl, Streams.strm_set_self]
            exact ((h.good _ hk).ok.seqRm s p0 p1).cell_eq i (by rw [(h.good _ hk).size_eq]; exact hi)
          · rw [if_neg hks, Streams.strm_set_of_ne _ hks]
        · cases hstep
  | seqCp src dst p0 p1 =>
      change st.seqCp src dst p0 p1 = some st' at hstep
      unfold Streams.seqCp at hstep
      split at hstep
      · rename_i hcap
        have hks := h.streamOf_lt hcap.1
        have hkd := h.streamOf_lt hcap.2
        split at hstep
        · rename_i hsame
          cases hstep
          have hsource : ∀ k, StreamOp.source st (.seqCp src dst p0 p1) k = k := fun k => if_neg fun hc => hc.1 hsame
          refine ⟨rfl, rfl, fun k hk => by rw [hsource]; exact hk, fun k hk i hi => ?_⟩
          rw [hsource, StreamOp.onCell, if_pos hsame]
          by_cases hk' : k = st.streamOf src
          · subst hk'
            rw [Streams.strm_set_self]
            by_cases hne : src = dst
            · rw [if_neg fun hc => hc.2 hne]
              exact congrArg (fun c : Cache Unit => c.cells.cell i) (if_pos hne)
            · rw [if_pos ⟨rfl, hne⟩]
              exact ((h.good _ hk).ok.seqCp_disjoint hne (hsafe.2 hne hsame)).cell_eq i
                (by rw [(h.good _ hk).size_eq]; exact hi)
          · rw [if_neg fun hc => hk' hc.1, Streams.strm_set_of_ne _ hk']
        · rename_i hdiff
          split at hstep
          · cases hstep
            refine ⟨rfl, rfl, fun k hk => ?_, fun k hk i hi => ?_⟩
            · unfold StreamOp.source
              dsimp only
              split
              · exact hks
              · exact hk
            · have hsrc := h.good _ hks
              have hdst := h.good _ hkd
              by_cases hk' : k = st.streamOf dst
              · subst hk'
                have hsource : StreamOp.source st (.seqCp src dst p0 p1) (st.streamOf dst) = st.streamOf src :=
                  if_pos ⟨hdiff, rfl⟩
                rw [hsource, StreamOp.onCell, if_neg hdiff, if_pos rfl]
                obtain ⟨-, -, hcell⟩ :=
                  hsrc.ok.rep.copyCells hdst.ok.rep (hdst.size_eq.trans hsrc.size_eq.symm) src dst
                have hself : (st.copyStream src dst).strm (st.streamOf dst) = { st.strm (st.streamOf dst) with
                    cells := (List.range (st.strm (st.streamOf src)).cells.size).foldl
                      ((st.strm (st.streamOf src)).cells.copyCell src dst) (st.strm (st.streamOf dst)).cells.reset,
                    head := (st.strm (st.streamOf src)).head } := Function.update_self _ _ _
                rw [hself]
                exact hcell i (by rw [hsrc.size_eq]; exact hi)
              · have hsource : StreamOp.source st (.seqCp src dst p0 p1) k = k := if_neg fun hc => hk' hc.2
                rw [hsource, StreamOp.onCell, if_neg hdiff, if_neg hk']
                exact congrArg (fun c : Cache Unit => c.cells.cell i) (Function.update_of_ne hk' _ _)
          · cases hstep
      · cases hstep
  | seqKeep seq =>
      change st.onStream seq (fun c => c.seqKeep seq) = some st' at hstep
      exact Acts.onStream h rfl (fun k x => rfl) (fun hg i hi => (hg.ok.seqKeep seq).cell_eq i (by rw [hg.size_eq]; exact hi))
        hstep
  | seqAdd seq p0 p1 shift =>
      change st.onStream seq (fun c => c.seqAdd seq p0 p1 shift) = some st' at hstep
      refine Acts.onStream h rfl (fun k x => rfl) (fun hg i hi => ?_) hstep
      have hi' : i < (st.strm (st.streamOf seq)).cells.size := by
        rw [hg.size_eq]
        exact hi
      by_cases hzero : shift = 0
      · subst hzero
        rw [Cache.seqAdd, if_pos rfl, Cell.moved_zero fun hs => hg.ok.rep.nonneg i hi' (hg.ok.rep.pos_ne hi' hs)]
      · by_cases hrange : lower p0 = upper p1
        · rw [Cache.seqAdd, if_neg hzero, if_pos hrange, Cell.moved_nowhere hrange]
        · exact (hg.ok.seqAdd seq hzero hrange).cell_eq i hi'
  | seqDiv seq p0 p1 d =>
      change st.seqDiv seq p0 p1 d = some st' at hstep
      unfold Streams.seqDiv at hstep
      split at hstep
      · cases hstep
      · refine Acts.onStream h rfl (fun k x => rfl) (fun hg i hi => ?_) hstep
        have hi' : i < (st.strm (st.streamOf seq)).cells.size := by
          rw [hg.size_eq]
          exact hi
        by_cases hone : d = 1
        · subst hone
          rw [Cache.seqDiv, if_pos rfl, Cell.divided_one]
        · by_cases hrange : lower p0 = upper p1
          · rw [Cache.seqDiv, if_neg hone, if_pos hrange, Cell.divided_nowhere hrange]
          · exact (hg.ok.seqDiv seq hone hrange hsafe.2).cell_eq i hi'
  | emplace u cont => exact absurd rfl (hop u cont)

/-- A position in the range of an operation. -/
def Within (p0 p1 p : Int) : Prop := lower p0 ≤ p ∧ p < upper p1

instance (p0 p1 p : Int) : Decidable (Within p0 p1 p) := inferInstanceAs (Decidable (_ ∧ _))

/-- The sequence whose positions `s` has behind the operation. -/
def StreamOp.origin : StreamOp Unit → Nat → Nat
  | .seqCp src dst _ _, s => if s = dst then src else s
  | _, s => s

/-- Where a position of that sequence is behind the operation, if it stays. -/
def StreamOp.track (st : Streams Unit) : StreamOp Unit → Nat → Int → Option Int
  | .clear, _, _ => none
  | .seqRm seq p0 p1, s, p => if (seq = -1 ∨ seq.toNat = s) ∧ Within p0 p1 p then none else some p
  | .seqCp src dst p0 p1, s, p =>
    if st.streamOf src = st.streamOf dst ∧ src ≠ dst ∧ s = dst ∧ ¬ Within p0 p1 p then none else some p
  | .seqKeep seq, s, p => if s ≠ seq ∧ st.streamOf s = st.streamOf seq then none else some p
  | .seqAdd seq p0 p1 shift, s, p =>
    if s = seq ∧ Within p0 p1 p then (if p + shift < 0 then none else some (p + shift)) else some p
  | .seqDiv seq p0 p1 d, s, p => if s = seq ∧ Within p0 p1 p then some (p.tdiv d) else some p
  | .emplace _ _, _, p => some p

/-- A cell that is moved has one sequence, and a sequence that gets others' cells has none of its own. -/
def StreamOp.Plain (st : Streams Unit) : StreamOp Unit → Cell → Prop
  | .seqAdd seq p0 p1 _, x => x.within p0 p1 → seq ∈ x.seq → x.seq = {seq}
  | .seqDiv seq p0 p1 _, x => x.within p0 p1 → seq ∈ x.seq → x.seq = {seq}
  | .seqCp src dst _ _, x => src ≠ dst → st.streamOf src = st.streamOf dst → dst ∉ x.seq
  | _, _ => True

theorem Cell.Under.plain {op : StreamOp Unit} {x y : Cell} (h : y.Under x) (hx : op.Plain st x) : op.Plain st y := by
  have halone : ∀ seq p0 p1, (x.within p0 p1 → seq ∈ x.seq → x.seq = {seq}) →
      y.within p0 p1 → seq ∈ y.seq → y.seq = {seq} := by
    intro seq p0 p1 hx hw hs
    obtain ⟨hsx, hpos⟩ := h.mem hs
    have hw' : x.within p0 p1 := ⟨hpos ▸ hw.1, hpos ▸ hw.2⟩
    have hsub := h.subset
    rw [hx hw' hsx] at hsub
    exact subset_antisymm hsub (Finset.singleton_subset_iff.mpr hs)
  cases op with
  | seqAdd seq p0 p1 _ => exact halone seq p0 p1 hx
  | seqDiv seq p0 p1 _ => exact halone seq p0 p1 hx
  | seqCp src dst p0 p1 => exact fun hne hsame hs => hx hne hsame (h.subset hs)
  | _ => trivial

theorem Cell.at_removed {x : Cell} {seq s : Nat} {p0 p1 p : Int} :
    (s ∈ (x.removed seq p0 p1).seq ∧ (x.removed seq p0 p1).pos = p) ↔
      s ∈ x.seq ∧ ¬ (seq = s ∧ x.within p0 p1) ∧ x.pos = p := by
  unfold Cell.removed
  split
  · rename_i hc
    have herase : s ∈ x.seq.erase seq ↔ s ∈ x.seq ∧ ¬ (seq = s ∧ x.within p0 p1) := by
      rw [Finset.mem_erase, and_comm, ne_comm]
      exact and_congr_right fun _ => not_congr (and_iff_left hc.1).symm
    split
    · rename_i hempty
      rw [hempty] at herase
      refine iff_of_false (fun h => Finset.notMem_empty s h.1) fun h => ?_
      exact Finset.notMem_empty s (herase.mpr ⟨h.1, h.2.1⟩)
    · rw [← and_assoc, ← herase]
  · rename_i hc
    refine and_congr_right fun hs => (and_iff_right ?_).symm
    rintro ⟨rfl, hw⟩
    exact hc ⟨hw, hs⟩

theorem Cell.at_moved {x : Cell} {seq s : Nat} {p0 p1 shift p : Int}
    (hplain : x.within p0 p1 → seq ∈ x.seq → x.seq = {seq}) :
    (s ∈ (x.moved seq p0 p1 shift).seq ∧ (x.moved seq p0 p1 shift).pos = p) ↔ s ∈ x.seq ∧
      (if s = seq ∧ x.within p0 p1 then (if x.pos + shift < 0 then none else some (x.pos + shift)) else some x.pos) =
        some p := by
  unfold Cell.moved
  by_cases hc : x.within p0 p1 ∧ seq ∈ x.seq
  · rw [if_pos hc]
    have hseq := hplain hc.1 hc.2
    by_cases hs : s = seq
    · subst hs
      have hin : s = s ∧ x.within p0 p1 := ⟨rfl, hc.1⟩
      rw [if_pos hin]
      by_cases hneg : x.pos + shift < 0
      · rw [if_pos hneg, if_pos hneg]
        exact iff_of_false (fun h => Finset.notMem_empty s h.1) fun h => by cases h.2
      · rw [if_neg hneg, if_neg hneg, Option.some_inj]
    · have hnot : s ∉ x.seq := by
        rw [hseq, Finset.mem_singleton]
        exact hs
      refine iff_of_false (fun h => ?_) fun h => hnot h.1
      split at h
      · exact Finset.notMem_empty s h.1
      · exact hnot h.1
  · rw [if_neg hc]
    refine and_congr_right fun hs => ?_
    rw [if_neg, Option.some_inj]
    rintro ⟨rfl, hw⟩
    exact hc ⟨hw, hs⟩

theorem Cell.at_divided {x : Cell} {seq s : Nat} {p0 p1 d p : Int}
    (hplain : x.within p0 p1 → seq ∈ x.seq → x.seq = {seq}) :
    (s ∈ (x.divided seq p0 p1 d).seq ∧ (x.divided seq p0 p1 d).pos = p) ↔ s ∈ x.seq ∧
      (if s = seq ∧ x.within p0 p1 then some (x.pos.tdiv d) else some x.pos) = some p := by
  unfold Cell.divided
  by_cases hc : x.within p0 p1 ∧ seq ∈ x.seq
  · rw [if_pos hc]
    refine and_congr_right fun hs => ?_
    have hs' : s ∈ x.seq := hs
    rw [hplain hc.1 hc.2, Finset.mem_singleton] at hs'
    rw [if_pos ⟨hs', hc.1⟩, Option.some_inj]
  · rw [if_neg hc]
    refine and_congr_right fun hs => ?_
    rw [if_neg, Option.some_inj]
    rintro ⟨rfl, hw⟩
    exact hc ⟨hw, hs⟩

/-- A cell of one stream, behind an operation within the streams. -/
theorem StreamOp.mem_onCell {op : StreamOp Unit} {k : Nat} {x : Cell}
    (hcross : ∀ src dst p0 p1, op = .seqCp src dst p0 p1 → st.streamOf src = st.streamOf dst)
    (hhome : ∀ u ∈ x.seq, st.streamOf u = k) (hplain : op.Plain st x) (s : Nat) (p : Int) :
    (s ∈ (op.onCell st k x).seq ∧ (op.onCell st k x).pos = p) ↔ op.origin s ∈ x.seq ∧ op.track st s x.pos = some p := by
  cases op with
  | clear => exact iff_of_false (fun h => Finset.notMem_empty s h.1) fun h => by cases h.2
  | emplace u cont => exact and_congr_right fun _ => Option.some_inj.symm
  | seqRm seq p0 p1 =>
      change _ ↔ s ∈ x.seq ∧ (if (seq = -1 ∨ seq.toNat = s) ∧ x.within p0 p1 then none else some x.pos) = some p
      rw [StreamOp.onCell]
      by_cases hall : seq = -1
      · rw [if_pos hall]
        by_cases hw : x.within p0 p1
        · rw [if_pos hw, if_pos (show (seq = -1 ∨ seq.toNat = s) ∧ x.within p0 p1 from ⟨.inl hall, hw⟩)]
          exact iff_of_false (fun h => Finset.notMem_empty s h.1) fun h => by cases h.2
        · rw [if_neg hw, if_neg (show ¬ ((seq = -1 ∨ seq.toNat = s) ∧ x.within p0 p1) from fun hc => hw hc.2),
            Option.some_inj]
      · rw [if_neg hall]
        by_cases hk : k = st.streamOf seq.toNat
        · rw [if_pos hk, Cell.at_removed]
          refine and_congr_right fun _ => ?_
          by_cases hc : seq.toNat = s ∧ x.within p0 p1
          · rw [if_pos (show (seq = -1 ∨ seq.toNat = s) ∧ x.within p0 p1 from ⟨.inr hc.1, hc.2⟩)]
            exact iff_of_false (fun h => h.1 hc) fun h => by cases h
          · rw [if_neg (show ¬ ((seq = -1 ∨ seq.toNat = s) ∧ x.within p0 p1) from
              fun h => hc ⟨h.1.resolve_left hall, h.2⟩), Option.some_inj]
            exact and_iff_right hc
        · rw [if_neg hk]
          refine and_congr_right fun hs => ?_
          have hnot : ¬ ((seq = -1 ∨ seq.toNat = s) ∧ x.within p0 p1) := by
            rintro ⟨hc | rfl, -⟩
            · exact hall hc
            · exact hk (hhome _ hs).symm
          rw [if_neg hnot, Option.some_inj]
  | seqCp src dst p0 p1 =>
      have hsame := hcross src dst p0 p1 rfl
      have hcell : StreamOp.onCell st (.seqCp src dst p0 p1) k x =
          if k = st.streamOf src ∧ src ≠ dst then x.copied src dst p0 p1 else x := if_pos hsame
      by_cases hs : s = dst
      · have horigin : StreamOp.origin (.seqCp src dst p0 p1) s = src := if_pos hs
        rw [horigin, hcell]
        by_cases hne : src = dst
        · have htrack : StreamOp.track st (.seqCp src dst p0 p1) s x.pos = some x.pos := if_neg fun h => h.2.1 hne
          have hin : ¬ (k = st.streamOf src ∧ src ≠ dst) := fun h => h.2 hne
          rw [htrack, if_neg hin, Option.some_inj, hs, hne]
        · have hdst : s ∉ x.seq := hs ▸ hplain hne hsame
          by_cases hw : x.within p0 p1
          · have htrack : StreamOp.track st (.seqCp src dst p0 p1) s x.pos = some x.pos := if_neg fun h => h.2.2.2 hw
            rw [htrack, Option.some_inj]
            by_cases hmem : src ∈ x.seq
            · rw [if_pos ⟨(hhome _ hmem).symm, hne⟩, Cell.copied, if_pos ⟨hw, hmem⟩]
              exact and_congr_left fun _ => iff_of_true (hs ▸ Finset.mem_insert_self _ _) hmem
            · have hcopied : x.copied src dst p0 p1 = x := if_neg fun h => hmem h.2
              rw [hcopied, ite_self]
              exact iff_of_false (fun h => hdst h.1) fun h => hmem h.1
          · have htrack : StreamOp.track st (.seqCp src dst p0 p1) s x.pos = none := if_pos ⟨hsame, hne, hs, hw⟩
            have hcopied : x.copied src dst p0 p1 = x := if_neg fun h => hw h.1
            rw [htrack, hcopied, ite_self]
            exact iff_of_false (fun h => hdst h.1) fun h => by cases h.2
      · have horigin : StreamOp.origin (.seqCp src dst p0 p1) s = s := if_neg hs
        have htrack : StreamOp.track st (.seqCp src dst p0 p1) s x.pos = some x.pos := if_neg fun h => hs h.2.2.1
        rw [horigin, htrack, hcell, Option.some_inj]
        split
        · rw [Cell.copied]
          split
          · refine and_congr_left fun _ => ?_
            rw [Finset.mem_insert]
            exact or_iff_right hs
          · exact Iff.rfl
        · exact Iff.rfl
  | seqKeep seq =>
      change _ ↔ s ∈ x.seq ∧ (if s ≠ seq ∧ st.streamOf s = st.streamOf seq then none else some x.pos) = some p
      rw [StreamOp.onCell]
      by_cases hk : k = st.streamOf seq
      · have hgone : s ∈ x.seq → s ≠ seq →
            (if s ≠ seq ∧ st.streamOf s = st.streamOf seq then none else some x.pos) = (none : Option Int) :=
          fun hmem hs => if_pos ⟨hs, (hhome s hmem).trans hk⟩
        rw [if_pos hk, Cell.kept]
        by_cases hmem : seq ∈ x.seq
        · rw [if_pos hmem]
          dsimp only
          rw [Finset.mem_singleton]
          by_cases hs : s = seq
          · have hin : ¬ (s ≠ seq ∧ st.streamOf s = st.streamOf seq) := fun h => h.1 hs
            rw [if_neg hin, Option.some_inj]
            exact and_congr_left fun _ => iff_of_true hs (hs ▸ hmem)
          · refine iff_of_false (fun h => hs h.1) fun h => ?_
            rw [hgone h.1 hs] at h
            cases h.2
        · rw [if_neg hmem]
          refine iff_of_false (fun h => Finset.notMem_empty s h.1) fun h => ?_
          rw [hgone h.1 fun hc => hmem (hc ▸ h.1)] at h
          cases h.2
      · rw [if_neg hk]
        refine and_congr_right fun hs => ?_
        have hnot : ¬ (s ≠ seq ∧ st.streamOf s = st.streamOf seq) := fun h => hk ((hhome s hs).symm.trans h.2)
        rw [if_neg hnot, Option.some_inj]
  | seqAdd seq p0 p1 shift =>
      change _ ↔ s ∈ x.seq ∧ (if s = seq ∧ x.within p0 p1 then
        (if x.pos + shift < 0 then none else some (x.pos + shift)) else some x.pos) = some p
      rw [StreamOp.onCell]
      by_cases hk : k = st.streamOf seq
      · rw [if_pos hk]
        exact Cell.at_moved hplain
      · rw [if_neg hk]
        refine and_congr_right fun hs => ?_
        have hnot : ¬ (s = seq ∧ x.within p0 p1) := fun h => hk ((hhome s hs).symm.trans (congrArg st.streamOf h.1))
        rw [if_neg hnot, Option.some_inj]
  | seqDiv seq p0 p1 d =>
      change _ ↔ s ∈ x.seq ∧ (if s = seq ∧ x.within p0 p1 then some (x.pos.tdiv d) else some x.pos) = some p
      rw [StreamOp.onCell]
      by_cases hk : k = st.streamOf seq
      · rw [if_pos hk]
        exact Cell.at_divided hplain
      · rw [if_neg hk]
        refine and_congr_right fun hs => ?_
        have hnot : ¬ (s = seq ∧ x.within p0 p1) := fun h => hk ((hhome s hs).symm.trans (congrArg st.streamOf h.1))
        rw [if_neg hnot, Option.some_inj]

theorem streamOf_lt_of_seqCp (h : st.Inv n) {src dst : Nat} {p0 p1 : Int}
    (hstep : streamStep (.seqCp src dst p0 p1) st = some st') : st.streamOf dst < st.nStream := by
  change st.seqCp src dst p0 p1 = some st' at hstep
  unfold Streams.seqCp at hstep
  split at hstep
  · rename_i hcap
    exact h.streamOf_lt hcap.2
  · cases hstep

/-- A copy between two streams: the cells of the one, for the other sequence. -/
theorem StreamOp.mem_copied {src dst : Nat} {p0 p1 : Int} (hdiff : st.streamOf src ≠ st.streamOf dst) {x : Cell} (s : Nat)
    (p : Int) : (s ∈ (StreamOp.onCell st (.seqCp src dst p0 p1) (st.streamOf dst) x).seq ∧
      (StreamOp.onCell st (.seqCp src dst p0 p1) (st.streamOf dst) x).pos = p) ↔ s = dst ∧ src ∈ x.seq ∧ x.pos = p := by
  have hcell : StreamOp.onCell st (.seqCp src dst p0 p1) (st.streamOf dst) x =
      if src ∈ x.seq then { x with seq := {dst} } else {} := (if_neg hdiff).trans (if_pos rfl)
  rw [hcell]
  by_cases hmem : src ∈ x.seq
  · rw [if_pos hmem]
    dsimp only
    rw [Finset.mem_singleton]
    exact and_congr_right fun _ => (and_iff_right hmem).symm
  · rw [if_neg hmem]
    exact iff_of_false (fun h => Finset.notMem_empty s h.1) fun h => hmem h.2.1

/-- **The positions of a sequence behind a step** that stores nothing. -/
theorem Acts.positions {op : StreamOp Unit} (ha : Acts n st st' op) (h : st.Inv n) (h' : st'.Inv n) (hhome : st.Home)
    (hplain : ∀ k < st.nStream, ∀ i < n, op.Plain st ((st.strm k).cells.cell i))
    (hto : ∀ src dst p0 p1, op = .seqCp src dst p0 p1 → st.streamOf dst < st.nStream) (s : Nat) (p : Int) :
    p ∈ st'.positions s ↔ ∃ q ∈ st.positions (op.origin s), op.track st s q = some p := by
  have hstream : ∀ k < st.nStream, ∀ i < n, ∀ u ∈ ((st.strm k).cells.cell i).seq, st.streamOf u = k :=
    fun k hk i hi u hu => (hhome k hk i (by rw [(h.good k hk).size_eq]; exact hi) u hu).2
  rw [h'.mem_positions, ha.nStream]
  by_cases hcross : ∀ src dst p0 p1, op = .seqCp src dst p0 p1 → st.streamOf src = st.streamOf dst
  · have hsource : ∀ k, op.source st k = k := by
      intro k
      cases op with
      | seqCp src dst p0 p1 => exact if_neg fun hc => hc.1 (hcross _ _ _ _ rfl)
      | _ => rfl
    have hcell : ∀ k < st.nStream, ∀ i < n, (s ∈ ((st'.strm k).cells.cell i).seq ∧ ((st'.strm k).cells.cell i).pos = p) ↔
        op.origin s ∈ ((st.strm k).cells.cell i).seq ∧ op.track st s ((st.strm k).cells.cell i).pos = some p := by
      intro k hk i hi
      rw [ha.cell k hk i hi, hsource]
      exact StreamOp.mem_onCell hcross (hstream k hk i hi) (hplain k hk i hi) s p
    constructor
    · rintro ⟨k, hk, i, hi, hat⟩
      obtain ⟨hmem, htrack⟩ := (hcell k hk i hi).mp hat
      exact ⟨_, h.mem_positions.mpr ⟨k, hk, i, hi, hmem, rfl⟩, htrack⟩
    · rintro ⟨q, hq, htrack⟩
      obtain ⟨k, hk, i, hi, hmem, rfl⟩ := h.mem_positions.mp hq
      exact ⟨k, hk, i, hi, (hcell k hk i hi).mpr ⟨hmem, htrack⟩⟩
  · simp only [not_forall] at hcross
    obtain ⟨src, dst, p0, p1, rfl, hdiff⟩ := hcross
    have hne : src ≠ dst := fun hc => hdiff (congrArg st.streamOf hc)
    have htrack : ∀ q, StreamOp.track st (.seqCp src dst p0 p1) s q = some q := fun q => if_neg fun hc => hdiff hc.1
    have hdst : StreamOp.source st (.seqCp src dst p0 p1) (st.streamOf dst) = st.streamOf src := if_pos ⟨hdiff, rfl⟩
    have hother : ∀ k ≠ st.streamOf dst, StreamOp.source st (.seqCp src dst p0 p1) k = k :=
      fun k hk => if_neg fun hc => hk hc.2
    have hkeep : ∀ k ≠ st.streamOf dst, ∀ x, StreamOp.onCell st (.seqCp src dst p0 p1) k x = x :=
      fun k hk x => (if_neg hdiff).trans (if_neg hk)
    -- with several streams each has one sequence
    have hinj : ∀ u, st.streamOf u = st.streamOf dst → u = dst := by
      intro u hu
      unfold Streams.streamOf at hu hdiff
      split at hu
      · exact hu
      · rename_i hone
        rw [if_neg hone, if_neg hone] at hdiff
        exact absurd rfl hdiff
    simp only [htrack, Option.some_inj]
    constructor
    · rintro ⟨k, hk, i, hi, hmem, hpos⟩
      rw [ha.cell k hk i hi] at hmem hpos
      by_cases hkd : k = st.streamOf dst
      · subst hkd
        rw [hdst] at hmem hpos
        obtain ⟨rfl, hmem, hpos⟩ := (StreamOp.mem_copied hdiff s p).mp ⟨hmem, hpos⟩
        have hsrc := ha.source _ hk
        rw [hdst] at hsrc
        refine ⟨p, h.mem_positions.mpr ⟨st.streamOf src, hsrc, i, hi, ?_, hpos⟩, rfl⟩
        rw [show StreamOp.origin (.seqCp src s p0 p1) s = src from if_pos rfl]
        exact hmem
      · rw [hother k hkd, hkeep k hkd] at hmem hpos
        have hs : s ≠ dst := fun hc => hkd (hc ▸ (hstream k hk i hi s hmem).symm)
        refine ⟨p, h.mem_positions.mpr ⟨k, hk, i, hi, ?_, hpos⟩, rfl⟩
        rw [show StreamOp.origin (.seqCp src dst p0 p1) s = s from if_neg hs]
        exact hmem
    · rintro ⟨q, hq, rfl⟩
      obtain ⟨k, hk, i, hi, hmem, hpos⟩ := h.mem_positions.mp hq
      by_cases hs : s = dst
      · subst hs
        rw [show StreamOp.origin (.seqCp src s p0 p1) s = src from if_pos rfl] at hmem
        have hks : k = st.streamOf src := (hstream k hk i hi src hmem).symm
        refine ⟨st.streamOf s, hto src s p0 p1 rfl, i, hi, ?_⟩
        rw [ha.cell _ (hto src s p0 p1 rfl) i hi, hdst, StreamOp.mem_copied hdiff, ← hks]
        exact ⟨rfl, hmem, hpos⟩
      · rw [show StreamOp.origin (.seqCp src dst p0 p1) s = s from if_neg hs] at hmem
        have hkd : k ≠ st.streamOf dst := fun hc => hs (hinj s ((hstream k hk i hi s hmem).trans hc))
        refine ⟨k, hk, i, hi, ?_⟩
        rw [ha.cell k hk i hi, hother k hkd, hkeep k hkd]
        exact ⟨hmem, hpos⟩

end Acts

end S2Moe.Kv
