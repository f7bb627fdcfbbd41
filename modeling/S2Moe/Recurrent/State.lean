import Mathlib.Data.Finset.Sort
import S2Moe.Kv.State
import S2Moe.Recurrent.Reachable

/-!
# `llama_memory_recurrent`: saving and restoring

Each layer has a tensor for `r` and one for `s`, with a row for each cell; layers that are not recurrent have neither.

* `stateWrite`, `stateRead` : the format, byte by byte, with the sequence -1 for the whole memory;
* `ubatchReserve` : the arrays that the reader of one sequence fills, which are empty where nothing was saved;
* `stateReadData_reads` : the rows of the saved cells are put behind the head;
* `readSequence_reads`, `readWhole_reads` : the cells are those of `Memory.readSequence` and `Memory.readWhole`.
-/

namespace S2Moe.Recurrent
open S2Moe.Lib
open S2Moe.Kv (GgmlType writeRanges writeRanges_eq length_writeRanges)

/-- The two tensors of a layer. -/
inductive Part where
  | r
  | s
deriving DecidableEq

structure Conf where
  nLayer : Nat
  /-- The layers with tensors. -/
  has : Nat → Bool
  type : Part → GgmlType
  nEmbd : Part → Nat
  nLayer_lt : nLayer < 2 ^ 32 := by decide
  nEmbd_lt : ∀ p, nEmbd p < 2 ^ 32

def Conf.row (conf : Conf) (p : Part) : Nat := (conf.type p).rowSize (conf.nEmbd p)

/-- A memory with its tensors, byte by byte. -/
structure Rec where
  mem : Memory
  data : Part → Nat → Nat → UInt8

namespace Rec

/-- With the data. -/
def clear (m : Rec) : Rec := ⟨m.mem.clear, fun _ _ _ => 0⟩

def put (m : Rec) (p : Part) (il a : Nat) (bs : List UInt8) : Rec :=
  { m with data := fun q j => if q = p ∧ j = il then putRows (m.data q j) a bs else m.data q j }

end Rec

/-! ## Writing -/

namespace Memory

def saved (m : Memory) (seq : Int) (i : Nat) : Bool :=
  (decide (seq = -1) && !m.isEmpty i) || decide ((m.cells i).hasSeqId seq)

/-- The cells that are saved. -/
def saves (m : Memory) (seq : Int) : List Nat := (List.range m.size).filter (m.saved seq)

/-- The ids are saved with the whole memory only. -/
def savedIds (m : Memory) (seq : Int) (i : Nat) : List Nat := if seq = -1 then (m.seqs i).sort else []

def savedCell (m : Memory) (seq : Int) (i : Nat) : SavedCell :=
    ⟨(m.cells i).pos, (m.savedIds seq i).map fun x : Nat => (x : Int)⟩

end Memory

def writeCell (c : SavedCell) : List UInt8 :=
  intBytes 4 c.pos ++ (leBytes 4 c.seqIds.length ++ c.seqIds.flatMap (intBytes 4))

def stateWriteMeta (m : Memory) (cr : List (Nat × Nat)) (seq : Int) : List UInt8 :=
  cr.flatMap fun r => (within r).flatMap fun i => writeCell (m.savedCell seq i)

def writePart (conf : Conf) (m : Rec) (p : Part) (cr : List (Nat × Nat)) : List UInt8 :=
  (List.range conf.nLayer).flatMap fun il =>
    if conf.has il then intBytes 4 ((conf.type p).id : Int) ++
      (leBytes 8 (conf.row p) ++ writeRanges (m.data p il) (conf.row p) cr)
    else []

/-- `s` is never transposed. -/
def stateWriteData (conf : Conf) (m : Rec) (cr : List (Nat × Nat)) : List UInt8 :=
  leBytes 4 0 ++ (leBytes 4 conf.nLayer ++ (writePart conf m .r cr ++ writePart conf m .s cr))

/-- The assertion that the ranges have as many cells as were counted is `flatMap_ranges`. -/
def stateWrite (conf : Conf) (m : Rec) (seq : Int) : List UInt8 :=
  leBytes 4 (m.mem.saves seq).length ++
    (stateWriteMeta m.mem (ranges (m.mem.saved seq) m.mem.size) seq ++
      stateWriteData conf m (ranges (m.mem.saved seq) m.mem.size))

/-! ## Reading -/

/-- The arrays of a ubatch, with an entry for each token. -/
structure Reserved where
  pos : List Int
  nSeqId : List Nat
  seqId : List (List Int)

/-- `ubatch_reserve`. -/
def ubatchReserve (nSeqTokens nSeqs : Nat) : Reserved where
  pos := List.replicate (nSeqTokens * nSeqs) 0
  nSeqId := List.replicate (nSeqTokens * nSeqs) 0
  seqId := List.replicate (nSeqTokens * nSeqs) []

namespace Reserved

/-- `n_seq_id[i]` and `seq_id[i]`; nothing for an index outside of the arrays. -/
def setIds (u : Reserved) (i : Nat) (ids : List Int) : Option Reserved :=
  if i < u.nSeqId.length ∧ i < u.seqId.length then
    some { u with nSeqId := u.nSeqId.set i ids.length, seqId := u.seqId.set i ids }
  else none

/-- The one sequence set: the ids of its first token and the position of its last. -/
def ubatch (u : Reserved) (nSeqTokens : Nat) : Option UBatch :=
  match u.nSeqId[0]?, u.seqId[0]?, u.pos[nSeqTokens - 1]? with
  | some n, some (x :: xs), some p => some ⟨[⟨x, xs.take (n - 1), p⟩], List.cons_ne_nil _ _⟩
  | _, _, _ => none

end Reserved

/-- The positions of the saved cells, each of which must have been saved without ids. -/
def readPositions : Nat → Read Rec (Option (List Int))
  | 0 => return some []
  | n + 1 => do
    let pos ← Read.int 4
    let nSeq ← Read.nat 4
    if nSeq ≠ 0 then return none
    else return (← readPositions n).map (pos :: ·)

/-- One sequence: the saved cells are placed like a ubatch. -/
def readSequence (count : Nat) (dest : Int) : Read Rec Bool := do
  let m ← Read.get
  Read.set { m with mem := (m.mem.seqRm dest (-1) (-1)).2 }
  match ← readPositions count with
  | none => return false
  | some ps =>
    -- without a token there is no entry to write to, and no meaning to it
    match ({ ubatchReserve count 1 with pos := ps }.setIds 0 [dest]).bind (·.ubatch count) with
    | none => Read.fail .aborted
    | some ubatch => do
      let m ← Read.get
      match m.mem.findSlot ubatch with
      | none => Read.fail .aborted
      | some (false, mem) => do
        Read.set { m with mem := mem }
        return false
      | some (true, mem) =>
        if mem.head + count ≤ mem.size ∧ (mem.cells mem.head).pos = ps.headD 0 ∧
            (mem.cells (mem.head + count - 1)).pos = ps.getLastD 0 ∧ (mem.cells mem.head).hasSeqId dest ∧
            (mem.cells (mem.head + count - 1)).hasSeqId dest then do
          Read.set { m with mem := mem.keepSources count }
          return true
        else Read.fail .aborted

/-- An id of cell `i`, which may be past the end of `cells`: that is not checked. -/
def readId (i : Nat) : Read Rec Bool := do
  let x ← Read.int 4
  if x < 0 then return false
  else do
    let m ← Read.get
    let mem := m.mem.modify i fun c => { c with seqId := insert x.toNat c.seqId }
    Read.set { m with mem := mem }
    if m.mem.size ≤ x then Read.fail .aborted
    else if mem.tail x.toNat ≠ none then return false
    else do
      Read.set { m with mem := mem.setTail x.toNat (some i) }
      return true

def readCell (i : Nat) : Read Rec Bool := do
  let pos ← Read.int 4
  let n ← Read.nat 4
  let m ← Read.get
  Read.set { m with mem := m.mem.modify i fun c => { c with pos := pos } }
  Read.each (fun _ => readId i) (List.range n)

def readCells (count : Nat) : Read Rec Bool := Read.each readCell (List.range count)

def readWhole (count : Nat) : Read Rec Bool := do
  let m ← Read.get
  if m.mem.size < count then return false
  else do
    Read.set m.clear
    if ← readCells count then do
      let m ← Read.get
      Read.set { m with mem := { m.mem with head := 0, used := count }.keepSources count }
      return true
    else return false

def stateReadMeta (count : Nat) (dest : Int) : Read Rec Bool :=
  if dest ≠ -1 then readSequence count dest else readWhole count

/-- The rows of a layer, whose type and size must be those of the memory. -/
def readLayer (conf : Conf) (count : Nat) (p : Part) (il : Nat) : Read Rec Bool :=
  if conf.has il then do
    let type ← Read.int 4
    if type ≠ ((conf.type p).id : Int) then return false
    else do
      let size ← Read.nat 8
      if size ≠ conf.row p then return false
      else if count = 0 then return true
      else do
        let bs ← Read.bytes (count * conf.row p)
        let m ← Read.get
        Read.set (m.put p il (m.mem.head * conf.row p) bs)
        return true
  else return true

/-- A transposed `s` is refused, so that no rows are read for one. -/
def stateReadData (conf : Conf) (count : Nat) : Read Rec Bool := do
  let sTrans ← Read.nat 4
  let nLayer ← Read.nat 4
  let m ← Read.get
  if nLayer ≠ conf.nLayer then return false
  else if m.mem.size < count then return false
  else if sTrans ≠ 0 then return false
  else do
    if ← Read.each (readLayer conf count .r) (List.range conf.nLayer) then
      Read.each (readLayer conf count .s) (List.range conf.nLayer)
    else return false

/-- What was read is taken back before the exception. -/
def giveUp (dest : Int) : Read Rec Unit := do
  let m ← Read.get
  Read.set (if dest = -1 then m.clear else { m with mem := (m.mem.seqRm dest (-1) (-1)).2 })
  Read.fail .thrown

def stateRead (conf : Conf) (dest : Int) : Read Rec Unit := do
  let count ← Read.nat 4
  if ← stateReadMeta count dest then
    if ← stateReadData conf count then return () else giveUp dest
  else giveUp dest

/-! ## The rows -/

section Data
variable {conf : Conf} {A m : Rec} {p q : Part} {il count : Nat} {cr : List (Nat × Nat)} {bs : List UInt8}
  {w : Part → Nat → List UInt8}

theorem Conf.row_lt (conf : Conf) (p : Part) : conf.row p < 256 ^ 8 := by
  have hmul := Nat.mul_lt_mul'' (conf.type p).size_lt (conf.nEmbd_lt p)
  unfold Conf.row GgmlType.rowSize
  exact lt_of_le_of_lt (Nat.div_le_self _ _) (hmul.trans_eq (by norm_num))

theorem putRows_nil {mem : Nat → UInt8} {a : Nat} : putRows mem a [] = mem := by
  funext k
  rcases Nat.lt_or_ge k a with h | h
  · exact putRows_of_lt h
  · exact putRows_of_le h

/-- The first `n` layers of a part are written from the head on. -/
def Rec.filled (conf : Conf) (w : Part → Nat → List UInt8) (p : Part) (n : Nat) (m : Rec) : Rec :=
  { m with data := fun q il =>
      if q = p ∧ il < n ∧ conf.has il then putRows (m.data q il) (m.mem.head * conf.row q) (w q il) else m.data q il }

theorem Rec.filled_succ {n : Nat} : m.filled conf w p (n + 1) =
    if conf.has n then (m.filled conf w p n).put p n (m.mem.head * conf.row p) (w p n) else m.filled conf w p n := by
  by_cases hn : conf.has n = true
  · rw [if_pos hn]
    unfold Rec.filled Rec.put
    rw [Rec.mk.injEq]
    refine ⟨rfl, funext fun q => funext fun j => ?_⟩
    dsimp only
    by_cases hj : q = p ∧ j = n
    · obtain ⟨rfl, rfl⟩ := hj
      rw [if_pos ⟨rfl, Nat.lt_succ_self j, hn⟩, if_pos ⟨rfl, rfl⟩, if_neg fun hc => absurd hc.2.1 (Nat.lt_irrefl j)]
    · rw [if_neg hj]
      refine if_congr ⟨fun hc => ⟨hc.1, ?_, hc.2.2⟩, fun hc => ⟨hc.1, by omega, hc.2.2⟩⟩ rfl rfl
      have hne : j ≠ n := fun hjn => hj ⟨hc.1, hjn⟩
      omega
  · rw [if_neg hn]
    unfold Rec.filled
    rw [Rec.mk.injEq]
    refine ⟨rfl, funext fun q => funext fun j => ?_⟩
    refine if_congr ⟨fun hc => ⟨hc.1, ?_, hc.2.2⟩, fun hc => ⟨hc.1, by omega, hc.2.2⟩⟩ rfl rfl
    have hne : j ≠ n := fun hjn => hn (hjn ▸ hc.2.2)
    omega

theorem readLayer_reads (hlen : bs.length = count * conf.row p) (hhas : conf.has il = true) :
    Reads (readLayer conf count p il) (intBytes 4 ((conf.type p).id : Int) ++ (leBytes 8 (conf.row p) ++ bs)) m true
      (m.put p il (m.mem.head * conf.row p) bs) := by
  unfold readLayer
  rw [if_pos hhas]
  refine (Reads.int (conf.type p).id_fits).bind ?_
  rw [if_neg (not_not.mpr rfl)]
  refine (Reads.nat (conf.row_lt p)).bind ?_
  rw [if_neg (not_not.mpr rfl)]
  by_cases hzero : count = 0
  · rw [hzero, Nat.zero_mul, List.length_eq_zero_iff] at hlen
    have hput : m.put p il (m.mem.head * conf.row p) [] = m := by
      unfold Rec.put
      simp only [putRows_nil, ite_self]
    rw [if_pos hzero, hlen, hput]
    exact Reads.pure true
  · rw [if_neg hzero]
    refine (Reads.bytes hlen).bind_last ?_
    exact Reads.get.bind_nil (Reads.set.bind_nil (Reads.pure true))

theorem readPart_reads (p : Part) (hw : ∀ il, (w p il).length = count * conf.row p) :
    Reads (Read.each (readLayer conf count p) (List.range conf.nLayer))
      ((List.range conf.nLayer).flatMap fun il =>
        if conf.has il then intBytes 4 ((conf.type p).id : Int) ++ (leBytes 8 (conf.row p) ++ w p il) else [])
      m true (m.filled conf w p conf.nLayer) := by
  obtain ⟨t, ht, rfl⟩ := Reads.each (f := readLayer conf count p) (s := m)
    (w := fun il => if conf.has il then intBytes 4 ((conf.type p).id : Int) ++ (leBytes 8 (conf.row p) ++ w p il) else [])
    (P := fun n t => t = m.filled conf w p n) conf.nLayer (by simp [Rec.filled])
    (by
      rintro il - t rfl
      by_cases hhas : conf.has il = true
      · refine ⟨_, ?_, Rec.filled_succ.symm⟩
        rw [if_pos hhas, if_pos hhas]
        exact readLayer_reads (hw il) hhas
      · refine ⟨_, ?_, Rec.filled_succ.symm⟩
        rw [if_neg hhas, if_neg hhas]
        unfold readLayer
        rw [if_neg hhas]
        exact Reads.pure true)
  exact ht

/-- The rows of the cells `cr` of `A`, from the head on. -/
def Rec.restored (conf : Conf) (m A : Rec) (cr : List (Nat × Nat)) : Rec :=
  let w := fun p il => writeRanges (A.data p il) (conf.row p) cr
  (m.filled conf w .r conf.nLayer).filled conf w .s conf.nLayer

/-- **The saved rows are put behind the head.** -/
theorem stateReadData_reads (hcount : (cr.flatMap within).length = count) (hle : count ≤ m.mem.size) :
    Reads (stateReadData conf count) (stateWriteData conf A cr) m true (m.restored conf A cr) := by
  have hw : ∀ p il, (writeRanges (A.data p il) (conf.row p) cr).length = count * conf.row p := fun p il => by
    rw [length_writeRanges, hcount]
  unfold stateReadData stateWriteData
  refine (Reads.nat (by norm_num)).bind ?_
  refine (Reads.nat (conf.nLayer_lt.trans_eq (by norm_num))).bind ?_
  refine Reads.get.bind_nil ?_
  rw [if_neg (not_not.mpr rfl), if_neg (by omega), if_neg (not_not.mpr rfl)]
  refine (readPart_reads (w := fun p il => writeRanges (A.data p il) (conf.row p) cr) .r (hw .r)).bind ?_
  rw [if_pos rfl]
  exact readPart_reads (w := fun p il => writeRanges (A.data p il) (conf.row p) cr) .s (hw .s)

end Data

/-! ## The cells -/

section Meta
variable {m m' : Memory} {data : Part → Nat → Nat → UInt8} {dest : Int}

/-- Saved cells whose numbers have four bytes. -/
def SavedCell.Fits (c : SavedCell) : Prop := FitsInt 4 c.pos ∧ c.seqIds.length < 256 ^ 4 ∧ ∀ x ∈ c.seqIds, FitsInt 4 x

theorem readPositions_reads : ∀ {saved : List SavedCell} (m : Rec), (∀ c ∈ saved, c.Fits ∧ c.seqIds = []) →
    Reads (readPositions saved.length) (saved.flatMap writeCell) m (some (saved.map SavedCell.pos)) m
  | [], m, _ => Reads.pure _
  | c :: saved, m, h => by
    obtain ⟨⟨hpos, -, -⟩, hids⟩ := h c List.mem_cons_self
    rw [List.flatMap_cons, List.length_cons]
    unfold writeCell
    rw [hids, List.append_assoc]
    refine (Reads.int hpos).bind ?_
    rw [List.flatMap_nil, List.append_nil]
    refine (Reads.nat (by decide)).bind ?_
    rw [if_neg (not_not.mpr List.length_nil)]
    refine (readPositions_reads m fun d hd => h d (List.mem_cons_of_mem _ hd)).bind_last ?_
    exact Reads.pure _

theorem ubatchReserve_one {count : Nat} {ps : List Int} (hlen : ps.length = count) (hne : ps ≠ []) :
    (({ ubatchReserve count 1 with pos := ps } : Reserved).setIds 0 [dest]).bind (·.ubatch count) =
      some ⟨[⟨dest, [], ps.getLastD 0⟩], List.cons_ne_nil _ _⟩ := by
  obtain ⟨n, rfl⟩ : ∃ n, count = n + 1 :=
    Nat.exists_eq_succ_of_ne_zero fun hc => hne (List.length_eq_zero_iff.mp (hlen.trans hc))
  have hlast : ps[n]? = some (ps.getLastD 0) := by
    rw [List.getLastD_eq_getLast?, List.getLast?_eq_getElem?, hlen, Nat.add_sub_cancel]
    have hlt : n < ps.length := by omega
    rw [List.getElem?_eq_getElem hlt]
    rfl
  have hset : ({ ubatchReserve (n + 1) 1 with pos := ps } : Reserved).setIds 0 [dest] =
      some ⟨ps, 1 :: List.replicate n 0, [dest] :: List.replicate n []⟩ := by
    unfold ubatchReserve Reserved.setIds
    rw [Nat.mul_one]
    exact if_pos ⟨Nat.zero_lt_succ _, Nat.zero_lt_succ _⟩
  rw [hset, Option.bind_some]
  unfold Reserved.ubatch
  simp only [List.getElem?_cons_zero, Nat.add_sub_cancel, hlast]
  rfl

/-- Without a saved cell the arrays are empty. -/
theorem ubatchReserve_zero {ps : List Int} :
    (({ ubatchReserve 0 1 with pos := ps } : Reserved).setIds 0 [dest]).bind (·.ubatch 0) = none := rfl

/-- The reader of one sequence does what `Memory.readSequence` does. -/
theorem readSequence_reads {saved : List SavedCell} (hfits : ∀ c ∈ saved, c.Fits ∧ c.seqIds = [])
    (hread : m.readSequence dest saved = some m') :
    Reads (readSequence saved.length dest) (saved.flatMap writeCell) ⟨m, data⟩ true ⟨m', data⟩ := by
  unfold Memory.readSequence at hread
  dsimp only at hread
  split at hread
  · cases hread
  · cases saved with
    | nil => cases hread
    | cons c cs =>
        have hpos : ((c :: cs).map SavedCell.pos).getLastD 0 = ((c :: cs).getLast (List.cons_ne_nil c cs)).pos := by
          rw [List.getLastD_eq_getLast?, List.getLast?_map, List.getLast?_eq_some_getLast (List.cons_ne_nil c cs)]
          rfl
        unfold readSequence
        refine Reads.get.bind_nil (Reads.set.bind_nil ?_)
        refine (readPositions_reads _ hfits).bind_last ?_
        have hne : (c :: cs).map SavedCell.pos ≠ [] := List.cons_ne_nil _ _
        dsimp only
        rw [ubatchReserve_one (List.length_map _) hne, hpos, show ((c :: cs).map SavedCell.pos).headD 0 = c.pos from rfl]
        dsimp only
        refine Reads.get.bind_nil ?_
        dsimp only at hread ⊢
        split at hread
        · rename_i mem hfind
          rw [hfind]
          dsimp only
          split at hread
          · rename_i hok
            cases hread
            rw [if_pos hok]
            exact Reads.set.bind_nil (Reads.pure true)
          · cases hread
        · cases hread

/-- Nothing is read for a sequence of which nothing was saved. -/
theorem readSequence_fails (m : Rec) : Fails (readSequence 0 dest) [] m := by
  unfold readSequence
  intro rest
  exact ⟨.aborted, _, rfl⟩

/-- The ids of cell `i`. -/
theorem readIds_reads {i : Nat} : ∀ {ids : List Int} {m : Memory} (l : List Nat), l.length = ids.length →
    (∀ x ∈ ids, FitsInt 4 x) → Memory.readIds i ids m = some m' →
    Reads (Read.each (fun _ => readId i) l) (ids.flatMap (intBytes 4)) ⟨m, data⟩ true ⟨m', data⟩
  | [], m, l, hlen, _, hread => by
    cases hread
    rw [List.length_eq_zero_iff.mp hlen]
    exact Reads.pure true
  | x :: ids, m, k :: l, hlen, hfits, hread => by
    rw [Memory.readIds] at hread
    split at hread
    · rename_i hx
      obtain ⟨⟨h0, hlt⟩, hnone⟩ := hx
      have htail : (m.modify i fun c => { c with seqId := insert x.toNat c.seqId }).tail x.toNat = none := by
        rw [Memory.tail_modify]
        · exact hnone
        · exact fun _ => rfl
      rw [List.flatMap_cons, Read.each]
      refine Reads.bind (a := true) (t := ⟨(m.modify i fun c => { c with seqId := insert x.toNat c.seqId }).setTail x.toNat
        (some i), data⟩) ?_ ?_
      · unfold readId
        refine (Reads.int (hfits x List.mem_cons_self)).bind_last ?_
        rw [if_neg (by omega)]
        refine Reads.get.bind_nil (Reads.set.bind_nil ?_)
        rw [if_neg (by dsimp only; omega), if_neg (not_not.mpr htail)]
        exact Reads.set.bind_nil (Reads.pure true)
      · exact readIds_reads l (Nat.succ.inj hlen) (fun y hy => hfits y (List.mem_cons_of_mem _ hy)) hread
    · cases hread

theorem readCells_reads : ∀ {saved : List SavedCell} {i : Nat} {m : Memory}, (∀ c ∈ saved, c.Fits) →
    Memory.readCells i saved m = some m' →
    Reads (Read.each readCell (List.range' i saved.length)) (saved.flatMap writeCell) ⟨m, data⟩ true ⟨m', data⟩
  | [], i, m, _, hread => by
    cases hread
    exact Reads.pure true
  | c :: saved, i, m, hfits, hread => by
    simp only [Memory.readCells, Option.bind_eq_bind, Option.bind_eq_some_iff] at hread
    obtain ⟨mem, hids, hread⟩ := hread
    obtain ⟨hpos, hlen, hall⟩ := hfits c List.mem_cons_self
    rw [List.flatMap_cons, List.length_cons, List.range'_succ, Read.each]
    refine Reads.bind (a := true) (t := ⟨mem, data⟩) ?_ ?_
    · unfold writeCell readCell
      refine (Reads.int hpos).bind ((Reads.nat hlen).bind ?_)
      refine Reads.get.bind_nil (Reads.set.bind_nil ?_)
      exact readIds_reads _ List.length_range hall hids
    · exact readCells_reads (fun d hd => hfits d (List.mem_cons_of_mem _ hd)) hread

/-- The reader of the whole memory does what `Memory.readWhole` does, and the rows are zero. -/
theorem readWhole_reads {saved : List SavedCell} (hfits : ∀ c ∈ saved, c.Fits) (hread : m.readWhole saved = some m') :
    Reads (readWhole saved.length) (saved.flatMap writeCell) ⟨m, data⟩ true ⟨m', fun _ _ _ => 0⟩ := by
  unfold Memory.readWhole at hread
  split at hread
  · cases hread
  · rename_i hle
    simp only [Option.bind_eq_bind, Option.bind_eq_some_iff, Option.some.injEq] at hread
    obtain ⟨mem, hcells, rfl⟩ := hread
    unfold readWhole
    refine Reads.get.bind_nil ?_
    rw [if_neg hle]
    refine Reads.set.bind_nil ?_
    unfold readCells
    rw [List.range_eq_range']
    refine (readCells_reads hfits hcells).bind_last ?_
    rw [if_pos rfl]
    exact Reads.get.bind_nil (Reads.set.bind_nil (Reads.pure true))

end Meta

end S2Moe.Recurrent
