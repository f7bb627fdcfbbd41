import Mathlib.Data.List.GetD
import S2Moe.Kv.Streams
import S2Moe.Lib.Bytes

/-!
# `llama_kv_cache`: saving and restoring the whole cache

The K rows of a layer lie behind each other; so do the V rows, or V is transposed and has a row for each of its elements.

* `stateWrite`, `stateRead` : the format, byte by byte, with the sequence -1 for the whole cache;
* `Store.entries` : what a stream holds, in the order of its cells;
* `readStream_whole` : what the reader makes of one stream, and `Whole` : when that is what was saved;
* `stateRead_stateWrite` : a restored cache is the saved one if and only if it is.
-/

namespace S2Moe.Kv
open S2Moe.Lib
open S2Moe.Recurrent (lower upper posMax)

/-- The number of a tensor type, the bytes of a block and the elements in it. -/
structure GgmlType where
  id : Nat
  size : Nat
  blck : Nat
  id_lt : id < 2 ^ 31 := by decide
  size_pos : 0 < size := by decide
  size_lt : size < 2 ^ 32 := by decide

def GgmlType.rowSize (t : GgmlType) (ne : Nat) : Nat := t.size * ne / t.blck

structure Layer where
  kType : GgmlType
  vType : GgmlType
  nEmbdK : Nat
  nEmbdV : Nat
  nEmbdK_lt : nEmbdK < 2 ^ 32 := by decide
  nEmbdV_lt : nEmbdV < 2 ^ 32 := by decide

namespace Layer

def kRow (l : Layer) : Nat := l.kType.rowSize l.nEmbdK

def vRow (l : Layer) : Nat := l.vType.rowSize l.nEmbdV

/-- The size of an element of V where it is transposed. -/
def vEl (l : Layer) : Nat := l.vType.size

end Layer

structure Conf where
  vTrans : Bool
  nSeqMax : Nat
  nLayer : Nat
  layer : Nat → Layer
  nSeqMax_le : nSeqMax ≤ maxSeq := by decide
  nLayer_lt : nLayer < 2 ^ 32 := by decide

/-- A tensor for each layer and stream, byte by byte. -/
abbrev Tensors := Nat → Nat → Nat → UInt8

def Tensors.set (x : Tensors) (il s : Nat) (mem : Nat → UInt8) : Tensors :=
  Function.update x il (Function.update (x il) s mem)

structure Store where
  st : Streams Unit
  k : Tensors
  v : Tensors

namespace Store

def cells (m : Store) (s : Nat) : Cells := (m.st.strm s).cells

def head (m : Store) (s : Nat) : Nat := (m.st.strm s).head

def onCells (m : Store) (s : Nat) (f : Cells → Cells) : Store :=
  { m with st := m.st.set s { m.st.strm s with cells := f (m.cells s) } }

def setHead (m : Store) (s head : Nat) : Store := { m with st := m.st.set s { m.st.strm s with head := head } }

/-- With the data. -/
def clear (m : Store) : Store := { st := m.st.clear, k := fun _ _ _ => 0, v := fun _ _ _ => 0 }

def setK (m : Store) (il s : Nat) (mem : Nat → UInt8) : Store := { m with k := m.k.set il s mem }

def setV (m : Store) (il s : Nat) (mem : Nat → UInt8) : Store := { m with v := m.v.set il s mem }

def putK (m : Store) (il s a : Nat) (bs : List UInt8) : Store := m.setK il s (putRows (m.k il s) a bs)

def putV (m : Store) (il s a : Nat) (bs : List UInt8) : Store := m.setV il s (putRows (m.v il s) a bs)

end Store

/-! ## Writing -/

def Cells.saved (c : Cells) (seq : Int) (i : Nat) : Bool :=
  !c.isEmpty i && (decide (seq = -1) || c.seqHas i seq.toNat)

/-- The cells that are saved. -/
def Cells.saves (c : Cells) (seq : Int) : List Nat := (List.range c.size).filter (c.saved seq)

def Cells.savedIds (conf : Conf) (c : Cells) (seq : Int) (i : Nat) : List Nat :=
  (List.range conf.nSeqMax).filter fun cur => (decide ((cur : Int) = seq) || decide (seq = -1)) && c.seqHas i cur

def writeCell (conf : Conf) (c : Cells) (seq : Int) (i : Nat) : List UInt8 :=
  intBytes 4 (c.cell i).pos ++ (leBytes 4 (c.savedIds conf seq i).length ++
    (c.savedIds conf seq i).flatMap fun id : Nat => intBytes 4 (id : Int))

def stateWriteMeta (conf : Conf) (c : Cells) (cr : List (Nat × Nat)) (seq : Int) : List UInt8 :=
  cr.flatMap fun r => (within r).flatMap (writeCell conf c seq)

/-- Ranges of rows of a tensor. -/
def writeRanges (m : Nat → UInt8) (row : Nat) (cr : List (Nat × Nat)) : List UInt8 :=
  cr.flatMap fun r => slice m (r.1 * row) ((r.2 - r.1) * row)

/-- Ranges of element `j` of a transposed tensor; the offset is computed in 32 bits. -/
def writeElems (m : Nat → UInt8) (el size j : Nat) (cr : List (Nat × Nat)) : List UInt8 :=
  cr.flatMap fun r => slice m ((r.1 + j * size) * el % 2 ^ 32) ((r.2 - r.1) * el)

def stateWriteData (conf : Conf) (m : Store) (s : Nat) (cr : List (Nat × Nat)) : List UInt8 :=
  leBytes 4 (if conf.vTrans then 1 else 0) ++ (leBytes 4 conf.nLayer ++
    ((List.range conf.nLayer).flatMap (fun il => intBytes 4 ((conf.layer il).kType.id : Int) ++
      (leBytes 8 (conf.layer il).kRow ++ writeRanges (m.k il s) (conf.layer il).kRow cr)) ++
    if conf.vTrans then
      (List.range conf.nLayer).flatMap fun il => intBytes 4 ((conf.layer il).vType.id : Int) ++
        (leBytes 4 (conf.layer il).vEl ++ (leBytes 4 (conf.layer il).nEmbdV ++
          (List.range (conf.layer il).nEmbdV).flatMap fun j => writeElems (m.v il s) (conf.layer il).vEl
            (m.cells s).size j cr))
    else
      (List.range conf.nLayer).flatMap fun il => intBytes 4 ((conf.layer il).vType.id : Int) ++
        (leBytes 8 (conf.layer il).vRow ++ writeRanges (m.v il s) (conf.layer il).vRow cr)))

/-- The assertion that the ranges have as many cells as were counted is `flatMap_ranges`. -/
def writeStream (conf : Conf) (m : Store) (seq : Int) (s : Nat) : List UInt8 :=
  let c := m.cells s
  let cr := ranges (c.saved seq) c.size
  let count := (c.saves seq).length
  leBytes 4 count ++ if count = 0 then [] else stateWriteMeta conf c cr seq ++ stateWriteData conf m s cr

/-- Nothing for a sequence that no bit of a cell stands for. -/
def stateWrite (conf : Conf) (m : Store) (seq : Int) : Option (List UInt8) :=
  if (∃ s < m.st.nStream, ∃ i < (m.cells s).size, (m.cells s).isEmpty i = false) ∧
    ¬ (seq = -1 ∨ (0 ≤ seq ∧ seq < maxSeq)) then none
  else some (leBytes 4 m.st.nStream ++ (List.range m.st.nStream).flatMap (writeStream conf m seq))

/-! ## Reading -/

/-- The ids of cell `i`. -/
def readIds (conf : Conf) (strm i n : Nat) : Read Store Bool :=
  Read.each (fun _ => do
    let seq ← Read.int 4
    if seq < 0 ∨ (conf.nSeqMax : Int) ≤ seq then return false
    else do
      let m ← Read.get
      Read.set (m.onCells strm fun c => c.seqAdd i seq.toNat)
      return true) (List.range n)

def readCells (conf : Conf) (strm count : Nat) : Read Store Bool :=
  Read.each (fun i => do
    let pos ← Read.int 4
    let n ← Read.nat 4
    let m ← Read.get
    Read.set (m.onCells strm fun c => c.posSet i pos)
    readIds conf strm i n) (List.range count)

/-- The cells of a whole cache; all streams are cleared. -/
def readWhole (conf : Conf) (strm count : Nat) : Read Store Bool := do
  let m ← Read.get
  if (m.cells strm).size < count then return false
  else do
    Read.set m.clear
    if ← readCells conf strm count then do
      let m ← Read.get
      Read.set (m.setHead strm 0)
      return true
    else return false

/-- The positions of one sequence; each cell must have been saved with one id. -/
def readPositions : Nat → Read Store (Option (List Int))
  | 0 => return some []
  | n + 1 => do
    let pos ← Read.int 4
    let nSeq ← Read.nat 4
    if nSeq ≠ 1 then return none
    else do
      let _ ← Read.int 4
      return (← readPositions n).map (pos :: ·)

/-- The tokens of the restored sequence. -/
def restoredPart (dest : Nat) (ps : List Int) : Part Unit := ⟨dest, ps.map fun p => ⟨p, [dest], ()⟩⟩

/-- The cells of one sequence go to a run of empty cells. -/
def readSequence (strm count dest : Nat) : Read Store Bool := do
  let m ← Read.get
  match m.st.seqRm dest (-1) (-1) with
  | none => Read.fail .aborted
  | some st => do
    Read.set { m with st := st }
    match ← readPositions count with
    | none => return false
    | some ps =>
      if st.admits [restoredPart dest ps] then
        match st.findSlot true [restoredPart dest ps] with
        | none => return false
        | some slots => do
          Read.set ({ m with st := st.applyUbatch slots }.setHead strm (slots.flatMap Prod.snd).headI)
          return true
      else Read.fail .aborted

def stateReadMeta (conf : Conf) (strm count : Nat) (dest : Int) : Read Store Bool :=
  if dest = -1 then readWhole conf strm count else readSequence strm count dest.toNat

/-- Rows of a tensor whose type and row size must be those of the cache. -/
def readRows (t : GgmlType) (row count : Nat) (put : List UInt8 → Store → Store) : Read Store Bool := do
  let type ← Read.int 4
  if type ≠ (t.id : Int) then return false
  else do
    let size ← Read.nat 8
    if size ≠ row then return false
    else do
      let bs ← Read.bytes (count * row)
      let m ← Read.get
      Read.set (put bs m)
      return true

def readKeys (conf : Conf) (strm count il : Nat) : Read Store Bool :=
  readRows (conf.layer il).kType (conf.layer il).kRow count fun bs m =>
    m.putK il strm (m.head strm * (conf.layer il).kRow) bs

def readValues (conf : Conf) (strm count il : Nat) : Read Store Bool :=
  readRows (conf.layer il).vType (conf.layer il).vRow count fun bs m =>
    m.putV il strm (m.head strm * (conf.layer il).vRow) bs

/-- Of the offset, the cell is computed in 32 bits. -/
def readElems (conf : Conf) (strm count il : Nat) : Read Store Bool := do
  let type ← Read.int 4
  if type ≠ ((conf.layer il).vType.id : Int) then return false
  else do
    let el ← Read.nat 4
    if el ≠ (conf.layer il).vEl then return false
    else do
      let n ← Read.nat 4
      if n ≠ (conf.layer il).nEmbdV then return false
      else
        Read.each (fun j => do
          let bs ← Read.bytes (count * (conf.layer il).vEl)
          let m ← Read.get
          Read.set (m.putV il strm ((m.head strm + j * (m.cells strm).size) % 2 ^ 32 * (conf.layer il).vEl) bs)
          return true) (List.range (conf.layer il).nEmbdV)

def stateReadData (conf : Conf) (strm count : Nat) : Read Store Bool := do
  let vTrans ← Read.nat 4
  let nLayer ← Read.nat 4
  let m ← Read.get
  if nLayer ≠ conf.nLayer then return false
  else if (m.cells strm).size < count then return false
  else if conf.vTrans ≠ decide (vTrans ≠ 0) then return false
  else do
    if ← Read.each (readKeys conf strm count) (List.range conf.nLayer) then
      if conf.vTrans then Read.each (readElems conf strm count) (List.range conf.nLayer)
      else Read.each (readValues conf strm count) (List.range conf.nLayer)
    else return false

def readStream (conf : Conf) (dest : Int) (s : Nat) : Read Store Bool := do
  let count ← Read.nat 4
  if count = 0 then return true
  else do
    let m ← Read.get
    let strm := if dest = -1 then s else m.st.streamOf dest.toNat
    if ← stateReadMeta conf strm count dest then stateReadData conf strm count else return false

/-- What was read is taken back before the exception. -/
def giveUp (dest : Int) : Read Store Unit := do
  let m ← Read.get
  Read.set (if dest = -1 then m.clear else { m with st := (m.st.seqRm dest (-1) (-1)).getD m.st })
  Read.fail .thrown

def stateRead (conf : Conf) (dest : Int) : Read Store Unit := do
  let m ← Read.get
  if ¬ (dest = -1 ∨ (0 ≤ dest ∧ dest < m.st.seqCap)) then Read.fail .aborted
  else do
    let nStream ← Read.nat 4
    if nStream ≠ m.st.nStream then Read.fail .thrown
    else do
      if ← Read.each (readStream conf dest) (List.range m.st.nStream) then return () else giveUp dest

/-! ## Ranges of rows -/

section Rows
variable {m : Nat → UInt8} {row el size j : Nat}

theorem writeRanges_eq (m : Nat → UInt8) (row : Nat) (cr : List (Nat × Nat)) :
    writeRanges m row cr = (cr.flatMap within).flatMap fun i => slice m (i * row) row := by
  unfold writeRanges
  rw [List.flatMap_assoc]
  refine List.flatMap_congr fun r _ => ?_
  exact slice_mul m row (r.2 - r.1) r.1

theorem length_flatMap_rows {β : Type} {f : β → List UInt8} (hf : ∀ x, (f x).length = row) (l : List β) :
    (l.flatMap f).length = l.length * row := by
  induction l with
  | nil => simp
  | cons x l ih => rw [List.flatMap_cons, List.length_append, hf, ih, List.length_cons, Nat.succ_mul, Nat.add_comm]

theorem length_writeRanges (m : Nat → UInt8) (row : Nat) (cr : List (Nat × Nat)) :
    (writeRanges m row cr).length = (cr.flatMap within).length * row := by
  rw [writeRanges_eq]
  exact length_flatMap_rows (fun _ => length_slice) _

theorem length_writeElems (m : Nat → UInt8) (el size j : Nat) (cr : List (Nat × Nat)) :
    (writeElems m el size j cr).length = (cr.flatMap within).length * el := by
  unfold writeElems
  induction cr with
  | nil => simp
  | cons r cr ih =>
      rw [List.flatMap_cons, List.length_append, length_slice, ih, List.flatMap_cons, List.length_append, Nat.add_mul]
      unfold within
      rw [List.length_range']

/-- Where no offset is too large for 32 bits. -/
theorem writeElems_eq {cr : List (Nat × Nat)} (h : ∀ r ∈ cr, (r.1 + j * size) * el < 2 ^ 32) :
    writeElems m el size j cr = (cr.flatMap within).flatMap fun i => slice m ((i + j * size) * el) el := by
  unfold writeElems
  rw [List.flatMap_assoc]
  refine List.flatMap_congr fun r hr => ?_
  rw [Nat.mod_eq_of_lt (h r hr), slice_mul]
  unfold within
  rw [Nat.add_comm r.1, ← List.map_add_range', List.flatMap_map]
  refine List.flatMap_congr fun i _ => ?_
  rw [Nat.add_comm i]

/-- The elements of a transposed tensor do not overwrite each other. -/
theorem slice_foldl_putRows {α : Type} {f : Nat → α → List UInt8} {xs : List α} {head k : Nat} {x : α} {mem : Nat → UInt8}
    (hf : ∀ j x, (f j x).length = el) (hsize : head + xs.length ≤ size) (hx : xs[k]? = some x) : ∀ (n j : Nat), j < n →
    slice ((List.range n).foldl (fun mem j => putRows mem ((head + j * size) * el) (xs.flatMap (f j))) mem)
      ((head + k + j * size) * el) el = f j x
  | n + 1, j, hj => by
    have hk : k < xs.length := (List.getElem?_eq_some_iff.mp hx).1
    rw [List.range_succ, List.foldl_append, List.foldl_cons, List.foldl_nil]
    rcases Nat.lt_or_ge j n with hlt | hge
    · have hbelow : (head + k + j * size) * el + el ≤ (head + n * size) * el := by
        rw [← Nat.succ_mul]
        refine Nat.mul_le_mul_right el ?_
        have hmul : (j + 1) * size ≤ n * size := Nat.mul_le_mul_right size hlt
        rw [Nat.succ_mul] at hmul
        omega
      rw [slice_putRows_of_disjoint (.inl hbelow)]
      exact slice_foldl_putRows hf hsize hx n j hlt
    · obtain rfl : j = n := by omega
      rw [show (head + k + j * size) * el = (head + j * size) * el + k * el by ring]
      exact slice_putRows_flatMap (fun x _ => hf j x) hx

end Rows

/-! ## Reading the data -/

namespace Tensors

/-- The tensors of stream `strm` in the first `n` layers are changed. -/
def changed (x : Tensors) (strm n : Nat) (g : Nat → (Nat → UInt8) → Nat → UInt8) : Tensors :=
  fun il t => if il < n ∧ t = strm then g il (x il t) else x il t

variable {x : Tensors} {il s n strm : Nat} {mem mem' : Nat → UInt8} {g : Nat → (Nat → UInt8) → Nat → UInt8}

@[simp] theorem set_same : x.set il s mem il s = mem := by simp [Tensors.set]

@[simp] theorem set_set : (x.set il s mem).set il s mem' = x.set il s mem' := by simp [Tensors.set]

@[simp] theorem set_eq_self : x.set il s (x il s) = x := by simp [Tensors.set]

theorem changed_zero : x.changed strm 0 g = x := by
  funext il t
  exact if_neg fun h => Nat.not_lt_zero il h.1

theorem changed_of_le (h : n ≤ il) : x.changed strm n g il s = x il s := if_neg fun hc => by omega

theorem changed_of_ne (h : s ≠ strm) : x.changed strm n g il s = x il s := if_neg fun hc => h hc.2

theorem changed_of_lt (h : il < n) : x.changed strm n g il strm = g il (x il strm) := if_pos ⟨h, rfl⟩

/-- The next layer. -/
theorem set_changed : (x.changed strm n g).set n strm (g n (x n strm)) = x.changed strm (n + 1) g := by
  funext il t
  unfold Tensors.set
  by_cases hil : il = n
  · rw [hil, Function.update_self]
    by_cases ht : t = strm
    · rw [ht, Function.update_self, changed_of_lt (Nat.lt_succ_self n)]
    · rw [Function.update_of_ne ht, changed_of_ne ht, changed_of_ne ht]
  · rw [Function.update_of_ne hil]
    exact if_congr (by omega) rfl rfl

end Tensors

section Data
variable {conf : Conf} {A m : Store} {s strm count : Nat} {cr : List (Nat × Nat)}

theorem Layer.kRow_lt (l : Layer) : l.kRow < 256 ^ 8 := by
  have hmul : l.kType.size * l.nEmbdK < 2 ^ 32 * 2 ^ 32 :=
    Nat.mul_lt_mul'' l.kType.size_lt l.nEmbdK_lt
  exact lt_of_le_of_lt (Nat.div_le_self _ _) (by simpa using hmul)

theorem Layer.vRow_lt (l : Layer) : l.vRow < 256 ^ 8 := by
  have hmul : l.vType.size * l.nEmbdV < 2 ^ 32 * 2 ^ 32 :=
    Nat.mul_lt_mul'' l.vType.size_lt l.nEmbdV_lt
  exact lt_of_le_of_lt (Nat.div_le_self _ _) (by simpa using hmul)

theorem GgmlType.id_fits (t : GgmlType) : FitsInt 4 (t.id : Int) := by
  have := t.id_lt
  unfold FitsInt
  omega

theorem readRows_reads {t : GgmlType} {row : Nat} {put : List UInt8 → Store → Store} {bs : List UInt8} (hrow : row < 256 ^ 8)
    (hlen : bs.length = count * row) :
    Reads (readRows t row count put) (intBytes 4 (t.id : Int) ++ (leBytes 8 row ++ bs)) m true (put bs m) := by
  unfold readRows
  refine (Reads.int t.id_fits).bind ?_
  rw [if_neg (not_not.mpr rfl)]
  refine (Reads.nat hrow).bind ?_
  rw [if_neg (not_not.mpr rfl)]
  refine (Reads.bytes hlen).bind_last ?_
  exact Reads.get.bind_nil (Reads.set.bind_nil (Reads.pure true))

variable {gk gv : Nat → (Nat → UInt8) → Nat → UInt8} {w : Nat → List UInt8}

theorem readKeys_reads (hw : ∀ il, (w il).length = count * (conf.layer il).kRow)
    (hg : ∀ il mem, gk il mem = putRows mem (m.head strm * (conf.layer il).kRow) (w il)) :
    Reads (Read.each (readKeys conf strm count) (List.range conf.nLayer))
      ((List.range conf.nLayer).flatMap fun il =>
        intBytes 4 ((conf.layer il).kType.id : Int) ++ (leBytes 8 (conf.layer il).kRow ++ w il))
      m true { m with k := m.k.changed strm conf.nLayer gk } := by
  obtain ⟨t, ht, rfl⟩ := Reads.each (f := readKeys conf strm count) (s := m)
    (w := fun il => intBytes 4 ((conf.layer il).kType.id : Int) ++ (leBytes 8 (conf.layer il).kRow ++ w il))
    (P := fun il t => t = { m with k := m.k.changed strm il gk }) conf.nLayer (by rw [Tensors.changed_zero])
    (by
      rintro il - t rfl
      refine ⟨_, readRows_reads (conf.layer il).kRow_lt (hw il), ?_⟩
      unfold Store.putK Store.setK
      dsimp only
      rw [Tensors.changed_of_le le_rfl, ← Tensors.set_changed, hg]
      rfl)
  exact ht

theorem readValues_reads (hw : ∀ il, (w il).length = count * (conf.layer il).vRow)
    (hg : ∀ il mem, gv il mem = putRows mem (m.head strm * (conf.layer il).vRow) (w il)) :
    Reads (Read.each (readValues conf strm count) (List.range conf.nLayer))
      ((List.range conf.nLayer).flatMap fun il =>
        intBytes 4 ((conf.layer il).vType.id : Int) ++ (leBytes 8 (conf.layer il).vRow ++ w il))
      m true { m with v := m.v.changed strm conf.nLayer gv } := by
  obtain ⟨t, ht, rfl⟩ := Reads.each (f := readValues conf strm count) (s := m)
    (w := fun il => intBytes 4 ((conf.layer il).vType.id : Int) ++ (leBytes 8 (conf.layer il).vRow ++ w il))
    (P := fun il t => t = { m with v := m.v.changed strm il gv }) conf.nLayer (by rw [Tensors.changed_zero])
    (by
      rintro il - t rfl
      refine ⟨_, readRows_reads (conf.layer il).vRow_lt (hw il), ?_⟩
      unfold Store.putV Store.setV
      dsimp only
      rw [Tensors.changed_of_le le_rfl, ← Tensors.set_changed, hg]
      rfl)
  exact ht

/-- One layer of a transposed tensor. -/
def putElems (el size head n : Nat) (w : Nat → List UInt8) (mem : Nat → UInt8) : Nat → UInt8 :=
  (List.range n).foldl (fun mem j => putRows mem ((head + j * size) % 2 ^ 32 * el) (w j)) mem

/-- Where no cell is too large for 32 bits. -/
theorem putElems_eq {el size head n : Nat} {w : Nat → List UInt8} (h : ∀ j < n, head + j * size < 2 ^ 32)
    (mem : Nat → UInt8) : putElems el size head n w mem =
      (List.range n).foldl (fun mem j => putRows mem ((head + j * size) * el) (w j)) mem := by
  unfold putElems
  refine List.foldl_ext _ _ _ fun mem j hj => ?_
  rw [Nat.mod_eq_of_lt (h j (List.mem_range.mp hj))]

theorem readElems_reads {w : Nat → List UInt8} {il : Nat}
    (hw : ∀ j, (w j).length = count * (conf.layer il).vEl) :
    Reads (readElems conf strm count il)
      (intBytes 4 ((conf.layer il).vType.id : Int) ++ (leBytes 4 (conf.layer il).vEl ++ (leBytes 4 (conf.layer il).nEmbdV ++
        (List.range (conf.layer il).nEmbdV).flatMap w))) m true
      (m.setV il strm
        (putElems (conf.layer il).vEl (m.cells strm).size (m.head strm) (conf.layer il).nEmbdV w (m.v il strm))) := by
  unfold readElems
  refine (Reads.int (conf.layer il).vType.id_fits).bind ?_
  rw [if_neg (not_not.mpr rfl)]
  refine (Reads.nat (conf.layer il).vType.size_lt).bind ?_
  rw [if_neg (not_not.mpr rfl)]
  refine (Reads.nat (conf.layer il).nEmbdV_lt).bind ?_
  rw [if_neg (not_not.mpr rfl)]
  obtain ⟨t, ht, rfl⟩ := Reads.each (s := m) (w := w)
    (f := fun j => do
      let bs ← Read.bytes (count * (conf.layer il).vEl)
      let m ← Read.get
      Read.set (m.putV il strm ((m.head strm + j * (m.cells strm).size) % 2 ^ 32 * (conf.layer il).vEl) bs)
      return true)
    (P := fun j t => t = m.setV il strm
      (putElems (conf.layer il).vEl (m.cells strm).size (m.head strm) j w (m.v il strm)))
    (conf.layer il).nEmbdV (by simp [putElems, Store.setV])
    (by
      rintro j - t rfl
      refine ⟨_, (Reads.bytes (hw j)).bind_last (Reads.get.bind_nil (Reads.set.bind_nil (Reads.pure true))), ?_⟩
      unfold Store.putV Store.setV putElems
      dsimp only
      rw [Tensors.set_same, Tensors.set_set, List.range_succ, List.foldl_append]
      rfl)
  exact ht

theorem readElems_all {w : Nat → Nat → List UInt8}
    (hw : ∀ il j, (w il j).length = count * (conf.layer il).vEl)
    (hg : ∀ il mem, gv il mem =
      putElems (conf.layer il).vEl (m.cells strm).size (m.head strm) (conf.layer il).nEmbdV (w il) mem) :
    Reads (Read.each (readElems conf strm count) (List.range conf.nLayer))
      ((List.range conf.nLayer).flatMap fun il => intBytes 4 ((conf.layer il).vType.id : Int) ++
        (leBytes 4 (conf.layer il).vEl ++ (leBytes 4 (conf.layer il).nEmbdV ++
          (List.range (conf.layer il).nEmbdV).flatMap (w il))))
      m true { m with v := m.v.changed strm conf.nLayer gv } := by
  obtain ⟨t, ht, rfl⟩ := Reads.each (f := readElems conf strm count) (s := m)
    (w := fun il => intBytes 4 ((conf.layer il).vType.id : Int) ++ (leBytes 4 (conf.layer il).vEl ++
      (leBytes 4 (conf.layer il).nEmbdV ++ (List.range (conf.layer il).nEmbdV).flatMap (w il))))
    (P := fun il t => t = { m with v := m.v.changed strm il gv }) conf.nLayer (by rw [Tensors.changed_zero])
    (by
      rintro il - t rfl
      refine ⟨_, readElems_reads (hw il), ?_⟩
      unfold Store.setV
      dsimp only
      rw [Tensors.changed_of_le le_rfl, ← Tensors.set_changed, hg]
      rfl)
  exact ht

/-- The data of the cells `cr` of stream `s` of `A`, put into stream `strm` from its head on. -/
def Store.restored (conf : Conf) (A : Store) (s : Nat) (cr : List (Nat × Nat)) (m : Store) (strm : Nat) : Store where
  st := m.st
  k := m.k.changed strm conf.nLayer fun il mem =>
    putRows mem (m.head strm * (conf.layer il).kRow) (writeRanges (A.k il s) (conf.layer il).kRow cr)
  v := m.v.changed strm conf.nLayer fun il mem =>
    if conf.vTrans then
      putElems (conf.layer il).vEl (m.cells strm).size (m.head strm) (conf.layer il).nEmbdV
        (fun j => writeElems (A.v il s) (conf.layer il).vEl (A.cells s).size j cr) mem
    else putRows mem (m.head strm * (conf.layer il).vRow) (writeRanges (A.v il s) (conf.layer il).vRow cr)

theorem stateReadData_reads (hcount : (cr.flatMap within).length = count) (hle : count ≤ (m.cells strm).size) :
    Reads (stateReadData conf strm count) (stateWriteData conf A s cr) m true (Store.restored conf A s cr m strm) := by
  have hflag : (if conf.vTrans then 1 else 0) < 256 ^ 4 := by
    split
    · decide
    · decide
  unfold stateReadData stateWriteData
  refine (Reads.nat hflag).bind ((Reads.nat conf.nLayer_lt).bind (Reads.get.bind_nil ?_))
  rw [if_neg (not_not.mpr rfl), if_neg (by omega)]
  have hlen : ∀ mem row, (writeRanges mem row cr).length = count * row := by
    intro mem row
    rw [length_writeRanges, hcount]
  unfold Store.restored
  cases htrans : conf.vTrans with
  | true =>
      rw [if_neg (by simp)]
      refine (readKeys_reads (fun il => hlen _ _) fun il mem => rfl).bind ?_
      refine readElems_all (fun il j => ?_) fun il mem => rfl
      rw [length_writeElems, hcount]
  | false =>
      rw [if_neg (by simp)]
      refine (readKeys_reads (fun il => hlen _ _) fun il mem => rfl).bind ?_
      exact readValues_reads (fun il => hlen _ _) fun il mem => rfl

end Data

/-! ## Rows -/

namespace Store

def kRow (conf : Conf) (m : Store) (s i il : Nat) : List UInt8 :=
  slice (m.k il s) (i * (conf.layer il).kRow) (conf.layer il).kRow

def vRow (conf : Conf) (m : Store) (s i il : Nat) : List UInt8 :=
  if conf.vTrans then
    (List.range (conf.layer il).nEmbdV).flatMap fun j =>
      slice (m.v il s) ((i + j * (m.cells s).size) * (conf.layer il).vEl) (conf.layer il).vEl
  else slice (m.v il s) (i * (conf.layer il).vRow) (conf.layer il).vRow

/-- No offset of a saved element is too large for 32 bits. -/
def offsetsFit (conf : Conf) (m : Store) (s : Nat) (cr : List (Nat × Nat)) : Prop :=
  conf.vTrans → ∀ il < conf.nLayer, ∀ r ∈ cr, ∀ j < (conf.layer il).nEmbdV,
    (r.1 + j * (m.cells s).size) * (conf.layer il).vEl < 2 ^ 32

variable {conf : Conf} {A m : Store} {s strm a k i il : Nat} {cr : List (Nat × Nat)}

theorem restored_kRow (ha : m.head strm + k = a) (hi : (cr.flatMap within)[k]? = some i) (hil : il < conf.nLayer) :
    (restored conf A s cr m strm).kRow conf strm a il = A.kRow conf s i il := by
  rw [← ha]
  unfold kRow restored
  dsimp only
  rw [Tensors.changed_of_lt hil, writeRanges_eq, Nat.add_mul]
  exact slice_putRows_flatMap (f := fun i => slice (A.k il s) (i * (conf.layer il).kRow) (conf.layer il).kRow)
    (fun _ _ => length_slice) hi

theorem restored_vRow (ha : m.head strm + k = a) (hi : (cr.flatMap within)[k]? = some i) (hil : il < conf.nLayer)
    (hroom : m.head strm + (cr.flatMap within).length ≤ (m.cells strm).size)
    (hsrc : A.offsetsFit conf s cr)
    (hdst : conf.vTrans → ∀ j < (conf.layer il).nEmbdV, m.head strm + j * (m.cells strm).size < 2 ^ 32) :
    (restored conf A s cr m strm).vRow conf strm a il = A.vRow conf s i il := by
  rw [← ha]
  unfold vRow restored
  dsimp only
  rw [Tensors.changed_of_lt hil]
  cases htrans : conf.vTrans with
  | false =>
      rw [if_neg (by simp), if_neg (by simp), if_neg (by simp), writeRanges_eq, Nat.add_mul]
      exact slice_putRows_flatMap (f := fun i => slice (A.v il s) (i * (conf.layer il).vRow) (conf.layer il).vRow)
        (fun _ _ => length_slice) hi
  | true =>
      rw [if_pos rfl, if_pos rfl]
      refine List.flatMap_congr fun j hj => ?_
      rw [List.mem_range] at hj
      rw [putElems_eq (hdst htrans)]
      -- without wrapping, the bytes are those of the saved cells
      rw [List.foldl_ext _ (fun mem j => putRows mem ((m.head strm + j * (m.cells strm).size) * (conf.layer il).vEl)
        ((cr.flatMap within).flatMap fun i =>
          slice (A.v il s) ((i + j * (A.cells s).size) * (conf.layer il).vEl) (conf.layer il).vEl)) _ fun mem j hj => by
        rw [writeElems_eq fun r hr => hsrc htrans il hil r hr j (List.mem_range.mp hj)]]
      exact slice_foldl_putRows
        (f := fun j i => slice (A.v il s) ((i + j * (A.cells s).size) * (conf.layer il).vEl) (conf.layer il).vEl)
        (fun _ _ => length_slice) hroom hi _ _ hj

/-- Rows of other streams. -/
theorem restored_kRow_of_ne {t : Nat} (ht : t ≠ strm) : (restored conf A s cr m strm).kRow conf t a il =
    m.kRow conf t a il := by
  unfold kRow restored
  dsimp only
  rw [Tensors.changed_of_ne ht]

theorem restored_vRow_of_ne {t : Nat} (ht : t ≠ strm) : (restored conf A s cr m strm).vRow conf t a il =
    m.vRow conf t a il := by
  unfold vRow restored
  dsimp only
  rw [Tensors.changed_of_ne ht]
  rfl

/-- Rows of other cells. -/
theorem restored_kRow_frame (ha : a < m.head strm ∨ m.head strm + (cr.flatMap within).length ≤ a) (hil : il < conf.nLayer) :
    (restored conf A s cr m strm).kRow conf strm a il = m.kRow conf strm a il := by
  unfold kRow restored
  dsimp only
  rw [Tensors.changed_of_lt hil]
  refine slice_putRows_of_disjoint ?_
  rw [length_writeRanges, ← Nat.succ_mul, ← Nat.add_mul]
  exact ha.imp (Nat.mul_le_mul_right _) (Nat.mul_le_mul_right _)

theorem restored_vRow_frame (ha : a < m.head strm ∨ m.head strm + (cr.flatMap within).length ≤ a) (hil : il < conf.nLayer)
    (hroom : m.head strm + (cr.flatMap within).length ≤ (m.cells strm).size) (hsize : a < (m.cells strm).size)
    (hdst : conf.vTrans → ∀ j < (conf.layer il).nEmbdV, m.head strm + j * (m.cells strm).size < 2 ^ 32) :
    (restored conf A s cr m strm).vRow conf strm a il = m.vRow conf strm a il := by
  unfold vRow restored
  dsimp only
  rw [Tensors.changed_of_lt hil]
  cases htrans : conf.vTrans with
  | false =>
      rw [if_neg (by simp), if_neg (by simp), if_neg (by simp)]
      refine slice_putRows_of_disjoint ?_
      rw [length_writeRanges, ← Nat.succ_mul, ← Nat.add_mul]
      exact ha.imp (Nat.mul_le_mul_right _) (Nat.mul_le_mul_right _)
  | true =>
      rw [if_pos rfl, if_pos rfl]
      refine List.flatMap_congr fun j hj => ?_
      rw [putElems_eq (hdst htrans)]
      refine foldl_range_rule (P := fun _ (mem : Nat → UInt8) =>
        slice mem ((a + j * (m.cells strm).size) * (conf.layer il).vEl) (conf.layer il).vEl =
          slice (m.v il strm) ((a + j * (m.cells strm).size) * (conf.layer il).vEl) (conf.layer il).vEl) rfl _ ?_
      intro k _ mem hmem
      refine (slice_putRows_of_disjoint ?_).trans hmem
      rw [length_writeElems, ← Nat.succ_mul, ← Nat.add_mul]
      -- element `k` of the restored cells lies before or behind element `j` of this one
      have hbound : a + j * (m.cells strm).size + 1 ≤ m.head strm + k * (m.cells strm).size ∨
          m.head strm + k * (m.cells strm).size + (cr.flatMap within).length ≤ a + j * (m.cells strm).size := by
        rcases Nat.lt_trichotomy j k with hlt | rfl | hgt
        · have hmul := Nat.mul_le_mul_right (m.cells strm).size hlt
          rw [Nat.succ_mul] at hmul
          omega
        · omega
        · have hmul := Nat.mul_le_mul_right (m.cells strm).size hgt
          rw [Nat.succ_mul] at hmul
          omega
      exact hbound.imp (Nat.mul_le_mul_right _) (Nat.mul_le_mul_right _)

end Store

/-! ## Reading the cells -/

theorem flatMap_range_getD {α : Type} (f : α → List UInt8) (l : List α) (d : α) :
    (List.range l.length).flatMap (fun k => f (l.getD k d)) = l.flatMap f := by
  have hl : (List.range l.length).map (fun k => l.getD k d) = l := by
    refine List.ext_getElem (by simp) fun k h1 h2 => ?_
    rw [List.getElem_map, List.getElem_range, List.getD_eq_getElem _ _ h2]
  rw [← List.flatMap_map, hl]

theorem place_cell {c : Cells} {i : Nat} {p : Int} {ids : List Nat} (h : c.cell i = {}) (hnodup : ids.Nodup) :
    (c.place i p ids).size = c.size ∧
      (c.place i p ids).cell = Function.update c.cell i { pos := p, shift := 0, seq := ids.toFinset } := by
  have hcell : (c.posSet i p).cell i = { c.cell i with pos := p } := Function.update_self _ _ _
  obtain ⟨h1, -, h3, -⟩ := foldl_seqAdd i ids (c.posSet i p) hnodup (fun s _ => by rw [hcell, h]; exact Finset.notMem_empty s)
  refine ⟨h1, ?_⟩
  unfold Cells.place
  rw [h3, hcell, h]
  unfold Cells.posSet Cells.set
  dsimp only
  rw [Function.update_idem, Finset.empty_union]

section Cells
variable {conf : Conf} {c : Cells} {m : Store} {seq : Int} {strm i : Nat}

@[simp] theorem Store.onCells_onCells {f g : Cells → Cells} :
    (m.onCells strm f).onCells strm g = m.onCells strm fun c => g (f c) := by
  simp [Store.onCells, Streams.set, Store.cells]

@[simp] theorem Store.onCells_id : m.onCells strm (fun c => c) = m := by
  simp [Store.onCells, Streams.set, Store.cells]

theorem nodup_savedIds : (c.savedIds conf seq i).Nodup := List.nodup_range.filter _

theorem savedIds_lt : ∀ id ∈ c.savedIds conf seq i, id < conf.nSeqMax :=
  fun _ h => List.mem_range.mp (List.mem_filter.mp h).1

theorem length_savedIds_lt : (c.savedIds conf seq i).length < 256 ^ 4 := by
  have hle : (c.savedIds conf seq i).length ≤ conf.nSeqMax :=
    (List.length_filter_le _ _).trans_eq List.length_range
  have hmax : conf.nSeqMax ≤ 256 := conf.nSeqMax_le
  omega

theorem readIds_reads {ids : List Nat} (hids : ∀ id ∈ ids, id < conf.nSeqMax) :
    Reads (readIds conf strm i ids.length) (ids.flatMap fun id : Nat => intBytes 4 (id : Int)) m true
      (m.onCells strm fun c => ids.foldl (fun c id => c.seqAdd i id) c) := by
  have hmax : conf.nSeqMax ≤ 256 := conf.nSeqMax_le
  rw [← flatMap_range_getD _ ids 0]
  obtain ⟨t, ht, rfl⟩ := Reads.each (s := m) (w := fun k => intBytes 4 (ids.getD k 0 : Int))
    (f := fun _ => do
      let seq ← Read.int 4
      if seq < 0 ∨ (conf.nSeqMax : Int) ≤ seq then return false
      else do
        let m ← Read.get
        Read.set (m.onCells strm fun c => c.seqAdd i seq.toNat)
        return true)
    (P := fun k t => t = m.onCells strm fun c => (ids.take k).foldl (fun c id => c.seqAdd i id) c) ids.length
    (by simp)
    (by
      rintro k hk t rfl
      have hid : ids.getD k 0 < conf.nSeqMax := by
        rw [List.getD_eq_getElem _ _ hk]
        exact hids _ (List.getElem_mem hk)
      have hfits : FitsInt 4 (ids.getD k 0 : Int) := by
        unfold FitsInt
        omega
      refine ⟨_, (Reads.int hfits).bind_last ?_, rfl⟩
      rw [if_neg (by omega), List.take_add_one, List.getElem?_eq_getElem hk, List.getD_eq_getElem _ _ hk]
      simp only [Option.toList_some, List.foldl_append, List.foldl_cons, List.foldl_nil]
      refine Reads.get.bind_nil (Reads.set.bind_nil ?_)
      rw [Store.onCells_onCells, Int.toNat_natCast]
      exact Reads.pure true)
  rw [List.take_length] at ht
  exact ht

/-- The cells `is` of `c`, put behind each other. -/
def Cells.placed (conf : Conf) (c : Cells) (seq : Int) (is : List Nat) (n : Nat) (d : Cells) : Cells :=
  (List.range n).foldl (fun d k => d.place k (c.cell (is.getD k 0)).pos (c.savedIds conf seq (is.getD k 0))) d

theorem readCells_reads {is : List Nat} (hpos : ∀ i ∈ is, FitsInt 4 (c.cell i).pos) :
    Reads (readCells conf strm is.length) (is.flatMap (writeCell conf c seq)) m true
      (m.onCells strm (c.placed conf seq is is.length)) := by
  rw [← flatMap_range_getD _ is 0]
  obtain ⟨t, ht, rfl⟩ := Reads.each (s := m) (w := fun k => writeCell conf c seq (is.getD k 0))
    (f := fun i => do
      let pos ← Read.int 4
      let n ← Read.nat 4
      let m ← Read.get
      Read.set (m.onCells strm fun c => c.posSet i pos)
      readIds conf strm i n)
    (P := fun k t => t = m.onCells strm (c.placed conf seq is k)) is.length
    (by exact (Store.onCells_id).symm)
    (by
      rintro k hk t rfl
      have hfits : FitsInt 4 (c.cell (is.getD k 0)).pos := by
        rw [List.getD_eq_getElem _ _ hk]
        exact hpos _ (List.getElem_mem hk)
      refine ⟨_, (Reads.int hfits).bind ((Reads.nat length_savedIds_lt).bind (Reads.get.bind_nil (Reads.set.bind_nil
        (readIds_reads savedIds_lt)))), ?_⟩
      rw [Store.onCells_onCells, Store.onCells_onCells]
      unfold Cells.placed
      rw [List.range_succ]
      simp only [List.foldl_append, List.foldl_cons, List.foldl_nil]
      rfl)
  exact ht

/-- What is left of a cell: no shift, and only the sequences that the context may have. -/
def Cell.saved (conf : Conf) (x : Cell) : Cell := { pos := x.pos, seq := x.seq.filter (· < conf.nSeqMax) }

theorem Cell.saved_eq_iff {x : Cell} : x.saved conf = x ↔ x.shift = 0 ∧ ∀ id ∈ x.seq, id < conf.nSeqMax := by
  obtain ⟨pos, shift, seq⟩ := x
  unfold Cell.saved
  rw [Cell.mk.injEq, Finset.filter_eq_self]
  exact ⟨fun h => ⟨h.2.1.symm, h.2.2⟩, fun h => ⟨rfl, h.1.symm, h.2⟩⟩

theorem toFinset_savedIds : (c.savedIds conf (-1) i).toFinset = ((c.cell i).saved conf).seq := by
  ext id
  simp only [Cells.savedIds, List.mem_toFinset, List.mem_filter, List.mem_range, Cell.saved, Finset.mem_filter,
    Cells.seqHas, Bool.and_eq_true, Bool.or_eq_true, decide_eq_true_eq]
  exact ⟨fun h => ⟨h.2.2, h.1⟩, fun h => ⟨h.2, .inr trivial, h.1⟩⟩

/-- The cells of an empty stream behind the first `n` saved ones were put there. -/
theorem placed_cell {is : List Nat} {d : Cells} (hd : ∀ k < d.size, d.cell k = {}) : ∀ (n : Nat), n ≤ d.size →
    (c.placed conf (-1) is n d).size = d.size ∧ ∀ k < d.size, (c.placed conf (-1) is n d).cell k =
      if k < n then (c.cell (is.getD k 0)).saved conf else {} := by
  intro n hn
  refine foldl_range_rule (P := fun n (e : Cells) => e.size = d.size ∧ ∀ k < d.size, e.cell k =
    if k < n then (c.cell (is.getD k 0)).saved conf else {}) ⟨rfl, fun k hk => ?_⟩ n ?_
  · rw [if_neg (Nat.not_lt_zero k)]
    exact hd k hk
  · rintro k hk e ⟨hsize, hcell⟩
    have hempty : e.cell k = {} := by
      rw [hcell k (by omega), if_neg (lt_irrefl k)]
    have hnodup : (c.savedIds conf (-1) (is.getD k 0)).Nodup := nodup_savedIds
    obtain ⟨h1, h2⟩ := place_cell (p := (c.cell (is.getD k 0)).pos) hempty hnodup
    refine ⟨h1.trans hsize, fun j hj => ?_⟩
    rw [h2]
    by_cases hjk : j = k
    · rw [hjk, Function.update_self, if_pos (Nat.lt_succ_self k), toFinset_savedIds]
      rfl
    · rw [Function.update_of_ne hjk, hcell j hj]
      exact if_congr (by omega) rfl rfl

end Cells

/-! ## The whole cache -/

/-- What a cell holds, with its rows in all layers. -/
structure Entry where
  cell : Cell
  k : List (List UInt8)
  v : List (List UInt8)
deriving DecidableEq

namespace Store

def entry (conf : Conf) (m : Store) (s i : Nat) : Entry where
  cell := (m.cells s).cell i
  k := (List.range conf.nLayer).map (m.kRow conf s i)
  v := (List.range conf.nLayer).map (m.vRow conf s i)

/-- What the cells of a stream hold that are not empty, in their order. -/
def entries (conf : Conf) (m : Store) (s : Nat) : List Entry :=
  ((List.range (m.cells s).size).filter fun i => !(m.cells s).isEmpty i).map (m.entry conf s)

/-- The stream has a cell that is not empty. -/
def full (m : Store) (s : Nat) : Prop := ∃ i < (m.cells s).size, (m.cells s).isEmpty i = false

/-- Two caches of one configuration, with numbers that fit into the types that they have. -/
structure Alike (A B : Store) : Prop where
  nStream_eq : B.st.nStream = A.st.nStream
  size_eq : ∀ s < A.st.nStream, (B.cells s).size = (A.cells s).size
  nStream_lt : A.st.nStream < 2 ^ 32
  size_lt : ∀ s < A.st.nStream, (A.cells s).size < 2 ^ 32
  pos_fits : ∀ s < A.st.nStream, ∀ i < (A.cells s).size, FitsInt 4 ((A.cells s).cell i).pos

/-- The ranges of cells that are saved. -/
def savedRanges (A : Store) (seq : Int) (s : Nat) : List (Nat × Nat) := ranges ((A.cells s).saved seq) (A.cells s).size

/-- Stream `s` of `A` is read into `m`, all else is cleared. -/
def whole (conf : Conf) (A : Store) (s : Nat) (m : Store) : Store :=
  restored conf A s (A.savedRanges (-1) s)
    ((m.clear.onCells s ((A.cells s).placed conf (-1) ((A.cells s).saves (-1))
      ((A.cells s).saves (-1)).length)).setHead s 0) s

end Store

section Whole
variable {conf : Conf} {A B m : Store} {s t : Nat}

theorem flatMap_savedRanges {seq : Int} : (A.savedRanges seq s).flatMap within = (A.cells s).saves seq := flatMap_ranges _ _

theorem saves_whole : (A.cells s).saves (-1) = (List.range (A.cells s).size).filter fun i => !(A.cells s).isEmpty i := by
  unfold Cells.saves
  refine List.filter_congr fun i _ => ?_
  simp [Cells.saved]

theorem length_saves_le {seq : Int} : ((A.cells s).saves seq).length ≤ (A.cells s).size :=
  (List.length_filter_le _ _).trans_eq List.length_range

theorem Store.Alike.saves_fits (h : A.Alike B) {seq : Int} (hs : s < A.st.nStream) :
    ∀ i ∈ (A.cells s).saves seq, FitsInt 4 ((A.cells s).cell i).pos :=
  fun i hi => h.pos_fits s hs i (List.mem_range.mp (List.mem_filter.mp hi).1)

theorem full_iff_saves : A.full s ↔ (A.cells s).saves (-1) ≠ [] := by
  rw [saves_whole, ne_eq, List.filter_eq_nil_iff]
  unfold Store.full
  push Not
  exact ⟨fun ⟨i, hi, he⟩ => ⟨i, List.mem_range.mpr hi, by simpa using he⟩,
    fun ⟨i, hi, he⟩ => ⟨i, List.mem_range.mp hi, by simpa using he⟩⟩

theorem entries_eq_nil_iff : A.entries conf s = [] ↔ ¬ A.full s := by
  rw [full_iff_saves, saves_whole, not_not]
  exact List.map_eq_nil_iff

/-- What `readWhole` leaves in the cells. -/
theorem cells_cleared (ht : t < m.st.nStream) {f : Cells → Cells} : ((m.clear.onCells s f).setHead s 0).cells t =
    if t = s then f (m.cells t).reset else (m.cells t).reset := by
  by_cases hts : t = s
  · subst hts
    simp [Store.cells, Store.onCells, Store.setHead, Streams.set, Store.clear, Streams.clear, Cache.clear, ht]
  · simp [Store.cells, Store.onCells, Store.setHead, Streams.set, Store.clear, Streams.clear, Cache.clear, ht, hts]

theorem whole_cells_of_ne (ht : t < m.st.nStream) (hts : t ≠ s) : (Store.whole conf A s m).cells t = (m.cells t).reset :=
  (cells_cleared ht).trans (if_neg hts)

theorem whole_cells (hs : s < m.st.nStream) : (Store.whole conf A s m).cells s =
    (A.cells s).placed conf (-1) ((A.cells s).saves (-1)) ((A.cells s).saves (-1)).length (m.cells s).reset :=
  (cells_cleared hs).trans (if_pos rfl)

theorem whole_head : (Store.whole conf A s m).head s = 0 := by
  simp [Store.whole, Store.restored, Store.head, Store.setHead, Streams.set]

variable (conf) in
/-- In the stream that was read, the cells that were saved; behind them nothing. -/
theorem whole_cell (hs : s < m.st.nStream) (hsize : (m.cells s).size = (A.cells s).size) :
    ((Store.whole conf A s m).cells s).size = (A.cells s).size ∧ ∀ k < (A.cells s).size,
      ((Store.whole conf A s m).cells s).cell k =
        if k < ((A.cells s).saves (-1)).length then
          ((A.cells s).cell (((A.cells s).saves (-1)).getD k 0)).saved conf else {} := by
  rw [whole_cells hs, ← hsize]
  have hreset : (m.cells s).reset.size = (m.cells s).size := rfl
  have hle : ((A.cells s).saves (-1)).length ≤ (m.cells s).reset.size := by
    rw [hreset, hsize]
    exact length_saves_le
  obtain ⟨h1, h2⟩ := placed_cell (c := A.cells s) (d := (m.cells s).reset) (fun k hk => if_pos hk) _ hle
  exact ⟨h1, h2⟩

/-- All streams keep their sizes. -/
theorem whole_size (hs : s < m.st.nStream) (hsize : (m.cells s).size = (A.cells s).size) (ht : t < m.st.nStream) :
    ((Store.whole conf A s m).cells t).size = (m.cells t).size := by
  by_cases hts : t = s
  · rw [hts, (whole_cell conf hs hsize).1, hsize]
  · rw [whole_cells_of_ne ht hts]
    rfl

theorem not_full_whole (ht : t < m.st.nStream) (hts : t ≠ s) : ¬ (Store.whole conf A s m).full t := by
  rintro ⟨i, hi, he⟩
  rw [whole_cells_of_ne ht hts] at hi he
  have hcell : (m.cells t).reset.cell i = {} := if_pos hi
  unfold Cells.isEmpty at he
  rw [hcell] at he
  exact absurd he (by decide)

/-- The entries between two bounds. -/
theorem filter_range_between {p : Nat → Bool} {a n size : Nat} (hn : a + n ≤ size)
    (hp : ∀ k < size, p k = decide (a ≤ k ∧ k < a + n)) : (List.range size).filter p = List.range' a n := by
  have hsplit : List.range size = List.range' 0 a ++ (List.range' a n ++ List.range' (a + n) (size - (a + n))) := by
    rw [List.range'_append_1, show n + (size - (a + n)) = size - a by omega, List.range_eq_range']
    have happ := List.range'_append_1 (s := 0) (m := a) (n := size - a)
    rw [Nat.zero_add, show a + (size - a) = size by omega] at happ
    exact happ.symm
  have hnone : ∀ (b m : Nat), b + m ≤ size → (b + m ≤ a ∨ a + n ≤ b) → (List.range' b m).filter p = [] := by
    intro b m hle hout
    refine List.filter_eq_nil_iff.mpr fun k hk => ?_
    rw [List.mem_range'_1] at hk
    rw [hp k (by omega), decide_eq_true_iff]
    omega
  have hall : (List.range' a n).filter p = List.range' a n := by
    refine List.filter_eq_self.mpr fun k hk => ?_
    rw [List.mem_range'_1] at hk
    rw [hp k (by omega), decide_eq_true_iff]
    omega
  rw [hsplit, List.filter_append, List.filter_append, hnone 0 a (by omega) (.inl (by omega)), hall,
    hnone (a + n) _ (by omega) (.inr le_rfl), List.nil_append, List.append_nil]

/-- The cells that are not empty behind the restore, each beside the one that it was saved from. -/
theorem whole_entries_eq_iff (hs : s < m.st.nStream) (hsize : (m.cells s).size = (A.cells s).size) :
    (Store.whole conf A s m).entries conf s = A.entries conf s ↔
      ∀ k i, ((A.cells s).saves (-1))[k]? = some i → (Store.whole conf A s m).entry conf s k = A.entry conf s i := by
  obtain ⟨hsz, hcell⟩ := whole_cell conf hs hsize
  have hnonempty : ((List.range ((Store.whole conf A s m).cells s).size).filter fun i =>
      !((Store.whole conf A s m).cells s).isEmpty i) = List.range ((A.cells s).saves (-1)).length := by
    rw [List.range_eq_range' (n := ((A.cells s).saves (-1)).length)]
    refine filter_range_between (by rw [hsz, Nat.zero_add]; exact length_saves_le) fun k hk => ?_
    rw [hsz] at hk
    rw [Nat.zero_add]
    unfold Cells.isEmpty
    rw [hcell k hk]
    by_cases hlt : k < ((A.cells s).saves (-1)).length
    · have hmem : ((A.cells s).saves (-1)).getD k 0 ∈ (A.cells s).saves (-1) := by
        rw [List.getD_eq_getElem _ _ hlt]
        exact List.getElem_mem hlt
      have hfull := (List.mem_filter.mp hmem).2
      simp only [Cells.saved, Cells.isEmpty, Bool.and_eq_true, Bool.not_eq_true', decide_eq_false_iff_not] at hfull
      have hin : 0 ≤ k ∧ k < ((A.cells s).saves (-1)).length := ⟨Nat.zero_le k, hlt⟩
      rw [if_pos hlt, decide_eq_true hin, Bool.not_eq_true', decide_eq_false_iff_not]
      exact hfull.1
    · simp [hlt]
  unfold Store.entries
  rw [hnonempty, ← saves_whole]
  constructor
  · intro h k i hk
    have hget := congrArg (fun l => l[k]?) h
    have hlt := (List.getElem?_eq_some_iff.mp hk).1
    rw [List.getElem?_map, List.getElem?_map, hk, List.getElem?_range hlt] at hget
    exact Option.some.inj hget
  · intro h
    refine List.ext_getElem? fun k => ?_
    rw [List.getElem?_map, List.getElem?_map]
    rcases Nat.lt_or_ge k ((A.cells s).saves (-1)).length with hlt | hge
    · rw [List.getElem?_range hlt, List.getElem?_eq_getElem hlt]
      exact congrArg some (h k _ (List.getElem?_eq_getElem hlt))
    · rw [List.getElem?_eq_none (by simpa using hge), List.getElem?_eq_none hge]
      rfl

/-- A stream of a whole cache. -/
theorem readStream_whole (h : A.Alike B) (hs : s < A.st.nStream) (hsize : (m.cells s).size = (A.cells s).size)
    (hm : s < m.st.nStream) (hfull : A.full s) :
    Reads (readStream conf (-1) s) (writeStream conf A (-1) s) m true (Store.whole conf A s m) := by
  have hne : ((A.cells s).saves (-1)).length ≠ 0 := by
    rw [ne_eq, List.length_eq_zero_iff]
    exact full_iff_saves.mp hfull
  have hlt : ((A.cells s).saves (-1)).length < 256 ^ 4 := lt_of_le_of_lt length_saves_le (h.size_lt s hs)
  unfold readStream writeStream
  dsimp only
  rw [if_neg hne]
  refine (Reads.nat hlt).bind ?_
  rw [if_neg hne]
  refine Reads.get.bind_nil ?_
  rw [if_pos rfl]
  refine Reads.bind (a := true) ?_ (stateReadData_reads ?_ ?_)
  · unfold stateReadMeta readWhole stateWriteMeta
    rw [if_pos rfl, ← List.flatMap_assoc, flatMap_ranges]
    refine Reads.get.bind_nil ?_
    rw [if_neg (by rw [hsize]; exact not_lt.mpr length_saves_le)]
    refine Reads.set.bind_nil (Reads.bind_last (readCells_reads (h.saves_fits hs)) ?_)
    exact Reads.get.bind_nil (Reads.set.bind_nil (Reads.pure true))
  · exact congrArg List.length (flatMap_ranges _ _)
  · change _ ≤ ((Store.whole conf A s m).cells s).size
    rw [(whole_cell conf hm hsize).1]
    exact length_saves_le

/-- The cell of an entry, and the rows beside it. -/
theorem whole_entry_cell (hs : s < m.st.nStream) (hsize : (m.cells s).size = (A.cells s).size) {k i : Nat}
    (hk : ((A.cells s).saves (-1))[k]? = some i) :
    ((Store.whole conf A s m).entry conf s k).cell = ((A.cells s).cell i).saved conf := by
  obtain ⟨hlt, hi⟩ := List.getElem?_eq_some_iff.mp hk
  have hcell := (whole_cell conf hs hsize).2 k (lt_of_lt_of_le hlt length_saves_le)
  rwa [if_pos hlt, List.getD_eq_getElem _ _ hlt, hi] at hcell

theorem whole_entry_rows (hs : s < m.st.nStream) (hsize : (m.cells s).size = (A.cells s).size)
    (hoff : A.offsetsFit conf s (A.savedRanges (-1) s)) {k i : Nat} (hk : ((A.cells s).saves (-1))[k]? = some i) :
    ((Store.whole conf A s m).entry conf s k).k = (A.entry conf s i).k ∧
      ((Store.whole conf A s m).entry conf s k).v = (A.entry conf s i).v := by
  have hidx : ((A.savedRanges (-1) s).flatMap within)[k]? = some i := by rwa [flatMap_savedRanges]
  have hk0 : (Store.whole conf A s m).head s + k = k := by rw [whole_head, Nat.zero_add]
  have hsz := (whole_cell conf hs hsize).1
  constructor
  · refine List.map_congr_left fun il hil => ?_
    exact Store.restored_kRow hk0 hidx (List.mem_range.mp hil)
  · refine List.map_congr_left fun il hil => ?_
    rw [List.mem_range] at hil
    have hroom : (Store.whole conf A s m).head s + ((A.savedRanges (-1) s).flatMap within).length ≤
        ((Store.whole conf A s m).cells s).size := by
      rw [whole_head, Nat.zero_add, hsz, flatMap_savedRanges]
      exact length_saves_le
    have hdst : conf.vTrans → ∀ j < (conf.layer il).nEmbdV,
        (Store.whole conf A s m).head s + j * ((Store.whole conf A s m).cells s).size < 2 ^ 32 := by
      intro htrans j hj
      rw [whole_head, Nat.zero_add, hsz]
      -- the offset of the first range is at least that
      obtain ⟨r, hr, -⟩ := List.mem_flatMap.mp (List.mem_of_getElem? hidx)
      have hmul := hoff htrans il hil r hr j hj
      have hel : 0 < (conf.layer il).vEl := (conf.layer il).vType.size_pos
      calc j * (A.cells s).size ≤ r.1 + j * (A.cells s).size := Nat.le_add_left _ _
        _ ≤ (r.1 + j * (A.cells s).size) * (conf.layer il).vEl := Nat.le_mul_of_pos_right _ hel
        _ < 2 ^ 32 := hmul
    exact Store.restored_vRow hk0 hidx hil hroom hoff hdst

/-! ## The round trip -/

/-- The streams before `t` that have cells. -/
def Store.fullStreams (A : Store) (t : Nat) : List Nat := (List.range t).filter fun s => decide ((A.cells s).saves (-1) ≠ [])

/-- Behind the streams before `t`: the last of them that has cells was read, or there was none. -/
def Store.ReadUpTo (conf : Conf) (A B : Store) (t : Nat) (m : Store) : Prop :=
  match (A.fullStreams t).getLast? with
  | none => m = B
  | some s => ∃ m' : Store, m'.st.nStream = A.st.nStream ∧ (m'.cells s).size = (A.cells s).size ∧ m = Store.whole conf A s m'

theorem fullStreams_succ (t : Nat) : A.fullStreams (t + 1) =
    A.fullStreams t ++ if (A.cells t).saves (-1) ≠ [] then [t] else [] := by
  unfold Store.fullStreams
  rw [List.range_succ, List.filter_append]
  congr 1
  by_cases h : (A.cells t).saves (-1) = []
  · simp [h]
  · simp [h]

/-- A stream without cells. -/
theorem readStream_empty {seq dest : Int} (hempty : (A.cells s).saves seq = []) :
    Reads (readStream conf dest s) (writeStream conf A seq s) m true m := by
  unfold readStream writeStream
  dsimp only
  rw [hempty, List.length_nil, if_pos rfl, List.append_nil]
  refine (Reads.nat (by decide)).bind_last ?_
  rw [if_pos rfl]
  exact Reads.pure true

/-- **Reading what was written leaves the last stream that has cells**, and no change if there is none. -/
theorem stateRead_reads (conf : Conf) (h : A.Alike B) :
    ∃ bs B', stateWrite conf A (-1) = some bs ∧ Reads (stateRead conf (-1)) bs B () B' ∧
      Store.ReadUpTo conf A B A.st.nStream B' := by
  have hloop := Reads.each (f := readStream conf (-1)) (w := writeStream conf A (-1)) (s := B)
    (P := fun t m => m.st.nStream = A.st.nStream ∧ (∀ s < A.st.nStream, (m.cells s).size = (A.cells s).size) ∧
      Store.ReadUpTo conf A B t m)
    A.st.nStream ⟨h.nStream_eq, h.size_eq, rfl⟩
    (by
      rintro s hs m ⟨hn, hsize, hlast⟩
      by_cases hsaves : (A.cells s).saves (-1) = []
      · refine ⟨m, readStream_empty hsaves, hn, hsize, ?_⟩
        unfold Store.ReadUpTo
        rw [fullStreams_succ, if_neg (not_not.mpr hsaves), List.append_nil]
        exact hlast
      · have hm : s < m.st.nStream := by rwa [hn]
        refine ⟨_, readStream_whole h hs (hsize s hs) hm (full_iff_saves.mpr hsaves), hn, fun t ht => ?_, ?_⟩
        · rw [whole_size hm (hsize s hs) (by rwa [hn]), hsize t ht]
        · unfold Store.ReadUpTo
          rw [fullStreams_succ, if_pos hsaves, List.getLast?_concat]
          exact ⟨m, hn, hsize s hs, rfl⟩)
  obtain ⟨B', hreads, -, -, hlast⟩ := hloop
  refine ⟨_, B', if_neg fun hc => hc.2 (.inl rfl), ?_, hlast⟩
  unfold stateRead
  refine Reads.get.bind_nil ?_
  rw [if_neg (not_not.mpr (.inl rfl))]
  refine (Reads.nat h.nStream_lt).bind ?_
  rw [h.nStream_eq, if_neg (not_not.mpr rfl)]
  exact hreads.bind_last (Reads.pure ())

/-- What is restored is what was saved: position, shift and sequences of every cell that is not empty, and its rows. -/
def RoundTrip (conf : Conf) (A B : Store) : Prop :=
  ∃ bs B', stateWrite conf A (-1) = some bs ∧ stateRead conf (-1) ⟨bs, B⟩ = .ok () ⟨[], B'⟩ ∧
    ∀ s < A.st.nStream, B'.entries conf s = A.entries conf s

/-- No shift is pending and no sequence is beyond those of the context, at most one stream has cells, and if none has, then
the other cache is empty too. -/
structure Whole (conf : Conf) (A B : Store) : Prop where
  plain : ∀ s < A.st.nStream, ∀ i < (A.cells s).size, (A.cells s).isEmpty i = false →
    ((A.cells s).cell i).shift = 0 ∧ ∀ id ∈ ((A.cells s).cell i).seq, id < conf.nSeqMax
  one : ∀ s < A.st.nStream, ∀ t < A.st.nStream, A.full s → A.full t → s = t
  none : (∀ s < A.st.nStream, ¬ A.full s) → ∀ s < A.st.nStream, ¬ B.full s

theorem mem_fullStreams : s ∈ A.fullStreams t ↔ s < t ∧ A.full s := by
  unfold Store.fullStreams
  rw [List.mem_filter, List.mem_range, full_iff_saves]
  simp only [decide_eq_true_eq]

theorem mem_saves_whole {i : Nat} : i ∈ (A.cells s).saves (-1) ↔ i < (A.cells s).size ∧ (A.cells s).isEmpty i = false := by
  rw [saves_whole, List.mem_filter, List.mem_range]
  simp

/-- The result of the round trip is the only one. -/
theorem roundTrip_iff (conf : Conf) (h : A.Alike B) :
    ∃ B', Store.ReadUpTo conf A B A.st.nStream B' ∧
      (RoundTrip conf A B ↔ ∀ s < A.st.nStream, B'.entries conf s = A.entries conf s) := by
  obtain ⟨bs, B', hwrite, hreads, hlast⟩ := stateRead_reads conf h
  have hrun : stateRead conf (-1) ⟨bs, B⟩ = .ok () ⟨[], B'⟩ := by
    have hnil := hreads []
    rwa [List.append_nil] at hnil
  refine ⟨B', hlast, ?_, fun hall => ⟨bs, B', hwrite, hrun, hall⟩⟩
  rintro ⟨bs', C, hwrite', hrun', hall⟩
  obtain rfl : bs = bs' := Option.some.inj (hwrite.symm.trans hwrite')
  rw [hrun] at hrun'
  obtain rfl : B' = C := by
    injection hrun' with _ hst
    injection hst
  exact hall

theorem not_full_of_getLast? (hget : (A.fullStreams t).getLast? = none) : ∀ s < t, ¬ A.full s := by
  intro s hs hfull
  have hmem := mem_fullStreams.mpr ⟨hs, hfull⟩
  rw [List.getLast?_eq_none_iff.mp hget] at hmem
  exact absurd hmem List.not_mem_nil

/-- A round trip that works needs all of this. -/
theorem RoundTrip.whole (h : A.Alike B) (hrt : RoundTrip conf A B) : Whole conf A B := by
  obtain ⟨B', hlast, hiff⟩ := roundTrip_iff conf h
  have hall := hiff.mp hrt
  unfold Store.ReadUpTo at hlast
  cases hget : (A.fullStreams A.st.nStream).getLast? with
  | none =>
      rw [hget] at hlast
      dsimp only at hlast
      subst hlast
      have hno := not_full_of_getLast? hget
      refine ⟨fun s hs i hi he => absurd ⟨i, hi, he⟩ (hno s hs), fun s hs t _ hfull => absurd hfull (hno s hs),
        fun _ s hs => ?_⟩
      rw [← entries_eq_nil_iff, hall s hs, entries_eq_nil_iff]
      exact hno s hs
  | some t =>
      rw [hget] at hlast
      obtain ⟨m, hn, hsize, rfl⟩ := hlast
      obtain ⟨ht, hfull⟩ := mem_fullStreams.mp (List.mem_of_getLast? hget)
      have hm : t < m.st.nStream := by rwa [hn]
      -- all other streams of the restored cache are empty
      have hother : ∀ s < A.st.nStream, A.full s → s = t := by
        intro s hs hs'
        by_contra hne
        have hnil : (Store.whole conf A t m).entries conf s = [] :=
          entries_eq_nil_iff.mpr (not_full_whole (by rwa [hn]) hne)
        rw [hall s hs, entries_eq_nil_iff] at hnil
        exact hnil hs'
      refine ⟨fun s hs i hi he => ?_, fun s hs u hu h1 h2 => (hother s hs h1).trans (hother u hu h2).symm, fun hno => ?_⟩
      · obtain rfl := hother s hs ⟨i, hi, he⟩
        obtain ⟨k, hk⟩ := List.mem_iff_getElem?.mp (mem_saves_whole.mpr ⟨hi, he⟩)
        have hentry := (whole_entries_eq_iff hm hsize).mp (hall s hs) k i hk
        have hcell := congrArg Entry.cell hentry
        rw [whole_entry_cell hm hsize hk] at hcell
        exact Cell.saved_eq_iff.mp hcell
      · exact absurd hfull (hno t ht)

/-- **A restored cache is the saved one** where no shift is pending, one stream has cells and its offsets fit; and it is so
nowhere else but for offsets that do not fit and happen to lead to the same bytes. -/
theorem stateRead_stateWrite (conf : Conf) (A B : Store) (h : A.Alike B) :
    (Whole conf A B ∧ (∀ s < A.st.nStream, A.offsetsFit conf s (A.savedRanges (-1) s)) → RoundTrip conf A B) ∧
      (RoundTrip conf A B → Whole conf A B) := by
  refine ⟨fun ⟨hwhole, hoff⟩ => ?_, RoundTrip.whole h⟩
  obtain ⟨B', hlast, hiff⟩ := roundTrip_iff conf h
  refine hiff.mpr fun s hs => ?_
  unfold Store.ReadUpTo at hlast
  cases hget : (A.fullStreams A.st.nStream).getLast? with
  | none =>
      rw [hget] at hlast
      dsimp only at hlast
      subst hlast
      have hno := not_full_of_getLast? hget
      rw [entries_eq_nil_iff.mpr (hno s hs), entries_eq_nil_iff]
      exact hwhole.none hno s hs
  | some t =>
      rw [hget] at hlast
      obtain ⟨m, hn, hsize, rfl⟩ := hlast
      obtain ⟨ht, hfull⟩ := mem_fullStreams.mp (List.mem_of_getLast? hget)
      have hm : t < m.st.nStream := by rwa [hn]
      by_cases hst : s = t
      · subst hst
        refine (whole_entries_eq_iff hm hsize).mpr fun k i hk => ?_
        obtain ⟨hi, he⟩ := mem_saves_whole.mp (List.mem_of_getElem? hk)
        have hcell : ((Store.whole conf A s m).entry conf s k).cell = (A.cells s).cell i := by
          rw [whole_entry_cell hm hsize hk, Cell.saved_eq_iff.mpr (hwhole.plain s hs i hi he)]
        obtain ⟨hkeys, hvalues⟩ := whole_entry_rows hm hsize (hoff s hs) hk
        rw [Entry.mk.injEq]
        exact ⟨hcell, hkeys, hvalues⟩
      · rw [entries_eq_nil_iff.mpr (not_full_whole (by rwa [hn]) hst), eq_comm, entries_eq_nil_iff]
        exact fun hs' => hst (hwhole.one s hs t ht hs' hfull)

end Whole

/-! ## One token, and one token in each of two streams -/

def halfType : GgmlType := { id := 1, size := 2, blck := 1 }
def floatType : GgmlType := { id := 0, size := 4, blck := 1 }

/-- One layer with transposed V. -/
def oneLayer (nSeqMax : Nat) (h : nSeqMax ≤ maxSeq) : Conf where
  vTrans := true
  nSeqMax := nSeqMax
  nLayer := 1
  layer _ := { kType := halfType, vType := halfType, nEmbdK := 4, nEmbdV := 4 }
  nSeqMax_le := h

/-- A cache with something in its tensors. -/
def counting (st : Streams Unit) : Store where
  st := st
  k _ _ a := UInt8.ofNat a
  v _ _ a := UInt8.ofNat (a + 1)

theorem eq_some_getD {α : Type} {o : Option α} {a : α} (h : o.isSome) : o = some (o.getD a) := by
  cases o with
  | none => cases h
  | some x => rfl

/-- `twoCells` with a token in the first cell. -/
def oneToken : Streams Unit := (streamStep firstToken twoCells).getD twoCells

theorem stateRead_stateWrite_token :
    streamStep firstToken twoCells = some oneToken ∧ (counting oneToken).full 0 ∧
      RoundTrip (oneLayer 1 (by decide)) (counting oneToken) (counting twoCells) := by
  have hstep : streamStep firstToken twoCells = some oneToken := eq_some_getD (by decide +kernel)
  have hn : (counting oneToken).st.nStream = 1 := by decide +kernel
  obtain ⟨hsize, hzero, hnext, hranges⟩ : ((counting oneToken).cells 0).size = 2 ∧
      ((counting oneToken).cells 0).cell 0 = ⟨0, 0, {0}⟩ ∧ ((counting oneToken).cells 0).cell 1 = {} ∧
        (counting oneToken).savedRanges (-1) 0 = [(0, 1)] := by decide +kernel
  have hfull : (counting oneToken).full 0 := ⟨0, by decide +kernel, by decide +kernel⟩
  refine ⟨hstep, hfull, (stateRead_stateWrite _ _ _ ?_).1 ⟨?_, fun s hs => ?_⟩⟩
  · refine ⟨hn.symm, fun s hs => ?_, by rw [hn]; decide, fun s hs => ?_, fun s hs i hi => ?_⟩
    · obtain rfl : s = 0 := by omega
      exact hsize.symm
    · obtain rfl : s = 0 := by omega
      rw [hsize]
      decide
    · obtain rfl : s = 0 := by omega
      rw [hsize] at hi
      interval_cases i
      · rw [hzero]
        decide
      · rw [hnext]
        decide
  · refine ⟨fun s hs i hi he => ?_, fun s hs t ht _ _ => by omega, fun hno => absurd hfull (hno 0 (by omega))⟩
    obtain rfl : s = 0 := by omega
    rw [hsize] at hi
    interval_cases i
    · rw [hzero]
      decide
    · unfold Cells.isEmpty at he
      rw [hnext] at he
      exact absurd he (by decide)
  · obtain rfl : s = 0 := by omega
    intro _ il hil r hr j hj
    rw [hranges, List.mem_singleton] at hr
    obtain rfl : il = 0 := Nat.lt_one_iff.mp hil
    have hj4 : j < 4 := hj
    rw [hr, hsize]
    change (0 + j * 2) * 2 < 2 ^ 32
    omega

def twoStreams : Streams Unit := Streams.create {} 2 1 fun _ _ => ()

def oneEach : StreamOp Unit := .emplace [⟨0, [⟨0, [0], ()⟩]⟩, ⟨1, [⟨0, [1], ()⟩]⟩] false

def twoTokens : Streams Unit := (streamStep oneEach twoStreams).getD twoStreams

theorem oneEach_wellFormed : oneEach.wellFormed twoStreams := by
  refine ⟨by decide, fun part hpart => ?_⟩
  simp only [List.mem_cons, List.not_mem_nil, or_false] at hpart
  rcases hpart with rfl | rfl
  · refine ⟨List.cons_ne_nil _ _, fun r hr => ?_⟩
    rw [List.mem_singleton.mp hr]
    decide
  · refine ⟨List.cons_ne_nil _ _, fun r hr => ?_⟩
    rw [List.mem_singleton.mp hr]
    decide

/-- With a token in each of two streams, the second stream clears the first. -/
theorem stateRead_loses_stream :
    ¬ ∀ A B : Store, Reaches streamStep (fun st op => StreamOp.wellFormed st op) twoStreams A.st →
      Reaches streamStep (fun st op => StreamOp.wellFormed st op) twoStreams B.st → A.Alike B →
      RoundTrip (oneLayer 2 (by decide)) A B := by
  intro h
  have hstep : streamStep oneEach twoStreams = some twoTokens := eq_some_getD (by decide +kernel)
  obtain ⟨hn, hsize, hzero, hone⟩ : (counting twoTokens).st.nStream = 2 ∧
      (∀ s < 2, ((counting twoTokens).cells s).size = 1) ∧ ((counting twoTokens).cells 0).cell 0 = ⟨0, 0, {0}⟩ ∧
        ((counting twoTokens).cells 1).cell 0 = ⟨0, 0, {1}⟩ := by decide +kernel
  have hlike : (counting twoTokens).Alike (counting twoStreams) := by
    refine ⟨hn.symm, fun s hs => ?_, by rw [hn]; decide, fun s hs => ?_, fun s hs i hi => ?_⟩
    · rw [hn] at hs
      exact (hsize s hs).symm
    · rw [hn] at hs
      rw [hsize s hs]
      decide
    · rw [hn] at hs
      rw [hsize s hs] at hi
      obtain rfl : i = 0 := by omega
      interval_cases s
      · rw [hzero]
        decide
      · rw [hone]
        decide
  have hwhole := (h (counting twoTokens) (counting twoStreams) (.step oneEach .start oneEach_wellFormed hstep) .start
    hlike).whole hlike
  have heq := hwhole.one 0 (by omega) 1 (by omega)
    ⟨0, by rw [hsize 0 (by decide)]; decide, by unfold Cells.isEmpty; rw [hzero]; decide⟩
    ⟨0, by rw [hsize 1 (by decide)]; decide, by unfold Cells.isEmpty; rw [hone]; decide⟩
  exact absurd heq (by decide)

end S2Moe.Kv
