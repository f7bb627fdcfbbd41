import Mathlib.Data.Finset.Card
import S2Moe.Lib.Loop

/-!
# `llama_memory_recurrent`: the cells

The vector `cells` plays two parts. As a cell, entry `i` is a slot for the state of the sequences in `seqId`. As
meta data, entry `s` holds in `tail` the slot of sequence `s`. The source's `-1` in `src`, `src0`, `tail` and `rs_z` is
`none`.

* `clear`, `seqRm`, `seqCp`, `seqKeep`, `seqAdd`, `seqDiv`, `seqPosMax` : the sequence operations;
* `findSlot` : the placement of a ubatch, in its phases `unshare`, `assign`, `gather`, `emplace` and `stage`; `none` when
  a `GGML_ASSERT` of it fails;
* `stateRead` : `state_read`, `none` when it does not succeed.
-/

namespace S2Moe.Recurrent
open S2Moe.Lib

structure MemCell where
  pos : Int := -1
  src : Option Nat := none
  src0 : Option Nat := none
  tail : Option Nat := none
  seqId : Finset Nat := ∅
deriving DecidableEq

structure Memory where
  size : Nat
  size_pos : 0 < size
  /-- `size` is a `uint32_t`. -/
  size_lt : size < 2 ^ 32
  head : Nat := 0
  used : Nat := 0
  n : Nat := 0
  rsZ : Option Nat := none
  cells : Nat → MemCell := fun _ => {}

def MemCell.hasSeqId (c : MemCell) (seq : Int) : Prop := 0 ≤ seq ∧ seq.toNat ∈ c.seqId

instance (c : MemCell) (seq : Int) : Decidable (c.hasSeqId seq) := inferInstanceAs (Decidable (_ ∧ _))

/-- A cell without the sequence `x`; it is reset when nothing is left. -/
def MemCell.without (c : MemCell) (x : Nat) : MemCell :=
  if c.seqId.erase x = ∅ then { c with seqId := ∅, pos := -1, src := none } else { c with seqId := c.seqId.erase x }

/-- `used--` on a `uint32_t`. -/
def decUsed (used : Nat) : Nat := (used + (2 ^ 32 - 1)) % 2 ^ 32

/-- `std::numeric_limits<llama_pos>::max()`. -/
def posMax : Int := 2147483647

def lower (p0 : Int) : Int := if p0 < 0 then 0 else p0

def upper (p1 : Int) : Int := if p1 < 0 then posMax else p1

/-- Sizes that a `uint32_t` holds. -/
theorem one_lt_size : 1 < 2 ^ 32 := by decide

theorem two_lt_size : 2 < 2 ^ 32 := by decide

namespace Memory

/-- The constructor. -/
def create (size : Nat) (hpos : 0 < size) (hlt : size < 2 ^ 32) : Memory := ⟨size, hpos, hlt, 0, 0, 0, none, fun _ => {}⟩

def seqs (m : Memory) (i : Nat) : Finset Nat := (m.cells i).seqId

def tail (m : Memory) (x : Nat) : Option Nat := (m.cells x).tail

def modify (m : Memory) (i : Nat) (f : MemCell → MemCell) : Memory :=
  { m with cells := Function.update m.cells i (f (m.cells i)) }

def setTail (m : Memory) (x : Nat) (t : Option Nat) : Memory := m.modify x (fun c => { c with tail := t })

/-- `std::count_if(cells.begin(), cells.end(), !is_empty)`. -/
def countUsed (m : Memory) : Nat := ((Finset.range m.size).filter fun i => m.seqs i ≠ ∅).card

def clear (m : Memory) : Memory :=
  { m with
    cells := fun i => if i < m.size then { m.cells i with pos := -1, seqId := ∅, src := none, tail := none } else m.cells i
    head := 0
    used := 0 }

/-- After a loop: `used`, and `head` moved down to the first cell it freed. -/
def freed (m : Memory) (r : (Nat → MemCell) × (Nat × Option Nat)) : Memory :=
  { m with
    cells := r.1
    used := r.2.1
    head := match r.2.2 with
      | some i => if i < m.head then i else m.head
      | none => m.head }

/-- The body of the loop in `seq_rm`; the accumulator is `used` and `new_head`. -/
def rmBody (seq p0 p1 : Int) (i : Nat) (c : MemCell) (acc : Nat × Option Nat) : MemCell × (Nat × Option Nat) :=
  if p0 ≤ c.pos ∧ c.pos < p1 then
    if 0 ≤ seq ∧ ¬ c.hasSeqId seq then (c, acc)
    else
      let left := if seq < 0 then ∅ else c.seqId.erase seq.toNat
      if left = ∅ then
        ({ c with seqId := left, pos := -1, src := none },
          (if 0 ≤ c.pos then decUsed acc.1 else acc.1, acc.2 <|> some i))
      else ({ c with seqId := left }, acc)
  else (c, acc)

def removeRange (m : Memory) (seq p0 p1 : Int) : Memory :=
  m.freed (sweep (rmBody seq p0 p1) m.size m.cells (m.used, none))

/-- `seq_rm`: a state cannot be erased in part. -/
def seqRm (m : Memory) (seq p0 p1 : Int) : Bool × Memory :=
  let p0 := lower p0
  let p1 := upper p1
  if m.size ≤ seq then (false, m)
  else if 0 ≤ seq then
    match m.tail seq.toNat with
    | none => (true, m.removeRange seq p0 p1)
    | some t =>
      let pos := (m.cells t).pos
      if (0 < p0 ∧ p0 < pos) ∨ (0 < p1 ∧ p1 ≤ pos) then (false, m)
      else if p0 ≤ pos ∧ pos < p1 then (true, (m.setTail seq.toNat none).removeRange seq p0 p1)
      else (true, m.removeRange seq p0 p1)
  else if p0 ≠ p1 ∧ (p0 ≠ 0 ∨ p1 ≠ posMax) then (false, m)
  else (true, m.removeRange seq p0 p1)

/-- The code of `seq_cp` and `find_slot` that takes sequence `x` out of its cell. -/
def detach (m : Memory) (x : Nat) : Memory :=
  match m.tail x with
  | none => m
  | some t =>
    let m' := (m.modify t (MemCell.without · x)).setTail x none
    { m' with used := if (m.seqs t).erase x = ∅ then decUsed m.used else m.used }

/-- `seq_cp`; the range is ignored. -/
def seqCp (m : Memory) (src dst _p0 _p1 : Int) : Memory :=
  if src = dst then m
  else if (0 ≤ dst ∧ dst < m.size) ∧ 0 ≤ src ∧ src < m.size then
    let m := m.detach dst.toNat
    match m.tail src.toNat with
    | none => m
    | some t => (m.modify t (fun c => { c with seqId := insert dst.toNat c.seqId })).setTail dst.toNat (some t)
  else m

/-- The body of the loop in `seq_keep`. -/
def keepBody (seq : Int) (i : Nat) (c : MemCell) (acc : Nat × Option Nat) : MemCell × (Nat × Option Nat) :=
  let tail := if (i : Int) ≠ seq then none else c.tail
  if ¬ c.hasSeqId seq then
    ({ c with tail := tail, pos := -1, src := none, seqId := ∅ },
      (if 0 ≤ c.pos then decUsed acc.1 else acc.1, acc.2 <|> some i))
  else ({ c with tail := tail, seqId := {seq.toNat} }, acc)

def seqKeep (m : Memory) (seq : Int) : Memory := m.freed (sweep (keepBody seq) m.size m.cells (m.used, none))

/-- The common body of `seq_add` and `seq_div`: `f` moves the position of the tail cell. -/
def moveTail (m : Memory) (seq p0 p1 : Int) (f : Int → Int) : Memory :=
  let p0 := lower p0
  let p1 := upper p1
  if p0 = p1 then m
  else if 0 ≤ seq ∧ seq < m.size then
    match m.tail seq.toNat with
    | none => m
    | some t =>
      let c := m.cells t
      if c.hasSeqId seq ∧ p0 ≤ c.pos ∧ c.pos < p1 then m.modify t (fun c => { c with pos := f c.pos }) else m
  else m

def seqAdd (m : Memory) (seq p0 p1 shift : Int) : Memory := if shift = 0 then m else m.moveTail seq p0 p1 (· + shift)

/-- `seq_div`; the division truncates. -/
def seqDiv (m : Memory) (seq p0 p1 d : Int) : Memory := if d = 1 then m else m.moveTail seq p0 p1 (Int.tdiv · d)

def seqPosMax (m : Memory) (seq : Int) : Int :=
  (List.range m.size).foldl (fun r i => if (m.cells i).hasSeqId seq then max r (m.cells i).pos else r) (-1)

end Memory

/-! ## `find_slot` -/

/-- The sequence set of one row block of a ubatch, and the position of its last token. -/
structure SeqSet where
  /-- `seq_id[i][0]`. -/
  primary : Int
  /-- `seq_id[i][1]`, `seq_id[i][2]`, ... -/
  secondary : List Int
  lastPos : Int
deriving DecidableEq

def SeqSet.ids (s : SeqSet) : List Nat := (s.primary :: s.secondary).map Int.toNat

/-- A ubatch with equally many tokens for each of its sequence sets. -/
structure UBatch where
  sets : List SeqSet
  ne : sets ≠ []

namespace Memory

def inRange (m : Memory) (x : Int) : Prop := 0 ≤ x ∧ x < m.size

instance (m : Memory) (x : Int) : Decidable (m.inRange x) := inferInstanceAs (Decidable (_ ∧ _))

def unshareIds : List Int → Memory → Bool × Memory
  | [], m => (true, m)
  | x :: xs, m => if m.inRange x then unshareIds xs (m.detach x.toNat) else (false, m)

/-- The first loop: ids out of range end it; sequences that become shared leave their cells. -/
def unshare : List SeqSet → Memory → Bool × Memory
  | [], m => (true, m)
  | s :: sets, m =>
    if m.inRange s.primary then
      match unshareIds s.secondary m with
      | (true, m) => unshare sets m
      | (false, m) => (false, m)
    else (false, m)

def isEmpty (m : Memory) (i : Nat) : Bool := decide (m.seqs i = ∅)

end Memory

/-- The variables of the second loop. -/
structure Assign where
  mem : Memory
  next : Nat
  min : Nat
  max : Nat

namespace Memory

/-- Sequence `x` moves to the cell `next`. -/
def take (m : Memory) (x next : Nat) : Option Memory :=
  if m.seqs next ≠ ∅ then none
  else
    match m.tail x with
    | none => some (m.setTail x (some next))
    | some t =>
      if (m.seqs t).erase x = ∅ then none
      else
        some (((m.modify next fun c => { c with pos := (m.cells t).pos, src := (m.cells t).src, seqId := {x} }).modify t
          fun c => { c with seqId := c.seqId.erase x }).setTail x (some next))

/-- Sequence `x` has a cell that it shares with nobody; `none` when its tail is wrong. -/
def owns (m : Memory) (x : Nat) : Option Bool :=
  match m.tail x with
  | none => some false
  | some t => if x ∈ m.seqs t then some (decide ((m.seqs t).card = 1)) else none

end Memory

/-- One pass of the second loop; `last` for the last sequence set, behind which no further cell is searched. -/
def Assign.step (a : Assign) (x : Nat) (last : Bool) : Option Assign := do
  let own ← a.mem.owns x
  let a ←
    if own then some a
    else do
      let mem ← a.mem.take x a.next
      let next := if last then a.next else seekAfter mem.isEmpty mem.size mem.size a.next
      some { a with mem := mem, next := next }
  let t ← a.mem.tail x
  some { a with min := Nat.min a.min t, max := Nat.max a.max t }

/-- The second loop: every sequence set gets a cell of its own. -/
def Assign.run : List SeqSet → Assign → Option Assign
  | [], a => some a
  | s :: sets, a => do
    let a ← a.step s.primary.toNat sets.isEmpty
    Assign.run sets a

/-- `dst` and `src` exchanged. -/
def swapIndex (dst src i : Nat) : Nat := if i = src then dst else if i = dst then src else i

namespace Memory

/-- The contents of two cells and all tails to them are exchanged. -/
def swap (m : Memory) (dst src : Nat) : Memory :=
  { m with
    cells := fun i =>
      { m.cells i with
        pos := (m.cells (swapIndex dst src i)).pos
        src := (m.cells (swapIndex dst src i)).src
        seqId := m.seqs (swapIndex dst src i)
        tail := if i < m.size then (m.tail i).map (swapIndex dst src) else m.tail i } }

/-- The third loop: the cells of the sequence sets become neighbours. -/
def gather : List SeqSet → Nat → Memory → Option Memory
  | [], _, m => some m
  | s :: sets, dst, m =>
    match m.tail s.primary.toNat with
    | none => none
    | some src => gather sets (dst + 1) (if dst ≠ src then m.swap dst src else m)

/-- The fourth loop: positions, sequence sets and tails of the cells from `cell` on. -/
def emplace : List SeqSet → Nat → Memory → Memory
  | [], _, m => m
  | s :: sets, cell, m =>
    let m := m.modify cell (fun c => { c with pos := s.lastPos, seqId := s.ids.toFinset })
    emplace sets (cell + 1) (s.ids.foldl (fun m x => m.setTail x (some cell)) m)

/-- `refcounts[i]`. -/
def refcount (m : Memory) (i : Nat) : Nat := ((Finset.range m.size).filter fun j => (m.cells j).src = some i).card

/-- The last block: the first cell without references is the zeroed state, and the sources are staged. -/
def stage (m : Memory) (min max : Nat) : Option Memory :=
  let range := List.range' min (max + 1 - min)
  let rsZ := range.find? fun i => decide (m.refcount i = 0)
  if rsZ = none ∧ ∃ i ∈ range, (m.cells i).src = none then none
  else
    some { m with
      rsZ := rsZ
      cells := fun i =>
        if min ≤ i ∧ i ≤ max then { m.cells i with src0 := (m.cells i).src <|> rsZ, src := some i } else m.cells i }

def findSlot (m : Memory) (ubatch : UBatch) : Option (Bool × Memory) :=
  let m := if m.used + 2 * ubatch.sets.length < m.head then { m with head := 0 } else m
  match unshare ubatch.sets m with
  | (false, m) => some (false, m)
  | (true, m) => do
    let next := seek m.isEmpty m.size m.size m.head
    let a ← Assign.run ubatch.sets ⟨m, next, m.size - 1, 0⟩
    let m ← gather ubatch.sets a.min a.mem
    let m ← stage (emplace ubatch.sets a.min m) a.min a.max
    let n := a.max + 1 - a.min
    some (decide (ubatch.sets.length ≤ n), { m with head := a.min, n := n, used := m.countUsed })

end Memory

/-! ## `state_read` -/

/-- One cell of a saved state. -/
structure SavedCell where
  pos : Int
  seqIds : List Int
deriving DecidableEq

namespace Memory

/-- The loop that gives the restored cells themselves as source. -/
def keepSources (m : Memory) (count : Nat) : Memory :=
  { m with cells := fun i => if m.head ≤ i ∧ i < m.head + count then { m.cells i with src := some i } else m.cells i }

/-- One sequence: the saved cell is placed like a ubatch of one token. -/
def readSequence (m : Memory) (dest : Int) (saved : List SavedCell) : Option Memory := do
  let m := (m.seqRm dest (-1) (-1)).2
  if saved.any (fun c => !c.seqIds.isEmpty) then none
  else
    match saved with
    | [] => none
    | c :: cs =>
      let last := (c :: cs).getLast (List.cons_ne_nil c cs)
      match m.findSlot ⟨[⟨dest, [], last.pos⟩], List.cons_ne_nil _ _⟩ with
      | some (true, m) =>
        if m.head + saved.length ≤ m.size ∧ (m.cells m.head).pos = c.pos ∧
            (m.cells (m.head + saved.length - 1)).pos = last.pos ∧ (m.cells m.head).hasSeqId dest ∧
            (m.cells (m.head + saved.length - 1)).hasSeqId dest then
          some (m.keepSources saved.length)
        else none
      | _ => none

/-- The ids of one cell of a whole state; an id past the end of `cells` is not checked by the source and has no
meaning. -/
def readIds (i : Nat) : List Int → Memory → Option Memory
  | [], m => some m
  | x :: xs, m =>
    if m.inRange x ∧ m.tail x.toNat = none then
      readIds i xs ((m.modify i fun c => { c with seqId := insert x.toNat c.seqId }).setTail x.toNat (some i))
    else none

def readCells : Nat → List SavedCell → Memory → Option Memory
  | _, [], m => some m
  | i, c :: cs, m => do
    let m ← readIds i c.seqIds (m.modify i fun cell => { cell with pos := c.pos })
    readCells (i + 1) cs m

def readWhole (m : Memory) (saved : List SavedCell) : Option Memory :=
  if m.size < saved.length then none
  else do
    let m ← readCells 0 saved m.clear
    some ({ m with head := 0, used := saved.length }.keepSources saved.length)

/-- A `state_read` that succeeds. -/
def stateRead (m : Memory) (dest : Int) (saved : List SavedCell) : Option Memory :=
  if dest ≠ -1 then m.readSequence dest saved else m.readWhole saved

end Memory

end S2Moe.Recurrent
