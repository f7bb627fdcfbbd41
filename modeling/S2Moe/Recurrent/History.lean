import S2Moe.Recurrent.Reachable

/-!
# `llama_memory_recurrent`: the verification history

A history row exists for each token of the decode that is being verified. Histories are reserved only for `n_seq_max`
1, so the memory has one cell, and `live` is its row of all the state tensors. What the graph does to a state is
`f : R → T → R`, from the zeroed state `r0`.

* `Hist` : the memory with its live row, the history, and a record of what sequence 0 holds, which the source does not
  have;
* `reserveHistory`, `beginHistory`, `finishHistory`, `restoreHistory` : the history functions;
* `decode` : the check of the positions in `llama_batch_allocr::init`, `prepare`, and for each ubatch `find_slot` and the
  graph;
* `HistOp`, `histStep` : all operations; `none` when an operation does not return, or `state_read` does not succeed.
-/

namespace S2Moe.Recurrent
open S2Moe.Lib

structure Hist (R T : Type) where
  mem : Memory
  live : R
  rows : Nat → R
  supportsHistory : Bool
  capacity : Nat := 0
  capturing : Bool := false
  valid : Bool := false
  seq : Int := -1
  firstPos : Int := -1
  tokens : Nat := 0
  /-- The tokens that sequence 0 holds, in order. -/
  recorded : List T := []
  /-- The position of the first of them. -/
  start : Int := 0
  /-- The tokens of the latest decode. -/
  latest : List T := []

/-- A saved state of sequence 0. -/
structure Snapshot (T : Type) where
  start : Nat
  tokens : List T
  ne : tokens ≠ []

def Snapshot.pos {T : Type} (s : Snapshot T) : Int := s.start + s.tokens.length - 1

/-- The ubatch of the next `count` tokens of sequence 0. -/
def tokenSlot (first : Int) (count : Nat) : UBatch := ⟨[⟨0, [], first + count - 1⟩], List.cons_ne_nil _ _⟩

section Model
variable {R T : Type} (r0 : R) (f : R → T → R)

namespace Hist

/-- The constructor, for `n_seq_max` 1. -/
def create (supportsHistory : Bool) (rows : Nat → R) : Hist R T :=
  { mem := Memory.create 1 Nat.zero_lt_one one_lt_size, live := r0, rows := rows, supportsHistory := supportsHistory }

def reserveHistory (h : Hist R T) (capacity : Nat) : Bool × Hist R T :=
  if ¬ h.supportsHistory ∨ capacity = 0 ∨ 32 < capacity then (false, h)
  else if capacity ≤ h.capacity then (true, h)
  else if h.capacity ≠ 0 then (false, h)
  else (true, { h with capacity := capacity })

def beginHistory (h : Hist R T) (seq firstPos : Int) (tokens : Nat) : Bool × Hist R T :=
  let h := { h with valid := false, capturing := false }
  if seq ≠ 0 ∨ firstPos < 0 ∨ tokens = 0 ∨ h.capacity < tokens ∨ firstPos ≠ h.mem.seqPosMax seq + 1 then (false, h)
  else (true, { h with seq := seq, firstPos := firstPos, tokens := tokens, capturing := true })

def finishHistory (h : Hist R T) : Bool × Hist R T :=
  if ¬ h.capturing ∨ h.mem.seqPosMax h.seq ≠ h.firstPos + h.tokens - 1 then (false, h)
  else (true, { h with capturing := false, valid := true })

/-- `restore_history`; the copy of a row is exact, so the audit does not fail. -/
def restoreHistory (h : Hist R T) (seq : Int) (prefixTokens : Nat) : Bool × Hist R T :=
  if ¬ h.valid ∨ seq ≠ h.seq ∨ prefixTokens = 0 ∨ h.tokens < prefixTokens ∨
      h.mem.seqPosMax seq ≠ h.firstPos + h.tokens - 1 then (false, h)
  else
    match h.mem.tail seq.toNat with
    | none => (false, h)
    | some tail =>
      if (h.mem.seqs tail).card ≠ 1 ∨ ¬ (h.mem.cells tail).hasSeqId seq then (false, h)
      else if h.tokens = 1 then (true, { h with valid := false })
      else
        (true, { h with
          live := h.rows (prefixTokens - 1)
          mem := h.mem.modify tail fun c =>
            { c with pos := h.firstPos + prefixTokens - 1, src := some tail, src0 := some tail }
          valid := false
          recorded := h.recorded.take (h.firstPos + prefixTokens - h.start).toNat })

/-- `prepare` places all ubatches on trial. -/
def slots : Int → List (List T) → Memory → Option Bool
  | _, [], _ => some true
  | first, u :: us, mem =>
    match mem.findSlot (tokenSlot first u.length) with
    | none => none
    | some (false, _) => some false
    | some (true, mem) => slots (first + u.length) us mem

def prepare (h : Hist R T) (first : Nat) (ubatches : List (List T)) : Option Bool :=
  if h.capturing ∧ ¬ (ubatches.length = 1 ∧ (ubatches.headD []).length = h.tokens ∧ (first : Int) = h.firstPos ∧
      h.seq = 0) then some false
  else slots first ubatches h.mem

/-- One ubatch: the state starts from zero if its cell is the zeroed one, and with a history each token writes a
row. -/
def ubatch (h : Hist R T) (first : Int) (toks : List T) : Option (Hist R T) :=
  match h.mem.findSlot (tokenSlot first toks.length) with
  | none => none
  | some (_, mem) =>
    let base := if mem.rsZ = some 0 then r0 else h.live
    some { h with
      mem := mem
      live := toks.foldl f base
      rows := if h.capturing ∧ 1 < h.tokens then
          fun j => if j < toks.length then (toks.take (j + 1)).foldl f base else h.rows j
        else h.rows
      start := if h.recorded = [] then first else h.start
      recorded := h.recorded ++ toks }

def ubatches : Int → List (List T) → Hist R T → Option (Hist R T)
  | _, [], h => some h
  | first, u :: us, h =>
    match h.ubatch r0 f first u with
    | none => none
    | some h => ubatches (first + u.length) us h

/-- A decode of tokens of sequence 0 from position `first` on, split into ubatches that are not empty. -/
def decode (h : Hist R T) (first : Nat) (us : List (List T)) : Option (Bool × Hist R T) :=
  if us.isEmpty ∨ us.any List.isEmpty then none
  else if 0 ≤ h.mem.seqPosMax 0 ∧ (first : Int) ≠ h.mem.seqPosMax 0 + 1 then some (false, h)
  else
    match h.prepare first us with
    | none => none
    | some false => some (false, h)
    | some true => (ubatches r0 f first us h).map fun h => (true, { h with latest := us.flatten })

/-- `clear(data)`. -/
def clear (h : Hist R T) (data : Bool) : Hist R T :=
  { h with
    mem := h.mem.clear, valid := false, capturing := false, live := if data then r0 else h.live, recorded := [] }

def seqRm (h : Hist R T) (p0 p1 : Int) : Hist R T :=
  let mem := (h.mem.seqRm 0 p0 p1).2
  { h with mem := mem, recorded := if mem.seqs 0 = ∅ then [] else h.recorded }

/-- `state_read` of sequence 0. -/
def readSequence (h : Hist R T) (s : Snapshot T) : Option (Hist R T) :=
  (h.mem.stateRead 0 [⟨s.pos, []⟩]).map fun mem =>
    { h with mem := mem, live := s.tokens.foldl f r0, recorded := s.tokens, start := s.start }

/-- `state_read` of the whole memory, with or without a sequence in it; it clears first. -/
def readWhole (h : Hist R T) (s : Option (Snapshot T)) : Option (Hist R T) :=
  let h := h.clear r0 true
  match s with
  | none => (h.mem.stateRead (-1) []).map fun mem => { h with mem := mem }
  | some s => (h.mem.stateRead (-1) [⟨s.pos, [0]⟩]).map fun mem =>
      { h with mem := mem, live := s.tokens.foldl f r0, recorded := s.tokens, start := s.start }

end Hist

inductive HistOp (T : Type) where
  | reserveHistory (capacity : Nat)
  | beginHistory (seq firstPos : Int) (tokens : Nat)
  | decode (first : Nat) (ubatches : List (List T))
  | finishHistory
  | restoreHistory (seq : Int) (prefixTokens : Nat)
  | readSequence (s : Snapshot T)
  | readWhole (s : Option (Snapshot T))
  | seqRm (p0 p1 : Int)
  | clear (data : Bool)

def histStep : HistOp T → Hist R T → Option (Hist R T)
  | .reserveHistory capacity, h => some (h.reserveHistory capacity).2
  | .beginHistory seq firstPos tokens, h => some (h.beginHistory seq firstPos tokens).2
  | .decode first us, h => (h.decode r0 f first us).map Prod.snd
  | .finishHistory, h => some h.finishHistory.2
  | .restoreHistory seq prefixTokens, h => some (h.restoreHistory seq prefixTokens).2
  | .readSequence s, h => h.readSequence r0 f s
  | .readWhole s, h => h.readWhole r0 f s
  | .seqRm p0 p1, h => some (h.seqRm p0 p1)
  | .clear data, h => some (h.clear r0 data)

end Model

/-! ## One cell -/

section OneCell
variable {m m' : Memory}

theorem Consistent.tail_zero (h : Consistent m) (h1 : m.size = 1) :
    m.tail 0 = none ∧ m.seqs 0 = ∅ ∨ m.tail 0 = some 0 ∧ m.seqs 0 = {0} := by
  have hiff := h.tail_iff 0 (by omega) 0 (by omega)
  have hlt : ∀ x ∈ m.seqs 0, x = 0 := by
    intro x hx
    have := h.seq_lt 0 (by omega) x hx
    omega
  cases ht : m.tail 0 with
  | none =>
      left
      refine ⟨rfl, Finset.eq_empty_of_forall_notMem fun x hx => ?_⟩
      rw [hlt x hx] at hx
      rw [hiff.mpr hx] at ht
      cases ht
  | some i =>
      right
      have hi := h.tail_lt 0 (by omega) i ht
      obtain rfl : i = 0 := by omega
      exact ⟨rfl, Finset.eq_singleton_iff_unique_mem.mpr ⟨hiff.mp ht, hlt⟩⟩

theorem Memory.seqPosMax_one (h1 : m.size = 1) :
    m.seqPosMax 0 = if 0 ∈ m.seqs 0 then max (-1) (m.cells 0).pos else -1 := by
  unfold Memory.seqPosMax Memory.seqs
  rw [h1]
  by_cases h : 0 ∈ (m.cells 0).seqId
  · simp [MemCell.hasSeqId, h]
  · simp [MemCell.hasSeqId, h]

/-- The cell is its own source exactly when it is in use. -/
def SourceOk (m : Memory) : Prop := (m.cells 0).src = if m.seqs 0 = ∅ then none else some 0

/-- The next tokens of sequence 0 get the cell; it is zeroed when the sequence held nothing. -/
theorem Consistent.findSlot_one (h : Consistent m) (h1 : m.size = 1) (hsrc : SourceOk m) (first : Int) (count : Nat) :
    ∃ m', m.findSlot (tokenSlot first count) = some (true, m') ∧ m'.size = 1 ∧ m'.seqs 0 = {0} ∧
      (m'.cells 0).pos = first + count - 1 ∧ SourceOk m' ∧ m'.rsZ = if m.seqs 0 = ∅ then some 0 else none := by
  have hhead : m.head = 0 := by
    have := h.head_lt
    omega
  have hin : m.inRange 0 := ⟨le_rfl, by omega⟩
  unfold SourceOk at hsrc ⊢
  obtain ⟨ht, hs⟩ | ⟨ht, hs⟩ := h.tail_zero h1
  · rw [if_pos hs] at hsrc ⊢
    unfold Memory.tail at ht
    unfold Memory.seqs at hs
    simp [tokenSlot, Memory.findSlot, Memory.unshare, Memory.unshareIds, hin, hhead, h1, seek, Memory.isEmpty,
      Memory.seqs, hs, Assign.run, Assign.step, Memory.owns, Memory.take, Memory.tail, ht, Memory.setTail,
      Memory.modify, Memory.gather, Memory.emplace, Memory.stage, Memory.refcount, SeqSet.ids, hsrc]
  · have hne : m.seqs 0 ≠ ∅ := by
      rw [hs]
      exact Finset.singleton_ne_empty 0
    rw [if_neg hne] at hsrc ⊢
    unfold Memory.tail at ht
    unfold Memory.seqs at hs
    simp [tokenSlot, Memory.findSlot, Memory.unshare, Memory.unshareIds, hin, hhead, h1, seek, Memory.isEmpty,
      Memory.seqs, hs, Assign.run, Assign.step, Memory.owns, Memory.tail, ht, Memory.setTail,
      Memory.modify, Memory.gather, Memory.emplace, Memory.stage, Memory.refcount, SeqSet.ids, hsrc]

end OneCell

end S2Moe.Recurrent
