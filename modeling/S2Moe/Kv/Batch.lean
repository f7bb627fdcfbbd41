import S2Moe.Kv.Decode

/-!
# `llama_decode` on a KV cache

* `batchInit` : the checks of `llama_batch_allocr::init` on sequences and positions;
* `memoryUpdate` : pending shifts are applied;
* `splitSimple` : the ubatches, in the order of the batch;
* `llamaDecode` : `none` when the batch is refused or does not fit. `llamaDecode_placed` says what it does otherwise.
-/

namespace S2Moe.Kv
open S2Moe.Recurrent (posMax)

/-- The first of the positions of `seq`; -1 without any. -/
def Cells.seqPosMin (c : Cells) (seq : Nat) : Int :=
  if c.seqPos seq = 0 then -1 else (c.seqPos seq).fold min posMax

section
variable {D : Type}

/-- `seq_pos` of the batch. -/
def batchPos (rows : List (Row D)) (s : Nat) : List Int := (rows.filter fun r => decide (s ∈ r.ids)).map Row.pos

/-- The first new position is behind the last one stored, and none is left out. -/
def seqConsistent (c : Cells) (rows : List (Row D)) (s : Nat) : Bool :=
  match (batchPos rows s).min?, (batchPos rows s).max? with
  | some lo, some hi =>
    (decide (c.seqPosMax s < 0) || decide (lo = c.seqPosMax s + 1)) &&
      decide (hi - lo + 1 ≤ (batchPos rows s).toFinset.card)
  | _, _ => true

/-- A token of both sequences, with `s0` as its first one. -/
def coupled (rows : List (Row D)) (s1 s0 : Nat) : Bool :=
  rows.any fun r => decide (r.ids.head? = some s0) && decide (s1 ∈ r.ids.tail)

/-- The set of sequences that is kept for a sequence has that sequence in it, so that the check for incompatible sets never
fails; the position that the check for decreasing ones compares with stays at -1. -/
def batchInit (c : Cells) (nSeqMax : Nat) (rows : List (Row D)) : Bool :=
  rows.all (fun r => r.ids.all fun s => decide (s < nSeqMax)) &&
    (List.range nSeqMax).all (fun s => seqConsistent c rows s) &&
    (List.range nSeqMax).all (fun s1 => (List.range nSeqMax).all fun s0 =>
      !coupled rows s1 s0 ||
        (decide (c.seqPosMin s1 = c.seqPosMin s0) && decide (c.seqPosMax s1 = c.seqPosMax s0))) &&
    rows.all fun r => decide (-1 ≤ r.pos)

/-- `split_simple`, for a batch of at most `fuel` tokens. A ubatch has at least one token. -/
def splitSimple {α : Type} (nUbatch : Nat) : Nat → List α → List (List α)
  | fuel + 1, x :: l => (x :: l.take (nUbatch - 1)) :: splitSimple nUbatch fuel (l.drop (nUbatch - 1))
  | _, _ => []

def Cells.resetShift (c : Cells) : Cells :=
  { c with cell := fun i => if i < c.size then { c.cell i with shift := 0 } else c.cell i, hasShift := false }

namespace Cache

def memoryUpdate (c : Cache D) : Cache D := if c.cells.hasShift then { c with cells := c.cells.resetShift } else c

def llamaDecode (c : Cache D) (nSeqMax nUbatch : Nat) (rows : List (Row D)) : Option (Cache D) :=
  if rows = [] then none
  else if batchInit c.cells nSeqMax rows then
    (c.memoryUpdate.decode (splitSimple nUbatch rows.length rows)).map Prod.snd
  else none

end Cache

/-! ## What a decode does -/

theorem splitSimple_flatten {α : Type} (n : Nat) : ∀ (fuel : Nat) (l : List α), l.length ≤ fuel →
    (splitSimple n fuel l).flatten = l ∧ ∀ u ∈ splitSimple n fuel l, u ≠ []
  | 0, l, h => by
    obtain rfl : l = [] := List.length_eq_zero_iff.mp (by omega)
    exact ⟨rfl, fun u hu => absurd hu List.not_mem_nil⟩
  | fuel + 1, [], _ => ⟨rfl, fun u hu => absurd hu List.not_mem_nil⟩
  | fuel + 1, x :: l, h => by
    have hdrop : (l.drop (n - 1)).length ≤ fuel := by
      rw [List.length_cons] at h
      rw [List.length_drop]
      omega
    obtain ⟨hflat, hne⟩ := splitSimple_flatten n fuel (l.drop (n - 1)) hdrop
    rw [splitSimple]
    constructor
    · rw [List.flatten_cons, hflat, List.cons_append, List.take_append_drop]
    · intro u hu
      rcases List.mem_cons.mp hu with rfl | hu
      · exact List.cons_ne_nil _ _
      · exact hne u hu

theorem Rep.resetShift {d : Cells} (h : Rep d) : Rep d.resetShift := by
  have hcell : ∀ i < d.size, d.resetShift.cell i = { d.cell i with shift := 0 } := fun i hi => if_pos hi
  refine ⟨fun i => ?_, fun i hi hp => ?_, fun i hi hp => ?_, fun i hi hp => ?_, fun s => ?_⟩
  · change i ∈ d.used ↔ i < d.size ∧ _
    rw [h.used_iff i]
    exact and_congr_right fun hi => by rw [hcell i hi]
  · rw [hcell i hi] at hp ⊢
    exact ⟨(h.empty i hi hp).1, rfl⟩
  · rw [hcell i hi] at hp ⊢
    exact h.full i hi hp
  · rw [hcell i hi] at hp ⊢
    exact h.nonneg i hi hp
  · refine (h.seqPos_eq s).trans (Finset.sum_congr rfl fun i hi => ?_)
    rw [hcell i (Finset.mem_range.mp hi)]
    rfl

variable {c c' : Cache D} {rows : List (Row D)} {nSeqMax nUbatch : Nat}

/-- Positions and sequences stay. -/
theorem Cache.Ok.memoryUpdate (h : c.Ok) : Each c c.memoryUpdate
    (fun x => if c.cells.hasShift then { x with shift := 0 } else x) := by
  unfold Cache.memoryUpdate
  split
  · exact ⟨⟨h.rep.resetShift, h.head_le⟩, rfl, fun j hj => if_pos hj, rfl⟩
  · exact ⟨h, rfl, fun j hj => rfl, rfl⟩

theorem Holds.memoryUpdate {s : Nat} {vals : List D} (h : Holds c s vals) (hok : c.Ok) : Holds c.memoryUpdate s vals := by
  have heach : Holds c.memoryUpdate s (vals.take vals.length) :=
    h.each hok.memoryUpdate vals.length (fun j hj => ?_) (fun j _ _ _ => by split <;> rfl)
  · rwa [List.take_length] at heach
  · have hseq : (if c.cells.hasShift then { c.cells.cell j with shift := 0 } else c.cells.cell j).seq =
        (c.cells.cell j).seq := by
      split <;> rfl
    rw [hseq]
    exact ⟨fun hs => ⟨hs, (h.pos_lt hj hs).2⟩, And.left⟩

theorem llamaDecode_placed (h : c.Ok) (hrows : ∀ r ∈ rows, r.Ok)
    (hrun : c.llamaDecode nSeqMax nUbatch rows = some c') : ∃ idxs, Placed c.memoryUpdate rows idxs c' := by
  unfold Cache.llamaDecode at hrun
  split at hrun
  · cases hrun
  · split at hrun
    · obtain ⟨⟨idxs, d⟩, hdec, rfl⟩ := Option.map_eq_some_iff.mp hrun
      obtain ⟨hflat, hne⟩ := splitSimple_flatten nUbatch rows.length rows le_rfl
      have hok : ∀ u ∈ splitSimple nUbatch rows.length rows, ∀ r ∈ u, r.Ok := by
        intro u hu r hr
        refine hrows r ?_
        rw [← hflat]
        exact List.mem_flatten.mpr ⟨u, hu, hr⟩
      have hplaced := Placed.decode _ _ _ idxs h.memoryUpdate.ok hne hok hdec
      rw [hflat] at hplaced
      exact ⟨idxs, hplaced⟩
    · cases hrun

theorem llamaDecode_size (h : c.Ok) (hrows : ∀ r ∈ rows, r.Ok) (hrun : c.llamaDecode nSeqMax nUbatch rows = some c') :
    c'.cells.size = c.cells.size := by
  obtain ⟨idxs, hplaced⟩ := llamaDecode_placed h hrows hrun
  exact hplaced.size_eq.trans h.memoryUpdate.size_eq

end

end S2Moe.Kv
