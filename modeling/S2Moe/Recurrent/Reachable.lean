import S2Moe.Lib.Run
import S2Moe.Recurrent.FindSlot

/-!
# Reachable memories

* `Op`, `step` : the operations on a memory; `none` when the operation does not return;
* `Consistent.stateRead` : a restored state has consistent links;
* `Op.safe` : the steps that do not run into the operations that treat tails and counters carelessly;
* `reachable_tailsConsistent` : in every run of such steps tails, cells and `used` agree;
* `seqRm_negative_not_tailsConsistent` : a run where removing everything leaves a tail behind.
-/

namespace S2Moe.Recurrent
open S2Moe.Lib

/-! ## Restored states -/

section Restore
variable {m m' : Memory}

theorem Memory.keepSources_same (m : Memory) (count i : Nat) : (m.keepSources count).tail i = m.tail i ∧
    (m.keepSources count).seqs i = m.seqs i ∧ ((m.keepSources count).cells i).pos = (m.cells i).pos := by
  unfold Memory.keepSources Memory.tail Memory.seqs
  dsimp only
  split
  · exact ⟨rfl, rfl, rfl⟩
  · exact ⟨rfl, rfl, rfl⟩

theorem Consistent.keepSources (h : Consistent m) (count : Nat) : Consistent (m.keepSources count) := by
  have hsame := m.keepSources_same count
  refine h.congr rfl (fun y _ => (hsame y).1) (fun i _ => (hsame i).2.1) (fun i hi he => ?_) h.head_lt rfl
  rw [(hsame i).2.2]
  exact h.empty_pos i hi he

/-- One sequence is read into a slot for one token, which an id out of range does not get. -/
theorem Consistent.readSequence (h : Consistent m) {dest : Int} {saved : List SavedCell}
    (hread : m.readSequence dest saved = some m') : Consistent m' := by
  unfold Memory.readSequence at hread
  dsimp only at hread
  split at hread
  · cases hread
  · cases saved with
    | nil => cases hread
    | cons c cs =>
        dsimp only at hread
        split at hread
        · rename_i m1 hfind
          have hdest : 0 ≤ dest := by
            by_contra hneg
            have hun : ∀ (k : Memory) (p : Int), Memory.unshare [⟨dest, [], p⟩] k = (false, k) := by
              intro k p
              rw [Memory.unshare, if_neg (fun hc => hneg hc.1)]
            unfold Memory.findSlot at hfind
            dsimp only at hfind
            rw [hun] at hfind
            cases hfind
          have hrm : Consistent (m.seqRm dest (-1) (-1)).2 := h.seqRm (fun hc => by omega)
          have hdisj : UBatch.disjoint ⟨[⟨dest, [], ((c :: cs).getLast (List.cons_ne_nil c cs)).pos⟩],
              List.cons_ne_nil _ _⟩ := List.pairwise_singleton _ _
          split at hread
          · cases hread
            exact (hrm.findSlot hdisj hfind).keepSources _
          · cases hread
        · cases hread

theorem Links.modify_pos (h : Links m) (i : Nat) (p : Int) : Links (m.modify i fun c => { c with pos := p }) := by
  have htail : ∀ y, (m.modify i fun c => { c with pos := p }).tail y = m.tail y := by
    intro y
    apply Memory.tail_modify
    exact fun _ => rfl
  have hseqs : ∀ j, (m.modify i fun c => { c with pos := p }).seqs j = m.seqs j := by
    intro j
    unfold Memory.seqs Memory.modify
    dsimp only
    by_cases hj : j = i
    · rw [hj, Function.update_self]
    · rw [Function.update_of_ne hj]
  refine ⟨fun y hy j hj => ?_, fun y hy j hj => ?_, fun j hj y hy => ?_⟩
  · rw [htail, hseqs]
    exact h.tail_iff y hy j hj
  · rw [htail] at hj
    exact h.tail_lt y hy j hj
  · rw [hseqs] at hy
    exact h.seq_lt j hj y hy

theorem Links.readIds {i : Nat} : ∀ (ids : List Int) (m : Memory), Links m → i < m.size →
    Memory.readIds i ids m = some m' → Links m' ∧ m'.size = m.size ∧ m'.head = m.head ∧ m.seqs i ⊆ m'.seqs i ∧
      (ids ≠ [] → m'.seqs i ≠ ∅) ∧ ∀ j, j ≠ i → m'.seqs j = m.seqs j ∧ (m'.cells j).pos = (m.cells j).pos
  | [], m, h, _, hread => by
    cases hread
    exact ⟨h, rfl, rfl, Finset.Subset.refl _, fun hc => absurd rfl hc, fun _ _ => ⟨rfl, rfl⟩⟩
  | x :: ids, m, h, hi, hread => by
    rw [Memory.readIds] at hread
    split at hread
    · rename_i hx
      have hxlt : x.toNat < m.size := by
        have := hx.1.1
        have := hx.1.2
        omega
      obtain ⟨hl, hsize, hhead, hsub, -, hsame⟩ :=
        Links.readIds ids (m.attach x.toNat i) (h.attach hxlt hi hx.2) hi hread
      have hself : (m.attach x.toNat i).seqs i = insert x.toNat (m.seqs i) := by
        rw [Memory.seqs_attach, if_pos rfl]
      rw [hself] at hsub
      refine ⟨hl, hsize, hhead, fun y hy => hsub (Finset.mem_insert_of_mem hy), fun _ hc => ?_, fun j hj => ?_⟩
      · have := hsub (Finset.mem_insert_self _ _)
        rw [hc] at this
        cases this
      · obtain ⟨h1, h2⟩ := hsame j hj
        rw [h1, h2, Memory.seqs_attach, if_neg hj, Memory.pos_attach]
        exact ⟨rfl, rfl⟩
    · cases hread

/-- The first `i` cells have been read. -/
structure ReadUpTo (m : Memory) (i : Nat) : Prop where
  links : Links m
  full : ∀ j < i, m.seqs j ≠ ∅
  rest : ∀ j < m.size, i ≤ j → m.seqs j = ∅ ∧ (m.cells j).pos < 0

theorem ReadUpTo.readCells : ∀ (i : Nat) (saved : List SavedCell) (m : Memory), ReadUpTo m i →
    i + saved.length ≤ m.size → (∀ c ∈ saved, c.seqIds ≠ []) → Memory.readCells i saved m = some m' →
    ReadUpTo m' (i + saved.length) ∧ m'.size = m.size
  | i, [], m, h, _, _, hread => by
    cases hread
    exact ⟨h, rfl⟩
  | i, c :: saved, m, h, hlen, hids, hread => by
    rw [List.length_cons] at hlen
    simp only [Memory.readCells, Option.bind_eq_bind, Option.bind_eq_some_iff] at hread
    obtain ⟨m1, hm1, hread⟩ := hread
    obtain ⟨hl, hsize, -, -, hfull, hsame⟩ := Links.readIds c.seqIds _ (h.links.modify_pos i c.pos)
      (by change i < m.size; omega) hm1
    have hsame' : ∀ j, j ≠ i → m1.seqs j = m.seqs j ∧ (m1.cells j).pos = (m.cells j).pos := by
      intro j hj
      obtain ⟨h1, h2⟩ := hsame j hj
      rw [h1, h2]
      unfold Memory.seqs Memory.modify
      dsimp only
      rw [Function.update_of_ne hj]
      exact ⟨rfl, rfl⟩
    have hsize' : m1.size = m.size := hsize
    have hnext : ReadUpTo m1 (i + 1) := by
      refine ⟨hl, fun j hj => ?_, fun j hj hij => ?_⟩
      · by_cases hji : j = i
        · rw [hji]
          exact hfull (hids c List.mem_cons_self)
        · rw [(hsame' j hji).1]
          exact h.full j (by omega)
      · rw [(hsame' j (by omega)).1, (hsame' j (by omega)).2]
        exact h.rest j (hsize' ▸ hj) (by omega)
    obtain ⟨hr, hrsize⟩ := ReadUpTo.readCells (i + 1) saved m1 hnext (by omega)
      (fun u hu => hids u (List.mem_cons_of_mem _ hu)) hread
    refine ⟨?_, hrsize.trans hsize'⟩
    rw [List.length_cons, show i + (saved.length + 1) = i + 1 + saved.length by omega]
    exact hr

/-- A whole state, each cell of which holds some sequence. -/
theorem Consistent.readWhole {saved : List SavedCell} (hids : ∀ c ∈ saved, c.seqIds ≠ [])
    (hread : m.readWhole saved = some m') : Consistent m' := by
  unfold Memory.readWhole at hread
  split at hread
  · cases hread
  · rename_i hlen
    simp only [Option.bind_eq_bind, Option.bind_eq_some_iff, Option.some.injEq] at hread
    obtain ⟨m1, hm1, rfl⟩ := hread
    have hstart : ReadUpTo m.clear 0 := by
      refine ⟨(Consistent.clear m).toLinks, fun j hj => absurd hj (Nat.not_lt_zero j), fun j hj _ => ?_⟩
      rw [Memory.seqs_clear (m := m) hj, Memory.pos_clear (m := m) hj]
      exact ⟨rfl, by decide⟩
    obtain ⟨hr, hsize⟩ := ReadUpTo.readCells 0 saved m.clear hstart (by change 0 + _ ≤ m.size; omega) hids hm1
    have hsize' : m1.size = m.size := hsize
    rw [Nat.zero_add] at hr
    refine Consistent.keepSources (m := { m1 with head := 0, used := saved.length }) ⟨⟨⟨hr.links.tail_iff,
      hr.links.tail_lt, hr.links.seq_lt⟩, fun i hi he => ?_, m1.size_pos⟩, ?_⟩ _
    · refine (hr.rest i hi ?_).2
      by_contra hlt
      exact hr.full i (by omega) he
    · -- exactly the cells that were read are in use
      have hset : (Finset.range m1.size).filter (fun i => m1.seqs i ≠ ∅) = Finset.range saved.length := by
        ext i
        rw [Finset.mem_filter, Finset.mem_range, Finset.mem_range]
        constructor
        · rintro ⟨hi, hne⟩
          by_contra hge
          exact hne (hr.rest i hi (by omega)).1
        · intro hi
          exact ⟨by omega, hr.full i hi⟩
      change saved.length = ((Finset.range m1.size).filter fun i => m1.seqs i ≠ ∅).card
      rw [hset, Finset.card_range]

theorem Consistent.stateRead (h : Consistent m) {dest : Int} {saved : List SavedCell}
    (hids : dest = -1 → ∀ c ∈ saved, c.seqIds ≠ []) (hread : m.stateRead dest saved = some m') : Consistent m' := by
  unfold Memory.stateRead at hread
  split at hread
  · exact h.readSequence hread
  · rename_i hdest
    rw [not_not] at hdest
    exact Consistent.readWhole (hids hdest) hread

end Restore

/-! ## Runs -/

inductive Op where
  | clear
  | seqRm (seq p0 p1 : Int)
  | seqCp (src dst p0 p1 : Int)
  | seqKeep (seq : Int)
  | seqAdd (seq p0 p1 shift : Int)
  | seqDiv (seq p0 p1 d : Int)
  | findSlot (ubatch : UBatch)
  | stateRead (dest : Int) (saved : List SavedCell)

def step : Op → Memory → Option Memory
  | .clear, m => some m.clear
  | .seqRm seq p0 p1, m => some (m.seqRm seq p0 p1).2
  | .seqCp src dst p0 p1, m => some (m.seqCp src dst p0 p1)
  | .seqKeep seq, m => some (m.seqKeep seq)
  | .seqAdd seq p0 p1 shift, m => some (m.seqAdd seq p0 p1 shift)
  | .seqDiv seq p0 p1 d, m => some (m.seqDiv seq p0 p1 d)
  | .findSlot ubatch, m => (m.findSlot ubatch).map Prod.snd
  | .stateRead dest saved, m => m.stateRead dest saved

/-- Well-formed ubatches and saved states: sequence sets are disjoint, and a saved cell belongs to some sequence. -/
def Op.wellFormed : Op → Prop
  | .findSlot ubatch => ubatch.disjoint
  | .stateRead dest saved => dest = -1 → ∀ c ∈ saved, c.seqIds ≠ []
  | _ => True

/-- No removal of everything while a sequence is there to lose its cell; no `seq_keep` that drops a sequence whose cell
has no position. -/
def Op.safe (m : Memory) (op : Op) : Prop :=
  op.wellFormed ∧
    match op with
    | .seqRm seq p0 p1 => seq < 0 → lower p0 = 0 → upper p1 = posMax → m.noneToRemove
    | .seqKeep seq => m.keepCounts seq
    | _ => True

/-- A sequence has tail `i` exactly when cell `i` holds it, tails are cells, and `used` counts the cells in use. -/
structure TailsConsistent (m : Memory) : Prop where
  tail_iff : ∀ s < m.size, ∀ i < m.size, m.tail s = some i ↔ s ∈ m.seqs i
  tail_lt : ∀ s < m.size, ∀ i, m.tail s = some i → i < m.size
  used_eq : m.used = m.countUsed

theorem Consistent.step {m m' : Memory} {op : Op} (h : Consistent m) (hsafe : op.safe m) (hstep : step op m = some m') :
    Consistent m' := by
  cases op with
  | clear =>
      cases hstep
      exact Consistent.clear m
  | seqRm seq p0 p1 =>
      cases hstep
      exact h.seqRm hsafe.2
  | seqCp src dst p0 p1 =>
      cases hstep
      exact h.seqCp src dst p0 p1
  | seqKeep seq =>
      cases hstep
      exact h.seqKeep hsafe.2
  | seqAdd seq p0 p1 shift =>
      cases hstep
      exact h.seqAdd seq p0 p1 shift
  | seqDiv seq p0 p1 d =>
      cases hstep
      exact h.seqDiv seq p0 p1 d
  | findSlot ubatch =>
      obtain ⟨⟨ok, m1⟩, hfind, rfl⟩ := Option.map_eq_some_iff.mp hstep
      exact h.findSlot hsafe.1 hfind
  | stateRead dest saved => exact h.stateRead hsafe.1 hstep

/-- **In every run of safe steps tails, cells and the counter agree.** -/
theorem reachable_tailsConsistent (size : Nat) (hpos : 0 < size) (hlt : size < 2 ^ 32) (m : Memory)
    (h : Reaches step Op.safe (Memory.create size hpos hlt) m) : TailsConsistent m := by
  have hc : Consistent m := h.invariant (Consistent.create size hpos hlt) fun _ _ _ hi hs hstep => hi.step hs hstep
  exact ⟨hc.tail_iff, hc.tail_lt, hc.used_eq⟩

/-- A ubatch with one token of sequence 0. -/
def oneToken : UBatch := ⟨[⟨0, [], 0⟩], List.cons_ne_nil _ _⟩

/-- The first token of sequence 0 in a memory of one cell. -/
def holdingOne : Memory := ((step (.findSlot oneToken) (Memory.create 1 Nat.zero_lt_one one_lt_size)).getD
  (Memory.create 1 Nat.zero_lt_one one_lt_size))

theorem step_oneToken :
    step (.findSlot oneToken) (Memory.create 1 (by decide) (by decide)) = some holdingOne := by
  unfold holdingOne
  have h : (step (.findSlot oneToken) (Memory.create 1 (by decide) (by decide))).isSome = true := by decide
  obtain ⟨m, hm⟩ := Option.isSome_iff_exists.mp h
  rw [hm]
  rfl

theorem disjoint_oneToken : oneToken.disjoint := List.pairwise_singleton _ _

theorem reachable_tailsConsistent_holdingOne :
    holdingOne.used = 1 ∧ TailsConsistent (holdingOne.seqRm 0 0 (-1)).2 := by
  refine ⟨by decide, reachable_tailsConsistent 1 (by decide) (by decide) _ ?_⟩
  have hfirst : Reaches step Op.safe (Memory.create 1 (by decide) (by decide)) holdingOne :=
    .step (.findSlot oneToken) .start ⟨disjoint_oneToken, trivial⟩ step_oneToken
  exact hfirst.step (.seqRm 0 0 (-1)) ⟨trivial, by decide⟩ rfl

/-- Removing everything empties the cell of sequence 0 but leaves its tail. -/
theorem seqRm_negative_not_tailsConsistent :
    ¬ ∀ m, Reaches step (fun _ op => op.wellFormed) (Memory.create 1 (by decide) (by decide)) m → TailsConsistent m := by
  intro h
  have hfirst : Reaches step (fun _ op => op.wellFormed) (Memory.create 1 (by decide) (by decide)) holdingOne :=
    .step (.findSlot oneToken) .start disjoint_oneToken step_oneToken
  have hm := h _ (hfirst.step (.seqRm (-1) (-1) (-1)) trivial rfl)
  have hbad := hm.tail_iff 0 (by decide) 0 (by decide)
  revert hbad
  decide

end S2Moe.Recurrent
