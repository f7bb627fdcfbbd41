import S2Moe.Recurrent.Cells

/-!
# Tails and cells

* `Links m` : sequence `x` has tail `i` exactly when cell `i` holds `x`, and all indices are in range;
* `Linked m` : moreover empty cells have no position, and `head` is a cell;
* `Consistent m` : `Linked`, and `used` counts the cells that hold a sequence;
* one lemma for each sequence operation: what it does to a consistent memory, and that it stays consistent.
-/

namespace S2Moe.Recurrent
open S2Moe.Lib

structure Links (m : Memory) : Prop where
  tail_iff : ∀ x < m.size, ∀ i < m.size, m.tail x = some i ↔ x ∈ m.seqs i
  tail_lt : ∀ x < m.size, ∀ i, m.tail x = some i → i < m.size
  seq_lt : ∀ i < m.size, ∀ x ∈ m.seqs i, x < m.size

structure Linked (m : Memory) : Prop extends Links m where
  empty_pos : ∀ i < m.size, m.seqs i = ∅ → (m.cells i).pos < 0
  head_lt : m.head < m.size

structure Consistent (m : Memory) : Prop extends Linked m where
  used_eq : m.used = m.countUsed

@[simp] theorem MemCell.hasSeqId_natCast (c : MemCell) (x : Nat) : c.hasSeqId (x : Int) ↔ x ∈ c.seqId := by
  simp [MemCell.hasSeqId]

/-! ## Counting -/

theorem Memory.countUsed_le (m : Memory) : m.countUsed ≤ m.size := by
  unfold Memory.countUsed
  exact (Finset.card_filter_le _ _).trans (Finset.card_range _).le

theorem decUsed_eq {u : Nat} (h0 : 0 < u) (hlt : u < 2 ^ 32) : decUsed u = u - 1 := by
  unfold decUsed
  omega

/-- One cell lost its last sequence. -/
theorem Memory.countUsed_erase {m m' : Memory} {t : Nat} (hsize : m'.size = m.size) (ht : t < m.size)
    (hfull : m.seqs t ≠ ∅) (hempty : m'.seqs t = ∅) (hrest : ∀ i < m.size, i ≠ t → (m'.seqs i = ∅ ↔ m.seqs i = ∅)) :
    m'.countUsed = m.countUsed - 1 := by
  unfold Memory.countUsed
  have hset : (Finset.range m'.size).filter (fun i => m'.seqs i ≠ ∅) =
      ((Finset.range m.size).filter fun i => m.seqs i ≠ ∅).erase t := by
    ext i
    simp only [Finset.mem_filter, Finset.mem_range, Finset.mem_erase, hsize]
    by_cases hi : i = t
    · subst hi
      simp [hempty]
    · constructor
      · rintro ⟨h1, h2⟩
        exact ⟨hi, h1, fun h => h2 ((hrest i h1 hi).mpr h)⟩
      · rintro ⟨_, h1, h2⟩
        exact ⟨h1, fun h => h2 ((hrest i h1 hi).mp h)⟩
  rw [hset, Finset.card_erase_of_mem]
  exact Finset.mem_filter.mpr ⟨Finset.mem_range.mpr ht, hfull⟩

theorem Memory.countUsed_congr {m m' : Memory} (hsize : m'.size = m.size)
    (h : ∀ i < m.size, m'.seqs i = ∅ ↔ m.seqs i = ∅) : m'.countUsed = m.countUsed := by
  unfold Memory.countUsed
  congr 1
  ext i
  simp only [Finset.mem_filter, Finset.mem_range, hsize]
  constructor
  · rintro ⟨h1, h2⟩
    exact ⟨h1, fun he => h2 ((h i h1).mpr he)⟩
  · rintro ⟨h1, h2⟩
    exact ⟨h1, fun he => h2 ((h i h1).mp he)⟩

theorem Memory.countUsed_pos {m : Memory} {t : Nat} (ht : t < m.size) (h : m.seqs t ≠ ∅) : 0 < m.countUsed := by
  unfold Memory.countUsed
  exact Finset.card_pos.mpr ⟨t, Finset.mem_filter.mpr ⟨Finset.mem_range.mpr ht, h⟩⟩

/-! ## Taking a sequence out of its cell -/

section Detach
variable {m : Memory} {x : Nat}

@[simp] theorem Memory.size_detach (m : Memory) (x : Nat) : (m.detach x).size = m.size := by
  unfold Memory.detach
  split <;> rfl

@[simp] theorem Memory.head_detach (m : Memory) (x : Nat) : (m.detach x).head = m.head := by
  unfold Memory.detach
  split <;> rfl

theorem MemCell.seqId_without (c : MemCell) (x : Nat) : (MemCell.without c x).seqId = c.seqId.erase x := by
  unfold MemCell.without
  split
  · rename_i h
    exact h.symm
  · rfl

theorem MemCell.pos_without (c : MemCell) (x : Nat) :
    (MemCell.without c x).pos = if c.seqId.erase x = ∅ then -1 else c.pos := by
  unfold MemCell.without
  split <;> rfl

theorem Memory.tail_detach (m : Memory) (x y : Nat) : (m.detach x).tail y = if y = x then none else m.tail y := by
  unfold Memory.detach Memory.tail
  cases ht : (m.cells x).tail with
  | none =>
      dsimp only
      split
      · rename_i h
        rw [h, ht]
      · rfl
  | some t =>
      dsimp only [Memory.setTail, Memory.modify]
      by_cases hy : y = x
      · rw [if_pos hy, hy, Function.update_self]
      · rw [if_neg hy, Function.update_of_ne hy]
        by_cases hyt : y = t
        · rw [hyt, Function.update_self]
          unfold MemCell.without
          split <;> rfl
        · rw [Function.update_of_ne hyt]

/-- In a consistent memory only the tail cell holds the sequence, so it leaves every cell. -/
theorem Linked.seqs_detach (h : Linked m) (hx : x < m.size) {i : Nat} (hi : i < m.size) :
    (m.detach x).seqs i = (m.seqs i).erase x := by
  have hnot : m.tail x ≠ some i → (m.seqs i).erase x = m.seqs i := by
    intro hne
    exact Finset.erase_eq_of_notMem (fun hmem => hne ((h.tail_iff x hx i hi).mpr hmem))
  unfold Memory.detach
  cases ht : m.tail x with
  | none =>
      rw [hnot (by simp [ht])]
  | some t =>
      dsimp only [Memory.seqs, Memory.setTail, Memory.modify]
      have htail : (Function.update (Function.update m.cells t (MemCell.without (m.cells t) x)) x
          { Function.update m.cells t (MemCell.without (m.cells t) x) x with tail := none } i).seqId =
          (Function.update m.cells t (MemCell.without (m.cells t) x) i).seqId := by
        by_cases hix : i = x
        · rw [hix, Function.update_self]
        · rw [Function.update_of_ne hix]
      rw [htail]
      by_cases hit : i = t
      · rw [hit, Function.update_self, MemCell.seqId_without]
      · rw [Function.update_of_ne hit]
        exact (hnot (by rw [ht]; simpa using Ne.symm hit)).symm

theorem Linked.pos_detach (h : Linked m) (hx : x < m.size) {i : Nat} (hi : i < m.size) :
    ((m.detach x).cells i).pos = if x ∈ m.seqs i ∧ (m.seqs i).erase x = ∅ then -1 else (m.cells i).pos := by
  unfold Memory.detach
  cases ht : m.tail x with
  | none =>
      have hnot : x ∉ m.seqs i := by
        intro hmem
        rw [(h.tail_iff x hx i hi).mpr hmem] at ht
        cases ht
      simp [hnot]
  | some t =>
      dsimp only [Memory.setTail, Memory.modify]
      have hpos : (Function.update (Function.update m.cells t (MemCell.without (m.cells t) x)) x
          { Function.update m.cells t (MemCell.without (m.cells t) x) x with tail := none } i).pos =
          (Function.update m.cells t (MemCell.without (m.cells t) x) i).pos := by
        by_cases hix : i = x
        · rw [hix, Function.update_self]
        · rw [Function.update_of_ne hix]
      rw [hpos]
      by_cases hit : i = t
      · subst hit
        have hmem := (h.tail_iff x hx i hi).mp ht
        rw [Function.update_self, MemCell.pos_without]
        exact if_congr ⟨fun he => ⟨hmem, he⟩, fun hc => hc.2⟩ rfl rfl
      · have hnot : x ∉ m.seqs i := by
          intro hmem
          rw [(h.tail_iff x hx i hi).mpr hmem] at ht
          exact hit (Option.some.inj ht)
        rw [Function.update_of_ne hit, if_neg (fun hc => hnot hc.1)]

/-- Detaching keeps the links. -/
theorem Linked.detach (h : Linked m) (hx : x < m.size) : Linked (m.detach x) where
  tail_iff y hy i hi := by
    rw [Memory.size_detach] at hy hi
    rw [Memory.tail_detach, h.seqs_detach hx hi, Finset.mem_erase]
    by_cases hyx : y = x
    · simp [hyx]
    · rw [if_neg hyx, h.tail_iff y hy i hi]
      simp [hyx]
  tail_lt y hy i hi := by
    rw [Memory.size_detach] at hy ⊢
    rw [Memory.tail_detach] at hi
    split at hi
    · cases hi
    · exact h.tail_lt y hy i hi
  seq_lt i hi y hy := by
    rw [Memory.size_detach] at hi ⊢
    rw [h.seqs_detach hx hi] at hy
    exact h.seq_lt i hi y (Finset.mem_of_mem_erase hy)
  empty_pos i hi he := by
    rw [Memory.size_detach] at hi
    rw [h.seqs_detach hx hi] at he
    rw [h.pos_detach hx hi]
    by_cases hmem : x ∈ m.seqs i
    · rw [if_pos ⟨hmem, he⟩]
      decide
    · rw [if_neg (fun hc => hmem hc.1)]
      rw [Finset.erase_eq_of_notMem hmem] at he
      exact h.empty_pos i hi he
  head_lt := by
    rw [Memory.size_detach, Memory.head_detach]
    exact h.head_lt

theorem Consistent.detach (h : Consistent m) (hx : x < m.size) : Consistent (m.detach x) where
  toLinked := h.toLinked.detach hx
  used_eq := by
    have hseqs : ∀ i < m.size, (m.detach x).seqs i = (m.seqs i).erase x := fun i hi => h.toLinked.seqs_detach hx hi
    have hsize := m.size_lt
    have hle := m.countUsed_le
    cases ht : m.tail x with
    | none =>
        have : m.detach x = m := by
          unfold Memory.detach
          rw [ht]
        rw [this]
        exact h.used_eq
    | some t =>
        have htl := h.tail_lt x hx t ht
        have hmem := (h.tail_iff x hx t htl).mp ht
        have hfull : m.seqs t ≠ ∅ := Finset.ne_empty_of_mem hmem
        have hpos := Memory.countUsed_pos htl hfull
        have hother : ∀ i < m.size, i ≠ t → (m.detach x).seqs i = m.seqs i := by
          intro i hi hit
          rw [hseqs i hi]
          apply Finset.erase_eq_of_notMem
          intro hmem'
          rw [(h.tail_iff x hx i hi).mpr hmem'] at ht
          exact hit (Option.some.inj ht)
        have hused : (m.detach x).used = if (m.seqs t).erase x = ∅ then decUsed m.used else m.used := by
          unfold Memory.detach
          rw [ht]
        rw [hused, h.used_eq]
        split
        · rename_i he
          rw [decUsed_eq hpos (by omega)]
          exact (Memory.countUsed_erase (Memory.size_detach m x) htl hfull (by rw [hseqs t htl, he])
            (fun i hi hit => by rw [hother i hi hit])).symm
        · rename_i he
          refine (Memory.countUsed_congr (Memory.size_detach m x) (fun i hi => ?_)).symm
          by_cases hit : i = t
          · subst hit
            rw [hseqs i hi]
            exact ⟨fun h' => absurd h' he, fun h' => absurd h' hfull⟩
          · rw [hother i hi hit]

end Detach

/-! ## Frames -/

section Frame
variable {m m' : Memory}

theorem Linked.congr (h : Linked m) (hsize : m'.size = m.size) (htail : ∀ x < m.size, m'.tail x = m.tail x)
    (hseqs : ∀ i < m.size, m'.seqs i = m.seqs i) (hpos : ∀ i < m.size, m.seqs i = ∅ → (m'.cells i).pos < 0)
    (hhead : m'.head < m.size) : Linked m' where
  tail_iff x hx i hi := by
    rw [hsize] at hx hi
    rw [htail x hx, hseqs i hi]
    exact h.tail_iff x hx i hi
  tail_lt x hx i hi := by
    rw [hsize] at hx ⊢
    rw [htail x hx] at hi
    exact h.tail_lt x hx i hi
  seq_lt i hi x hx := by
    rw [hsize] at hi ⊢
    rw [hseqs i hi] at hx
    exact h.seq_lt i hi x hx
  empty_pos i hi he := by
    rw [hsize] at hi
    rw [hseqs i hi] at he
    exact hpos i hi he
  head_lt := by
    rw [hsize]
    exact hhead

theorem Consistent.congr (h : Consistent m) (hsize : m'.size = m.size) (htail : ∀ x < m.size, m'.tail x = m.tail x)
    (hseqs : ∀ i < m.size, m'.seqs i = m.seqs i) (hpos : ∀ i < m.size, m.seqs i = ∅ → (m'.cells i).pos < 0)
    (hhead : m'.head < m.size) (hused : m'.used = m.used) : Consistent m' where
  toLinked := h.toLinked.congr hsize htail hseqs hpos hhead
  used_eq := by
    rw [hused, h.used_eq]
    exact (Memory.countUsed_congr hsize (fun i hi => by rw [hseqs i hi])).symm

theorem Consistent.withHead (h : Consistent m) {k : Nat} (hk : k < m.size) : Consistent { m with head := k } :=
  h.congr rfl (fun _ _ => rfl) (fun _ _ => rfl) (fun i hi he => h.empty_pos i hi he) hk rfl

end Frame

/-! ## `clear`, `seq_rm`, `seq_keep` -/

section Remove
variable {m : Memory}

theorem Memory.head_freed_le (m : Memory) (r : (Nat → MemCell) × (Nat × Option Nat)) : (m.freed r).head ≤ m.head := by
  unfold Memory.freed
  dsimp only
  split
  · split <;> omega
  · exact le_rfl

theorem Consistent.create (size : Nat) (hpos : 0 < size) (hlt : size < 2 ^ 32) :
    Consistent (Memory.create size hpos hlt) where
  tail_iff x _ i _ := by simp [Memory.create, Memory.tail, Memory.seqs]
  tail_lt x _ i hi := by simp [Memory.create, Memory.tail] at hi
  seq_lt i _ x hx := by simp [Memory.create, Memory.seqs] at hx
  empty_pos i _ _ := by simp [Memory.create]
  head_lt := hpos
  used_eq := by simp [Memory.create, Memory.countUsed, Memory.seqs]

theorem Memory.seqs_clear {i : Nat} (hi : i < m.size) : m.clear.seqs i = ∅ := by
  simp [Memory.clear, Memory.seqs, hi]

theorem Memory.tail_clear {x : Nat} (hx : x < m.size) : m.clear.tail x = none := by
  simp [Memory.clear, Memory.tail, hx]

theorem Memory.pos_clear {i : Nat} (hi : i < m.size) : (m.clear.cells i).pos = -1 := by
  simp [Memory.clear, hi]

theorem Consistent.clear (m : Memory) : Consistent m.clear where
  tail_iff x hx i hi := by
    rw [Memory.seqs_clear (m := m) hi, Memory.tail_clear (m := m) hx]
    simp
  tail_lt x hx i hi := by
    rw [Memory.tail_clear (m := m) hx] at hi
    cases hi
  seq_lt i hi x hx := by
    rw [Memory.seqs_clear (m := m) hi] at hx
    cases hx
  empty_pos i hi _ := by
    rw [Memory.pos_clear (m := m) hi]
    decide
  head_lt := m.size_pos
  used_eq := by
    symm
    apply Finset.card_eq_zero.mpr
    apply Finset.filter_eq_empty_iff.mpr
    intro i hi hne
    exact hne (Memory.seqs_clear (Finset.mem_range.mp hi))

/-- A range that no cell is removed from. -/
theorem Memory.removeRange_eq_self {seq p0 p1 : Int}
    (h : ∀ i < m.size, p0 ≤ (m.cells i).pos → (m.cells i).pos < p1 → 0 ≤ seq ∧ ¬ (m.cells i).hasSeqId seq) :
    m.removeRange seq p0 p1 = m := by
  unfold Memory.removeRange
  rw [sweep_id]
  · rfl
  · intro i hi acc
    unfold Memory.rmBody
    by_cases hr : p0 ≤ (m.cells i).pos ∧ (m.cells i).pos < p1
    · rw [if_pos hr, if_pos (h i hi hr.1 hr.2)]
    · rw [if_neg hr]

/-- The loop takes the sequence out of a cell of the range. -/
theorem Memory.rmBody_hit {c : MemCell} {x i : Nat} {p0 p1 : Int} {acc : Nat × Option Nat} (hp0 : 0 ≤ p0)
    (hr : p0 ≤ c.pos ∧ c.pos < p1) (hmem : x ∈ c.seqId) :
    Memory.rmBody x p0 p1 i c acc =
      (c.without x, (if c.seqId.erase x = ∅ then decUsed acc.1 else acc.1,
        if c.seqId.erase x = ∅ then acc.2 <|> some i else acc.2)) := by
  have hnot : ¬ ((0 : Int) ≤ (x : Int) ∧ ¬ c.hasSeqId x) := by
    rintro ⟨h0, hno⟩
    exact hno ⟨h0, by rw [Int.toNat_natCast]; exact hmem⟩
  have hneg : ¬ (x : Int) < 0 := Int.not_lt.mpr (Int.natCast_nonneg x)
  unfold Memory.rmBody MemCell.without
  dsimp only
  rw [if_pos hr, if_neg hnot, if_neg hneg, Int.toNat_natCast]
  by_cases he : c.seqId.erase x = ∅
  · rw [if_pos he, if_pos he, if_pos he, if_pos he, if_pos (hp0.trans hr.1), he]
  · rw [if_neg he, if_neg he, if_neg he, if_neg he]

/-- If the state of `x` is in the range, it leaves its cell. -/
theorem Linked.removeRange_tail (h : Linked m) {x t : Nat} {p0 p1 : Int} (hx : x < m.size) (ht : m.tail x = some t)
    (hp0 : 0 ≤ p0) (hr : p0 ≤ (m.cells t).pos ∧ (m.cells t).pos < p1) :
    ∃ k ≤ m.head, (m.setTail x none).removeRange x p0 p1 = { m.detach x with head := k } := by
  have htl := h.tail_lt x hx t ht
  have hmem := (h.tail_iff x hx t htl).mp ht
  have hcell : ∀ i, ((m.setTail x none).cells i).pos = (m.cells i).pos ∧
      ((m.setTail x none).cells i).seqId = m.seqs i := by
    intro i
    dsimp only [Memory.setTail, Memory.modify, Memory.seqs]
    by_cases hi : i = x
    · rw [hi, Function.update_self]
      exact ⟨rfl, rfl⟩
    · rw [Function.update_of_ne hi]
      exact ⟨rfl, rfl⟩
  refine ⟨((m.setTail x none).removeRange x p0 p1).head, Memory.head_freed_le _ _, ?_⟩
  unfold Memory.removeRange
  have hsize : (m.setTail x none).size = m.size := rfl
  rw [hsize, sweep_single m.size _ _ htl]
  · -- the loop rewrites the tail cell as `detach` does
    have hmem' : x ∈ ((m.setTail x none).cells t).seqId := by
      rw [(hcell t).2]
      exact hmem
    have hr' : p0 ≤ ((m.setTail x none).cells t).pos ∧ ((m.setTail x none).cells t).pos < p1 := by
      rw [(hcell t).1]
      exact hr
    rw [Memory.rmBody_hit hp0 hr' hmem', (hcell t).2]
    unfold Memory.freed Memory.detach
    rw [ht]
    dsimp only
    congr 1
    funext j
    dsimp only [Memory.setTail, Memory.modify]
    by_cases hjt : j = t
    · rw [hjt, Function.update_self]
      by_cases htx : t = x
      · rw [htx]
        simp only [Function.update_self]
        unfold MemCell.without
        split <;> rfl
      · simp only [Function.update_of_ne htx, Function.update_self]
    · rw [Function.update_of_ne hjt]
      by_cases hjx : j = x
      · rw [hjx] at hjt
        simp only [hjx, Function.update_self, Function.update_of_ne hjt]
      · simp only [Function.update_of_ne hjx, Function.update_of_ne hjt]
  · intro i hi hit acc
    unfold Memory.rmBody
    by_cases hri : p0 ≤ ((m.setTail x none).cells i).pos ∧ ((m.setTail x none).cells i).pos < p1
    · rw [if_pos hri, if_pos]
      refine ⟨Int.natCast_nonneg x, ?_⟩
      rintro ⟨_, hin⟩
      rw [(hcell i).2, Int.toNat_natCast] at hin
      rw [(h.tail_iff x hx i hi).mpr hin] at ht
      exact hit (Option.some.inj ht)
    · rw [if_neg hri]

theorem lower_nonneg (p : Int) : 0 ≤ lower p := by
  unfold lower
  split <;> omega

/-- The range of a `seq_rm` has the whole state of `x` in it, which ends at its position; any other range either leaves
the state alone or is refused. -/
def Memory.removesState (m : Memory) (x : Nat) (p0 p1 : Int) : Prop :=
  ∃ t, m.tail x = some t ∧ (lower p0 ≤ (m.cells t).pos ∧ (m.cells t).pos < upper p1) ∧
    ¬ (0 < lower p0 ∧ lower p0 < (m.cells t).pos)

/-- `seq_rm` of one sequence removes all of it or nothing. -/
theorem Consistent.seqRm_one (h : Consistent m) {x : Nat} (hx : x < m.size) (p0 p1 : Int) :
    (m.seqRm x p0 p1).2 = m ∨
      m.removesState x p0 p1 ∧ ∃ k ≤ m.head, (m.seqRm x p0 p1).2 = { m.detach x with head := k } := by
  have hin : ¬ (m.size : Int) ≤ (x : Int) := by omega
  have h0 : (0 : Int) ≤ (x : Int) := Int.natCast_nonneg x
  unfold Memory.seqRm
  dsimp only
  rw [if_neg hin, if_pos h0, Int.toNat_natCast]
  cases ht : m.tail x with
  | none =>
      left
      apply Memory.removeRange_eq_self
      intro i hi _ _
      refine ⟨h0, ?_⟩
      rintro ⟨_, hmem⟩
      rw [Int.toNat_natCast] at hmem
      rw [(h.tail_iff x hx i hi).mpr hmem] at ht
      cases ht
  | some t =>
      dsimp only
      split
      · left
        rfl
      · rename_i hpartial
        split
        · rename_i hr
          right
          exact ⟨⟨t, ht, hr, fun hc => hpartial (.inl hc)⟩,
            h.toLinked.removeRange_tail hx ht (lower_nonneg p0) hr⟩
        · rename_i hr
          left
          apply Memory.removeRange_eq_self
          intro i hi hp0 hp1
          refine ⟨h0, ?_⟩
          rintro ⟨_, hmem⟩
          rw [Int.toNat_natCast] at hmem
          rw [(h.tail_iff x hx i hi).mpr hmem] at ht
          cases ht
          exact hr ⟨hp0, hp1⟩

/-- A removal of everything meets no sequence. -/
def Memory.noneToRemove (m : Memory) : Prop := ∀ i < m.size, m.seqs i ≠ ∅ → ¬ (0 ≤ (m.cells i).pos ∧ (m.cells i).pos < posMax)

instance (m : Memory) : Decidable m.noneToRemove := inferInstanceAs (Decidable (∀ i < m.size, _ → _))

/-- `seq_rm` of every sequence does not touch the tails, so it may not meet a sequence. -/
theorem Consistent.seqRm_all (h : Consistent m) {seq p0 p1 : Int} (hneg : seq < 0)
    (hnone : lower p0 = 0 → upper p1 = posMax → m.noneToRemove) : (m.seqRm seq p0 p1).2 = m := by
  unfold Memory.seqRm
  dsimp only
  rw [if_neg (by omega), if_neg (by omega)]
  split
  · rfl
  · rename_i hrange
    apply Memory.removeRange_eq_self
    intro i hi hp0 hp1
    exfalso
    by_cases he : m.seqs i = ∅
    · have := h.empty_pos i hi he
      have := lower_nonneg p0
      omega
    · have hall : lower p0 = 0 ∧ upper p1 = posMax := by omega
      refine hnone hall.1 hall.2 i hi he ⟨by omega, by omega⟩

theorem Consistent.seqRm (h : Consistent m) {seq p0 p1 : Int}
    (hnone : seq < 0 → lower p0 = 0 → upper p1 = posMax → m.noneToRemove) : Consistent (m.seqRm seq p0 p1).2 := by
  by_cases hneg : seq < 0
  · rw [h.seqRm_all hneg (hnone hneg)]
    exact h
  · by_cases hin : (m.size : Int) ≤ seq
    · unfold Memory.seqRm
      dsimp only
      rw [if_pos hin]
      exact h
    · obtain ⟨x, rfl⟩ : ∃ x : Nat, seq = x := ⟨seq.toNat, by omega⟩
      have hx : x < m.size := by omega
      obtain heq | ⟨_, k, hk, heq⟩ := h.seqRm_one hx p0 p1
      · rw [heq]
        exact h
      · rw [heq]
        apply (h.detach hx).withHead
        rw [Memory.size_detach]
        exact lt_of_le_of_lt hk h.head_lt

/-- What `seq_keep` leaves of a cell. -/
def keepCell (seq : Int) (i : Nat) (c : MemCell) : MemCell := (Memory.keepBody seq i c (0, none)).1

theorem keepBody_fst (seq : Int) (i : Nat) (c : MemCell) (acc : Nat × Option Nat) :
    (Memory.keepBody seq i c acc).1 = keepCell seq i c := by
  unfold keepCell Memory.keepBody
  dsimp only
  split <;> rfl

theorem tail_keepCell (seq : Int) (i : Nat) (c : MemCell) :
    (keepCell seq i c).tail = if (i : Int) ≠ seq then none else c.tail := by
  unfold keepCell Memory.keepBody
  dsimp only
  split <;> rfl

theorem seqId_keepCell (seq : Int) (i : Nat) (c : MemCell) :
    (keepCell seq i c).seqId = if c.hasSeqId seq then {seq.toNat} else ∅ := by
  unfold keepCell Memory.keepBody
  dsimp only
  by_cases h : c.hasSeqId seq
  · rw [if_neg (not_not_intro h), if_pos h]
  · rw [if_pos h, if_neg h]

theorem pos_keepCell (seq : Int) (i : Nat) (c : MemCell) (h : ¬ c.hasSeqId seq) : (keepCell seq i c).pos = -1 := by
  unfold keepCell Memory.keepBody
  dsimp only
  rw [if_pos h]

theorem mem_seqId_keepCell (seq : Int) (i : Nat) (c : MemCell) (x : Nat) :
    x ∈ (keepCell seq i c).seqId ↔ (x : Int) = seq ∧ x ∈ c.seqId := by
  rw [seqId_keepCell]
  by_cases h : c.hasSeqId seq
  · rw [if_pos h, Finset.mem_singleton]
    constructor
    · intro hx
      have := h.1
      exact ⟨by omega, hx ▸ h.2⟩
    · rintro ⟨rfl, _⟩
      exact (Int.toNat_natCast x).symm
  · rw [if_neg h]
    constructor
    · intro hx
      cases hx
    · rintro ⟨rfl, hx⟩
      exact absurd ((c.hasSeqId_natCast x).mpr hx) h

theorem Memory.cells_seqKeep (seq : Int) {i : Nat} (hi : i < m.size) :
    (m.seqKeep seq).cells i = keepCell seq i (m.cells i) :=
  sweep_fst_of_lt (fun j c acc => keepBody_fst seq j c acc) m.size m.cells _ hi

/-- The loop decrements `used` once for each cell with a position that does not hold the sequence. -/
theorem Memory.used_keep (seq : Int) (cells : Nat → MemCell) :
    ∀ (n : Nat) (acc : Nat × Option Nat),
      ((Finset.range n).filter fun i => ¬ (cells i).hasSeqId seq ∧ 0 ≤ (cells i).pos).card ≤ acc.1 → acc.1 < 2 ^ 32 →
      ((List.range n).foldl (fun b i => (Memory.keepBody seq i (cells i) b).2) acc).1 =
        acc.1 - ((Finset.range n).filter fun i => ¬ (cells i).hasSeqId seq ∧ 0 ≤ (cells i).pos).card
  | 0, acc, _, _ => by simp
  | n + 1, acc, hle, hlt => by
    rw [List.range_succ, List.foldl_append, List.foldl_cons, List.foldl_nil]
    have hbody : ∀ b : Nat × Option Nat, (Memory.keepBody seq n (cells n) b).2.1 =
        if ¬ (cells n).hasSeqId seq ∧ 0 ≤ (cells n).pos then decUsed b.1 else b.1 := by
      intro b
      unfold Memory.keepBody
      by_cases h : (cells n).hasSeqId seq <;> by_cases hp : 0 ≤ (cells n).pos <;> simp [h, hp]
    rw [Finset.range_add_one, Finset.filter_insert] at hle ⊢
    rw [hbody]
    by_cases hn : ¬ (cells n).hasSeqId seq ∧ 0 ≤ (cells n).pos
    · rw [if_pos hn, Finset.card_insert_of_notMem (by simp)] at hle
      rw [if_pos hn, if_pos hn, Finset.card_insert_of_notMem (by simp), Memory.used_keep seq cells n acc (by omega) hlt,
        decUsed_eq (by omega) (by omega)]
      omega
    · rw [if_neg hn] at hle
      rw [if_neg hn, if_neg hn]
      exact Memory.used_keep seq cells n acc hle hlt

/-- Every sequence that `seq_keep` drops has a position; the loop counts by positions. -/
def Memory.keepCounts (m : Memory) (seq : Int) : Prop :=
  ∀ i < m.size, m.seqs i ≠ ∅ → ¬ (m.cells i).hasSeqId seq → 0 ≤ (m.cells i).pos

instance (m : Memory) (seq : Int) : Decidable (m.keepCounts seq) :=
  inferInstanceAs (Decidable (∀ i < m.size, _ → _ → _))

theorem Linked.seqKeep (h : Linked m) (seq : Int) : Linked (m.seqKeep seq) where
  tail_iff x hx i hi := by
    have hx' : x < m.size := hx
    have hi' : i < m.size := hi
    unfold Memory.tail Memory.seqs
    rw [Memory.cells_seqKeep seq hx', Memory.cells_seqKeep seq hi', tail_keepCell, mem_seqId_keepCell]
    by_cases hxs : (x : Int) = seq
    · rw [if_neg (not_not_intro hxs)]
      exact (h.tail_iff x hx' i hi').trans ⟨fun hmem => ⟨hxs, hmem⟩, fun hc => hc.2⟩
    · rw [if_pos hxs]
      constructor
      · intro hc
        cases hc
      · rintro ⟨hc, _⟩
        exact absurd hc hxs
  tail_lt x hx i hi := by
    have hx' : x < m.size := hx
    unfold Memory.tail at hi
    rw [Memory.cells_seqKeep seq hx', tail_keepCell] at hi
    split at hi
    · cases hi
    · exact h.tail_lt x hx' i hi
  seq_lt i hi x hx := by
    have hi' : i < m.size := hi
    unfold Memory.seqs at hx
    rw [Memory.cells_seqKeep seq hi', mem_seqId_keepCell] at hx
    exact h.seq_lt i hi' x hx.2
  empty_pos i hi he := by
    have hi' : i < m.size := hi
    unfold Memory.seqs at he
    rw [Memory.cells_seqKeep seq hi', seqId_keepCell] at he
    rw [Memory.cells_seqKeep seq hi']
    split at he
    · exact absurd he (Finset.singleton_ne_empty _)
    · rename_i hno
      rw [pos_keepCell seq i _ hno]
      decide
  head_lt := lt_of_le_of_lt (Memory.head_freed_le _ _) h.head_lt

theorem Consistent.seqKeep (h : Consistent m) {seq : Int} (hkeep : m.keepCounts seq) : Consistent (m.seqKeep seq) where
  toLinked := h.toLinked.seqKeep seq
  used_eq := by
    -- the cells that hold something fall into those that hold `seq` and those the loop counts
    have hempty : ∀ i < m.size, (m.seqKeep seq).seqs i ≠ ∅ ↔ (m.cells i).hasSeqId seq := by
      intro i hi
      unfold Memory.seqs
      rw [Memory.cells_seqKeep seq hi, seqId_keepCell]
      split
      · simp_all
      · simp_all
    have hsplit : m.countUsed = (m.seqKeep seq).countUsed +
        ((Finset.range m.size).filter fun i => ¬ (m.cells i).hasSeqId seq ∧ 0 ≤ (m.cells i).pos).card := by
      unfold Memory.countUsed
      rw [← Finset.card_union_of_disjoint]
      · congr 1
        ext i
        simp only [Finset.mem_filter, Finset.mem_union, Finset.mem_range]
        change _ ↔ (i < m.size ∧ _) ∨ _
        by_cases hi : i < m.size
        · rw [hempty i hi]
          by_cases hhas : (m.cells i).hasSeqId seq
          · have hne : m.seqs i ≠ ∅ := Finset.ne_empty_of_mem hhas.2
            simp [hi, hhas, hne]
          · have hiff : m.seqs i ≠ ∅ ↔ 0 ≤ (m.cells i).pos := by
              refine ⟨fun hne => hkeep i hi hne hhas, fun hp he => ?_⟩
              have := h.empty_pos i hi he
              omega
            rw [hiff]
            simp [hi, hhas]
        · simp [hi]
      · rw [Finset.disjoint_left]
        intro i hi hi'
        rw [Finset.mem_filter, Finset.mem_range] at hi hi'
        exact hi'.2.1 ((hempty i hi'.1).mp hi.2)
    have hle := m.countUsed_le
    have hlt := m.size_lt
    have hused : (m.seqKeep seq).used = (sweep (Memory.keepBody seq) m.size m.cells (m.used, none)).2.1 := rfl
    rw [hused, sweep_snd, Memory.used_keep seq m.cells m.size _ (by rw [h.used_eq]; omega) (by rw [h.used_eq]; omega),
      h.used_eq]
    omega

end Remove

/-! ## `seq_cp`, `seq_add`, `seq_div` -/

section Attach
variable {m : Memory} {x t : Nat}

/-- Sequence `x` joins cell `t`. -/
def Memory.attach (m : Memory) (x t : Nat) : Memory :=
  (m.modify t fun c => { c with seqId := insert x c.seqId }).setTail x (some t)

theorem Memory.tail_modify (m : Memory) (t : Nat) {f : MemCell → MemCell} (hf : ∀ c, (f c).tail = c.tail) (y : Nat) :
    (m.modify t f).tail y = m.tail y := by
  unfold Memory.tail Memory.modify
  dsimp only
  by_cases hy : y = t
  · rw [hy, Function.update_self, hf]
  · rw [Function.update_of_ne hy]

theorem Memory.tail_setTail (m : Memory) (x : Nat) (t : Option Nat) (y : Nat) :
    (m.setTail x t).tail y = if y = x then t else m.tail y := by
  unfold Memory.tail Memory.setTail Memory.modify
  dsimp only
  by_cases hy : y = x
  · rw [if_pos hy, hy, Function.update_self]
  · rw [if_neg hy, Function.update_of_ne hy]

theorem Memory.seqs_setTail (m : Memory) (x : Nat) (t : Option Nat) (i : Nat) : (m.setTail x t).seqs i = m.seqs i := by
  unfold Memory.seqs Memory.setTail Memory.modify
  dsimp only
  by_cases hi : i = x
  · rw [hi, Function.update_self]
  · rw [Function.update_of_ne hi]

theorem Memory.pos_setTail (m : Memory) (x : Nat) (t : Option Nat) (i : Nat) :
    ((m.setTail x t).cells i).pos = (m.cells i).pos := by
  unfold Memory.setTail Memory.modify
  dsimp only
  by_cases hi : i = x
  · rw [hi, Function.update_self]
  · rw [Function.update_of_ne hi]

theorem Memory.tail_attach (m : Memory) (x t y : Nat) : (m.attach x t).tail y = if y = x then some t else m.tail y := by
  unfold Memory.attach
  rw [Memory.tail_setTail, Memory.tail_modify]
  exact fun _ => rfl

theorem Memory.seqs_attach (m : Memory) (x t i : Nat) :
    (m.attach x t).seqs i = if i = t then insert x (m.seqs i) else m.seqs i := by
  unfold Memory.attach
  rw [Memory.seqs_setTail]
  unfold Memory.seqs Memory.modify
  dsimp only
  by_cases hi : i = t
  · rw [if_pos hi, hi, Function.update_self]
  · rw [if_neg hi, Function.update_of_ne hi]

theorem Memory.pos_attach (m : Memory) (x t i : Nat) : ((m.attach x t).cells i).pos = (m.cells i).pos := by
  unfold Memory.attach
  rw [Memory.pos_setTail]
  unfold Memory.modify
  dsimp only
  by_cases hi : i = t
  · rw [hi, Function.update_self]
  · rw [Function.update_of_ne hi]

/-- A sequence without a cell may join any cell. -/
theorem Links.attach (h : Links m) (hx : x < m.size) (ht : t < m.size) (hnone : m.tail x = none) :
    Links (m.attach x t) where
  tail_iff y hy i hi := by
    have hy' : y < m.size := hy
    have hi' : i < m.size := hi
    have hfree : ∀ j < m.size, x ∉ m.seqs j := by
      intro j hj hmem
      rw [(h.tail_iff x hx j hj).mpr hmem] at hnone
      cases hnone
    rw [Memory.tail_attach, Memory.seqs_attach]
    by_cases hyx : y = x
    · subst hyx
      rw [if_pos rfl]
      by_cases hit : i = t
      · simp [hit]
      · simp [hit, hfree i hi', Ne.symm hit]
    · rw [if_neg hyx, h.tail_iff y hy' i hi']
      by_cases hit : i = t
      · simp [hit, hyx]
      · simp [hit]
  tail_lt y hy i hi := by
    rw [Memory.tail_attach] at hi
    split at hi
    · cases hi
      exact ht
    · exact h.tail_lt y hy i hi
  seq_lt i hi y hy := by
    rw [Memory.seqs_attach] at hy
    split at hy
    · obtain rfl | hy := Finset.mem_insert.mp hy
      · exact hx
      · exact h.seq_lt i hi y hy
    · exact h.seq_lt i hi y hy

theorem Consistent.attach (h : Consistent m) (hx : x < m.size) (ht : t < m.size) (hnone : m.tail x = none)
    (hfull : m.seqs t ≠ ∅) : Consistent (m.attach x t) where
  toLinks := h.toLinks.attach hx ht hnone
  empty_pos i hi he := by
    rw [Memory.pos_attach]
    apply h.empty_pos i hi
    rw [Memory.seqs_attach] at he
    split at he
    · exact absurd he (Finset.insert_ne_empty _ _)
    · exact he
  head_lt := h.head_lt
  used_eq := by
    change m.used = _
    rw [h.used_eq]
    refine (@Memory.countUsed_congr m (m.attach x t) rfl ?_).symm
    intro i hi
    rw [Memory.seqs_attach]
    split
    · rename_i hit
      rw [hit]
      exact ⟨fun hc => absurd hc (Finset.insert_ne_empty _ _), fun hc => absurd hc hfull⟩
    · exact Iff.rfl

theorem Consistent.seqCp (h : Consistent m) (src dst p0 p1 : Int) : Consistent (m.seqCp src dst p0 p1) := by
  unfold Memory.seqCp
  split
  · exact h
  · split
    · rename_i hin
      have hd : dst.toNat < m.size := by omega
      have hs : src.toNat < m.size := by omega
      have h' := h.detach hd
      dsimp only
      cases ht : (m.detach dst.toNat).tail src.toNat with
      | none => exact h'
      | some t =>
          have htl := h'.tail_lt _ (by rw [Memory.size_detach]; exact hs) t ht
          refine h'.attach (by rw [Memory.size_detach]; exact hd) htl ?_ ?_
          · rw [Memory.tail_detach, if_pos rfl]
          · exact Finset.ne_empty_of_mem ((h'.tail_iff _ (by rw [Memory.size_detach]; exact hs) t htl).mp ht)
    · exact h

/-- Moving the position of a tail cell changes no link. -/
theorem Consistent.moveTail (h : Consistent m) (seq p0 p1 : Int) (f : Int → Int) :
    Consistent (m.moveTail seq p0 p1 f) := by
  unfold Memory.moveTail
  dsimp only
  split
  · exact h
  · split
    · rename_i hin
      cases ht : m.tail seq.toNat with
      | none => exact h
      | some t =>
          dsimp only
          split
          · rename_i hc
            refine h.congr rfl (fun y _ => Memory.tail_modify m t ?_ y) ?_ ?_ h.head_lt rfl
            · exact fun _ => rfl
            · intro i _
              unfold Memory.seqs Memory.modify
              dsimp only
              by_cases hi : i = t
              · rw [hi, Function.update_self]
              · rw [Function.update_of_ne hi]
            · intro i hi he
              have hit : i ≠ t := by
                rintro rfl
                exact Finset.ne_empty_of_mem hc.1.2 he
              unfold Memory.modify
              dsimp only
              rw [Function.update_of_ne hit]
              exact h.empty_pos i hi he
          · exact h
    · exact h

theorem Consistent.seqAdd (h : Consistent m) (seq p0 p1 shift : Int) : Consistent (m.seqAdd seq p0 p1 shift) := by
  unfold Memory.seqAdd
  split
  · exact h
  · exact h.moveTail seq p0 p1 _

theorem Consistent.seqDiv (h : Consistent m) (seq p0 p1 d : Int) : Consistent (m.seqDiv seq p0 p1 d) := by
  unfold Memory.seqDiv
  split
  · exact h
  · exact h.moveTail seq p0 p1 _

end Attach

end S2Moe.Recurrent
