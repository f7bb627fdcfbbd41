import S2Moe.Kv.Batch
import S2Moe.Kv.Branches

/-!
# A cache with one sequence

`Mirrors c vals` : the cache has nothing but sequence 0, with the values `vals` at the positions `0, 1, ...`. Clearing,
dropping the first positions, cutting the last ones and decoding more tokens do to `vals` what they say.
-/

namespace S2Moe.Kv
open S2Moe.Recurrent (lower upper posMax)

structure Mirrors {D : Type} (c : Cache D) (vals : List D) : Prop where
  ok : c.Ok
  holds : Holds c 0 vals
  only : ∀ j < c.cells.size, (c.cells.cell j).seq ⊆ {0}

section
variable {D : Type} {c c' : Cache D} {vals : List D}

/-- Operations that take nothing in. -/
theorem Each.getUsed_le {g : Cell → Cell} (hok : c.Ok) (he : Each c c' g) (hg : ∀ x : Cell, x.pos = -1 → (g x).pos = -1) :
    c'.cells.getUsed ≤ c.cells.getUsed := by
  apply Finset.card_le_card
  intro i hi
  obtain ⟨hlt, hp⟩ := (he.ok.rep.used_iff i).mp hi
  rw [he.size_eq] at hlt
  rw [he.cell_eq i hlt] at hp
  exact (hok.rep.used_iff i).mpr ⟨hlt, mt (hg _) hp⟩

theorem Mirrors.mem (h : Mirrors c vals) {j : Nat} (hj : j < c.cells.size) (hp : (c.cells.cell j).pos ≠ -1) :
    0 ∈ (c.cells.cell j).seq := by
  obtain ⟨s, hs⟩ := Finset.nonempty_iff_ne_empty.mpr (h.ok.rep.full j hj hp)
  have hzero := Finset.mem_singleton.mp (h.only j hj hs)
  exact hzero ▸ hs

/-- A cell for each value. -/
theorem Mirrors.getUsed (h : Mirrors c vals) : c.cells.getUsed = vals.length := by
  have hmem : ∀ i ∈ c.cells.used, i < c.cells.size ∧ 0 ∈ (c.cells.cell i).seq := by
    intro i hi
    obtain ⟨hlt, hp⟩ := (h.ok.rep.used_iff i).mp hi
    exact ⟨hlt, h.mem hlt hp⟩
  have hbij : c.cells.used.card = (Finset.range vals.length).card := by
    refine Finset.card_bij (fun i _ => (c.cells.cell i).pos.toNat) (fun i hi => ?_) (fun i hi j hj heq => ?_) (fun p hp => ?_)
    · obtain ⟨hlt, h0⟩ := hmem i hi
      have := h.holds.pos_lt hlt h0
      exact Finset.mem_range.mpr (by omega)
    · obtain ⟨hlti, hi0⟩ := hmem i hi
      obtain ⟨hltj, hj0⟩ := hmem j hj
      have h1 := h.holds.pos_lt hlti hi0
      have h2 := h.holds.pos_lt hltj hj0
      exact h.holds.unique i hlti j hltj hi0 hj0 (by omega)
    · obtain ⟨j, hj, hs, hpos⟩ := h.holds.complete p (Finset.mem_range.mp hp)
      refine ⟨j, (h.ok.rep.used_iff j).mpr ⟨hj, by omega⟩, ?_⟩
      rw [hpos, Int.toNat_natCast]
  rw [Finset.card_range] at hbij
  exact hbij

theorem Mirrors.small (h : Mirrors c vals) (hsize : (c.cells.size : Int) ≤ posMax) : c.Small := by
  intro j hj
  by_cases hp : (c.cells.cell j).pos = -1
  · rw [hp]
    decide
  · have hlt := h.holds.pos_lt hj (h.mem hj hp)
    have hle := h.holds.length_le
    omega

theorem Mirrors.init (size : Nat) (data : Nat → D) : Mirrors { cells := { size := size }, data := data } [] where
  ok := ⟨Rep.init size, Nat.zero_le _⟩
  holds := ⟨fun _ _ hs => absurd hs (Finset.notMem_empty 0), fun _ _ _ _ hs => absurd hs (Finset.notMem_empty 0),
    fun p hp => absurd hp (Nat.not_lt_zero p)⟩
  only _ _ := Finset.empty_subset _

theorem Mirrors.clear (h : c.Ok) : Mirrors c.clear [] := by
  have hclear := h.clear
  refine ⟨hclear.ok, ⟨fun j hj hs => ?_, fun i hi j _ hs => ?_, fun p hp => absurd hp (Nat.not_lt_zero p)⟩, fun j hj => ?_⟩
  · rw [hclear.cell_eq j hj] at hs
    exact absurd hs (Finset.notMem_empty 0)
  · rw [hclear.cell_eq i hi] at hs
    exact absurd hs (Finset.notMem_empty 0)
  · rw [hclear.cell_eq j hj]
    exact Finset.empty_subset _

/-- The last positions go. -/
theorem Mirrors.take (h : Mirrors c vals) (hlen : (vals.length : Int) ≤ posMax) (n : Nat) :
    Mirrors (c.seqRm 0 n (-1)) (vals.take n) := by
  have hrm : Each c (c.seqRm 0 n (-1)) (Cell.removed 0 n (-1)) := h.ok.seqRm 0 n (-1)
  -- a cell is cleared from position `n` on
  have hcell : ∀ j < c.cells.size, (c.cells.cell j).removed 0 n (-1) =
      if (c.cells.cell j).pos < n then c.cells.cell j else {} := by
    intro j hj
    by_cases hn : (c.cells.cell j).pos < n
    · rw [if_pos hn]
      apply Cell.removed_of_not
      rw [within_from]
      omega
    · have h0 := h.mem hj (by omega)
      have hlt := h.holds.pos_lt hj h0
      rw [if_neg hn]
      refine Cell.removed_of_mem ((within_from n).mpr (by omega)) ?_
      exact Finset.Subset.antisymm (h.only j hj) (Finset.singleton_subset_iff.mpr h0)
  refine ⟨hrm.ok, h.holds.each hrm n (fun j hj => ?_) (fun j hj _ hn => ?_), fun j hj => ?_⟩
  · rw [hcell j hj]
    by_cases hn : (c.cells.cell j).pos < n
    · rw [if_pos hn]
      exact ⟨fun hs => ⟨hs, hn⟩, And.left⟩
    · rw [if_neg hn]
      exact iff_of_false (Finset.notMem_empty 0) fun hc => hn hc.2
  · rw [hcell j hj, if_pos hn]
  · rw [hrm.size_eq] at hj
    rw [hrm.cell_eq j hj, hcell j hj]
    split
    · exact h.only j hj
    · exact Finset.empty_subset _

/-- The first positions go, and the other ones move to the front. -/
theorem Mirrors.drop (h : Mirrors c vals) (hlen : (vals.length : Int) ≤ posMax) {n : Nat} (hn : 0 < n)
    (hlt : n < vals.length) : Mirrors ((c.seqRm 0 0 n).seqAdd 0 n (-1) (-n)) (vals.drop n) := by
  have hrm : Each c (c.seqRm 0 0 n) (Cell.removed 0 0 n) := h.ok.seqRm 0 0 n
  have hrange : lower (n : Int) ≠ upper (-1) := by
    unfold lower upper
    rw [if_neg (by omega), if_pos (by omega)]
    omega
  have hshift : -(n : Int) ≠ 0 := by omega
  have hadd := hrm.trans (hrm.ok.seqAdd 0 hshift hrange)
  have hfront : ∀ x : Cell, x.within 0 n ↔ 0 ≤ x.pos ∧ x.pos < n := by
    intro x
    unfold Cell.within lower upper
    rw [if_neg (by omega), if_neg (by omega)]
  have hcell : ∀ j < c.cells.size, Cell.moved 0 n (-1) (-n) ((c.cells.cell j).removed 0 0 n) =
      if (c.cells.cell j).pos < n then {}
      else { c.cells.cell j with pos := (c.cells.cell j).pos - n, shift := (c.cells.cell j).shift - n } := by
    intro j hj
    by_cases hp : (c.cells.cell j).pos = -1
    · have hempty := h.ok.rep.cell_eq_empty hj (h.ok.rep.empty j hj hp).1
      rw [if_pos (by omega), Cell.removed_of_not fun hc => by have := (hfront _).mp hc.1; omega, hempty,
        Cell.moved_of_notMem (Finset.notMem_empty 0)]
    · have h0 := h.mem hj hp
      have hbound := h.holds.pos_lt hj h0
      by_cases hless : (c.cells.cell j).pos < n
      · have hseq : (c.cells.cell j).seq = {0} :=
          Finset.Subset.antisymm (h.only j hj) (Finset.singleton_subset_iff.mpr h0)
        rw [if_pos hless, Cell.removed_of_mem ((hfront _).mpr ⟨hbound.1, hless⟩) hseq,
          Cell.moved_of_notMem (Finset.notMem_empty 0)]
      · rw [if_neg hless, Cell.removed_of_not fun hc => hless ((hfront _).mp hc.1).2,
          Cell.moved_of_mem ((within_from n).mpr (by omega)) h0 (by omega)]
        rfl
  -- the cells that are left
  have hleft : ∀ j < c.cells.size, 0 ∈ (((c.seqRm 0 0 n).seqAdd 0 n (-1) (-n)).cells.cell j).seq →
      0 ∈ (c.cells.cell j).seq ∧ n ≤ (c.cells.cell j).pos ∧
        (((c.seqRm 0 0 n).seqAdd 0 n (-1) (-n)).cells.cell j).pos = (c.cells.cell j).pos - n := by
    intro j hj hs
    rw [hadd.cell_eq j hj, hcell j hj] at hs ⊢
    split at hs
    · exact absurd hs (Finset.notMem_empty 0)
    · rename_i hless
      rw [if_neg hless]
      exact ⟨hs, by omega, rfl⟩
  refine ⟨hadd.ok, ⟨fun j hj hs => ?_, fun i hi j hj hsi hsj heq => ?_, fun p hp => ?_⟩, fun j hj => ?_⟩
  · rw [hadd.size_eq] at hj
    obtain ⟨h0, hge, hpos⟩ := hleft j hj hs
    obtain ⟨p, hp, hv⟩ := h.holds.sound j hj h0
    refine ⟨p - n, by omega, ?_⟩
    rw [hadd.data_eq, List.getElem?_drop]
    have hsum : n + (p - n) = p := by omega
    rw [hsum]
    exact hv
  · rw [hadd.size_eq] at hi hj
    obtain ⟨hi0, -, hpi⟩ := hleft i hi hsi
    obtain ⟨hj0, -, hpj⟩ := hleft j hj hsj
    exact h.holds.unique i hi j hj hi0 hj0 (by omega)
  · rw [List.length_drop] at hp
    obtain ⟨j, hj, hs, hpos⟩ := h.holds.complete (p + n) (by omega)
    refine ⟨j, by rw [hadd.size_eq]; exact hj, ?_, ?_⟩
    · rw [hadd.cell_eq j hj, hcell j hj, if_neg (by omega)]
      exact hs
    · rw [hadd.cell_eq j hj, hcell j hj, if_neg (by omega)]
      dsimp only
      omega
  · rw [hadd.size_eq] at hj
    rw [hadd.cell_eq j hj, hcell j hj]
    split
    · exact Finset.empty_subset _
    · exact h.only j hj

/-- The tokens of a batch for sequence 0 from position `n` on. -/
def rowsFrom (n : Nat) (vals : List D) : List (Row D) := vals.mapIdx fun k v => ⟨(n + k : Nat), [0], v⟩

theorem rowsFrom_getElem? {n : Nat} {more : List D} {k : Nat} {r : Row D} :
    (rowsFrom n more)[k]? = some r ↔ ∃ v, more[k]? = some v ∧ r = ⟨(n + k : Nat), [0], v⟩ := by
  unfold rowsFrom
  rw [List.getElem?_mapIdx, Option.map_eq_some_iff]
  exact exists_congr fun v => and_congr_right fun _ => eq_comm

theorem rowsFrom_ok (n : Nat) (more : List D) : ∀ r ∈ rowsFrom n more, r.Ok := by
  intro r hr
  obtain ⟨k, hk⟩ := List.mem_iff_getElem?.mp hr
  obtain ⟨v, -, rfl⟩ := rowsFrom_getElem?.mp hk
  exact ⟨by dsimp only; omega, List.cons_ne_nil _ _, List.nodup_singleton 0⟩

/-- More tokens at the end. -/
theorem Mirrors.decode (h : Mirrors c vals) {more : List D} {nSeqMax nUbatch : Nat}
    (hrun : c.llamaDecode nSeqMax nUbatch (rowsFrom vals.length more) = some c') : Mirrors c' (vals ++ more) := by
  obtain ⟨idxs, hplaced⟩ := llamaDecode_placed h.ok (rowsFrom_ok vals.length more) hrun
  have hupdate := h.ok.memoryUpdate
  have hholds := (h.holds.memoryUpdate h.ok).placed more hupdate.ok.rep hplaced (fun k r hr _ => ?_)
    (fun k k' r r' hr hr' _ _ hpos => ?_) (fun d hd => ?_)
  · refine ⟨hplaced.ok, hholds, fun j hj s hs => ?_⟩
    rw [hplaced.size_eq, hupdate.size_eq] at hj
    rcases (hplaced.mem_seq hupdate.ok.rep).mp hs with hold | ⟨k, r, -, hr, hsr⟩
    · rw [hupdate.cell_eq j hj] at hold
      refine h.only j hj ?_
      split at hold
      · exact hold
      · exact hold
    · obtain ⟨v, -, rfl⟩ := rowsFrom_getElem?.mp hr
      exact Finset.mem_singleton.mpr (List.mem_singleton.mp hsr)
  · obtain ⟨v, hv, rfl⟩ := rowsFrom_getElem?.mp hr
    exact ⟨k, by push_cast; rfl, hv⟩
  · obtain ⟨v, -, rfl⟩ := rowsFrom_getElem?.mp hr
    obtain ⟨v', -, rfl⟩ := rowsFrom_getElem?.mp hr'
    dsimp only at hpos
    omega
  · refine ⟨d, _, rowsFrom_getElem?.mpr ⟨_, List.getElem?_eq_getElem hd, rfl⟩, List.mem_singleton_self 0, ?_⟩
    push_cast
    rfl

end

end S2Moe.Kv
