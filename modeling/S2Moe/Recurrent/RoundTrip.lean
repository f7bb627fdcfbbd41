import S2Moe.Recurrent.Sources
import S2Moe.Recurrent.State

/-!
# `llama_memory_recurrent`: round trips

* `Links.readWhole_saved` : what the reader makes of all cells that hold a sequence;
* `Rec.held` : the position and the rows that a sequence has;
* `Restores`, `RestoresAll` : what was saved is what the reader leaves behind;
* `stateRead_held` : the whole memory always is, and a sequence is if and only if it has a state.
-/

namespace S2Moe.Recurrent
open S2Moe.Lib
open S2Moe.Kv (writeRanges writeRanges_eq)

/-! ## The saved cells -/

section Saved
variable {A m : Memory} {x i t : Nat}

theorem Memory.mem_saves_whole : i ∈ m.saves (-1) ↔ i < m.size ∧ m.seqs i ≠ ∅ := by
  have hsaved : m.saved (-1) i = true ↔ m.seqs i ≠ ∅ := by
    simp [Memory.saved, Memory.isEmpty, MemCell.hasSeqId]
  unfold Memory.saves
  rw [List.mem_filter, List.mem_range, hsaved]

theorem Links.saved_iff (h : Links m) (hx : x < m.size) (hi : i < m.size) : m.saved x i = true ↔ m.tail x = some i := by
  have hne : ¬ (x : Int) = -1 := by omega
  rw [h.tail_iff x hx i hi]
  simp [Memory.saved, Memory.seqs, hne]

/-- A sequence is saved in one cell, -/
theorem Links.saves_of_tail (h : Links m) (hx : x < m.size) (ht : m.tail x = some t) : m.saves x = [t] := by
  have htlt := h.tail_lt x hx t ht
  have hfilter : m.saves x = (List.range m.size).filter fun i => i == t := by
    unfold Memory.saves
    refine List.filter_congr fun i hi => ?_
    rw [Bool.eq_iff_iff, h.saved_iff hx (List.mem_range.mp hi), ht, beq_iff_eq, Option.some.injEq, eq_comm]
  rw [hfilter, List.filter_beq, List.count_eq_one_of_mem List.nodup_range (List.mem_range.mpr htlt)]
  rfl

/-- and in none without a state. -/
theorem Links.saves_of_none (h : Links m) (hx : x < m.size) (ht : m.tail x = none) : m.saves x = [] := by
  unfold Memory.saves
  refine List.filter_eq_nil_iff.mpr fun i hi hc => ?_
  rw [h.saved_iff hx (List.mem_range.mp hi), ht] at hc
  cases hc

/-- The ids of one cell. -/
theorem Memory.readIds_saved (i : Nat) : ∀ (l : List Nat) (m : Memory), l.Nodup →
    (∀ x ∈ l, x < m.size ∧ m.tail x = none) → ∃ m', Memory.readIds i (l.map fun x : Nat => (x : Int)) m = some m' ∧
      m'.size = m.size ∧ (∀ y, m'.tail y = if y ∈ l then some i else m.tail y) ∧
      ∀ j, (m'.cells j).pos = (m.cells j).pos
  | [], m, _, _ => ⟨m, rfl, rfl, fun y => by simp, fun _ => rfl⟩
  | x :: l, m, hnodup, hfree => by
    obtain ⟨hx, hnone⟩ := hfree x List.mem_cons_self
    rw [List.nodup_cons] at hnodup
    obtain ⟨m', hread, hsize, htail, hpos⟩ := Memory.readIds_saved i l (m.attach x i) hnodup.2 fun y hy => by
      obtain ⟨hlt, hy'⟩ := hfree y (List.mem_cons_of_mem _ hy)
      refine ⟨hlt, ?_⟩
      rw [Memory.tail_attach, if_neg fun hc : y = x => hnodup.1 (hc ▸ hy)]
      exact hy'
    have hin : m.inRange x ∧ m.tail (x : Int).toNat = none :=
      ⟨⟨Int.natCast_nonneg x, by exact_mod_cast hx⟩, (Int.toNat_natCast x).symm ▸ hnone⟩
    refine ⟨m', ?_, hsize, fun y => ?_, fun j => (hpos j).trans (Memory.pos_attach m x i j)⟩
    · rw [List.map_cons, Memory.readIds, if_pos hin]
      exact hread
    · rw [htail, Memory.tail_attach]
      by_cases hy : y ∈ l
      · rw [if_pos hy, if_pos (List.mem_cons_of_mem _ hy)]
      · rw [if_neg hy]
        by_cases hyx : y = x
        · rw [if_pos hyx, if_pos (List.mem_cons.mpr (.inl hyx))]
        · rw [if_neg hyx, if_neg (List.not_mem_cons_of_ne_of_not_mem hyx hy)]

/-- The cells `cs` of `A` become the cells from `i` on. -/
theorem Links.readCells_saved (hA : Links A) : ∀ (cs : List Nat) (i : Nat) (m : Memory), cs.Nodup → (∀ c ∈ cs, c < A.size) →
    m.size = A.size → (∀ c ∈ cs, ∀ x ∈ A.seqs c, m.tail x = none) →
    ∃ m', Memory.readCells i (cs.map (A.savedCell (-1))) m = some m' ∧ m'.size = m.size ∧
      (∀ k c, cs[k]? = some c → (m'.cells (i + k)).pos = (A.cells c).pos ∧ ∀ x ∈ A.seqs c, m'.tail x = some (i + k)) ∧
      (∀ j < i, (m'.cells j).pos = (m.cells j).pos) ∧ ∀ y, (∀ c ∈ cs, y ∉ A.seqs c) → m'.tail y = m.tail y
  | [], i, m, _, _, _, _ => ⟨m, rfl, rfl, fun k c hk => by simp at hk, fun _ _ => rfl, fun _ _ => rfl⟩
  | c :: cs, i, m, hnodup, hlt, hsize, hfree => by
    rw [List.nodup_cons] at hnodup
    have hc := hlt c List.mem_cons_self
    -- a sequence is in one cell of `A`
    have hone : ∀ d ∈ cs, ∀ x ∈ A.seqs d, x ∉ A.seqs c := by
      intro d hd x hxd hxc
      have hx := hA.seq_lt c hc x hxc
      have hdlt := hlt d (List.mem_cons_of_mem _ hd)
      have heq := ((hA.tail_iff x hx d hdlt).mpr hxd).symm.trans ((hA.tail_iff x hx c hc).mpr hxc)
      exact hnodup.1 (Option.some.inj heq ▸ hd)
    let m0 := m.modify i fun cell => { cell with pos := (A.cells c).pos }
    have htail0 : ∀ y, m0.tail y = m.tail y := fun y => by
      apply Memory.tail_modify
      exact fun _ => rfl
    have hpos0 : ∀ j, (m0.cells j).pos = if j = i then (A.cells c).pos else (m.cells j).pos := fun j => by
      change (Function.update m.cells i _ j).pos = _
      by_cases hj : j = i
      · rw [if_pos hj, hj, Function.update_self]
      · rw [if_neg hj, Function.update_of_ne hj]
    obtain ⟨m1, hids, hsize1, htail1, hpos1⟩ := Memory.readIds_saved i (A.seqs c).sort m0 (Finset.sort_nodup _ _)
      fun x hx => by
        rw [Finset.mem_sort] at hx
        refine ⟨?_, (htail0 x).trans (hfree c List.mem_cons_self x hx)⟩
        exact (hA.seq_lt c hc x hx).trans_eq hsize.symm
    have hsize1' : m1.size = m.size := hsize1
    obtain ⟨m', hcells, hsize', hat, hlow, hrest⟩ := Links.readCells_saved hA cs (i + 1) m1 hnodup.2
      (fun d hd => hlt d (List.mem_cons_of_mem _ hd)) (hsize1'.trans hsize) fun d hd x hx => by
        rw [htail1, if_neg fun hmem => hone d hd x hx ((Finset.mem_sort _).mp hmem), htail0]
        exact hfree d (List.mem_cons_of_mem _ hd) x hx
    refine ⟨m', ?_, hsize'.trans hsize1', fun k d hk => ?_, fun j hj => ?_, fun y hy => ?_⟩
    · rw [List.map_cons, Memory.readCells]
      exact Option.bind_eq_some_iff.mpr ⟨m1, hids, hcells⟩
    · cases k with
      | zero =>
          obtain rfl : c = d := by simpa using hk
          refine ⟨?_, fun x hx => ?_⟩
          · rw [Nat.add_zero, hlow i (Nat.lt_succ_self i), hpos1, hpos0, if_pos rfl]
          · rw [hrest x fun d hd hxd => hone d hd x hxd hx, htail1, if_pos ((Finset.mem_sort _).mpr hx)]
            rfl
      | succ k =>
          rw [show i + (k + 1) = i + 1 + k by omega]
          exact hat k d (by simpa using hk)
    · rw [hlow j (by omega), hpos1, hpos0, if_neg (by omega)]
    · rw [hrest y fun d hd => hy d (List.mem_cons_of_mem _ hd), htail1,
        if_neg fun hmem => hy c List.mem_cons_self ((Finset.mem_sort _).mp hmem)]
      exact htail0 y

/-- **The cells that hold a sequence become the first cells, in their order.** -/
theorem Links.readWhole_saved (hA : Links A) (hsize : m.size = A.size) :
    ∃ m', m.readWhole ((A.saves (-1)).map (A.savedCell (-1))) = some m' ∧ m'.size = m.size ∧ m'.head = 0 ∧
      (∀ k c, (A.saves (-1))[k]? = some c → (m'.cells k).pos = (A.cells c).pos ∧ ∀ x ∈ A.seqs c, m'.tail x = some k) ∧
      ∀ y < A.size, A.tail y = none → m'.tail y = none := by
  have hle : (A.saves (-1)).length ≤ m.size := by
    rw [hsize]
    exact (List.length_filter_le _ _).trans List.length_range.le
  obtain ⟨m1, hcells, hsize1, hat, -, hrest⟩ := hA.readCells_saved (A.saves (-1)) 0 m.clear
    (List.nodup_range.filter _) (fun c hc => (Memory.mem_saves_whole.mp hc).1) hsize fun c hc x hx => by
      have hxlt := hA.seq_lt c (Memory.mem_saves_whole.mp hc).1 x hx
      exact Memory.tail_clear (hxlt.trans_eq hsize.symm)
  let m' := { m1 with head := 0, used := (A.saves (-1)).length }.keepSources (A.saves (-1)).length
  have hsame := fun i => Memory.keepSources_same { m1 with head := 0, used := (A.saves (-1)).length } (A.saves (-1)).length i
  refine ⟨m', ?_, hsize1, rfl, fun k c hk => ?_, fun y hy hnone => ?_⟩
  · unfold Memory.readWhole
    rw [List.length_map, if_neg (by omega)]
    exact Option.bind_eq_some_iff.mpr ⟨m1, hcells, rfl⟩
  · obtain ⟨hpos, htail⟩ := hat k c hk
    rw [Nat.zero_add] at hpos htail
    exact ⟨(hsame k).2.2.trans hpos, fun x hx => (hsame x).1.trans (htail x hx)⟩
  · refine (hsame y).1.trans ((hrest y fun c hc hmem => ?_).trans (Memory.tail_clear (hy.trans_eq hsize.symm)))
    rw [(hA.tail_iff y hy c (Memory.mem_saves_whole.mp hc).1).mpr hmem] at hnone
    cases hnone

/-- Of numbers that the source keeps in 32 bits. -/
def Memory.Fits (m : Memory) : Prop := ∀ i < m.size, FitsInt 4 (m.cells i).pos ∧ ∀ x ∈ m.seqs i, FitsInt 4 (x : Int)

theorem Links.savedCell_fits (h : Links m) (hf : m.Fits) {seq : Int} (hi : i < m.size) : (m.savedCell seq i).Fits := by
  obtain ⟨hpos, hids⟩ := hf i hi
  have hsub : ∀ x ∈ m.savedIds seq i, x ∈ m.seqs i := by
    intro x hx
    unfold Memory.savedIds at hx
    split at hx
    · exact (Finset.mem_sort _).mp hx
    · cases hx
  refine ⟨hpos, ?_, fun y hy => ?_⟩
  · have hcard : (m.seqs i).card ≤ m.size := by
      rw [← Finset.card_range m.size]
      exact Finset.card_le_card fun x hx => Finset.mem_range.mpr (h.seq_lt i hi x hx)
    have hlen : (m.savedIds seq i).length ≤ m.size := by
      unfold Memory.savedIds
      split
      · rw [Finset.length_sort]
        exact hcard
      · exact Nat.zero_le _
    have hsize := m.size_lt
    change (List.map _ _).length < _
    rw [List.length_map]
    omega
  · obtain ⟨x, hx, rfl⟩ := List.mem_map.mp hy
    exact hids x (hsub x hx)

end Saved

/-! ## What a sequence has -/

/-- The row of cell `i` in each tensor. -/
def Rec.rows (conf : Conf) (m : Rec) (i : Nat) (p : Part) (il : Nat) : List UInt8 :=
  if il < conf.nLayer ∧ conf.has il then slice (m.data p il) (i * conf.row p) (conf.row p) else []

/-- The position and the rows of the sequence `x`; nothing where it has no state. -/
def Rec.held (conf : Conf) (m : Rec) (x : Nat) : Option (Int × (Part → Nat → List UInt8)) :=
  (m.mem.tail x).map fun t => ((m.mem.cells t).pos, m.rows conf t)

/-- What was saved of `s` in `A` is read into `d` of `B`. -/
def Restores (conf : Conf) (A B : Rec) (s d : Nat) : Prop :=
  ∃ B', Reads (stateRead conf d) (stateWrite conf A s) B () B' ∧ B'.held conf d = A.held conf s ∧
    ∀ y < B.mem.size, y ≠ d → B'.held conf y = B.held conf y

def RestoresAll (conf : Conf) (A B : Rec) : Prop :=
  ∃ B', Reads (stateRead conf (-1)) (stateWrite conf A (-1)) B () B' ∧ ∀ y < B.mem.size, B'.held conf y = A.held conf y

section Rows
variable {conf : Conf} {A B m : Rec} {cr : List (Nat × Nat)} {seq dest : Int}

theorem Rec.restored_data (p : Part) (il : Nat) : (m.restored conf A cr).data p il =
    if il < conf.nLayer ∧ conf.has il then
      putRows (m.data p il) (m.mem.head * conf.row p) (writeRanges (A.data p il) (conf.row p) cr)
    else m.data p il := by
  unfold Rec.restored Rec.filled
  dsimp only
  cases p with
  | r => simp
  | s => simp

theorem Rec.rows_restored {k c : Nat} (hk : (cr.flatMap within)[k]? = some c) :
    (m.restored conf A cr).rows conf (m.mem.head + k) = A.rows conf c := by
  funext p il
  unfold Rec.rows
  by_cases hil : il < conf.nLayer ∧ conf.has il
  · rw [if_pos hil, if_pos hil, Rec.restored_data, if_pos hil, writeRanges_eq, Nat.add_mul]
    exact slice_putRows_flatMap (fun _ _ => length_slice) hk
  · rw [if_neg hil, if_neg hil]

/-- The rows of the other cells are kept. -/
theorem Rec.rows_restored_of_ne {i : Nat} (hi : i < m.mem.head ∨ m.mem.head + (cr.flatMap within).length ≤ i) :
    (m.restored conf A cr).rows conf i = m.rows conf i := by
  funext p il
  unfold Rec.rows
  by_cases hil : il < conf.nLayer ∧ conf.has il
  · rw [if_pos hil, if_pos hil, Rec.restored_data, if_pos hil]
    apply slice_putRows_of_disjoint
    rw [S2Moe.Kv.length_writeRanges, ← Nat.succ_mul, ← Nat.add_mul]
    exact hi.imp (Nat.mul_le_mul_right _) (Nat.mul_le_mul_right _)
  · rw [if_neg hil, if_neg hil]

theorem stateWriteMeta_eq : stateWriteMeta A.mem (ranges (A.mem.saved seq) A.mem.size) seq =
    ((A.mem.saves seq).map (A.mem.savedCell seq)).flatMap writeCell := by
  unfold stateWriteMeta
  rw [← List.flatMap_assoc, flatMap_ranges, List.flatMap_map]
  rfl

theorem Memory.saves_length_le {m : Memory} : (m.saves seq).length ≤ m.size :=
  (List.length_filter_le _ _).trans List.length_range.le

/-- Where the cells are accepted, the rows are put behind the head. -/
theorem stateRead_reads (hsize : m.mem.size = A.mem.size)
    (hmeta : Reads (stateReadMeta (A.mem.saves seq).length dest)
      (((A.mem.saves seq).map (A.mem.savedCell seq)).flatMap writeCell) B true m) :
    Reads (stateRead conf dest) (stateWrite conf A seq) B ()
      (m.restored conf A (ranges (A.mem.saved seq) A.mem.size)) := by
  have hlen : (A.mem.saves seq).length ≤ A.mem.size := Memory.saves_length_le
  have hlt := A.mem.size_lt
  unfold stateRead stateWrite
  rw [stateWriteMeta_eq]
  refine (Reads.nat (by omega)).bind (hmeta.bind ?_)
  rw [if_pos rfl]
  refine (stateReadData_reads ?_ (by omega)).bind_last ?_
  · rw [flatMap_ranges]
    rfl
  · rw [if_pos rfl]
    exact Reads.pure ()

end Rows

section Held
variable {conf : Conf} {A B : Rec} {s d : Nat}

/-- A sequence with a state is read into any sequence. -/
theorem Sound.restores (hA : Sound A.mem) (hB : Sound B.mem) (hf : A.mem.Fits) (hsize : B.mem.size = A.mem.size)
    (hs : s < A.mem.size) (hd : d < B.mem.size) (hsome : A.mem.tail s ≠ none) : Restores conf A B s d := by
  obtain ⟨t, ht⟩ := Option.ne_none_iff_exists'.mp hsome
  have htlt := hA.tail_lt s hs t ht
  have hsaves := hA.saves_of_tail hs ht
  have hcr : (ranges (A.mem.saved s) A.mem.size).flatMap within = [t] := (flatMap_ranges _ _).trans hsaves
  have hcell : A.mem.savedCell s t = ⟨(A.mem.cells t).pos, []⟩ := by
    have hne : ¬ (s : Int) = -1 := by omega
    unfold Memory.savedCell Memory.savedIds
    rw [if_neg hne, List.map_nil]
  obtain ⟨m', hread, hseat⟩ := hB.readSequence_seated hd (A.mem.cells t).pos
  have hmeta : Reads (stateReadMeta (A.mem.saves s).length d) (((A.mem.saves s).map (A.mem.savedCell s)).flatMap writeCell) B
      true ⟨m', B.data⟩ := by
    have hne : (d : Int) ≠ -1 := by omega
    unfold stateReadMeta
    rw [if_pos hne, hsaves, List.map_singleton, hcell]
    refine readSequence_reads (fun c hc => ?_) hread
    rw [List.mem_singleton.mp hc]
    have hfits : (A.mem.savedCell s t).Fits := hA.savedCell_fits hf htlt
    rw [hcell] at hfits
    exact ⟨hfits, rfl⟩
  refine ⟨_, stateRead_reads (hseat.size_eq.trans hsize) hmeta, ?_, fun y hy hne => ?_⟩
  · have hrows : (Rec.restored conf ⟨m', B.data⟩ A (ranges (A.mem.saved s) A.mem.size)).rows conf m'.head = A.rows conf t :=
      Rec.rows_restored (m := ⟨m', B.data⟩) (k := 0) (by rw [hcr]; rfl)
    unfold Rec.held
    rw [ht]
    change (m'.tail d).map _ = _
    rw [hseat.tail_self, Option.map_some, Option.map_some]
    exact congrArg some (Prod.ext hseat.pos_self hrows)
  · obtain ⟨htail, hother⟩ := hseat.other y hy hne
    unfold Rec.held
    change (m'.tail y).map _ = _
    rw [htail]
    refine Option.map_congr fun u hu => ?_
    obtain ⟨hhead, hpos⟩ := hother u hu
    refine Prod.ext hpos (Rec.rows_restored_of_ne ?_)
    rw [hcr]
    change u < m'.head ∨ m'.head + 1 ≤ u
    omega

/-- Nothing is read where nothing was saved. -/
theorem Links.stateRead_fails (hA : Links A.mem) (hs : s < A.mem.size) (hnone : A.mem.tail s = none) :
    Fails (stateRead conf d) (stateWrite conf A s) B := by
  have hne : (d : Int) ≠ -1 := by omega
  unfold stateRead stateWrite
  rw [hA.saves_of_none hs hnone]
  have hmeta : Fails (stateReadMeta 0 d) [] B := by
    unfold stateReadMeta
    rw [if_pos hne]
    exact readSequence_fails B
  exact (Reads.nat (by decide)).bind_fails hmeta.bind.append

theorem Sound.restores_iff (hA : Sound A.mem) (hB : Sound B.mem) (hf : A.mem.Fits) (hsize : B.mem.size = A.mem.size)
    (hs : s < A.mem.size) (hd : d < B.mem.size) : Restores conf A B s d ↔ A.mem.tail s ≠ none := by
  refine ⟨?_, hA.restores hB hf hsize hs hd⟩
  rintro ⟨B', hreads, -⟩ hnone
  have hfails : Fails (stateRead conf d) (stateWrite conf A s) B := hA.stateRead_fails hs hnone
  obtain ⟨e, u, hfail⟩ := hfails []
  rw [hreads []] at hfail
  cases hfail

theorem Sound.restoresAll (hA : Sound A.mem) (hf : A.mem.Fits) (hsize : B.mem.size = A.mem.size) : RestoresAll conf A B := by
  obtain ⟨m', hread, hsize', hhead, hat, hnone⟩ := hA.readWhole_saved (m := B.mem) hsize
  have hmeta : Reads (stateReadMeta (A.mem.saves (-1)).length (-1))
      (((A.mem.saves (-1)).map (A.mem.savedCell (-1))).flatMap writeCell) B true ⟨m', fun _ _ _ => 0⟩ := by
    unfold stateReadMeta
    rw [if_neg (not_not.mpr rfl), ← List.length_map (f := A.mem.savedCell (-1))]
    refine readWhole_reads (fun c hc => ?_) hread
    obtain ⟨i, hi, rfl⟩ := List.mem_map.mp hc
    exact hA.savedCell_fits hf (Memory.mem_saves_whole.mp hi).1
  refine ⟨_, stateRead_reads (hsize'.trans hsize) hmeta, fun y hy => ?_⟩
  rw [hsize] at hy
  unfold Rec.held
  change (m'.tail y).map _ = _
  cases ht : A.mem.tail y with
  | none => rw [hnone y hy ht]; rfl
  | some t =>
      have htlt := hA.tail_lt y hy t ht
      have hmem := (hA.tail_iff y hy t htlt).mp ht
      obtain ⟨k, hk⟩ := List.mem_iff_getElem?.mp (Memory.mem_saves_whole.mpr ⟨htlt, Finset.ne_empty_of_mem hmem⟩)
      obtain ⟨hpos, htail⟩ := hat k t hk
      have hrows : (Rec.restored conf ⟨m', fun _ _ _ => 0⟩ A (ranges (A.mem.saved (-1)) A.mem.size)).rows conf (m'.head + k) =
          A.rows conf t := Rec.rows_restored (m := ⟨m', fun _ _ _ => 0⟩) (by rw [flatMap_ranges]; exact hk)
      rw [hhead, Nat.zero_add] at hrows
      rw [htail y hmem, Option.map_some, Option.map_some]
      exact congrArg some (Prod.ext hpos hrows)

end Held

/-- **A saved memory is restored, and so is a saved sequence if and only if it has a state.** -/
theorem stateRead_held (conf : Conf) {n k : Nat} {hn : 0 < n} {hn' : n < 2 ^ 32} {hk : 0 < k} {hk' : k < 2 ^ 32} (A B : Rec)
    (hA : Reaches step Op.safe (Memory.create n hn hn') A.mem) (hB : Reaches step Op.safe (Memory.create k hk hk') B.mem)
    (hf : A.mem.Fits) (hsize : B.mem.size = A.mem.size) :
    RestoresAll conf A B ∧
      ∀ s < A.mem.size, ∀ d < B.mem.size, Restores conf A B s d ↔ A.mem.tail s ≠ none :=
  ⟨(reachable_sound hA).restoresAll hf hsize, fun _ hs _ hd =>
    (reachable_sound hA).restores_iff (reachable_sound hB) hf hsize hs hd⟩

/-- One recurrent layer. -/
def oneRecurrent : Conf where
  nLayer := 1
  has _ := true
  type _ := Kv.floatType
  nEmbd _ := 2
  nLayer_lt := one_lt_size
  nEmbd_lt _ := two_lt_size

def zeroRows (m : Memory) : Rec := ⟨m, fun _ _ _ => 0⟩

theorem stateRead_held_holdingOne :
    RestoresAll oneRecurrent (zeroRows holdingOne) (zeroRows (Memory.create 1 (by decide) (by decide))) ∧
      ∀ s < 1, ∀ d < 1, Restores oneRecurrent (zeroRows holdingOne) (zeroRows (Memory.create 1 (by decide) (by decide))) s d ↔
        holdingOne.tail s ≠ none :=
  stateRead_held oneRecurrent (zeroRows holdingOne) (zeroRows (Memory.create 1 (by decide) (by decide)))
    (.step (.findSlot oneToken) .start ⟨disjoint_oneToken, trivial⟩ step_oneToken) .start (by unfold Memory.Fits; decide)
    (by decide)

/-- A sequence without a state is not read back. -/
theorem stateRead_empty :
    ¬ ∀ (conf : Conf) (A B : Rec), Reaches step Op.safe (Memory.create 1 (by decide) (by decide)) A.mem →
      Reaches step Op.safe (Memory.create 1 (by decide) (by decide)) B.mem → A.mem.Fits →
      ∀ s < 1, ∀ d < 1, Restores conf A B s d := by
  intro h
  obtain ⟨B', hreads, -⟩ := h oneRecurrent (zeroRows (Memory.create 1 (by decide) (by decide)))
    (zeroRows (Memory.create 1 (by decide) (by decide))) .start .start (by unfold Memory.Fits; decide) 0 (by decide) 0
    (by decide)
  have hfails : Fails (stateRead oneRecurrent (0 : Nat))
      (stateWrite oneRecurrent (zeroRows (Memory.create 1 (by decide) (by decide))) (0 : Nat))
      (zeroRows (Memory.create 1 (by decide) (by decide))) :=
    (Consistent.create 1 (by decide) (by decide)).stateRead_fails (s := 0) (d := 0) (by decide) rfl
  obtain ⟨e, u, hfail⟩ := hfails []
  rw [hreads []] at hfail
  cases hfail

end S2Moe.Recurrent
