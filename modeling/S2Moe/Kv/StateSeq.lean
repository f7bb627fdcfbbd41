import S2Moe.Kv.State

/-!
# `llama_kv_cache`: saving and restoring one sequence

A sequence is saved with the cells that it has and restored to a run of empty cells, behind the removal of the destination.

* `Store.held` : what a sequence holds; `Room` : a run of empty cells once the destination is removed;
* `Stored` : a cache where the saved positions were put into such a run; `readSequence_reads` : that is what the reader does;
* `Restorable` : when the destination ends up with what was saved, and `stateRead_sequence` : it does so just then.
-/

namespace S2Moe.Kv
open S2Moe.Lib
open S2Moe.Recurrent (lower upper posMax)

/-! ## Removing the destination -/

theorem rmBody_cell (d : Nat) (p0 p1 : Int) (i : Nat) (c : Cells) :
    (Cache.rmBody d (lower p0) (upper p1) i c).2.size = c.size ∧
      (Cache.rmBody d (lower p0) (upper p1) i c).2.cell = Function.update c.cell i ((c.cell i).removed d p0 p1) := by
  unfold Cache.rmBody Cell.removed
  rw [if_pos (Int.natCast_nonneg d), Int.toNat_natCast]
  by_cases h : (c.cell i).within p0 p1 ∧ d ∈ (c.cell i).seq
  · have hbody : c.posIn i (lower p0) (upper p1) = true ∧ c.seqHas i d = true := ⟨decide_eq_true h.1, decide_eq_true h.2⟩
    rw [if_pos hbody, if_pos h]
    unfold Cells.seqRm
    dsimp only
    split
    · exact ⟨rfl, rfl⟩
    · exact ⟨rfl, rfl⟩
  · have hbody : ¬ (c.posIn i (lower p0) (upper p1) = true ∧ c.seqHas i d = true) :=
      fun hc => h ⟨of_decide_eq_true hc.1, of_decide_eq_true hc.2⟩
    rw [if_neg hbody, if_neg h]
    exact ⟨rfl, (Function.update_eq_self _ _).symm⟩

section Cell
variable {x : Cell} {d e : Nat} {p0 p1 : Int}

theorem Cell.removed_shift (he : e ≠ d) (hmem : e ∈ x.seq) : (x.removed d p0 p1).shift = x.shift := by
  unfold Cell.removed
  split
  · split
    · rename_i hempty
      have hleft : e ∈ x.seq.erase d := Finset.mem_erase.mpr ⟨he, hmem⟩
      rw [hempty] at hleft
      exact absurd hleft (Finset.notMem_empty e)
    · rfl
  · rfl

theorem Cell.mem_removed_self : d ∈ (x.removed d p0 p1).seq ↔ d ∈ x.seq ∧ ¬ x.within p0 p1 := by
  unfold Cell.removed
  split
  · rename_i hin
    split
    · exact ⟨fun h => absurd h (Finset.notMem_empty d), fun h => absurd hin.1 h.2⟩
    · exact ⟨fun h => absurd h (Finset.notMem_erase d _), fun h => absurd hin.1 h.2⟩
  · rename_i hin
    exact ⟨fun h => ⟨h, fun hw => hin ⟨hw, h⟩⟩, And.left⟩

/-- A cell without anything stays so, and any other is cleared or keeps its position. -/
theorem Cell.removed_empty (h : x.pos = -1 → x = {}) (hpos : (x.removed d p0 p1).pos = -1) : x.removed d p0 p1 = {} := by
  unfold Cell.removed at hpos ⊢
  split at hpos
  · rename_i hin
    rw [if_pos hin]
    split at hpos
    · rename_i herase
      exact if_pos herase
    · have hseq := hin.2
      rw [h hpos] at hseq
      exact absurd hseq (Finset.notMem_empty d)
  · rename_i hin
    rw [if_neg hin]
    exact h hpos

end Cell

/-! ## Putting positions into empty cells -/

/-- The tokens of the restored sequence. -/
theorem writeRows_empty (d : Nat) : ∀ (ps : List Int) (c : Cache Unit) (rm : Nat → Int) (h : Nat),
    (∀ k < ps.length, c.cells.cell (h + k) = {}) →
    (c.writeRows rm (List.range' h ps.length) (restoredPart d ps).rows).2 = rm ∧
      (c.writeRows rm (List.range' h ps.length) (restoredPart d ps).rows).1.cells.size = c.cells.size ∧
      ∀ j, (c.writeRows rm (List.range' h ps.length) (restoredPart d ps).rows).1.cells.cell j =
        if h ≤ j ∧ j < h + ps.length then { pos := ps.getD (j - h) 0, seq := {d} } else c.cells.cell j
  | [], c, rm, h, _ => by
    refine ⟨rfl, rfl, fun j => ?_⟩
    rw [if_neg (by rw [List.length_nil]; omega)]
    rfl
  | p :: ps, c, rm, h, hempty => by
    have hcell : c.cells.cell h = {} := hempty 0 (by simp)
    have hwrite : c.cells.write rm h p [d] = (c.cells.place h p [d], rm) :=
      if_pos (by unfold Cells.isEmpty; rw [hcell]; rfl)
    obtain ⟨h1, h2⟩ := place_cell (p := p) hcell (List.nodup_singleton d)
    have hstep : c.writeRows rm (List.range' h (p :: ps).length) (restoredPart d (p :: ps)).rows =
        ({ c with cells := c.cells.place h p [d], data := Function.update c.data h () } : Cache Unit).writeRows rm
          (List.range' (h + 1) ps.length) (restoredPart d ps).rows := by
      rw [List.length_cons, List.range'_succ]
      unfold restoredPart
      rw [List.map_cons, Cache.writeRows, hwrite]
    obtain ⟨g1, g2, g3⟩ := writeRows_empty d ps
      { c with cells := c.cells.place h p [d], data := Function.update c.data h () } rm (h + 1) (fun k hk => by
        dsimp only
        rw [h2, Function.update_of_ne (by omega), show h + 1 + k = h + (k + 1) by omega]
        exact hempty (k + 1) (by rw [List.length_cons]; omega))
    rw [hstep]
    refine ⟨g1, g2.trans h1, fun j => ?_⟩
    rw [g3 j]
    dsimp only
    rw [h2, List.length_cons]
    by_cases hj : j = h
    · rw [hj, Function.update_self, if_neg (by omega), if_pos (by omega), Nat.sub_self]
      rfl
    · rw [Function.update_of_ne hj]
      by_cases hin : h + 1 ≤ j ∧ j < h + 1 + ps.length
      · rw [if_pos hin, if_pos (by omega), show j - h = j - (h + 1) + 1 by omega, List.getD_cons_succ]
      · rw [if_neg hin, if_neg (by omega)]

/-- Nothing was overwritten, nothing is purged. -/
theorem purge_none (st : Streams Unit) : st.purge (fun _ => -1) = st := by
  unfold Streams.purge
  refine foldl_range_rule (P := fun _ (t : Streams Unit) => t = st) rfl maxSeq ?_
  rintro s _ t rfl
  exact if_pos rfl

/-! ## What the reader does to the cells -/

namespace Store

/-- The destination is removed from its stream. -/
def without (m : Store) (d : Nat) : Streams Unit :=
  m.st.set (m.st.streamOf d) ((m.st.strm (m.st.streamOf d)).seqRm d (-1) (-1))

/-- Two caches of one configuration without a window: in the one that is written to, cells without a position hold nothing,
and in the other one each stream has its own sequence only. -/
structure Peers (A B : Store) : Prop extends Alike A B where
  pos : 0 < A.st.nStream
  nStream_le : A.st.nStream ≤ maxSeq
  noSwa : B.st.swa.type = .none
  head_le : ∀ t < A.st.nStream, B.head t ≤ (B.cells t).size
  empty : ∀ t < A.st.nStream, ∀ i < (B.cells t).size, ((B.cells t).cell i).pos = -1 → (B.cells t).cell i = {}
  own : 1 < A.st.nStream → ∀ t < A.st.nStream, ∀ i < (A.cells t).size, ∀ id ∈ ((A.cells t).cell i).seq, id = t

/-- A run of empty cells that long once the destination is removed. -/
def Room (m : Store) (d n : Nat) : Prop :=
  ∃ st, m.st.seqRm d (-1) (-1) = some st ∧ ∃ h, h + n ≤ (st.strm (st.streamOf d)).cells.size ∧
    ∀ k < n, (st.strm (st.streamOf d)).cells.isEmpty (h + k) = true

/-- `M` is `B` with the positions `ps` of sequence `d` in the cells from `h` on, which were empty once `d` was removed. -/
structure Stored (B M : Store) (d h : Nat) (ps : List Int) : Prop where
  nStream_eq : M.st.nStream = B.st.nStream
  k_eq : M.k = B.k
  v_eq : M.v = B.v
  head_eq : M.head (B.st.streamOf d) = h
  room : h + ps.length ≤ (B.cells (B.st.streamOf d)).size
  other : ∀ t, t ≠ B.st.streamOf d → M.st.strm t = B.st.strm t
  size_eq : (M.cells (B.st.streamOf d)).size = (B.cells (B.st.streamOf d)).size
  was_empty : ∀ j, h ≤ j → j < h + ps.length → ((B.cells (B.st.streamOf d)).cell j).removed d (-1) (-1) = {}
  cell_eq : ∀ j < (B.cells (B.st.streamOf d)).size, (M.cells (B.st.streamOf d)).cell j =
    if h ≤ j ∧ j < h + ps.length then { pos := ps.getD (j - h) 0, seq := {d} }
    else ((B.cells (B.st.streamOf d)).cell j).removed d (-1) (-1)

end Store

section Sequence
variable {conf : Conf} {A B m : Store} {d s : Nat}

theorem seqRm_without (hd : d < m.st.seqCap) : m.st.seqRm d (-1) (-1) = some (m.without d) := by
  unfold Streams.seqRm Store.without
  rw [if_neg (by omega), if_pos ⟨Int.natCast_nonneg d, by exact_mod_cast hd⟩, Int.toNat_natCast]

@[simp] theorem without_streamOf (e : Nat) : (m.without d).streamOf e = m.st.streamOf e := rfl

theorem without_strm_of_ne {t : Nat} (ht : t ≠ m.st.streamOf d) : (m.without d).strm t = m.st.strm t :=
  Function.update_of_ne ht _ _

/-- The cells of the stream behind the removal. -/
theorem without_cells : ((m.without d).strm (m.st.streamOf d)).cells.size = (m.cells (m.st.streamOf d)).size ∧
    (∀ j < (m.cells (m.st.streamOf d)).size, ((m.without d).strm (m.st.streamOf d)).cells.cell j =
      ((m.cells (m.st.streamOf d)).cell j).removed d (-1) (-1)) ∧
    ((m.without d).strm (m.st.streamOf d)).head ≤ m.head (m.st.streamOf d) := by
  have hstrm : (m.without d).strm (m.st.streamOf d) = (m.st.strm (m.st.streamOf d)).seqRm d (-1) (-1) :=
    Function.update_self _ _ _
  rw [hstrm]
  obtain ⟨h1, h2⟩ := loop_cell (c := m.cells (m.st.streamOf d)) _ _ (rmBody_cell d (-1) (-1))
  exact ⟨h1, h2, freedHead_le _ _⟩

theorem seqCap_eq (h : B.st.nStream = A.st.nStream) : B.st.seqCap = A.st.seqCap := by
  unfold Streams.seqCap
  rw [h]

theorem streamOf_eq (h : B.st.nStream = A.st.nStream) (e : Nat) : B.st.streamOf e = A.st.streamOf e := by
  unfold Streams.streamOf
  rw [h]

theorem streamOf_lt_nStream (hpos : 0 < m.st.nStream) (hd : d < m.st.seqCap) : m.st.streamOf d < m.st.nStream := by
  unfold Streams.streamOf
  unfold Streams.seqCap at hd
  split
  · rename_i hmany
    rwa [if_pos hmany] at hd
  · exact hpos

theorem room_iff {n : Nat} (hd : d < m.st.seqCap) : m.Room d n ↔ ∃ h, h + n ≤ (m.cells (m.st.streamOf d)).size ∧
    ∀ k < n, (((m.cells (m.st.streamOf d)).cell (h + k)).removed d (-1) (-1)).pos = -1 := by
  obtain ⟨hsize, hcell, -⟩ := without_cells (m := m) (d := d)
  unfold Store.Room
  rw [seqRm_without hd]
  constructor
  · rintro ⟨st, hst, h, hroom, hempty⟩
    cases hst
    rw [without_streamOf, hsize] at hroom
    refine ⟨h, hroom, fun k hk => ?_⟩
    have hk := hempty k hk
    unfold Cells.isEmpty at hk
    rw [without_streamOf, hcell _ (by omega)] at hk
    exact of_decide_eq_true hk
  · rintro ⟨h, hroom, hempty⟩
    refine ⟨_, rfl, h, by rw [without_streamOf, hsize]; exact hroom, fun k hk => ?_⟩
    unfold Cells.isEmpty
    rw [without_streamOf, hcell _ (by omega)]
    exact decide_eq_true (hempty k hk)

/-- Without a window the empty cells are those that can be used. -/
theorem canUse_noSwa {w : Swa} (hw : w.type = .none) (c : Cells) : c.canUse w = c.isEmpty := by
  funext i
  have hmask : ∀ p0 p1, w.isMasked p0 p1 = false := fun p0 p1 => by
    unfold Swa.isMasked
    rw [hw]
  unfold Cells.canUse
  cases c.seqGet i with
  | none => simp
  | some s => simp [hmask]

/-- The search in the stream of `d` finds a run if there is one. -/
theorem findSlot_restored (h : A.Peers B) (hd : d < B.st.seqCap) {ps : List Int} (hne : ps ≠ []) :
    (¬ B.Room d ps.length ∧ (B.without d).findSlot true [restoredPart d ps] = none) ∨
      ∃ a, a + ps.length ≤ (B.cells (B.st.streamOf d)).size ∧
        (∀ k < ps.length, (((B.cells (B.st.streamOf d)).cell (a + k)).removed d (-1) (-1)).pos = -1) ∧
        (B.without d).findSlot true [restoredPart d ps] = some [(restoredPart d ps, List.range' a ps.length)] := by
  obtain ⟨hsize, hcell, hhead⟩ := without_cells (m := B) (d := d)
  have ht : B.st.streamOf d < A.st.nStream := by
    rw [← h.nStream_eq]
    exact streamOf_lt_nStream (h.nStream_eq ▸ h.pos) hd
  have hlen : (restoredPart d ps).rows.length = ps.length := List.length_map _
  have hpos : 0 < ps.length := List.length_pos_iff.mpr hne
  -- the slot in terms of the search
  have hslot : (B.without d).findSlot true [restoredPart d ps] =
      (((B.without d).strm (B.st.streamOf d)).findSlotIn B.st.swa ps.length true).map fun idxs =>
        [(restoredPart d ps, idxs)] := by
    rw [Streams.findSlot, hlen]
    have hstrm : ((B.without d).strm ((B.without d).streamOf (restoredPart d ps).seq)).findSlotIn (B.without d).swa
        ps.length true = ((B.without d).strm (B.st.streamOf d)).findSlotIn B.st.swa ps.length true := rfl
    rw [hstrm]
    cases ((B.without d).strm (B.st.streamOf d)).findSlotIn B.st.swa ps.length true with
    | none => rfl
    | some idxs => rfl
  have hfree : ∀ i < (B.cells (B.st.streamOf d)).size,
      (((B.without d).strm (B.st.streamOf d)).cells.canUse B.st.swa i = true ↔
        (((B.cells (B.st.streamOf d)).cell i).removed d (-1) (-1)).pos = -1) := by
    intro i hi
    rw [canUse_noSwa h.noSwa]
    unfold Cells.isEmpty
    rw [hcell i hi, decide_eq_true_iff]
  rw [hslot]
  unfold Cache.findSlotIn
  dsimp only
  rw [hsize]
  generalize hstart : (if ((B.without d).strm (B.st.streamOf d)).cells.getUsed + 2 * ps.length <
    ((B.without d).strm (B.st.streamOf d)).head then 0 else ((B.without d).strm (B.st.streamOf d)).head) = start
  have hstartle : start ≤ (B.cells (B.st.streamOf d)).size := by
    rw [← hstart]
    have hle := hhead.trans (h.head_le _ ht)
    split
    · exact Nat.zero_le _
    · exact hle
  by_cases hroom : B.Room d ps.length
  · obtain ⟨q, hq, hqempty⟩ := (room_iff hd).mp hroom
    right
    rw [if_neg (by omega), if_pos rfl]
    have hsome := seekRun_isSome (p := ((B.without d).strm (B.st.streamOf d)).cells.canUse B.st.swa) hpos hq
      (fun k hk => (hfree _ (by omega)).mpr (hqempty k hk)) hstartle
    obtain ⟨a, ha⟩ := Option.isSome_iff_exists.mp hsome
    obtain ⟨hroom, hall⟩ := seekRun_spec ha
    refine ⟨a, hroom, fun k hk => (hfree _ (by omega)).mp (hall k hk), ?_⟩
    rw [ha]
    rfl
  · refine .inl ⟨hroom, ?_⟩
    split
    · rfl
    · rw [if_pos rfl]
      cases hseek : seekRun (((B.without d).strm (B.st.streamOf d)).cells.canUse B.st.swa) (B.cells (B.st.streamOf d)).size
          ps.length (2 * (B.cells (B.st.streamOf d)).size + 2) start 0 with
      | none => rfl
      | some a =>
          obtain ⟨hq, hall⟩ := seekRun_spec hseek
          exact absurd ((room_iff hd).mpr ⟨a, hq, fun k hk => (hfree _ (by omega)).mp (hall k hk)⟩) hroom

theorem admits_restored (hd : d < B.st.seqCap) {ps : List Int} (hne : ps ≠ []) :
    (B.without d).admits [restoredPart d ps] = true := by
  obtain ⟨p, ps, rfl⟩ := List.exists_cons_of_ne_nil hne
  have hcap : (B.without d).seqCap = B.st.seqCap := rfl
  simp [Streams.admits, restoredPart, hcap, hd]

/-- What `apply_ubatch` leaves behind, with the head where the tokens begin. -/
theorem stored_applyUbatch (h : A.Peers B) (hd : d < B.st.seqCap) {ps : List Int} {a : Nat}
    (hroom : a + ps.length ≤ (B.cells (B.st.streamOf d)).size)
    (hempty : ∀ k < ps.length, (((B.cells (B.st.streamOf d)).cell (a + k)).removed d (-1) (-1)).pos = -1) :
    B.Stored ({ B with st := (B.without d).applyUbatch [(restoredPart d ps, List.range' a ps.length)] }.setHead
      (B.st.streamOf d) a) d a ps := by
  obtain ⟨hsize, hcell, -⟩ := without_cells (m := B) (d := d)
  have ht : B.st.streamOf d < A.st.nStream := by
    rw [← h.nStream_eq]
    exact streamOf_lt_nStream (h.nStream_eq ▸ h.pos) hd
  have hgone : ∀ j, a ≤ j → j < a + ps.length → ((B.cells (B.st.streamOf d)).cell j).removed d (-1) (-1) = {} := by
    intro j h1 h2
    have hpos := hempty (j - a) (by omega)
    rw [show a + (j - a) = j by omega] at hpos
    exact Cell.removed_empty (h.empty _ ht j (by omega)) hpos
  obtain ⟨g1, g2, g3⟩ := writeRows_empty d ps ((B.without d).strm (B.st.streamOf d)) (fun _ => -1) a fun k hk => by
    rw [hcell _ (by omega)]
    exact hgone _ (by omega) (by omega)
  have hwrite : (B.without d).writeParts (fun _ => -1) [(restoredPart d ps, List.range' a ps.length)] =
      ((B.without d).set (B.st.streamOf d) (((B.without d).strm (B.st.streamOf d)).writeRows (fun _ => -1)
        (List.range' a ps.length) (restoredPart d ps).rows).1, fun _ => -1) := by
    rw [Streams.writeParts, Streams.writeParts]
    exact Prod.ext rfl g1
  generalize (((B.without d).strm (B.st.streamOf d)).writeRows (fun _ => -1) (List.range' a ps.length)
    (restoredPart d ps).rows).1 = w at g2 g3 hwrite
  -- the stream of `d` is `w` with another head, all others are as they were
  have hstrm : ∀ t, ({ B with st := (B.without d).applyUbatch [(restoredPart d ps, List.range' a ps.length)] }.setHead
      (B.st.streamOf d) a).st.strm t = if t = B.st.streamOf d then { w with head := a } else B.st.strm t := by
    intro t
    unfold Streams.applyUbatch
    dsimp only
    rw [hwrite, purge_none]
    have hheads : ∀ u : Streams Unit, u.streamOf d = B.st.streamOf d → ∀ idxs,
        u.setHeads [(restoredPart d ps, idxs)] = u.set (B.st.streamOf d)
          { u.strm (B.st.streamOf d) with head := idxs.getLast?.elim 0 (· + 1) } := by
      intro u hu idxs
      rw [Streams.setHeads, Streams.setHeads]
      unfold restoredPart
      dsimp only
      rw [hu]
    rw [hheads ((B.without d).set (B.st.streamOf d) w) rfl]
    unfold Store.setHead Streams.set
    by_cases hts : t = B.st.streamOf d
    · subst hts
      simp
    · dsimp only
      rw [Function.update_of_ne hts, Function.update_of_ne hts, Function.update_of_ne hts, if_neg hts]
      exact without_strm_of_ne hts
  have hown := (hstrm (B.st.streamOf d)).trans (if_pos rfl)
  refine ⟨?_, rfl, rfl, ?_, hroom, fun t hts => (hstrm t).trans (if_neg hts), ?_, hgone, fun j hj => ?_⟩
  · unfold Streams.applyUbatch
    dsimp only
    rw [hwrite, purge_none]
    rfl
  · unfold Store.head
    rw [hown]
  · unfold Store.cells
    rw [hown]
    exact g2.trans hsize
  · unfold Store.cells
    rw [hown]
    dsimp only
    rw [g3 j, hcell j hj]
    rfl

/-- **The saved positions go to a run of empty cells if there is one.** -/
theorem readSequence_reads (h : A.Peers B) (hd : d < B.st.seqCap) {ps : List Int} (hne : ps ≠ []) {bs : List UInt8}
    (hbs : ∀ m, Reads (readPositions ps.length) bs m (some ps) m) (hroom : B.Room d ps.length) :
    ∃ M a, Reads (readSequence (B.st.streamOf d) ps.length d) bs B true M ∧ B.Stored M d a ps := by
  obtain ⟨hno, -⟩ | ⟨a, ha, hempty, hslot⟩ := findSlot_restored h hd hne
  · exact absurd hroom hno
  · refine ⟨_, a, ?_, stored_applyUbatch h hd ha hempty⟩
    unfold readSequence
    refine Reads.get.bind_nil ?_
    rw [seqRm_without hd]
    refine Reads.set.bind_nil ((hbs _).bind_last ?_)
    dsimp only
    rw [if_pos (admits_restored hd hne), hslot]
    have hhead : (List.flatMap Prod.snd [(restoredPart d ps, List.range' a ps.length)]).headI = a := by
      obtain ⟨p, ps, rfl⟩ := List.exists_cons_of_ne_nil hne
      rw [List.flatMap_cons, List.length_cons, List.range'_succ]
      rfl
    dsimp only
    rw [hhead]
    exact Reads.set.bind_nil (Reads.pure true)

/-- Without one it gives up. -/
theorem readSequence_fails (h : A.Peers B) (hd : d < B.st.seqCap) {ps : List Int} (hne : ps ≠ []) {bs : List UInt8}
    (hbs : ∀ m, Reads (readPositions ps.length) bs m (some ps) m) (hroom : ¬ B.Room d ps.length) :
    Reads (readSequence (B.st.streamOf d) ps.length d) bs B false { B with st := B.without d } := by
  obtain ⟨-, hslot⟩ | ⟨a, ha, hempty, -⟩ := findSlot_restored h hd hne
  · unfold readSequence
    refine Reads.get.bind_nil ?_
    rw [seqRm_without hd]
    refine Reads.set.bind_nil ((hbs _).bind_last ?_)
    dsimp only
    rw [if_pos (admits_restored hd hne), hslot]
    exact Reads.pure false
  · exact absurd ((room_iff hd).mpr ⟨a, ha, hempty⟩) hroom

/-! ## The positions -/

/-- A cell of sequence `s` is saved with that id, if the context may have it. -/
theorem savedIds_of_mem {c : Cells} {i : Nat} (hs : s ∈ (c.cell i).seq) :
    c.savedIds conf s i = if s < conf.nSeqMax then [s] else [] := by
  have hfilter : c.savedIds conf s i = (List.range conf.nSeqMax).filter (· == s) := by
    unfold Cells.savedIds
    refine List.filter_congr fun cur _ => ?_
    by_cases hcur : cur = s
    · subst hcur
      simp [Cells.seqHas, hs]
    · have hne : ¬ (cur : Int) = s := by omega
      simp [hcur, hne]
  rw [hfilter]
  split
  · rename_i hlt
    rw [List.filter_beq, List.count_eq_one_of_mem List.nodup_range (List.mem_range.mpr hlt)]
    rfl
  · rename_i hge
    rw [List.filter_eq_nil_iff]
    intro cur hcur
    rw [List.mem_range] at hcur
    simp only [beq_iff_eq]
    omega

theorem mem_saves {c : Cells} {i : Nat} : i ∈ c.saves s ↔ i < c.size ∧ (c.cell i).pos ≠ -1 ∧ s ∈ (c.cell i).seq := by
  unfold Cells.saves
  rw [List.mem_filter, List.mem_range]
  simp only [Cells.saved, Cells.isEmpty, Cells.seqHas, Int.toNat_natCast, Bool.and_eq_true, Bool.or_eq_true,
    Bool.not_eq_true', decide_eq_false_iff_not, decide_eq_true_eq]
  refine and_congr_right fun _ => and_congr_right fun _ => ?_
  exact ⟨fun h => h.resolve_left (by omega), .inr⟩

theorem readPositions_reads {c : Cells} (hmax : s < conf.nSeqMax) : ∀ {is : List Nat} (m : Store),
    (∀ i ∈ is, FitsInt 4 (c.cell i).pos ∧ s ∈ (c.cell i).seq) →
    Reads (readPositions is.length) (is.flatMap (writeCell conf c s)) m (some (is.map fun i => (c.cell i).pos)) m
  | [], _, _ => Reads.pure _
  | i :: is, m, h => by
    obtain ⟨hfits, hmem⟩ := h i List.mem_cons_self
    have hid : FitsInt 4 (s : Int) := by
      have hle : conf.nSeqMax ≤ 256 := conf.nSeqMax_le
      unfold FitsInt
      omega
    rw [List.length_cons, readPositions, List.flatMap_cons]
    unfold writeCell
    rw [savedIds_of_mem hmem, if_pos hmax, List.append_assoc, List.append_assoc]
    refine (Reads.int hfits).bind ((Reads.nat (by rw [List.length_singleton]; decide)).bind ?_)
    rw [if_neg (by simp), List.flatMap_cons, List.flatMap_nil, List.append_nil]
    refine (Reads.int hid).bind ?_
    exact (readPositions_reads hmax m fun j hj => h j (List.mem_cons_of_mem _ hj)).bind_last (Reads.pure _)

/-- A sequence beyond those of the context was saved without its id. -/
theorem readPositions_fails {c : Cells} (hmax : ¬ s < conf.nSeqMax) {i n : Nat} (m : Store) (hfits : FitsInt 4 (c.cell i).pos)
    (hmem : s ∈ (c.cell i).seq) : Reads (readPositions (n + 1)) (writeCell conf c s i) m none m := by
  rw [readPositions]
  unfold writeCell
  rw [savedIds_of_mem hmem, if_neg hmax, List.flatMap_nil, List.append_nil]
  refine (Reads.int hfits).bind ((Reads.nat (by decide)).bind_last ?_)
  rw [if_pos (by simp)]
  exact Reads.pure none

/-! ## The streams -/

/-- The cells of `s` are in its stream only. -/
theorem saves_of_ne (h : A.Peers B) {t : Nat} (ht : t < A.st.nStream) (hne : t ≠ A.st.streamOf s) :
    (A.cells t).saves s = [] := by
  rw [List.eq_nil_iff_forall_not_mem]
  intro i hi
  obtain ⟨hlt, -, hmem⟩ := mem_saves.mp hi
  unfold Streams.streamOf at hne
  split at hne
  · rename_i hmany
    exact hne (h.own hmany t ht i hlt s hmem).symm
  · rename_i hone
    have hpos := h.pos
    omega

/-- What was written for the streams before and behind that of `s`. -/
theorem range_split {n t : Nat} (ht : t < n) : List.range n = List.range t ++ t :: List.range' (t + 1) (n - (t + 1)) := by
  rw [← List.range'_succ, List.range_eq_range', List.range_eq_range', show n - (t + 1) + 1 = n - t by omega]
  have happ := List.range'_append_1 (s := 0) (m := t) (n := n - t)
  rw [Nat.zero_add, show t + (n - t) = n by omega] at happ
  exact happ.symm

theorem readStreams_before (h : A.Peers B) (dest : Int) {t : Nat} (ht : t ≤ A.st.streamOf s)
    (hn : t ≤ A.st.nStream) :
    Reads (Read.each (readStream conf dest) (List.range t)) ((List.range t).flatMap (writeStream conf A s)) m true m := by
  obtain ⟨m', hreads, rfl⟩ := Reads.each (f := readStream conf dest) (w := writeStream conf A s) (s := m)
    (P := fun _ m' => m' = m) t rfl
    (by
      rintro k hk m' rfl
      exact ⟨m', readStream_empty (saves_of_ne h (by omega) (by omega)), rfl⟩)
  exact hreads

theorem readStreams_behind (h : A.Peers B) (dest : Int) {t : Nat} (ht : t = A.st.streamOf s)
    (hn : t < A.st.nStream) :
    Reads (Read.each (readStream conf dest) (List.range' (t + 1) (A.st.nStream - (t + 1))))
      ((List.range' (t + 1) (A.st.nStream - (t + 1))).flatMap (writeStream conf A s)) m true m := by
  obtain ⟨m', hreads, -, rfl⟩ := Reads.each_range' (f := readStream conf dest) (w := writeStream conf A s) (s := m)
    (P := fun k m' => t < k ∧ m' = m) (A.st.nStream - (t + 1)) (a := t + 1) ⟨Nat.lt_succ_self t, rfl⟩
    (by
      rintro k hk m' ⟨htk, rfl⟩
      exact ⟨m', readStream_empty (saves_of_ne h (by omega) (by omega)), by omega, rfl⟩)
  exact hreads

/-- The saved positions. -/
def Store.savedPos (A : Store) (s : Nat) : List Int :=
  ((A.cells (A.st.streamOf s)).saves s).map fun i => ((A.cells (A.st.streamOf s)).cell i).pos

theorem savedPos_fits (h : A.Peers B) (hs : s < A.st.seqCap) : ∀ i ∈ (A.cells (A.st.streamOf s)).saves s,
    FitsInt 4 ((A.cells (A.st.streamOf s)).cell i).pos ∧ s ∈ ((A.cells (A.st.streamOf s)).cell i).seq := by
  intro i hi
  have hlt := streamOf_lt_nStream h.pos hs
  exact ⟨h.saves_fits hlt i hi, (mem_saves.mp hi).2.2⟩

theorem savedPos_ne : ∀ p ∈ A.savedPos s, p ≠ -1 := by
  intro p hp
  obtain ⟨i, hi, rfl⟩ := List.mem_map.mp hp
  exact (mem_saves.mp hi).2.1

/-- The stream of the sequence, with room for it. -/
theorem readStream_sequence (h : A.Peers B) (hs : s < A.st.seqCap) (hd : d < B.st.seqCap)
    (hne : (A.cells (A.st.streamOf s)).saves s ≠ []) (hmax : s < conf.nSeqMax) (hroom : B.Room d (A.savedPos s).length) :
    ∃ M a, B.Stored M d a (A.savedPos s) ∧
      Reads (readStream conf d (A.st.streamOf s)) (writeStream conf A s (A.st.streamOf s)) B true
        (Store.restored conf A (A.st.streamOf s) (A.savedRanges s (A.st.streamOf s)) M (B.st.streamOf d)) := by
  have hlt := streamOf_lt_nStream h.pos hs
  have hlen : ((A.cells (A.st.streamOf s)).saves s).length = (A.savedPos s).length := (List.length_map _).symm
  have hps : A.savedPos s ≠ [] := fun hc => hne (List.map_eq_nil_iff.mp hc)
  have hcount : ((A.cells (A.st.streamOf s)).saves s).length < 256 ^ 4 :=
    lt_of_le_of_lt length_saves_le (h.size_lt _ hlt)
  have hbs : ∀ m, Reads (readPositions (A.savedPos s).length)
      (((A.cells (A.st.streamOf s)).saves s).flatMap (writeCell conf (A.cells (A.st.streamOf s)) s)) m
      (some (A.savedPos s)) m := by
    intro m
    rw [← hlen]
    exact readPositions_reads hmax m (savedPos_fits h hs)
  obtain ⟨M, a, hreads, hstored⟩ := readSequence_reads h hd hps hbs hroom
  refine ⟨M, a, hstored, ?_⟩
  unfold readStream writeStream
  dsimp only
  rw [if_neg (by rw [List.length_eq_zero_iff]; exact hne)]
  refine (Reads.nat hcount).bind ?_
  rw [if_neg (by rw [List.length_eq_zero_iff]; exact hne)]
  refine Reads.get.bind_nil ?_
  rw [if_neg (by omega), Int.toNat_natCast]
  refine Reads.bind (a := true) ?_ (stateReadData_reads ?_ ?_)
  · unfold stateReadMeta stateWriteMeta
    rw [if_neg (by omega), Int.toNat_natCast, ← List.flatMap_assoc, flatMap_ranges, hlen]
    exact hreads
  · exact congrArg List.length (flatMap_ranges _ _)
  · rw [hstored.size_eq, hlen]
    have := hstored.room
    omega

/-- The stream of the sequence where the reader gives up; it leaves the rest of the input. -/
theorem readStream_fails (h : A.Peers B) (hs : s < A.st.seqCap) (hd : d < B.st.seqCap)
    (hne : (A.cells (A.st.streamOf s)).saves s ≠ []) (hno : ¬ (s < conf.nSeqMax ∧ B.Room d (A.savedPos s).length)) :
    ∃ bs rest M, writeStream conf A s (A.st.streamOf s) = bs ++ rest ∧
      Reads (readStream conf d (A.st.streamOf s)) bs B false M := by
  have hlt := streamOf_lt_nStream h.pos hs
  have hlen : ((A.cells (A.st.streamOf s)).saves s).length = (A.savedPos s).length := (List.length_map _).symm
  have hps : A.savedPos s ≠ [] := fun hc => hne (List.map_eq_nil_iff.mp hc)
  have hcount : ((A.cells (A.st.streamOf s)).saves s).length < 256 ^ 4 :=
    lt_of_le_of_lt length_saves_le (h.size_lt _ hlt)
  -- what the reader takes of the cells before it gives up
  obtain ⟨bs, rest, M, hmeta, hreads⟩ : ∃ bs rest M,
      ((A.cells (A.st.streamOf s)).saves s).flatMap (writeCell conf (A.cells (A.st.streamOf s)) s) = bs ++ rest ∧
        Reads (readSequence (B.st.streamOf d) ((A.cells (A.st.streamOf s)).saves s).length d) bs B false M := by
    by_cases hmax : s < conf.nSeqMax
    · refine ⟨_, [], { B with st := B.without d }, (List.append_nil _).symm, ?_⟩
      rw [hlen]
      refine readSequence_fails h hd hps (fun m => ?_) fun hroom => hno ⟨hmax, hroom⟩
      rw [← hlen]
      exact readPositions_reads hmax m (savedPos_fits h hs)
    · obtain ⟨i, is, his⟩ := List.exists_cons_of_ne_nil hne
      obtain ⟨hfits, hmem⟩ := savedPos_fits h hs i (by rw [his]; exact List.mem_cons_self)
      refine ⟨_, _, { B with st := B.without d }, by rw [his, List.flatMap_cons], ?_⟩
      rw [his, List.length_cons]
      unfold readSequence
      refine Reads.get.bind_nil ?_
      rw [seqRm_without hd]
      refine Reads.set.bind_nil ((readPositions_fails hmax _ hfits hmem).bind_last ?_)
      exact Reads.pure false
  refine ⟨leBytes 4 ((A.cells (A.st.streamOf s)).saves s).length ++ bs, rest ++ stateWriteData conf A (A.st.streamOf s)
    (A.savedRanges s (A.st.streamOf s)), M, ?_, ?_⟩
  · unfold writeStream stateWriteMeta
    dsimp only
    rw [if_neg (by rw [List.length_eq_zero_iff]; exact hne), ← List.flatMap_assoc, flatMap_ranges]
    change _ ++ (((A.cells (A.st.streamOf s)).saves s).flatMap _ ++ _) = _
    rw [hmeta]
    simp only [List.append_assoc]
    rfl
  · unfold readStream
    refine (Reads.nat hcount).bind ?_
    rw [if_neg (by rw [List.length_eq_zero_iff]; exact hne)]
    refine Reads.get.bind_nil ?_
    rw [if_neg (by omega), Int.toNat_natCast]
    refine Reads.bind_last (a := false) ?_ (Reads.pure false)
    unfold stateReadMeta
    rw [if_neg (by omega), Int.toNat_natCast]
    exact hreads

/-- **The outcomes of the reader**: nothing to do, the sequence in a run of empty cells, or a failure. -/
theorem stateRead_outcome (conf : Conf) (h : A.Peers B) (hs : s < A.st.seqCap) (hd : d < B.st.seqCap) :
    ∃ bs, stateWrite conf A s = some bs ∧
      ((A.cells (A.st.streamOf s)).saves s = [] ∧ stateRead conf d ⟨bs, B⟩ = .ok () ⟨[], B⟩ ∨
      (A.cells (A.st.streamOf s)).saves s ≠ [] ∧ s < conf.nSeqMax ∧ B.Room d (A.savedPos s).length ∧
        (∃ M a, B.Stored M d a (A.savedPos s) ∧ stateRead conf d ⟨bs, B⟩ = .ok () ⟨[],
          Store.restored conf A (A.st.streamOf s) (A.savedRanges s (A.st.streamOf s)) M (B.st.streamOf d)⟩) ∨
      (A.cells (A.st.streamOf s)).saves s ≠ [] ∧ ¬ (s < conf.nSeqMax ∧ B.Room d (A.savedPos s).length) ∧
        ∃ r, stateRead conf d ⟨bs, B⟩ = .error .thrown r) := by
  have hlt := streamOf_lt_nStream h.pos hs
  have hcap : s < maxSeq := by
    have hle := h.nStream_le
    unfold Streams.seqCap at hs
    split at hs
    · omega
    · exact hs
  have hwrite : stateWrite conf A s = some (leBytes 4 A.st.nStream ++
      (List.range A.st.nStream).flatMap (writeStream conf A s)) :=
    if_neg fun hc => hc.2 (.inr ⟨Int.natCast_nonneg s, by exact_mod_cast hcap⟩)
  refine ⟨_, hwrite, ?_⟩
  -- the head of the file, and the loop over the streams
  have hstart : ∀ {bs : List UInt8} {b : Bool} {M : Store} (rest : List UInt8),
      Reads (Read.each (readStream conf d) (List.range A.st.nStream)) bs B b M →
      stateRead conf d ⟨leBytes 4 A.st.nStream ++ (bs ++ rest), B⟩ = (if b then pure () else giveUp d : Read Store Unit)
        ⟨rest, M⟩ := by
    intro bs b M rest hreads
    unfold stateRead
    have hget : Reads (Read.get : Read Store Store) [] B B B := Reads.get
    refine (hget.run_bind _).trans ?_
    rw [if_neg (not_not.mpr (.inr ⟨Int.natCast_nonneg d, by exact_mod_cast hd⟩))]
    refine (Reads.run_bind (Reads.nat h.nStream_lt) _).trans ?_
    rw [h.nStream_eq, if_neg (not_not.mpr rfl)]
    exact Reads.run_bind hreads _
  by_cases hne : (A.cells (A.st.streamOf s)).saves s = []
  · left
    refine ⟨hne, ?_⟩
    have hall : Reads (Read.each (readStream conf d) (List.range A.st.nStream))
        ((List.range A.st.nStream).flatMap (writeStream conf A s)) B true B := by
      rw [range_split hlt, List.flatMap_append, List.flatMap_cons]
      refine (readStreams_before h d le_rfl hlt.le).each_append ?_
      rw [Read.each]
      exact (readStream_empty hne).bind (readStreams_behind h d rfl hlt)
    have hrun := hstart [] hall
    rw [List.append_nil] at hrun
    exact hrun
  · right
    by_cases hok : s < conf.nSeqMax ∧ B.Room d (A.savedPos s).length
    · left
      obtain ⟨M, a, hstored, hreads⟩ := readStream_sequence h hs hd hne hok.1 hok.2
      refine ⟨hne, hok.1, hok.2, M, a, hstored, ?_⟩
      have hall : Reads (Read.each (readStream conf d) (List.range A.st.nStream))
          ((List.range A.st.nStream).flatMap (writeStream conf A s)) B true
          (Store.restored conf A (A.st.streamOf s) (A.savedRanges s (A.st.streamOf s)) M (B.st.streamOf d)) := by
        rw [range_split hlt, List.flatMap_append, List.flatMap_cons]
        refine (readStreams_before h d le_rfl hlt.le).each_append ?_
        rw [Read.each]
        exact hreads.bind (readStreams_behind h d rfl hlt)
      have hrun := hstart [] hall
      rw [List.append_nil] at hrun
      exact hrun
    · right
      refine ⟨hne, hok, ?_⟩
      obtain ⟨bs, rest, M, heq, hreads⟩ := readStream_fails h hs hd hne hok
      have hall : Reads (Read.each (readStream conf d) (List.range A.st.nStream))
          ((List.range (A.st.streamOf s)).flatMap (writeStream conf A s) ++ bs) B false M := by
        rw [range_split hlt]
        refine (readStreams_before h d le_rfl hlt.le).each_append ?_
        rw [Read.each]
        exact hreads.bind_last (Reads.pure false)
      have hrun := hstart (rest ++ (List.range' (A.st.streamOf s + 1) (A.st.nStream - (A.st.streamOf s + 1))).flatMap
        (writeStream conf A s)) hall
      rw [range_split hlt, List.flatMap_append, List.flatMap_cons, heq]
      simp only [List.append_assoc] at hrun ⊢
      exact ⟨_, hrun⟩

end Sequence

/-! ## What a sequence holds -/

/-- A position with its rows; the keys are still to be rotated by the shift. -/
structure Held where
  pos : Int
  shift : Int
  k : List (List UInt8)
  v : List (List UInt8)
deriving DecidableEq

namespace Store

def holds (conf : Conf) (m : Store) (t i : Nat) : Held where
  pos := ((m.cells t).cell i).pos
  shift := ((m.cells t).cell i).shift
  k := (List.range conf.nLayer).map (m.kRow conf t i)
  v := (List.range conf.nLayer).map (m.vRow conf t i)

/-- In the order of the cells. -/
def held (conf : Conf) (m : Store) (e : Nat) : List Held :=
  ((m.cells (m.st.streamOf e)).saves e).map (m.holds conf (m.st.streamOf e))

end Store

/-- The transposed V of a stream has no more than 2^32 bytes in a layer. -/
def Conf.smallV (conf : Conf) (size : Nat) : Prop :=
  conf.vTrans → ∀ il < conf.nLayer, size * (conf.layer il).nEmbdV * (conf.layer il).vEl ≤ 2 ^ 32

section Held
variable {conf : Conf} {A B M : Store} {d e s t a : Nat} {ps : List Int}

theorem Conf.smallV.lt {size : Nat} (h : conf.smallV size) (htrans : conf.vTrans) {il : Nat} (hil : il < conf.nLayer)
    {i j : Nat}
    (hi : i < size) (hj : j < (conf.layer il).nEmbdV) : (i + j * size) * (conf.layer il).vEl < 2 ^ 32 := by
  have hel : 0 < (conf.layer il).vEl := (conf.layer il).vType.size_pos
  have hmul := Nat.mul_le_mul_right size hj
  rw [Nat.succ_mul] at hmul
  calc (i + j * size) * (conf.layer il).vEl < ((conf.layer il).nEmbdV * size) * (conf.layer il).vEl :=
        Nat.mul_lt_mul_of_pos_right (by omega) hel
    _ = size * (conf.layer il).nEmbdV * (conf.layer il).vEl := by rw [Nat.mul_comm (conf.layer il).nEmbdV]
    _ ≤ 2 ^ 32 := h htrans il hil

theorem Conf.smallV.lt_cell {size : Nat} (h : conf.smallV size) (htrans : conf.vTrans) {il : Nat} (hil : il < conf.nLayer)
    {i j : Nat} (hi : i < size) (hj : j < (conf.layer il).nEmbdV) : i + j * size < 2 ^ 32 :=
  lt_of_le_of_lt (Nat.le_mul_of_pos_right _ (conf.layer il).vType.size_pos) (h.lt htrans hil hi hj)

theorem Conf.smallV.offsetsFit {seq : Int} (h : conf.smallV (A.cells t).size) :
    A.offsetsFit conf t (A.savedRanges seq t) := by
  intro htrans il hil r hr j hj
  obtain ⟨h1, h2⟩ := mem_ranges hr
  exact h.lt htrans hil (by omega) hj

theorem saves_congr {c c' : Cells} (hsize : c'.size = c.size) (h : ∀ j, j ∈ c'.saves e ↔ j ∈ c.saves e) :
    c'.saves e = c.saves e := by
  unfold Cells.saves at h ⊢
  rw [hsize] at h ⊢
  refine List.filter_congr fun j hj => ?_
  have hiff := h j
  rw [List.mem_filter, List.mem_filter, and_iff_right hj, and_iff_right hj] at hiff
  exact Bool.eq_iff_iff.mpr hiff

namespace Store.Stored

/-- The destination has the run, and what the removal left. -/
theorem mem_dest (h : B.Stored M d a ps) (hps : ∀ p ∈ ps, p ≠ -1) {j : Nat} :
    j ∈ (M.cells (B.st.streamOf d)).saves d ↔ (a ≤ j ∧ j < a + ps.length) ∨
      (j ∈ (B.cells (B.st.streamOf d)).saves d ∧ ¬ ((B.cells (B.st.streamOf d)).cell j).within (-1) (-1)) := by
  have hroom := h.room
  rw [mem_saves, mem_saves, h.size_eq]
  by_cases hin : a ≤ j ∧ j < a + ps.length
  · refine ⟨fun _ => .inl hin, fun _ => ⟨by omega, ?_⟩⟩
    rw [h.cell_eq j (by omega), if_pos hin]
    refine ⟨hps _ ?_, Finset.mem_singleton_self d⟩
    rw [List.getD_eq_getElem _ _ (by omega)]
    exact List.getElem_mem _
  · rw [or_iff_right hin, and_assoc]
    refine and_congr_right fun hj => ?_
    rw [h.cell_eq j hj, if_neg hin, Cell.mem_removed_self]
    constructor
    · rintro ⟨hpos, hmem, hout⟩
      rw [Cell.removed_of_not fun hc => hout hc.1] at hpos
      exact ⟨⟨hpos, hmem⟩, hout⟩
    · rintro ⟨⟨hpos, hmem⟩, hout⟩
      rw [Cell.removed_of_not fun hc => hout hc.1]
      exact ⟨hpos, hmem, hout⟩

theorem saves_dest (h : B.Stored M d a ps) (hps : ∀ p ∈ ps, p ≠ -1)
    (hclean : ∀ j ∈ (B.cells (B.st.streamOf d)).saves d, ((B.cells (B.st.streamOf d)).cell j).within (-1) (-1)) :
    (M.cells (B.st.streamOf d)).saves d = List.range' a ps.length := by
  have hroom := h.room
  unfold Cells.saves
  refine filter_range_between (by rw [h.size_eq]; exact hroom) fun j hj => ?_
  have hmem := h.mem_dest hps (j := j)
  unfold Cells.saves at hmem
  rw [List.mem_filter, and_iff_right (List.mem_range.mpr hj)] at hmem
  rw [Bool.eq_iff_iff, hmem, decide_eq_true_iff]
  exact or_iff_left fun hc => hc.2 (hclean j hc.1)

/-- The cells of the run were of no other sequence. -/
theorem notMem_run (h : B.Stored M d a ps) (he : e ≠ d) {j : Nat} (hin : a ≤ j ∧ j < a + ps.length) :
    e ∉ ((B.cells (B.st.streamOf d)).cell j).seq := by
  intro hmem
  rw [← Cell.mem_removed he, h.was_empty j hin.1 hin.2] at hmem
  exact absurd hmem (Finset.notMem_empty e)

/-- The other sequences keep their cells. -/
theorem saves_other (h : B.Stored M d a ps) (he : e ≠ d) :
    (M.cells (B.st.streamOf d)).saves e = (B.cells (B.st.streamOf d)).saves e := by
  refine saves_congr h.size_eq fun j => ?_
  rw [mem_saves, mem_saves, h.size_eq]
  refine and_congr_right fun hj => ?_
  rw [h.cell_eq j hj]
  by_cases hin : a ≤ j ∧ j < a + ps.length
  · rw [if_pos hin]
    exact ⟨fun hc => absurd (Finset.mem_singleton.mp hc.2) he, fun hc => absurd hc.2 (h.notMem_run he hin)⟩
  · rw [if_neg hin]
    constructor
    · rintro ⟨hpos, hmem⟩
      rw [Cell.mem_removed he] at hmem
      rw [Cell.removed_pos he hmem] at hpos
      exact ⟨hpos, hmem⟩
    · rintro ⟨hpos, hmem⟩
      rw [Cell.removed_pos he hmem, Cell.mem_removed he]
      exact ⟨hpos, hmem⟩

theorem streamOf_eq (h : B.Stored M d a ps) (e : Nat) : M.st.streamOf e = B.st.streamOf e := Kv.streamOf_eq h.nStream_eq e

theorem kRow_eq (h : B.Stored M d a ps) (t i il : Nat) : M.kRow conf t i il = B.kRow conf t i il := by
  unfold Store.kRow
  rw [h.k_eq]

theorem vRow_eq (h : B.Stored M d a ps) (t i il : Nat) : M.vRow conf t i il = B.vRow conf t i il := by
  have hsize : (M.cells t).size = (B.cells t).size := by
    by_cases ht : t = B.st.streamOf d
    · rw [ht, h.size_eq]
    · unfold Store.cells
      rw [h.other t ht]
  unfold Store.vRow
  rw [h.v_eq, hsize]

/-- The cells of the run are not too large for 32 bits. -/
theorem offsets (h : B.Stored M d a ps) (hne : ps ≠ []) (hsmall : conf.smallV (B.cells (B.st.streamOf d)).size) {il : Nat}
    (hil : il < conf.nLayer) (htrans : conf.vTrans) :
    ∀ j < (conf.layer il).nEmbdV, M.head (B.st.streamOf d) + j * (M.cells (B.st.streamOf d)).size < 2 ^ 32 := by
  intro j hj
  have hroom := h.room
  have hpos := List.length_pos_iff.mpr hne
  rw [h.head_eq, h.size_eq]
  exact hsmall.lt_cell htrans hil (by omega) hj

/-- The restored data, on top of that. -/
theorem held_other (h : B.Stored M d a ps) (hne : ps ≠ []) (he : e ≠ d) {cr : List (Nat × Nat)}
    (hcr : (cr.flatMap within).length = ps.length)
    (hsmall : conf.smallV (B.cells (B.st.streamOf d)).size) :
    (Store.restored conf A t cr M (B.st.streamOf d)).held conf e = B.held conf e := by
  have hroom := h.room
  have hstream : (Store.restored conf A t cr M (B.st.streamOf d)).st.streamOf e = B.st.streamOf e := h.streamOf_eq e
  unfold Store.held
  rw [hstream]
  by_cases hed : B.st.streamOf e = B.st.streamOf d
  · rw [hed]
    change ((M.cells (B.st.streamOf d)).saves e).map _ = _
    rw [h.saves_other he]
    refine List.map_congr_left fun j hj => ?_
    obtain ⟨hlt, -, hmem⟩ := mem_saves.mp hj
    have hout : ¬ (a ≤ j ∧ j < a + ps.length) := fun hin => h.notMem_run he hin hmem
    have hcell := h.cell_eq j hlt
    rw [if_neg hout] at hcell
    have hframe : j < M.head (B.st.streamOf d) ∨ M.head (B.st.streamOf d) + (cr.flatMap within).length ≤ j := by
      rw [h.head_eq, hcr]
      omega
    unfold Store.holds
    rw [Held.mk.injEq]
    refine ⟨?_, ?_, List.map_congr_left fun il hil => ?_, List.map_congr_left fun il hil => ?_⟩
    · change ((M.cells (B.st.streamOf d)).cell j).pos = _
      rw [hcell, Cell.removed_pos he hmem]
    · change ((M.cells (B.st.streamOf d)).cell j).shift = _
      rw [hcell, Cell.removed_shift he hmem]
    · rw [Store.restored_kRow_frame hframe (List.mem_range.mp hil), h.kRow_eq]
    · have hil := List.mem_range.mp hil
      rw [Store.restored_vRow_frame hframe hil (by rw [h.head_eq, hcr, h.size_eq]; exact hroom) (by rw [h.size_eq]; exact hlt)
        (h.offsets hne hsmall hil), h.vRow_eq]
  · have hcells : (Store.restored conf A t cr M (B.st.streamOf d)).cells (B.st.streamOf e) = B.cells (B.st.streamOf e) :=
      congrArg Cache.cells (h.other _ hed)
    rw [hcells]
    refine List.map_congr_left fun j _ => ?_
    unfold Store.holds
    rw [hcells, Held.mk.injEq]
    refine ⟨rfl, rfl, List.map_congr_left fun il _ => ?_, List.map_congr_left fun il _ => ?_⟩
    · rw [Store.restored_kRow_of_ne hed, h.kRow_eq]
    · rw [Store.restored_vRow_of_ne hed, h.vRow_eq]

/-- A cell that the removal left is one too many. -/
theorem length_lt (h : B.Stored M d a ps) (hps : ∀ p ∈ ps, p ≠ -1) {j : Nat} (hj : j ∈ (B.cells (B.st.streamOf d)).saves d)
    (hout : ¬ ((B.cells (B.st.streamOf d)).cell j).within (-1) (-1)) :
    ps.length < ((M.cells (B.st.streamOf d)).saves d).length := by
  have hrun : ¬ (a ≤ j ∧ j < a + ps.length) := by
    intro hin
    have hgone := h.was_empty j hin.1 hin.2
    rw [Cell.removed_of_not fun hc => hout hc.1] at hgone
    exact (mem_saves.mp hj).2.1 (by rw [hgone])
  have hnodup : (j :: List.range' a ps.length).Nodup := by
    rw [List.nodup_cons, List.mem_range'_1]
    exact ⟨hrun, List.nodup_range'⟩
  have hsub : j :: List.range' a ps.length ⊆ (M.cells (B.st.streamOf d)).saves d := by
    intro i hi
    rw [h.mem_dest hps]
    rcases List.mem_cons.mp hi with rfl | hi
    · exact .inr ⟨hj, hout⟩
    · exact .inl (List.mem_range'_1.mp hi)
  have hle := (hnodup.subperm hsub).length_le
  rw [List.length_cons, List.length_range'] at hle
  omega

theorem held_dest (h : B.Stored M d a (A.savedPos s)) (hne : A.savedPos s ≠ [])
    (hclean : ∀ j ∈ (B.cells (B.st.streamOf d)).saves d, ((B.cells (B.st.streamOf d)).cell j).within (-1) (-1))
    (hshift : ∀ i ∈ (A.cells (A.st.streamOf s)).saves s, ((A.cells (A.st.streamOf s)).cell i).shift = 0)
    (hsrc : conf.smallV (A.cells (A.st.streamOf s)).size) (hdst : conf.smallV (B.cells (B.st.streamOf d)).size) :
    (Store.restored conf A (A.st.streamOf s) (A.savedRanges s (A.st.streamOf s)) M (B.st.streamOf d)).held conf d =
      A.held conf s := by
  have hroom := h.room
  have hlen : (A.savedPos s).length = ((A.cells (A.st.streamOf s)).saves s).length := List.length_map _
  have hstream : (Store.restored conf A (A.st.streamOf s) (A.savedRanges s (A.st.streamOf s)) M
    (B.st.streamOf d)).st.streamOf d =
      B.st.streamOf d := h.streamOf_eq d
  unfold Store.held
  rw [hstream]
  change ((M.cells (B.st.streamOf d)).saves d).map _ = _
  rw [h.saves_dest savedPos_ne hclean]
  refine List.ext_getElem? fun k => ?_
  rw [List.getElem?_map, List.getElem?_map]
  rcases Nat.lt_or_ge k (A.savedPos s).length with hk | hk
  · have hk' : k < ((A.cells (A.st.streamOf s)).saves s).length := by omega
    rw [List.getElem?_range' hk, List.getElem?_eq_getElem hk', Nat.one_mul]
    refine congrArg some ?_
    have hidx : ((A.savedRanges s (A.st.streamOf s)).flatMap within)[k]? = some ((A.cells (A.st.streamOf s)).saves s)[k] := by
      rw [flatMap_savedRanges]
      exact List.getElem?_eq_getElem hk'
    have hcell := h.cell_eq (a + k) (by omega)
    rw [if_pos (by omega), Nat.add_sub_cancel_left, List.getD_eq_getElem _ _ hk] at hcell
    have hhead : M.head (B.st.streamOf d) + k = a + k := by rw [h.head_eq]
    unfold Store.holds
    rw [Held.mk.injEq]
    refine ⟨?_, ?_, List.map_congr_left fun il hil => ?_, List.map_congr_left fun il hil => ?_⟩
    · change ((M.cells (B.st.streamOf d)).cell (a + k)).pos = _
      rw [hcell]
      exact List.getElem_map _
    · change ((M.cells (B.st.streamOf d)).cell (a + k)).shift = _
      rw [hcell, hshift _ (List.getElem_mem hk')]
    · exact Store.restored_kRow hhead hidx (List.mem_range.mp hil)
    · have hil := List.mem_range.mp hil
      refine Store.restored_vRow hhead hidx hil ?_ hsrc.offsetsFit (h.offsets hne hdst hil)
      rw [h.head_eq, h.size_eq, flatMap_savedRanges, ← hlen]
      exact hroom
  · rw [List.getElem?_eq_none (by simpa using hk), List.getElem?_eq_none (by omega)]
    rfl

end Store.Stored

/-! ## The round trip -/

/-- If the reader returns, the destination holds what was saved and all other sequences what they held; and it returns if
there is room. -/
def Restores (conf : Conf) (A B : Store) (s d : Nat) : Prop :=
  ∃ bs, stateWrite conf A s = some bs ∧
    (∀ r, stateRead conf d ⟨bs, B⟩ = .ok () r → r.st.held conf d = A.held conf s ∧
      ∀ e < B.st.seqCap, e ≠ d → r.st.held conf e = B.held conf e) ∧
    (B.Room d (A.held conf s).length → ∃ r, stateRead conf d ⟨bs, B⟩ = .ok () r)

/-- An empty sequence goes to an empty one; any other, if there is room, has an id that the context may have and no pending
shift, and the removal can reach all of the destination. -/
structure Restorable (conf : Conf) (A B : Store) (s d : Nat) : Prop where
  empty : A.held conf s = [] → B.held conf d = []
  full : A.held conf s ≠ [] → B.Room d (A.held conf s).length → s < conf.nSeqMax ∧ (∀ x ∈ A.held conf s, x.shift = 0) ∧
    ∀ x ∈ B.held conf d, 0 ≤ x.pos ∧ x.pos < posMax

theorem length_held : (A.held conf s).length = (A.savedPos s).length := by
  unfold Store.held Store.savedPos
  rw [List.length_map, List.length_map]

theorem held_eq_nil_iff : A.held conf s = [] ↔ (A.cells (A.st.streamOf s)).saves s = [] := List.map_eq_nil_iff

theorem within_all {x : Cell} : x.within (-1) (-1) ↔ 0 ≤ x.pos ∧ x.pos < posMax := Iff.rfl

/-- What it takes if there is room. -/
theorem Restores.full (h : A.Peers B) (hs : s < A.st.seqCap) (hd : d < B.st.seqCap) (hr : Restores conf A B s d)
    (hne : A.held conf s ≠ []) (hroom : B.Room d (A.held conf s).length) :
    s < conf.nSeqMax ∧ (∀ x ∈ A.held conf s, x.shift = 0) ∧ ∀ x ∈ B.held conf d, 0 ≤ x.pos ∧ x.pos < posMax := by
  obtain ⟨bs, hwrite, hafter, hreturns⟩ := hr
  obtain ⟨bs', hwrite', hout⟩ := stateRead_outcome conf h hs hd
  obtain rfl : bs = bs' := Option.some.inj (hwrite.symm.trans hwrite')
  obtain ⟨r, hrun⟩ := hreturns hroom
  rcases hout with ⟨hnil, -⟩ | ⟨-, hmax, -, M, a, hstored, hok⟩ | ⟨-, -, r', herr⟩
  · exact absurd (held_eq_nil_iff.mpr hnil) hne
  · obtain ⟨hdest, -⟩ := hafter _ hok
    have hstream : (Store.restored conf A (A.st.streamOf s) (A.savedRanges s (A.st.streamOf s)) M
        (B.st.streamOf d)).st.streamOf d = B.st.streamOf d := hstored.streamOf_eq d
    unfold Store.held at hdest
    rw [hstream] at hdest
    change ((M.cells (B.st.streamOf d)).saves d).map _ = A.held conf s at hdest
    have hlen := congrArg List.length hdest
    rw [List.length_map, length_held] at hlen
    have hclean : ∀ j ∈ (B.cells (B.st.streamOf d)).saves d, ((B.cells (B.st.streamOf d)).cell j).within (-1) (-1) := by
      intro j hj
      by_contra hout
      have hlt := hstored.length_lt savedPos_ne hj hout
      omega
    refine ⟨hmax, fun x hx => ?_, fun x hx => ?_⟩
    · rw [← hdest, hstored.saves_dest savedPos_ne hclean] at hx
      obtain ⟨j, hj, rfl⟩ := List.mem_map.mp hx
      rw [List.mem_range'_1] at hj
      have hroom := hstored.room
      have hcell := hstored.cell_eq j (by omega)
      rw [if_pos hj] at hcell
      change ((M.cells (B.st.streamOf d)).cell j).shift = 0
      rw [hcell]
    · obtain ⟨j, hj, rfl⟩ := List.mem_map.mp hx
      exact within_all.mp (hclean j hj)
  · rw [hrun] at herr
    cases herr

theorem Restores.restorable (h : A.Peers B) (hs : s < A.st.seqCap) (hd : d < B.st.seqCap) (hr : Restores conf A B s d) :
    Restorable conf A B s d := by
  refine ⟨fun hnil => ?_, hr.full h hs hd⟩
  obtain ⟨bs, hwrite, hout⟩ := stateRead_outcome conf h hs hd
  obtain ⟨bs', hwrite', hafter, -⟩ := hr
  obtain rfl : bs = bs' := Option.some.inj (hwrite.symm.trans hwrite')
  rcases hout with ⟨-, hok⟩ | ⟨hne, -⟩ | ⟨hne, -⟩
  · exact (hafter _ hok).1.trans hnil
  · exact absurd (held_eq_nil_iff.mp hnil) hne
  · exact absurd (held_eq_nil_iff.mp hnil) hne

end Held

/-! ## One token, and no token -/

/-- Both ways between the empty cache and that with a token. -/
theorem oneToken_peers : (counting oneToken).Peers (counting twoCells) ∧ (counting twoCells).Peers (counting oneToken) := by
  obtain ⟨hn, hhead, hsize, hzero, hnext⟩ : (counting oneToken).st.nStream = 1 ∧ (counting oneToken).head 0 = 1 ∧
      ((counting oneToken).cells 0).size = 2 ∧ ((counting oneToken).cells 0).cell 0 = ⟨0, 0, {0}⟩ ∧
        ((counting oneToken).cells 0).cell 1 = {} := by decide +kernel
  have hswa : oneToken.swa.type = .none := by decide +kernel
  have hcells : ∀ i < 2, ((counting oneToken).cells 0).cell i = if i = 0 then ⟨0, 0, {0}⟩ else {} := by
    intro i hi
    interval_cases i
    · exact hzero
    · exact hnext
  have hn' : (counting twoCells).st.nStream = 1 := rfl
  constructor
  · refine ⟨⟨hn.symm, fun s hs => ?_, by rw [hn]; decide, fun s hs => ?_, fun s hs i hi => ?_⟩, by rw [hn]; decide,
      by rw [hn]; decide, rfl, fun t ht => Nat.zero_le _, fun t ht i hi _ => rfl, fun hmany => by omega⟩
    · obtain rfl : s = 0 := by omega
      exact hsize.symm
    · obtain rfl : s = 0 := by omega
      rw [hsize]
      decide
    · obtain rfl : s = 0 := by omega
      rw [hsize] at hi
      rw [hcells i hi]
      split
      · decide
      · decide
  · refine ⟨⟨hn, fun s hs => ?_, by rw [hn']; decide, fun s hs => ?_, fun s hs i hi => ?_⟩, by rw [hn']; decide,
      by rw [hn']; decide, hswa, fun t ht => ?_, fun t ht i hi hpos => ?_, fun hmany => by omega⟩
    · obtain rfl : s = 0 := by omega
      exact hsize
    · change 2 < 2 ^ 32
      decide
    · change FitsInt 4 (-1)
      decide
    · obtain rfl : t = 0 := by omega
      rw [hhead, hsize]
      decide
    · obtain rfl : t = 0 := by omega
      rw [hsize] at hi
      rw [hcells i hi] at hpos ⊢
      split at hpos
      · exact absurd hpos (by decide)
      · rename_i hi0
        exact if_neg hi0

end S2Moe.Kv
