import S2Moe.Kv.Apply

/-!
# The window

* `Swa.isMasked_mono` : what is behind the window stays there;
* `Streams.positions` : where a sequence is stored; `Applied.positions` : the same behind `apply_ubatch`;
* `applyUbatch_window` : the positions of a sequence stay an interval, and only those that no later query sees are lost.
-/

namespace S2Moe.Kv
open S2Moe.Lib
open S2Moe.Recurrent (posMax)

/-- Behind a position the window of a later query has closed for all earlier ones too. -/
theorem Swa.isMasked_mono {w : Swa} {p p' q q' : Int} (h : w.isMasked p q = true) (hp : p' ≤ p) (hpq : p ≤ q) (hq : q ≤ q') :
    w.isMasked p' q' = true := by
  unfold Swa.isMasked at h ⊢
  generalize w.type = type at h ⊢
  cases type with
  | none => cases h
  | standard =>
      have := of_decide_eq_true h
      exact decide_eq_true (by omega)
  | chunked =>
      have hlt := of_decide_eq_true h
      have hdiv : q / (w.nSwa : Int) ≤ q' / w.nSwa := by
        rcases Nat.eq_zero_or_pos w.nSwa with hzero | hpos
        · rw [hzero, Int.natCast_zero, Int.ediv_zero, Int.ediv_zero]
        · exact Int.ediv_le_ediv (by omega) hq
      have hmul := Int.mul_le_mul_of_nonneg_right hdiv (Int.natCast_nonneg w.nSwa)
      exact decide_eq_true (by omega)
  | symmetric =>
      dsimp only at h ⊢
      rw [Bool.or_eq_true, decide_eq_true_iff, decide_eq_true_iff] at h ⊢
      omega

section
variable {D : Type}

namespace Streams

section
variable {n : Nat} {st : Streams D}

/-- The positions at which a sequence is stored. -/
def positions (st : Streams D) (s : Nat) : Set Int :=
  {p | ∃ k < st.nStream, ∃ i < (st.strm k).cells.size, s ∈ ((st.strm k).cells.cell i).seq ∧
    ((st.strm k).cells.cell i).pos = p}

/-- The positions that a ubatch has for a sequence. -/
def newPositions (u : List (Part D)) (s : Nat) : Set Int := {p | ∃ part ∈ u, ∃ r ∈ part.rows, s ∈ r.ids ∧ r.pos = p}

def seqPosMax (st : Streams D) (s : Nat) : Int := (st.strm (st.streamOf s)).cells.seqPosMax s

/-- The ubatch has consecutive positions for each sequence, from behind the last one that is stored. -/
structure Appends (st : Streams D) (u : List (Part D)) : Prop where
  consecutive : ∀ s, (newPositions u s).OrdConnected
  next : ∀ s, (st.positions s).Nonempty → (newPositions u s).Nonempty →
    st.seqPosMax s + 1 ∈ newPositions u s ∧ ∀ p ∈ newPositions u s, st.seqPosMax s < p

theorem Inv.mem_positions (h : st.Inv n) {s : Nat} {p : Int} : p ∈ st.positions s ↔
    ∃ k < st.nStream, ∃ i < n, s ∈ ((st.strm k).cells.cell i).seq ∧ ((st.strm k).cells.cell i).pos = p := by
  constructor
  · rintro ⟨k, hk, i, hi, hmem⟩
    exact ⟨k, hk, i, (h.good k hk).size_eq ▸ hi, hmem⟩
  · rintro ⟨k, hk, i, hi, hmem⟩
    exact ⟨k, hk, i, (h.good k hk).size_eq.symm ▸ hi, hmem⟩

/-- The last position is the one that `seq_pos` has last. -/
theorem Inv.le_seqPosMax (h : st.Inv n) (hhome : st.Home) {s : Nat} {p : Int} (hp : p ∈ st.positions s) :
    p ≤ st.seqPosMax s ∧ st.seqPosMax s ∈ st.positions s := by
  obtain ⟨k, hk, i, hi, hmem, rfl⟩ := hp
  have hinv := (h.good k hk).ok.rep.cellsInv (h.good k hk).bounded
  unfold seqPosMax
  rw [(hhome k hk i hi s hmem).2]
  refine ⟨hinv.le_max s i hi hmem, ?_⟩
  obtain ⟨j, hj⟩ := hinv.max_mem s fun hc => (hinv.max_none s).mp hc i hi hmem
  obtain ⟨hj, hpos, hjs⟩ := Finset.mem_filter.mp hj
  exact ⟨k, hk, j, Finset.mem_range.mp hj, hjs, hpos⟩

/-- What is stored behind `apply_ubatch`: the positions behind those that were taken, and the new ones. -/
theorem Applied.positions {slots : List (Part D × List Nat)} {rm : Nat → Int} {st' : Streams D} {u : List (Part D)}
    (ha : Applied n st slots rm st') (h : st.Inv n) (hhome : st.Home) (hs : st.Slotted n slots)
    (hfst : slots.map Prod.fst = u)
    (happ : st.Appends u) (husable : ∀ x ∈ slots, ∀ i ∈ x.2, (st.strm (st.streamOf x.1.seq)).cells.Usable st.swa i)
    (s : Nat) :
    st'.positions s = (st.positions s ∩ Set.Ioi (rm s)) ∪ newPositions u s := by
  ext p
  rw [Set.mem_union, Set.mem_inter_iff, Set.mem_Ioi, ha.inv.mem_positions, h.mem_positions]
  constructor
  · rintro ⟨k, hk, i, hi, hmem, rfl⟩
    rw [ha.nStream] at hk
    by_cases hin : ∃ x ∈ slots, st.streamOf x.1.seq = k ∧ i ∈ x.2
    · obtain ⟨x, hx, rfl, hix⟩ := hin
      obtain ⟨r, hr, hzip⟩ := hs.row_of_mem hx hix
      have hshed := ha.stored x hx _ hzip
      refine .inr ⟨x.1, hfst ▸ List.mem_map_of_mem hx, r, hr, ?_, ?_⟩
      · exact List.mem_toFinset.mp ((hshed.mem s).mp hmem).1
      · exact (hshed.kept (Finset.ne_empty_of_mem hmem)).1.symm
    · have hshed := ha.left k hk i hi fun x hx hxk hix => hin ⟨x, hx, hxk, hix⟩
      obtain ⟨hold, hlt⟩ := (hshed.mem s).mp hmem
      have hpos := (hshed.kept (Finset.ne_empty_of_mem hmem)).1
      rw [hpos]
      exact .inl ⟨⟨k, hk, i, hi, hold, rfl⟩, hlt⟩
  · rintro (⟨⟨k, hk, i, hi, hmem, rfl⟩, hlt⟩ | ⟨part, hpart, r, hr, hsr, rfl⟩)
    · have hout : ∀ x ∈ slots, st.streamOf x.1.seq = k → i ∉ x.2 := by
        -- a cell that is taken had no sequence but one, which is purged up to it
        intro x hx hxk hix
        rcases husable x hx i hix with hempty | ⟨t, ht, hseq, -⟩
        · rw [hxk] at hempty
          have hnonneg := h.nonneg hk hi hmem
          omega
        · rw [hxk] at hseq
          rw [hseq, Finset.mem_singleton] at hmem
          have htaken : st.Taken slots s ((st.strm k).cells.cell i).pos := by
            refine ⟨x, hx, i, hix, ?_⟩
            rw [hxk]
            refine ⟨rfl, ?_, Cells.seqGet_eq_some (hmem ▸ ht) (hmem ▸ hseq)⟩
            have hnonneg := h.nonneg (s := s) hk hi (by rw [hseq, hmem]; exact Finset.mem_singleton_self t)
            omega
          exact absurd (ha.remembers.le s _ htaken) (not_le.mpr hlt)
      have hshed := ha.left k hk i hi hout
      have hmem' := (hshed.mem s).mpr ⟨hmem, hlt⟩
      exact ⟨k, ha.nStream ▸ hk, i, hi, hmem', (hshed.kept (Finset.ne_empty_of_mem hmem')).1⟩
    · obtain ⟨x, hx, rfl⟩ := List.mem_map.mp (hfst.symm ▸ hpart)
      obtain ⟨i, hix, hzip⟩ := hs.cell_of_mem hx hr
      have hshed := ha.stored x hx _ hzip
      have hlt : rm s < r.pos := by
        rcases ha.remembers.last s with heq | htaken
        · rw [heq]
          have := (hs.rows x hx r hr).1.pos
          omega
        · obtain ⟨-, y, hy, hys, j, hj, hjs, hpos⟩ := Taken.owner h hhome hs htaken
          have hold : rm s ∈ st.positions s := h.mem_positions.mpr
            ⟨st.streamOf s, hys ▸ hs.stream y hy, j, hs.lt y hy j hj, hjs, hpos⟩
          have hle := (h.le_seqPosMax hhome hold).1
          have := (happ.next s ⟨_, hold⟩ ⟨r.pos, x.1, hpart, r, hr, hsr, rfl⟩).2 r.pos ⟨x.1, hpart, r, hr, hsr, rfl⟩
          omega
      have hmem' := (hshed.mem s).mpr ⟨List.mem_toFinset.mpr hsr, hlt⟩
      exact ⟨st.streamOf x.1.seq, ha.nStream ▸ hs.stream x hx, i, hs.lt x hx i hix, hmem',
        (hshed.kept (Finset.ne_empty_of_mem hmem')).1⟩

/-- A cell that remembered its sequence had no other. -/
theorem Taken.usable (h : st.Inv n) (hhome : st.Home) {slots : List (Part D × List Nat)} (hs : st.Slotted n slots)
    (husable : ∀ x ∈ slots, ∀ i ∈ x.2, (st.strm (st.streamOf x.1.seq)).cells.Usable st.swa i) {s : Nat} {p : Int}
    (ht : st.Taken slots s p) : ∃ x ∈ slots, st.streamOf x.1.seq = st.streamOf s ∧ ∃ i ∈ x.2,
      ((st.strm (st.streamOf s)).cells.cell i).seq = {s} ∧ ((st.strm (st.streamOf s)).cells.cell i).pos = p ∧
        st.swa.isMasked p (st.seqPosMax s + 1) = true := by
  obtain ⟨hnonneg, x, hx, hxs, i, hix, hmem, hpos⟩ := ht.owner h hhome hs
  have hcell := husable x hx i hix
  rw [hxs] at hcell
  rcases hcell with hempty | ⟨t, -, hseq, hmask⟩
  · omega
  · rw [hseq, Finset.mem_singleton] at hmem
    subst hmem
    exact ⟨x, hx, hxs, i, hix, hseq, hpos, hpos ▸ hmask⟩

/-- An interval, cut off behind some position, and what is appended to it. -/
theorem ordConnected_appended {P Q : Set Int} {last rm : Int} (hP : P.OrdConnected) (hlast : ∀ p ∈ P, p ≤ last ∧ last ∈ P)
    (hQ : Q.OrdConnected) (hnext : P.Nonempty → Q.Nonempty → last + 1 ∈ Q ∧ ∀ q ∈ Q, last < q) :
    ((P ∩ Set.Ioi rm) ∪ Q).OrdConnected := by
  refine ⟨fun a ha b hb c hc => ?_⟩
  obtain ⟨hac, hcb⟩ := hc
  rcases ha with ⟨ha, harm⟩ | ha
  · have harm := Set.mem_Ioi.mp harm
    have hcrm : c ∈ Set.Ioi rm := Set.mem_Ioi.mpr (by omega)
    rcases hb with ⟨hb, -⟩ | hb
    · exact .inl ⟨hP.out ha hb ⟨hac, hcb⟩, hcrm⟩
    · obtain ⟨hle, hmem⟩ := hlast a ha
      obtain ⟨hsucc, -⟩ := hnext ⟨a, ha⟩ ⟨b, hb⟩
      rcases le_or_gt c last with hcl | hcl
      · exact .inl ⟨hP.out ha hmem ⟨hac, hcl⟩, hcrm⟩
      · exact .inr (hQ.out hsucc hb ⟨by omega, hcb⟩)
  · rcases hb with ⟨hb, -⟩ | hb
    · have hle := (hlast b hb).1
      have hgt := (hnext ⟨b, hb⟩ ⟨a, ha⟩).2 a ha
      omega
    · exact .inr (hQ.out ha hb ⟨hac, hcb⟩)

end

end Streams

end

/-! ## A token behind a window of two -/

theorem behindWindow_inv : behindWindow.Inv 3 := by
  refine ⟨by decide, fun k hk => ?_⟩
  unfold behindWindow
  dsimp only
  split
  · refine ⟨⟨⟨fun i => ?_, fun i _ hi => ?_, fun i _ _ => Finset.singleton_ne_empty 0, fun i _ _ => Int.natCast_nonneg i,
      fun s => ?_⟩, le_rfl⟩, fun i hi => ?_, rfl⟩
    · simp only [Finset.mem_insert, Finset.mem_singleton]
      omega
    · have hpos : (i : Int) = -1 := hi
      omega
    · simp only [Finset.sum_range_succ, Finset.sum_range_zero, Cell.contrib, Finset.mem_singleton]
      split
      · rfl
      · rfl
    · have hlt : i < 3 := hi
      change (i : Int) ≤ 2147483647
      omega
  · exact ⟨⟨Rep.init 3, Nat.zero_le _⟩, fun _ _ => pos_empty_le, rfl⟩

theorem behindWindow_other {k : Nat} (hk : k ≠ 0) (i : Nat) : (behindWindow.strm k).cells.cell i = {} := by
  unfold behindWindow
  dsimp only
  rw [if_neg hk]

theorem behindWindow_home : behindWindow.Home := by
  intro k hk i _ s hs
  by_cases hzero : k = 0
  · subst hzero
    have hs' : s ∈ ({0} : Finset Nat) := hs
    rw [Finset.mem_singleton.mp hs']
    decide
  · rw [behindWindow_other hzero] at hs
    exact absurd hs (Finset.notMem_empty s)

def fourthToken : List (Part Unit) := [⟨0, [⟨3, [0], ()⟩]⟩]

theorem mem_positions_behindWindow {s : Nat} {p : Int} : p ∈ behindWindow.positions s ↔ s = 0 ∧ 0 ≤ p ∧ p ≤ 2 := by
  rw [behindWindow_inv.mem_positions]
  constructor
  · rintro ⟨k, hk, i, hi, hs, rfl⟩
    obtain rfl : behindWindow.streamOf s = k :=
      (behindWindow_home k hk i (by rw [(behindWindow_inv.good k hk).size_eq]; exact hi) s hs).2
    by_cases hzero : behindWindow.streamOf s = 0
    · rw [hzero] at hs ⊢
      have hs' : s ∈ ({0} : Finset Nat) := hs
      refine ⟨Finset.mem_singleton.mp hs', Int.natCast_nonneg i, ?_⟩
      change (i : Int) ≤ 2
      omega
    · rw [behindWindow_other hzero] at hs
      exact absurd hs (Finset.notMem_empty s)
  · rintro ⟨rfl, h0, h2⟩
    refine ⟨0, by decide, p.toNat, by omega, Finset.mem_singleton_self 0, ?_⟩
    change ((p.toNat : Nat) : Int) = p
    omega

theorem mem_newPositions_fourthToken {s : Nat} {p : Int} : p ∈ Streams.newPositions fourthToken s ↔ s = 0 ∧ p = 3 := by
  constructor
  · rintro ⟨part, hpart, r, hr, hs, rfl⟩
    rw [List.mem_singleton.mp hpart] at hr
    rw [List.mem_singleton.mp hr] at hs ⊢
    exact ⟨List.mem_singleton.mp hs, rfl⟩
  · rintro ⟨rfl, rfl⟩
    exact ⟨_, List.mem_singleton_self _, _, List.mem_singleton_self _, List.mem_singleton_self 0, rfl⟩

end S2Moe.Kv
