import S2Moe.Kv.Iswa

/-!
# The two caches agree

* `Iswa.Agree` : a cell of the cache with the window is under one of the base cache; what the base cache has at such a
position or behind it is in both; and a sequence of the base cache is in both;
* `Agree.isGreatest` : then the last position of a sequence is asked right;
* `Agree.step` : the operations on sequences; `Agree.emplace`, `Agree.decode` : batches;
* `IswaOp.ok` : the steps that are not to be taken otherwise; `reaches_agree` : the caches agree in every run of them.
-/

namespace S2Moe.Kv
open S2Moe.Lib
open S2Moe.Recurrent (lower upper posMax)

namespace Iswa

/-- Two caches in good order, of `nb` and `ns` cells in a stream; the base cache has no window. -/
structure Fine (nb ns : Nat) (st : Iswa) : Prop where
  base : st.base.Inv nb
  swa : st.swa.Inv ns
  baseHome : st.base.Home
  swaHome : st.swa.Home
  nStream : st.swa.nStream = st.base.nStream
  cap : st.base.nStream ≤ maxSeq
  noWindow : st.base.swa.type = .none

/-- **The caches agree.** -/
structure Agree (nb ns : Nat) (st : Iswa) : Prop where
  within : ∀ k < st.base.nStream, ∀ i < ns, ((st.swa.strm k).cells.cell i).seq ≠ ∅ →
    ∃ j < nb, ((st.swa.strm k).cells.cell i).Under ((st.base.strm k).cells.cell j)
  upper : ∀ s, ∀ p ∈ st.swa.positions s, ∀ q ∈ st.base.positions s, p ≤ q → q ∈ st.swa.positions s
  covers : ∀ s, (st.base.positions s).Nonempty → (st.swa.positions s).Nonempty

section Agree
variable {nb ns : Nat} {st st' : Iswa}

theorem Agree.subset (h : st.Agree nb ns) (hf : st.Fine nb ns) (s : Nat) : st.swa.positions s ⊆ st.base.positions s := by
  intro p hp
  obtain ⟨k, hk, i, hi, hmem, rfl⟩ := hf.swa.mem_positions.mp hp
  rw [hf.nStream] at hk
  obtain ⟨j, hj, hunder⟩ := h.within k hk i hi (Finset.ne_empty_of_mem hmem)
  obtain ⟨hmem', hpos⟩ := hunder.mem hmem
  exact hf.base.mem_positions.mpr ⟨k, hk, j, hj, hmem', hpos.symm⟩

/-- **The last position of a sequence is the last one of the base cache.** -/
theorem Agree.isGreatest (h : st.Agree nb ns) (hf : st.Fine nb ns) {s : Nat} (hs : (st.base.positions s).Nonempty) :
    IsGreatest (st.base.positions s) (st.seqPosMax s) ∧ st.seqPosMax s ∈ st.swa.positions s := by
  obtain ⟨p, hp⟩ := h.covers s hs
  have hmax := (hf.swa.le_seqPosMax hf.swaHome hp).2
  refine ⟨⟨h.subset hf s hmax, fun q hq => ?_⟩, hmax⟩
  rcases le_total q p with hqp | hpq
  · exact hqp.trans (hf.swa.le_seqPosMax hf.swaHome hp).1
  · exact (hf.swa.le_seqPosMax hf.swaHome (h.upper s p hp q hq hpq)).1

theorem Agree.seqPosMax_eq (h : st.Agree nb ns) (hf : st.Fine nb ns) {s : Nat} (hs : (st.base.positions s).Nonempty) :
    st.base.seqPosMax s = st.swa.seqPosMax s := by
  obtain ⟨⟨hmem, hle⟩, -⟩ := h.isGreatest hf hs
  obtain ⟨hge, hmem'⟩ := hf.base.le_seqPosMax hf.baseHome hmem
  exact le_antisymm (hle hmem') hge

/-! ## The operations on sequences -/

/-- Positions that go elsewhere in both caches alike, in the same order. -/
theorem Agree.of_track (h : st.Agree nb ns) {origin : Nat → Nat} {track : Nat → Int → Option Int}
    (hbase : ∀ s p, p ∈ st'.base.positions s ↔ ∃ q ∈ st.base.positions (origin s), track s q = some p)
    (hswa : ∀ s p, p ∈ st'.swa.positions s ↔ ∃ q ∈ st.swa.positions (origin s), track s q = some p)
    (hmono : ∀ s, ∀ q ∈ st.base.positions (origin s), ∀ q' ∈ st.base.positions (origin s), q ≤ q' → ∀ p p',
      track s q = some p → track s q' = some p' → p ≤ p')
    (hkeep : ∀ s, (∃ q ∈ st.base.positions (origin s), track s q ≠ none) →
      ∃ q ∈ st.swa.positions (origin s), track s q ≠ none)
    (hsub : ∀ s, st.swa.positions s ⊆ st.base.positions s)
    (hwithin : ∀ k < st'.base.nStream, ∀ i < ns, ((st'.swa.strm k).cells.cell i).seq ≠ ∅ →
      ∃ j < nb, ((st'.swa.strm k).cells.cell i).Under ((st'.base.strm k).cells.cell j)) : st'.Agree nb ns where
  within := hwithin
  upper s p hp q hq hpq := by
    obtain ⟨a, ha, htrack⟩ := (hswa s p).mp hp
    obtain ⟨b, hb, htrack'⟩ := (hbase s q).mp hq
    rcases le_total a b with hab | hba
    · exact (hswa s q).mpr ⟨b, h.upper _ a ha b hb hab, htrack'⟩
    · have hqp := hmono s b hb a (hsub _ ha) hba q p htrack' htrack
      obtain rfl : p = q := le_antisymm hpq hqp
      exact hp
  covers s hs := by
    obtain ⟨p, hp⟩ := hs
    obtain ⟨q, hq, htrack⟩ := (hbase s p).mp hp
    obtain ⟨a, ha, hsome⟩ := hkeep s ⟨q, hq, by rw [htrack]; exact Option.some_ne_none p⟩
    obtain ⟨p', hp'⟩ := Option.ne_none_iff_exists'.mp hsome
    exact ⟨p', (hswa s p').mpr ⟨a, ha, hp'⟩⟩

end Agree

end Iswa

section Cells
variable {st st' : Streams Unit}

theorem StreamOp.onCell_congr {op : StreamOp Unit} (hn : st'.nStream = st.nStream) : op.onCell st' = op.onCell st := by
  funext k x
  cases op <;> simp only [StreamOp.onCell, Streams.streamOf_congr hn]

theorem StreamOp.source_congr {op : StreamOp Unit} (hn : st'.nStream = st.nStream) : op.source st' = op.source st := by
  funext k
  cases op <;> simp only [StreamOp.source, Streams.streamOf_congr hn]

theorem StreamOp.track_congr {op : StreamOp Unit} (hn : st'.nStream = st.nStream) : op.track st' = op.track st := by
  funext s p
  cases op <;> simp only [StreamOp.track, Streams.streamOf_congr hn]

theorem StreamOp.plain_congr {op : StreamOp Unit} (hn : st'.nStream = st.nStream) : op.Plain st' = op.Plain st := by
  funext x
  cases op <;> simp only [StreamOp.Plain, Streams.streamOf_congr hn]

theorem StreamOp.plain_empty {op : StreamOp Unit} {x : Cell} (h : x.seq = ∅) : op.Plain st x := by
  have hnot : ∀ s, s ∉ x.seq := fun s hs => Finset.notMem_empty s (h ▸ hs)
  cases op with
  | seqAdd seq p0 p1 _ => exact fun _ hs => absurd hs (hnot seq)
  | seqDiv seq p0 p1 _ => exact fun _ hs => absurd hs (hnot seq)
  | seqCp src dst p0 p1 => exact fun _ _ => hnot dst
  | _ => trivial

/-- An operation keeps a cell under another one. -/
theorem StreamOp.onCell_under {op : StreamOp Unit} {k : Nat} {x y : Cell} (h : y.Under x)
    (hhome : ∀ u ∈ x.seq, st.streamOf u = op.source st k) (hplain : op.Plain st x) :
    (op.onCell st k y).Under (op.onCell st k x) ∧ ((op.onCell st k y).seq ≠ ∅ → y.seq ≠ ∅) := by
  have hmem : ∀ s ∈ (op.onCell st k y).seq, (s ∈ (op.onCell st k x).seq ∧
      (op.onCell st k x).pos = (op.onCell st k y).pos) ∧ y.seq ≠ ∅ := by
    intro s hs
    by_cases hcross : ∀ src dst p0 p1, op = .seqCp src dst p0 p1 → st.streamOf src = st.streamOf dst
    · have hsource : op.source st k = k := by
        cases op with
        | seqCp src dst p0 p1 => exact if_neg fun hc => hc.1 (hcross _ _ _ _ rfl)
        | _ => rfl
      rw [hsource] at hhome
      obtain ⟨hin, htrack⟩ := (StreamOp.mem_onCell hcross (fun u hu => hhome u (h.subset hu)) (h.plain hplain) s _).mp
        ⟨hs, rfl⟩
      obtain ⟨hin', hpos⟩ := h.mem hin
      rw [hpos] at htrack
      exact ⟨(StreamOp.mem_onCell hcross hhome hplain s _).mpr ⟨hin', htrack⟩, Finset.ne_empty_of_mem hin⟩
    · simp only [not_forall] at hcross
      obtain ⟨src, dst, p0, p1, rfl, hdiff⟩ := hcross
      by_cases hk : k = st.streamOf dst
      · subst hk
        obtain ⟨hsd, hin, hpos⟩ := (StreamOp.mem_copied hdiff s _).mp ⟨hs, rfl⟩
        obtain ⟨hin', hpos'⟩ := h.mem hin
        exact ⟨(StreamOp.mem_copied hdiff s _).mpr ⟨hsd, hin', hpos'.symm.trans hpos⟩, Finset.ne_empty_of_mem hin⟩
      · have hcell : ∀ z, StreamOp.onCell st (.seqCp src dst p0 p1) k z = z := fun z => (if_neg hdiff).trans (if_neg hk)
        rw [hcell] at hs
        rw [hcell, hcell]
        obtain ⟨hin', hpos⟩ := h.mem hs
        exact ⟨⟨hin', hpos.symm⟩, Finset.ne_empty_of_mem hs⟩
  refine ⟨⟨fun s hs => (hmem s hs).1.1, fun hne => ?_⟩, fun hne => ?_⟩
  · obtain ⟨s, hs⟩ := Finset.nonempty_iff_ne_empty.mpr hne
    exact (hmem s hs).1.2.symm
  · obtain ⟨s, hs⟩ := Finset.nonempty_iff_ne_empty.mpr hne
    exact (hmem s hs).2

end Cells

namespace Iswa

section Steps
variable {nb ns : Nat} {st st' : Iswa} {op : StreamOp Unit}

/-- What an operation on sequences has to respect : the cells that are moved have one sequence, the order of the positions
stays, and where positions of the base cache stay, there are such in both. -/
structure Keeps (st : Iswa) (op : StreamOp Unit) : Prop where
  plain : ∀ k < st.base.nStream, ∀ i < (st.base.strm k).cells.size, op.Plain st.base ((st.base.strm k).cells.cell i)
  mono : ∀ s, ∀ q ∈ st.base.positions (op.origin s), ∀ q' ∈ st.base.positions (op.origin s), q ≤ q' → ∀ p p',
    op.track st.base s q = some p → op.track st.base s q' = some p' → p ≤ p'
  keep : ∀ s, (∃ q ∈ st.base.positions (op.origin s), op.track st.base s q ≠ none) →
    ∃ q ∈ st.swa.positions (op.origin s), op.track st.base s q ≠ none

theorem both_eq_some (h : st.both op = some st') :
    streamStep op st.base = some st'.base ∧ streamStep op st.swa = some st'.swa := by
  obtain ⟨base, hbase, h⟩ := Option.bind_eq_some_iff.mp h
  obtain ⟨swa, hswa, rfl⟩ := Option.map_eq_some_iff.mp h
  exact ⟨hbase, hswa⟩

theorem homed_of_not_emplace {st : Streams Unit} (hop : ∀ u cont, op ≠ .emplace u cont) : op.homed st := by
  cases op with
  | emplace u cont => exact absurd rfl (hop u cont)
  | _ => trivial

theorem seqCap_le {st : Streams Unit} (h : st.nStream ≤ maxSeq) : st.seqCap ≤ maxSeq := by
  unfold Streams.seqCap
  split
  · exact h
  · exact le_rfl

/-- **An operation on sequences keeps the caches in agreement.** -/
theorem Agree.step (h : st.Agree nb ns) (hf : st.Fine nb ns) (hop : ∀ u cont, op ≠ .emplace u cont)
    (hbase : op.safe st.base) (hswa : op.safe st.swa) (hkeeps : st.Keeps op) (hstep : st.both op = some st') :
    st'.Fine nb ns ∧ st'.Agree nb ns := by
  obtain ⟨hrunb, hruns⟩ := both_eq_some hstep
  have hab := streamStep_acts hf.base hbase hop hrunb
  have has := streamStep_acts hf.swa hswa hop hruns
  have hinvb := hf.base.step hbase hrunb
  have hinvs := hf.swa.step hswa hruns
  have hhomeb := (hf.baseHome.step hf.base (seqCap_le hf.cap) hbase (homed_of_not_emplace hop) hrunb).1
  have hhomes := (hf.swaHome.step hf.swa (seqCap_le (hf.nStream ▸ hf.cap)) hswa (homed_of_not_emplace hop) hruns).1
  have hn : st'.swa.nStream = st'.base.nStream := has.nStream.trans (hf.nStream.trans hab.nStream.symm)
  have hplain : ∀ k < st.base.nStream, ∀ i < nb, op.Plain st.base ((st.base.strm k).cells.cell i) :=
    fun k hk i hi => hkeeps.plain k hk i (by rw [(hf.base.good k hk).size_eq]; exact hi)
  have hplain' : ∀ k < st.swa.nStream, ∀ i < ns, op.Plain st.swa ((st.swa.strm k).cells.cell i) := by
    intro k hk i hi
    rw [StreamOp.plain_congr hf.nStream]
    by_cases hempty : ((st.swa.strm k).cells.cell i).seq = ∅
    · exact StreamOp.plain_empty hempty
    · obtain ⟨j, hj, hunder⟩ := h.within k (hf.nStream ▸ hk) i hi hempty
      exact hunder.plain (hplain k (hf.nStream ▸ hk) j hj)
  refine ⟨⟨hinvb, hinvs, hhomeb, hhomes, hn, hab.nStream.symm ▸ hf.cap, hab.swa.symm ▸ hf.noWindow⟩, ?_⟩
  refine @Agree.of_track nb ns st st' h op.origin (op.track st.base)
    (hab.positions hf.base hinvb hf.baseHome hplain fun src dst p0 p1 heq => ?_)
    (fun s p => ?_) hkeeps.mono hkeeps.keep (h.subset hf) fun k hk i hi hne => ?_
  · subst heq
    exact streamOf_lt_of_seqCp hf.base hrunb
  · rw [← StreamOp.track_congr hf.nStream]
    refine has.positions hf.swa hinvs hf.swaHome hplain' (fun src dst p0 p1 heq => ?_) s p
    subst heq
    exact streamOf_lt_of_seqCp hf.swa hruns
  · rw [hab.nStream] at hk
    have hsource := hab.source k hk
    have hcell := has.cell k (hf.nStream ▸ hk) i hi
    rw [StreamOp.onCell_congr hf.nStream, StreamOp.source_congr hf.nStream] at hcell
    rw [hcell] at hne ⊢
    have hhome : ∀ j < nb, ∀ u ∈ ((st.base.strm (op.source st.base k)).cells.cell j).seq,
        st.base.streamOf u = op.source st.base k :=
      fun j hj u hu => (hf.baseHome _ hsource j (by rw [(hf.base.good _ hsource).size_eq]; exact hj) u hu).2
    have hold : ((st.swa.strm (op.source st.base k)).cells.cell i).seq ≠ ∅ := by
      have hhome' : ∀ u ∈ ((st.swa.strm (op.source st.base k)).cells.cell i).seq,
          st.base.streamOf u = op.source st.base k := by
        intro u hu
        have hsrc : op.source st.base k < st.swa.nStream := hf.nStream ▸ hsource
        rw [← Streams.streamOf_congr hf.nStream]
        exact (hf.swaHome _ hsrc i (by rw [(hf.swa.good _ hsrc).size_eq]; exact hi) u hu).2
      have hp := hplain' _ (hf.nStream ▸ hsource) i hi
      rw [StreamOp.plain_congr hf.nStream] at hp
      exact (StreamOp.onCell_under (.refl _) hhome' hp).2 hne
    obtain ⟨j, hj, hunder⟩ := h.within _ hsource i hi hold
    refine ⟨j, hj, ?_⟩
    rw [hab.cell k hk j hj]
    exact (StreamOp.onCell_under hunder (hhome j hj) (hplain _ hsource j hj)).1

end Steps

/-! ## Batches -/

section Batches
variable {nb ns : Nat} {st : Iswa}

/-- Without a window nothing is taken from a sequence. -/
theorem rm_of_noWindow {n : Nat} {st st' : Streams Unit} {slots : List (Part Unit × List Nat)} {rm : Nat → Int}
    (ha : Streams.Applied n st slots rm st') (h : st.Inv n) (hhome : st.Home) (hs : st.Slotted n slots)
    (husable : ∀ x ∈ slots, ∀ i ∈ x.2, (st.strm (st.streamOf x.1.seq)).cells.Usable st.swa i)
    (hw : st.swa.type = .none) (s : Nat) : rm s = -1 := by
  rcases ha.remembers.last s with heq | htaken
  · exact heq
  · obtain ⟨_, _, _, _, _, _, _, hmask⟩ := htaken.usable h hhome hs husable
    rw [Swa.isMasked, hw] at hmask
    cases hmask

/-- A ubatch continues the sequences in both caches alike. -/
theorem Agree.appends (h : st.Agree nb ns) (hf : st.Fine nb ns) {u : List (Part Unit)} (happ : st.swa.Appends u) :
    st.base.Appends u where
  consecutive := happ.consecutive
  next s hs hnew := by
    rw [h.seqPosMax_eq hf hs]
    exact happ.next s (h.covers s hs) hnew

/-- **A ubatch keeps the caches in agreement**, if the last position of every sequence that it does not continue is in the
window of the next one. -/
theorem Agree.emplace (h : st.Agree nb ns) (hf : st.Fine nb ns) {u : List (Part Unit)} (hfits : st.base.Fits u)
    (happ : st.swa.Appends u) (hseen : ∀ s, (st.swa.positions s).Nonempty → Streams.newPositions u s = ∅ →
      st.swa.swa.isMasked (st.swa.seqPosMax s) (st.swa.seqPosMax s + 1) = false) {base swa : Streams Unit}
    (hbase : st.base.emplace u false = some base) (hswa : st.swa.emplace u false = some swa) :
    (Iswa.mk base swa).Fine nb ns ∧ (Iswa.mk base swa).Agree nb ns ∧ base.nStream = st.base.nStream := by
  unfold Streams.emplace at hbase hswa
  split at hbase
  case isFalse => cases hbase
  split at hswa
  case isFalse => cases hswa
  obtain ⟨slotsb, hfindb, rfl⟩ := Option.map_eq_some_iff.mp hbase
  obtain ⟨slotss, hfinds, rfl⟩ := Option.map_eq_some_iff.mp hswa
  obtain ⟨hfstb, hsb, husableb⟩ := hfits.slots hf.base hfindb
  obtain ⟨hfsts, hss, husables⟩ := (hfits.of_nStream hf.nStream).slots hf.swa hfinds
  obtain ⟨rmb, hab⟩ := Streams.applyUbatch_spec hf.base hf.baseHome hsb
  obtain ⟨rms, has⟩ := Streams.applyUbatch_spec hf.swa hf.swaHome hss
  have hposb := hab.positions hf.base hf.baseHome hsb hfstb (h.appends hf happ) husableb
  have hposs := has.positions hf.swa hf.swaHome hss hfsts happ husables
  have hrmb := rm_of_noWindow hab hf.base hf.baseHome hsb husableb hf.noWindow
  have hstream := Streams.streamOf_congr hf.nStream
  have hnonneg : ∀ s, ∀ q ∈ st.base.positions s, 0 ≤ q := by
    intro s q hq
    obtain ⟨k, hk, i, hi, hmem, rfl⟩ := hf.base.mem_positions.mp hq
    exact hf.base.nonneg hk hi hmem
  refine ⟨⟨hab.inv, has.inv, hab.home, has.home, has.nStream.trans (hf.nStream.trans hab.nStream.symm),
    hab.nStream.symm ▸ hf.cap, ?_⟩, ⟨fun k hk i hi hne => ?_, fun s p hp q hq hpq => ?_, fun s hs => ?_⟩, hab.nStream⟩
  · rw [Streams.applyUbatch_swa]
    exact hf.noWindow
  · have hk : k < st.base.nStream := hab.nStream ▸ hk
    dsimp only at hne ⊢
    by_cases hin : st.swa.InSlots slotss k i
    · -- a token is stored in both
      obtain ⟨x, hx, rfl, hix⟩ := hin
      obtain ⟨r, hr, hzip⟩ := hss.row_of_mem hx hix
      have hshed := has.stored x hx _ hzip
      obtain ⟨y, hy, hyx⟩ := List.mem_map.mp (show x.1 ∈ slotsb.map Prod.fst by
        rw [hfstb, ← hfsts]
        exact List.mem_map_of_mem hx)
      rw [← hyx] at hr
      obtain ⟨j, hj, hzip'⟩ := hsb.cell_of_mem hy hr
      have hshed' := hab.stored y hy _ hzip'
      rw [hyx, ← hstream] at hshed'
      refine ⟨j, hsb.lt y hy j hj, ?_⟩
      have hseq : ∀ u ∈ r.cell.seq, u ∈ (((st.base.applyUbatch slotsb).strm (st.swa.streamOf x.1.seq)).cells.cell j).seq := by
        intro u hu
        refine (hshed'.mem u).mpr ⟨hu, ?_⟩
        have hpos := (hsb.rows y hy r hr).1.pos
        rw [hrmb u]
        show -1 < r.pos
        omega
      obtain ⟨u, hu⟩ := Finset.nonempty_iff_ne_empty.mpr hne
      obtain ⟨hur, hpos⟩ := hshed.under.mem hu
      refine ⟨fun t ht => hseq t (hshed.under.subset ht), fun _ => ?_⟩
      exact hpos.trans (hshed'.under.mem (hseq u hur)).2.symm
    · have hleft := has.left k (hf.nStream ▸ hk) i hi fun x hx hxk hix => hin ⟨x, hx, hxk, hix⟩
      have hold : ((st.swa.strm k).cells.cell i).seq ≠ ∅ := fun hc => hne (Finset.subset_empty.mp (hc ▸ hleft.under.subset))
      obtain ⟨j, hj, hunder⟩ := h.within k hk i hi hold
      refine ⟨j, hj, hleft.under.trans (hunder.trans ?_)⟩
      -- the base cache takes empty cells only
      obtain ⟨u, hu⟩ := Finset.nonempty_iff_ne_empty.mpr hold
      obtain ⟨huj, -⟩ := hunder.mem hu
      have hout : ∀ x ∈ slotsb, st.base.streamOf x.1.seq = k → j ∉ x.2 := by
        rintro x hx rfl hjx
        rcases husableb x hx j hjx with hempty | ⟨_, _, _, hmask⟩
        · have := hf.base.nonneg hk hj huj
          omega
        · rw [Swa.isMasked, hf.noWindow] at hmask
          cases hmask
      have hleft' := hab.left k hk j hj hout
      refine ⟨fun t ht => (hleft'.mem t).mpr ⟨ht, ?_⟩, fun _ => ?_⟩
      · have := hf.base.nonneg hk hj ht
        have := hrmb t
        omega
      · have hmem : u ∈ (((st.base.applyUbatch slotsb).strm k).cells.cell j).seq := by
          refine (hleft'.mem u).mpr ⟨huj, ?_⟩
          have := hf.base.nonneg hk hj huj
          have := hrmb u
          omega
        exact (hleft'.under.mem hmem).2.symm
  · dsimp only at hp hq ⊢
    rw [hposs] at hp ⊢
    rw [hposb] at hq
    rcases hq with ⟨hq, -⟩ | hq
    · obtain ⟨⟨hmem, hle⟩, -⟩ := h.isGreatest hf ⟨q, hq⟩
      rcases hp with ⟨hp, hlt⟩ | hp
      · exact .inl ⟨h.upper s p hp q hq hpq, Set.mem_Ioi.mpr (lt_of_lt_of_le (Set.mem_Ioi.mp hlt) hpq)⟩
      · have hgt := (happ.next s (h.covers s ⟨q, hq⟩) ⟨p, hp⟩).2 p hp
        have := hle hq
        exact absurd (lt_of_lt_of_le hgt (hpq.trans this)) (lt_irrefl _)
    · exact .inr hq
  · dsimp only at hs ⊢
    rw [hposs]
    rw [hposb] at hs
    by_cases hnew : (Streams.newPositions u s).Nonempty
    · obtain ⟨p, hp⟩ := hnew
      exact ⟨p, .inr hp⟩
    · rw [Set.not_nonempty_iff_eq_empty] at hnew
      rw [hnew, Set.union_empty] at hs
      obtain ⟨q, hq, -⟩ := hs
      obtain ⟨-, hmax⟩ := h.isGreatest hf ⟨q, hq⟩
      refine ⟨st.seqPosMax s, .inl ⟨hmax, Set.mem_Ioi.mpr ?_⟩⟩
      rcases has.remembers.last s with heq | htaken
      · have := hnonneg s _ (h.subset hf s hmax)
        omega
      · -- what is taken is behind the window, and the last position is not
        obtain ⟨x, hx, hxs, i, hix, hseq, hpos, hmask⟩ := htaken.usable hf.swa hf.swaHome hss husables
        have hold : rms s ∈ st.swa.positions s := hf.swa.mem_positions.mpr ⟨_, hxs ▸ hss.stream x hx, i, hss.lt x hx i hix,
          by rw [hseq]; exact Finset.mem_singleton_self s, hpos⟩
        refine lt_of_le_of_ne (hf.swa.le_seqPosMax hf.swaHome hold).1 fun heq => ?_
        have heq' : rms s = st.swa.seqPosMax s := heq
        have hfalse := hseen s ⟨_, hold⟩ hnew
        rw [heq', hfalse] at hmask
        cases hmask

/-- Every ubatch of a batch continues the sequences when its turn comes, and those that it does not continue are seen. -/
def Follows (st : Streams Unit) : List (List (Part Unit)) → Prop
  | [] => True
  | u :: us =>
    st.Appends u ∧
      (∀ s, (st.positions s).Nonempty → Streams.newPositions u s = ∅ →
        st.swa.isMasked (st.seqPosMax s) (st.seqPosMax s + 1) = false) ∧
      ∀ st', st.emplace u false = some st' → Follows st' us

theorem Agree.emplaceAll : ∀ {us : List (List (Part Unit))} {st : Iswa}, st.Agree nb ns → st.Fine nb ns →
    (∀ u ∈ us, st.base.Fits u) → Follows st.swa us → ∀ {base swa : Streams Unit}, st.base.emplaceAll us = some base →
      st.swa.emplaceAll us = some swa → (Iswa.mk base swa).Fine nb ns ∧ (Iswa.mk base swa).Agree nb ns
  | [], st, h, hf, _, _, base, swa, hbase, hswa => by
    cases hbase
    cases hswa
    exact ⟨hf, h⟩
  | u :: us, st, h, hf, hfits, hfollows, base, swa, hbase, hswa => by
    obtain ⟨happ, hseen, hrest⟩ := hfollows
    obtain ⟨base', hbase', hbase⟩ := Option.bind_eq_some_iff.mp hbase
    obtain ⟨swa', hswa', hswa⟩ := Option.bind_eq_some_iff.mp hswa
    obtain ⟨hf', h', hn⟩ := h.emplace hf (hfits u List.mem_cons_self) happ hseen hbase' hswa'
    exact h'.emplaceAll hf' (fun v hv => (hfits v (List.mem_cons_of_mem _ hv)).of_nStream hn) (hrest swa' hswa') hbase hswa

theorem positions_congr {n : Nat} {a b : Streams Unit} (ha : a.Inv n) (hb : b.Inv n) (hn : a.nStream = b.nStream)
    (hle : a.Below n b) (hge : b.Below n a) (s : Nat) : a.positions s = b.positions s := by
  ext p
  rw [ha.mem_positions, hb.mem_positions, hn]
  refine exists_congr fun k => and_congr_right fun hk => exists_congr fun i => and_congr_right fun hi => ?_
  have hge' := hge k (hn ▸ hk) i hi
  constructor
  · rintro ⟨hmem, rfl⟩
    obtain ⟨hmem', hpos⟩ := (hle k hk i hi).mem hmem
    exact ⟨hmem', hpos.symm⟩
  · rintro ⟨hmem, rfl⟩
    obtain ⟨hmem', hpos⟩ := hge'.mem hmem
    exact ⟨hmem', hpos.symm⟩

/-- Caches with the same cells. -/
theorem Agree.congr (h : st.Agree nb ns) {st' : Iswa} (hf : st.Fine nb ns) (hf' : st'.Fine nb ns)
    (hn : st'.base.nStream = st.base.nStream) (hbase : st'.base.Below nb st.base) (hbase' : st.base.Below nb st'.base)
    (hswa : st'.swa.Below ns st.swa) (hswa' : st.swa.Below ns st'.swa) : st'.Agree nb ns := by
  have hn' : st'.swa.nStream = st.swa.nStream := hf'.nStream.trans (hn.trans hf.nStream.symm)
  have hposb := positions_congr hf'.base hf.base hn hbase hbase'
  have hposs := positions_congr hf'.swa hf.swa hn' hswa hswa'
  refine ⟨fun k hk i hi hne => ?_, fun s p hp q hq hpq => ?_, fun s hs => ?_⟩
  · have hunder := hswa k (hf.nStream ▸ hn ▸ hk) i hi
    have hold : ((st.swa.strm k).cells.cell i).seq ≠ ∅ := fun hc => hne (Finset.subset_empty.mp (hc ▸ hunder.subset))
    obtain ⟨j, hj, hle⟩ := h.within k (hn ▸ hk) i hi hold
    exact ⟨j, hj, hunder.trans (hle.trans (hbase' k hk j hj))⟩
  · rw [hposs] at hp ⊢
    rw [hposb] at hq
    exact h.upper s p hp q hq hpq
  · rw [hposs]
    rw [hposb] at hs
    exact h.covers s hs

end Batches

end Iswa

namespace Streams

theorem restoreParts_swa : ∀ (slots : List (Part Unit × List Nat)) (saved : List (List Cell)) (heads : Nat → Nat) (s : Nat)
    (st : Streams Unit), (restoreParts heads s slots saved st).swa = st.swa
  | [], _, _, _, _ => rfl
  | _ :: _, [], _, _, _ => rfl
  | x :: slots, _ :: saved, heads, s, st => by rw [restoreParts, restoreParts_swa slots saved]; rfl

theorem undo_swa (saved : List Saved) (st : Streams Unit) : (undo saved st).swa = st.swa := by
  induction saved with
  | nil => rfl
  | cons x saved ih =>
      rw [undo, List.foldr_cons, restore, restoreParts_swa]
      exact ih

theorem dryRun_swa : ∀ {us : List (List (Part Unit))} {st : Streams Unit} {saved : List Saved} {last : Streams Unit},
    st.dryRun us = some (true, saved, last) → last.swa = st.swa
  | [], st, saved, last, hrun => by
    cases hrun
    rfl
  | u :: us, st, saved, last, hrun => by
    obtain ⟨slots, saved', -, -, -, hrun'⟩ := dryRun_cons hrun
    rw [dryRun_swa hrun', applyUbatch_swa]

theorem foldl_applyUbatch_swa (slots : List (List (Part Unit × List Nat))) (st : Streams Unit) :
    (slots.foldl applyUbatch st).swa = st.swa := by
  induction slots generalizing st with
  | nil => rfl
  | cons x slots ih => rw [List.foldl_cons, ih, applyUbatch_swa]

theorem prepare_swa {st fin : Streams Unit} {us : List (List (Part Unit))} {slots : List (List (Part Unit × List Nat))}
    (hrun : st.prepare us = some (some slots, fin)) : (slots.foldl applyUbatch fin).swa = st.swa := by
  unfold prepare at hrun
  obtain ⟨⟨ok, saved, last⟩, hdry, hrun⟩ := Option.bind_eq_some_iff.mp hrun
  split at hrun
  · cases hrun
  · cases ok with
    | false => cases hrun
    | true =>
        cases hrun
        rw [foldl_applyUbatch_swa, undo_swa, dryRun_swa hdry]

theorem emplaceAll_nStream {n : Nat} : ∀ {us : List (List (Part Unit))} {st last : Streams Unit}, st.Inv n → st.Home →
    (∀ u ∈ us, st.Fits u) → st.emplaceAll us = some last → last.nStream = st.nStream
  | [], st, last, _, _, _, hrun => by
    cases hrun
    rfl
  | u :: us, st, last, h, hhome, hfits, hrun => by
    obtain ⟨st', hst', hrun⟩ := Option.bind_eq_some_iff.mp hrun
    unfold emplace at hst'
    split at hst'
    · obtain ⟨slots, hfind, rfl⟩ := Option.map_eq_some_iff.mp hst'
      obtain ⟨-, hs, -⟩ := (hfits u List.mem_cons_self).slots h hfind
      obtain ⟨rm, ha⟩ := applyUbatch_spec h hhome hs
      rw [emplaceAll_nStream ha.inv ha.home (fun v hv => (hfits v (List.mem_cons_of_mem _ hv)).of_nStream ha.nStream) hrun,
        ha.nStream]
    · cases hst'

end Streams

namespace Iswa

section Runs
variable {nb ns : Nat} {st st' : Iswa}

/-- **A batch whose first split has slots keeps the caches in agreement.** -/
theorem Agree.decode (h : st.Agree nb ns) (hf : st.Fine nb ns) {us : List (List (Part Unit))}
    {splits : List (List (List (Part Unit)))} {slots : IswaSlots} {fin : Iswa}
    (hprepare : st.prepare us = some (some slots, fin)) (hfits : ∀ u ∈ us, st.base.Fits u) (hfollows : Follows st.swa us)
    (hrun : st.decode (us :: splits) = some st') : st'.Fine nb ns ∧ st'.Agree nb ns := by
  have hst' : st' = ⟨slots.base.foldl Streams.applyUbatch fin.base, slots.swa.foldl Streams.applyUbatch fin.swa⟩ := by
    rw [Iswa.decode, initBatch, hprepare] at hrun
    exact (Option.some_inj.mp hrun).symm
  obtain ⟨⟨rb, finb⟩, hb, hprepare⟩ := Option.bind_eq_some_iff.mp hprepare
  cases rb with
  | none => cases hprepare
  | some slotsb =>
      obtain ⟨⟨rs, fins⟩, hs, heq⟩ := Option.map_eq_some_iff.mp hprepare
      cases rs with
      | none => cases heq
      | some slotss =>
          cases heq
          have hfits' : ∀ u ∈ us, st.swa.Fits u := fun u hu => (hfits u hu).of_nStream hf.nStream
          obtain ⟨lastb, halls, hinvb, hhomeb, hnb, hleb, hgeb⟩ := Streams.prepare_commit hf.base hf.baseHome hfits hb
          obtain ⟨lasts, halls', hinvs, hhomes, hns, hles, hges⟩ := Streams.prepare_commit hf.swa hf.swaHome hfits' hs
          obtain ⟨hflast, hlast⟩ := h.emplaceAll hf hfits hfollows halls halls'
          have hnlast := Streams.emplaceAll_nStream hf.base hf.baseHome hfits halls
          have hfine : st'.Fine nb ns := by
            subst hst'
            refine ⟨hinvb, hinvs, hhomeb, hhomes, hns.trans (hflast.nStream.trans hnb.symm), ?_, ?_⟩
            · dsimp only
              rw [hnb, hnlast]
              exact hf.cap
            · dsimp only
              rw [Streams.prepare_swa hb]
              exact hf.noWindow
          subst hst'
          exact ⟨hfine, hlast.congr hflast hfine hnb hleb hgeb hles hges⟩

/-- The cells of a sequence in a range have no other sequence. -/
def Alone (st : Streams Unit) (seq : Nat) (p0 p1 : Int) : Prop :=
  ∀ k < st.nStream, ∀ i < (st.strm k).cells.size, ((st.strm k).cells.cell i).within p0 p1 →
    seq ∈ ((st.strm k).cells.cell i).seq → ((st.strm k).cells.cell i).seq = {seq}

end Runs

end Iswa

/-- **The steps that keep the caches in agreement.** A removal leaves the cache with the window a position of the sequence or
takes them all; a sequence that is copied to within its stream is empty, and what is copied is in both caches, or nothing is;
positions are moved in order, in cells of their own; and the first split of a batch has slots and continues the sequences, the
last positions of the others being seen. -/
def IswaOp.ok (st : Iswa) : IswaOp → Prop
  | .clear => True
  | .seqRm seq p0 p1 => ∀ s : Nat, seq = -1 ∨ seq.toNat = s → (∃ p ∈ st.base.positions s, ¬ Within p0 p1 p) →
      ∃ p ∈ st.swa.positions s, ¬ Within p0 p1 p
  | .seqCp src dst p0 p1 => src ≠ dst → st.base.streamOf src = st.base.streamOf dst → st.base.positions dst = ∅ ∧
      ((∃ p ∈ st.base.positions src, Within p0 p1 p) → ∃ p ∈ st.swa.positions src, Within p0 p1 p)
  | .seqKeep _ => True
  | .seqAdd seq p0 p1 shift => Iswa.Alone st.base seq p0 p1 ∧
      MonotoneOn (fun p => if Within p0 p1 p then p + shift else p) (st.base.positions seq) ∧
      ∀ p ∈ st.base.positions seq, Within p0 p1 p → p + shift ≤ posMax
  | .seqDiv seq p0 p1 d => Iswa.Alone st.base seq p0 p1 ∧
      MonotoneOn (fun p => if Within p0 p1 p then p.tdiv d else p) (st.base.positions seq) ∧
      ∀ p ∈ st.base.positions seq, Within p0 p1 p → 0 ≤ p.tdiv d
  | .decode splits => ∃ us rest slots fin, splits = us :: rest ∧ st.prepare us = some (some slots, fin) ∧
      (∀ u ∈ us, st.base.Fits u) ∧ Iswa.Follows st.swa us

namespace Iswa

section Runs
variable {nb ns : Nat} {st st' : Iswa}

/-- Operations that leave the positions that stay where they are. -/
theorem Keeps.of_stay {op : StreamOp Unit} (hop : ∀ s q p, op.track st.base s q = some p → p = q)
    (plain : ∀ k < st.base.nStream, ∀ i < (st.base.strm k).cells.size, op.Plain st.base ((st.base.strm k).cells.cell i))
    (keep : ∀ s, (∃ q ∈ st.base.positions (op.origin s), op.track st.base s q ≠ none) →
      ∃ q ∈ st.swa.positions (op.origin s), op.track st.base s q ≠ none) : st.Keeps op where
  plain := plain
  mono s q _ q' _ hle p p' hp hp' := by
    rw [hop s q p hp, hop s q' p' hp']
    exact hle
  keep := keep

theorem eq_of_ite {c : Prop} [Decidable c] {q p : Int} (h : (if c then none else some q) = some p) : p = q := by
  split at h
  · cases h
  · exact (Option.some_inj.mp h).symm

theorem ite_ne_none {c : Prop} [Decidable c] {q : Int} : (if c then none else some q) ≠ (none : Option Int) ↔ ¬ c := by
  split
  · exact iff_of_false (fun h => h rfl) (not_not.mpr ‹_›)
  · exact iff_of_true (Option.some_ne_none q) ‹_›

theorem keeps_clear : st.Keeps .clear :=
  .of_stay (fun s q p h => by cases h) (fun _ _ _ _ => trivial) fun s h => by
    obtain ⟨_, _, hne⟩ := h
    exact absurd rfl hne

theorem keeps_seqRm (h : st.Agree nb ns) {seq p0 p1 : Int} (hok : IswaOp.ok st (.seqRm seq p0 p1)) :
    st.Keeps (.seqRm seq p0 p1) := by
  refine .of_stay (fun s q p h => eq_of_ite h) (fun _ _ _ _ => trivial) ?_
  rintro s ⟨q, hq, hne⟩
  by_cases hs : seq = -1 ∨ seq.toNat = s
  · have hout : ¬ Within p0 p1 q := fun hw => ite_ne_none.mp hne ⟨hs, hw⟩
    obtain ⟨p, hp, hout'⟩ := hok s hs ⟨q, hq, hout⟩
    exact ⟨p, hp, ite_ne_none.mpr fun hc => hout' hc.2⟩
  · obtain ⟨p, hp⟩ := h.covers s ⟨q, hq⟩
    exact ⟨p, hp, ite_ne_none.mpr fun hc => hs hc.1⟩

theorem keeps_seqCp (h : st.Agree nb ns) {src dst : Nat} {p0 p1 : Int} (hok : IswaOp.ok st (.seqCp src dst p0 p1)) :
    st.Keeps (.seqCp src dst p0 p1) := by
  refine .of_stay (fun s q p h => eq_of_ite h) (fun k hk i hi hne hsame hmem => ?_) ?_
  · have hempty := (hok hne hsame).1
    have hin : ((st.base.strm k).cells.cell i).pos ∈ st.base.positions dst := ⟨k, hk, i, hi, hmem, rfl⟩
    rw [hempty] at hin
    exact hin
  · rintro s ⟨q, hq, hne⟩
    by_cases hc : st.base.streamOf src = st.base.streamOf dst ∧ src ≠ dst ∧ s = dst
    · obtain ⟨hsame, hdiff, rfl⟩ := hc
      have horigin : StreamOp.origin (.seqCp src s p0 p1) s = src := if_pos rfl
      have hw : Within p0 p1 q := by
        by_contra hout
        exact ite_ne_none.mp hne ⟨hsame, hdiff, rfl, hout⟩
      rw [horigin] at hq ⊢
      obtain ⟨p, hp, hw'⟩ := (hok hdiff hsame).2 ⟨q, hq, hw⟩
      exact ⟨p, hp, ite_ne_none.mpr fun hc => hc.2.2.2 hw'⟩
    · obtain ⟨p, hp⟩ := h.covers _ ⟨q, hq⟩
      exact ⟨p, hp, ite_ne_none.mpr fun hc' => hc ⟨hc'.1, hc'.2.1, hc'.2.2.1⟩⟩

theorem keeps_seqKeep (h : st.Agree nb ns) (seq : Nat) : st.Keeps (.seqKeep seq) := by
  refine .of_stay (fun s q p h => eq_of_ite h) (fun _ _ _ _ => trivial) ?_
  rintro s ⟨q, hq, hne⟩
  obtain ⟨p, hp⟩ := h.covers s ⟨q, hq⟩
  exact ⟨p, hp, ite_ne_none.mpr (ite_ne_none.mp hne)⟩

theorem keeps_seqAdd (h : st.Agree nb ns) (hf : st.Fine nb ns) {seq : Nat} {p0 p1 shift : Int}
    (hok : IswaOp.ok st (.seqAdd seq p0 p1 shift)) : st.Keeps (.seqAdd seq p0 p1 shift) := by
  obtain ⟨halone, hmono, -⟩ := hok
  -- where a position is moved to; a negative one is no more
  have htrack : ∀ s q, (s = seq → 0 ≤ q) → StreamOp.track st.base (.seqAdd seq p0 p1 shift) s q =
      if s = seq then (if (if Within p0 p1 q then q + shift else q) < 0 then none
        else some (if Within p0 p1 q then q + shift else q)) else some q := by
    intro s q hq
    by_cases hs : s = seq
    · by_cases hw : Within p0 p1 q
      · rw [if_pos hs, if_pos hw]
        exact if_pos ⟨hs, hw⟩
      · rw [if_pos hs, if_neg hw, if_neg (by have := hq hs; omega)]
        exact if_neg fun hc => hw hc.2
    · rw [if_neg hs]
      exact if_neg fun hc => hs hc.1
  have hnonneg : ∀ s, ∀ q ∈ st.base.positions s, 0 ≤ q := by
    intro s q hq
    obtain ⟨k, hk, i, hi, hmem, rfl⟩ := hf.base.mem_positions.mp hq
    exact hf.base.nonneg hk hi hmem
  refine ⟨halone, fun s q hq q' hq' hle p p' hp hp' => ?_, ?_⟩
  · have hq : q ∈ st.base.positions s := hq
    have hq' : q' ∈ st.base.positions s := hq'
    rw [htrack s q fun _ => hnonneg s q hq] at hp
    rw [htrack s q' fun _ => hnonneg s q' hq'] at hp'
    by_cases hs : s = seq
    · subst hs
      rw [if_pos rfl] at hp hp'
      rw [eq_of_ite hp, eq_of_ite hp']
      exact hmono hq hq' hle
    · rw [if_neg hs, Option.some_inj] at hp hp'
      omega
  · rintro s ⟨q, hq, hne⟩
    have hq : q ∈ st.base.positions s := hq
    obtain ⟨⟨hmem, hmax⟩, hmem'⟩ := h.isGreatest hf ⟨q, hq⟩
    refine ⟨_, hmem', ?_⟩
    rw [htrack s q fun _ => hnonneg s q hq] at hne
    rw [htrack s _ fun _ => hnonneg s _ hmem]
    by_cases hs : s = seq
    · subst hs
      rw [if_pos rfl] at hne ⊢
      have hle := hmono hq hmem (hmax hq)
      have hge := ite_ne_none.mp hne
      exact ite_ne_none.mpr fun hc => hge (lt_of_le_of_lt hle hc)
    · rw [if_neg hs]
      exact Option.some_ne_none _

theorem keeps_seqDiv (h : st.Agree nb ns) {seq : Nat} {p0 p1 d : Int} (hok : IswaOp.ok st (.seqDiv seq p0 p1 d)) :
    st.Keeps (.seqDiv seq p0 p1 d) := by
  obtain ⟨halone, hmono, -⟩ := hok
  have htrack : ∀ s q, StreamOp.track st.base (.seqDiv seq p0 p1 d) s q =
      some (if s = seq then (if Within p0 p1 q then q.tdiv d else q) else q) := by
    intro s q
    by_cases hs : s = seq
    · by_cases hw : Within p0 p1 q
      · rw [if_pos hs, if_pos hw]
        exact if_pos ⟨hs, hw⟩
      · rw [if_pos hs, if_neg hw]
        exact if_neg fun hc => hw hc.2
    · rw [if_neg hs]
      exact if_neg fun hc => hs hc.1
  refine ⟨halone, fun s q hq q' hq' hle p p' hp hp' => ?_, ?_⟩
  · have hq : q ∈ st.base.positions s := hq
    have hq' : q' ∈ st.base.positions s := hq'
    rw [htrack, Option.some_inj] at hp hp'
    rw [← hp, ← hp']
    by_cases hs : s = seq
    · subst hs
      rw [if_pos rfl, if_pos rfl]
      exact hmono hq hq' hle
    · rw [if_neg hs, if_neg hs]
      exact hle
  · rintro s ⟨q, hq, -⟩
    obtain ⟨p, hp⟩ := h.covers s ⟨q, hq⟩
    exact ⟨p, hp, by rw [htrack]; exact Option.some_ne_none _⟩

/-- The preconditions of an operation, for a cache whose positions are those of the base cache. -/
theorem safe_seqAdd {n : Nat} {c : Streams Unit} (h : c.Inv n) {seq : Nat} {p0 p1 shift : Int} {c' : Streams Unit}
    (hstep : streamStep (.seqAdd seq p0 p1 shift) c = some c')
    (hle : ∀ p ∈ c.positions seq, Within p0 p1 p → p + shift ≤ posMax) : StreamOp.safe c (.seqAdd seq p0 p1 shift) := by
  refine ⟨fun j hj hw hs => hle _ ⟨_, ?_, j, hj, hs, rfl⟩ hw, trivial⟩
  change c.onStream seq (fun c => c.seqAdd seq p0 p1 shift) = some c' at hstep
  unfold Streams.onStream at hstep
  split at hstep
  · exact h.streamOf_lt ‹_›
  · cases hstep

theorem safe_seqDiv {n : Nat} {c : Streams Unit} (h : c.Inv n) {seq : Nat} {p0 p1 d : Int} {c' : Streams Unit}
    (hstep : streamStep (.seqDiv seq p0 p1 d) c = some c')
    (hle : ∀ p ∈ c.positions seq, Within p0 p1 p → 0 ≤ p.tdiv d) : StreamOp.safe c (.seqDiv seq p0 p1 d) := by
  refine ⟨trivial, fun j hj hw hs => hle _ ⟨_, ?_, j, hj, hs, rfl⟩ hw⟩
  change c.seqDiv seq p0 p1 d = some c' at hstep
  unfold Streams.seqDiv Streams.onStream at hstep
  split at hstep
  · cases hstep
  · split at hstep
    · exact h.streamOf_lt ‹_›
    · cases hstep

theorem safe_seqCp {n : Nat} {c : Streams Unit} (h : c.Inv n) {src dst : Nat} {p0 p1 : Int} {c' : Streams Unit}
    (hstep : streamStep (.seqCp src dst p0 p1) c = some c')
    (hempty : src ≠ dst → c.streamOf src = c.streamOf dst → c.positions dst = ∅) :
    StreamOp.safe c (.seqCp src dst p0 p1) := by
  refine ⟨trivial, fun hne hsame j hj _ _ hmem => ?_⟩
  have hk := streamOf_lt_of_seqCp h hstep
  rw [← hsame] at hk
  have hin : ((c.strm (c.streamOf src)).cells.cell j).pos ∈ c.positions dst := ⟨_, hk, j, hj, hmem, rfl⟩
  rw [hempty hne hsame] at hin
  exact hin

/-- **One step.** -/
theorem Agree.iswaStep (h : st.Agree nb ns) (hf : st.Fine nb ns) {op : IswaOp} (hok : op.ok st)
    (hstep : iswaStep op st = some st') : st'.Fine nb ns ∧ st'.Agree nb ns := by
  have hsub := h.subset hf
  cases op with
  | clear =>
      exact @Agree.step _ _ _ _ .clear h hf (fun _ _ hc => by cases hc) ⟨trivial, trivial⟩ ⟨trivial, trivial⟩ keeps_clear
        hstep
  | seqRm seq p0 p1 =>
      exact @Agree.step _ _ _ _ (.seqRm seq p0 p1) h hf (fun _ _ hc => by cases hc) ⟨trivial, trivial⟩ ⟨trivial, trivial⟩
        (keeps_seqRm h hok) hstep
  | seqKeep seq =>
      exact @Agree.step _ _ _ _ (.seqKeep seq) h hf (fun _ _ hc => by cases hc) ⟨trivial, trivial⟩ ⟨trivial, trivial⟩
        (keeps_seqKeep h seq) hstep
  | seqCp src dst p0 p1 =>
      obtain ⟨hb, hs⟩ := both_eq_some hstep
      refine h.step hf (fun _ _ hc => by cases hc) (safe_seqCp hf.base hb fun hne hsame => (hok hne hsame).1)
        (safe_seqCp hf.swa hs fun hne hsame => ?_) (keeps_seqCp h hok) hstep
      rw [Streams.streamOf_congr hf.nStream] at hsame
      have hempty := hsub dst
      rw [(hok hne hsame).1] at hempty
      exact Set.subset_empty_iff.mp hempty
  | seqAdd seq p0 p1 shift =>
      obtain ⟨hb, hs⟩ := both_eq_some hstep
      exact h.step hf (fun _ _ hc => by cases hc) (safe_seqAdd hf.base hb hok.2.2)
        (safe_seqAdd hf.swa hs fun p hp => hok.2.2 p (hsub seq hp)) (keeps_seqAdd h hf hok) hstep
  | seqDiv seq p0 p1 d =>
      obtain ⟨hb, hs⟩ := both_eq_some hstep
      exact h.step hf (fun _ _ hc => by cases hc) (safe_seqDiv hf.base hb hok.2.2)
        (safe_seqDiv hf.swa hs fun p hp => hok.2.2 p (hsub seq hp)) (keeps_seqDiv h hok) hstep
  | decode splits =>
      obtain ⟨us, rest, slots, fin, rfl, hprepare, hfits, hfollows⟩ := hok
      exact h.decode hf hprepare hfits hfollows hstep

theorem create_inv (w : Swa) {nStream : Nat} (hpos : 0 < nStream) (size : Nat) :
    (Streams.create w nStream size fun _ _ => ()).Inv size :=
  ⟨hpos, fun _ _ => ⟨⟨Rep.init size, Nat.zero_le _⟩, fun _ _ => pos_empty_le, rfl⟩⟩

theorem create_agree (w : Swa) {nStream : Nat} (hpos : 0 < nStream) (hmax : nStream ≤ maxSeq) (sizeBase sizeSwa : Nat) :
    (create w nStream sizeBase sizeSwa).Fine sizeBase sizeSwa ∧
    (create w nStream sizeBase sizeSwa).Agree sizeBase sizeSwa := by
  have hempty : ∀ (w : Swa) (size s : Nat), (Streams.create w nStream size fun _ _ => ()).positions s = ∅ := by
    intro w size s
    refine Set.eq_empty_iff_forall_notMem.mpr ?_
    rintro p ⟨k, _, i, _, hmem, _⟩
    exact Finset.notMem_empty s hmem
  refine ⟨⟨create_inv {} hpos sizeBase, create_inv w hpos sizeSwa, fun _ _ _ _ s hs => absurd hs (Finset.notMem_empty s),
    fun _ _ _ _ s hs => absurd hs (Finset.notMem_empty s), rfl, hmax, rfl⟩, fun _ _ _ _ hne => absurd rfl hne,
    fun s p hp => ?_, fun s hs => ?_⟩
  · exact absurd hp ((hempty w sizeSwa s).symm ▸ Set.notMem_empty p)
  · exact absurd hs ((hempty {} sizeBase s).symm ▸ Set.not_nonempty_empty)

end Runs

end Iswa

/-- **In every run of such steps** what the cache with the window stores is stored in the base cache, and the last
position that is asked for is the last one of the base cache. -/
theorem reaches_agree (w : Swa) {nStream : Nat} (hpos : 0 < nStream) (hmax : nStream ≤ maxSeq) (sizeBase sizeSwa : Nat)
    (st : Iswa) (h : Reaches iswaStep (fun st op => op.ok st) (Iswa.create w nStream sizeBase sizeSwa) st) (s : Nat) :
    st.swa.positions s ⊆ st.base.positions s ∧
      ((st.base.positions s).Nonempty → IsGreatest (st.base.positions s) (st.seqPosMax s)) := by
  have hinv : st.Fine sizeBase sizeSwa ∧ st.Agree sizeBase sizeSwa :=
    h.invariant (I := fun st => st.Fine sizeBase sizeSwa ∧ st.Agree sizeBase sizeSwa)
      (Iswa.create_agree w hpos hmax sizeBase sizeSwa) fun _ _ _ hi hok hstep => hi.2.iswaStep hi.1 hok hstep
  exact ⟨hinv.2.subset hinv.1 s, fun hs => (hinv.2.isGreatest hinv.1 hs).1⟩

/-! ## A removal behind the window -/

/-- Two cells with a window of two, beside four. -/
def narrow : Iswa := Iswa.create { nSwa := 2, type := .standard } 1 4 2

theorem first_follows : Iswa.Follows narrow.swa [ownTokens 0 [0]] := by
  have hempty : ∀ s, narrow.swa.positions s = ∅ := by
    intro s
    refine Set.eq_empty_iff_forall_notMem.mpr ?_
    rintro p ⟨k, _, i, _, hmem, _⟩
    exact Finset.notMem_empty s hmem
  have hnew : ∀ s p, p ∈ Streams.newPositions (ownTokens 0 [0]) s → p = 0 := by
    rintro s p ⟨part, hpart, r, hr, -, rfl⟩
    rw [List.mem_singleton.mp hpart] at hr
    obtain ⟨q, hq, rfl⟩ := List.mem_map.mp hr
    exact List.mem_singleton.mp hq
  refine ⟨⟨fun s => ⟨fun a ha b hb c hc => ?_⟩, fun s hs => ?_⟩, fun s hs => ?_, fun _ _ => trivial⟩
  · obtain rfl := hnew s a ha
    obtain rfl := hnew s b hb
    rw [le_antisymm hc.2 hc.1]
    exact ha
  · exact absurd hs (hempty s ▸ Set.not_nonempty_empty)
  · exact absurd hs (hempty s ▸ Set.not_nonempty_empty)

/-- A token is decoded. -/
theorem reaches_agree_first : ∃ st, iswaStep (.decode [[ownTokens 0 [0]]]) narrow = some st ∧
    st.swa.positions 0 ⊆ st.base.positions 0 ∧
      ((st.base.positions 0).Nonempty → IsGreatest (st.base.positions 0) (st.seqPosMax 0)) := by
  have hprepare : ((narrow.prepare [ownTokens 0 [0]]).map fun r => r.1.isSome) = some true := by decide +kernel
  obtain ⟨⟨slots, fin⟩, hprep, hsome⟩ := Option.map_eq_some_iff.mp hprepare
  obtain ⟨slots, rfl⟩ := Option.isSome_iff_exists.mp hsome
  have hrun : (iswaStep (.decode [[ownTokens 0 [0]]]) narrow).isSome := by decide +kernel
  obtain ⟨st, hst⟩ := Option.isSome_iff_exists.mp hrun
  refine ⟨st, hst, reaches_agree _ (by decide) (by decide) 4 2 st (.step _ .start ?_ hst) 0⟩
  refine ⟨_, [], slots, fin, rfl, hprep, fun u hu => ?_, first_follows⟩
  rw [List.mem_singleton.mp hu]
  exact ownTokens_fits (by decide) (by decide) (by decide) (by decide)

/-- Three tokens, of which the window has the last two, and the removal of these : the base cache has position 0, and the last
position is none. -/
theorem removed_window : ∃ st, runList iswaStep [.decode [[ownTokens 0 [0], ownTokens 0 [1], ownTokens 0 [2]]],
      .seqRm 0 1 (-1)] narrow = some st ∧ st.seqPosMax 0 = -1 ∧
    ¬ ((st.base.positions 0).Nonempty → IsGreatest (st.base.positions 0) (st.seqPosMax 0)) := by
  have hrun : ((runList iswaStep [.decode [[ownTokens 0 [0], ownTokens 0 [1], ownTokens 0 [2]]], .seqRm 0 1 (-1)] narrow).map
      fun st => (st.seqPosMax 0, st.base.nStream, (st.base.strm 0).cells.size, (st.base.strm 0).cells.cell 0)) =
        some (-1, 1, 4, ⟨0, 0, {0}⟩) := by decide +kernel
  obtain ⟨st, hst, heq⟩ := Option.map_eq_some_iff.mp hrun
  simp only [Prod.mk.injEq] at heq
  obtain ⟨hmax, hn, hsize, hcell⟩ := heq
  have hmem : 0 ∈ st.base.positions 0 := by
    refine ⟨0, by omega, 0, by omega, ?_⟩
    rw [hcell]
    exact ⟨Finset.mem_singleton_self 0, rfl⟩
  refine ⟨st, hst, hmax, fun h => ?_⟩
  have hle := (h ⟨0, hmem⟩).2 hmem
  rw [hmax] at hle
  omega

end S2Moe.Kv
