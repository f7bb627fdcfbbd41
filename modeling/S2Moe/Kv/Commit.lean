import S2Moe.Kv.Prepare

/-!
# `prepare` and `apply`

A batch is stored in the slots that the dry run has found, in the cache that its undoing has left.

* `Cell.Under` : a cell without some of its sequences, whatever its shift;
* `emplaceAll` : ubatches stored one after the other, as in the dry run;
* `commit_spec` : what is stored in the slots of `prepare` is what the dry run had stored, though its undoing may have lost
  some positions.
-/

namespace S2Moe.Kv
open S2Moe.Lib

/-- The cell `y` has some of the sequences of `x`, at its position. -/
structure Cell.Under (y x : Cell) : Prop where
  subset : y.seq ⊆ x.seq
  pos : y.seq ≠ ∅ → y.pos = x.pos

section Under
variable {x y z : Cell}

theorem Cell.Under.refl (x : Cell) : x.Under x := ⟨subset_rfl, fun _ => rfl⟩

theorem Cell.Under.trans (h : z.Under y) (h' : y.Under x) : z.Under x where
  subset := h.subset.trans h'.subset
  pos hne := by
    have hy : y.seq ≠ ∅ := fun hc => hne (Finset.subset_empty.mp (hc ▸ h.subset))
    exact (h.pos hne).trans (h'.pos hy)

theorem Cell.Under.mem (h : y.Under x) {s : Nat} (hs : s ∈ y.seq) : s ∈ x.seq ∧ y.pos = x.pos :=
  ⟨h.subset hs, h.pos (Finset.ne_empty_of_mem hs)⟩

theorem Cell.Under.seq_eq (h : y.Under x) (h' : x.Under y) : y.seq = x.seq := subset_antisymm h.subset h'.subset

theorem Cell.Sheds.under {q : Nat → Prop} (h : x.Sheds y q) : y.Under x :=
  ⟨fun s hs => ((h.mem s).mp hs).1, fun hne => (h.kept hne).1⟩

/-- What is under both a cell and what is left of it. -/
theorem Cell.Under.sheds {x' y' : Cell} {r : Nat → Int} (hy : y.Under x) (hx : x.Sheds x' fun u => r u < x.pos)
    (hy' : y.Sheds y' fun u => r u < y.pos) : y'.Under x' := by
  have hmem : ∀ u ∈ y'.seq, u ∈ x'.seq ∧ y'.pos = x'.pos := by
    intro u hu
    obtain ⟨hu', hlt⟩ := (hy'.mem u).mp hu
    obtain ⟨hux, hpos⟩ := hy.mem hu'
    have hin : u ∈ x'.seq := (hx.mem u).mpr ⟨hux, hpos ▸ hlt⟩
    exact ⟨hin, (hy'.under.mem hu).2.trans (hpos.trans (hx.under.mem hin).2.symm)⟩
  refine ⟨fun u hu => (hmem u hu).1, fun hne => ?_⟩
  obtain ⟨u, hu⟩ := Finset.nonempty_iff_ne_empty.mpr hne
  exact (hmem u hu).2

/-- What is under what is left of a cell loses nothing of what is lost there. -/
theorem Cell.Under.into_sheds {x' y' : Cell} {r : Nat → Int} (hzx : z.Under x') (hzy : z.Under y) (hyx : y.Under x)
    (hx : x.Sheds x' fun u => r u < x.pos) (hy : y.Sheds y' fun u => r u < y.pos) : z.Under y' := by
  have hmem : ∀ u ∈ z.seq, u ∈ y'.seq ∧ z.pos = y'.pos := by
    intro u hu
    obtain ⟨huy, hpos⟩ := hzy.mem hu
    have hlt := ((hx.mem u).mp (hzx.subset hu)).2
    rw [← (hyx.mem huy).2] at hlt
    have hin : u ∈ y'.seq := (hy.mem u).mpr ⟨huy, hlt⟩
    exact ⟨hin, hpos.trans (hy.under.mem hin).2.symm⟩
  refine ⟨fun u hu => (hmem u hu).1, fun hne => ?_⟩
  obtain ⟨u, hu⟩ := Finset.nonempty_iff_ne_empty.mpr hne
  exact (hmem u hu).2

end Under

namespace Streams

/-- The ubatches are stored one after the other. -/
def emplaceAll (st : Streams Unit) : List (List (Part Unit)) → Option (Streams Unit)
  | [] => some st
  | u :: us => (st.emplace u false).bind fun st => st.emplaceAll us

/-- Every cell of `cur` is under the one of `st`. -/
def Below (n : Nat) (cur st : Streams Unit) : Prop :=
  ∀ k < st.nStream, ∀ i < n, ((cur.strm k).cells.cell i).Under ((st.strm k).cells.cell i)

section
variable {n : Nat} {st cur : Streams Unit} {slots : List (Part Unit × List Nat)}

theorem streamOf_congr {D : Type} {st cur : Streams D} (hn : cur.nStream = st.nStream) : cur.streamOf = st.streamOf := by
  funext s
  unfold streamOf
  rw [hn]

theorem Slotted.of_nStream (hs : st.Slotted n slots) (hn : cur.nStream = st.nStream) :
    cur.Slotted n slots := by
  have hstream := streamOf_congr hn
  refine ⟨?_, fun x hx => ?_, hs.length, hs.nodup, hs.lt, hs.rows, fun x hx r hr s hs' => ?_⟩
  · rw [hstream]
    exact hs.distinct
  · rw [hstream, hn]
    exact hs.stream x hx
  · rw [hstream]
    exact hs.home x hx r hr s hs'

/-- The last positions that are overwritten depend on the cells of the slots alone. -/
theorem Remembers.unique {taken taken' : Nat → Int → Prop} {rm rm' : Nat → Int} (h : Remembers taken (fun _ => -1) rm)
    (h' : Remembers taken' (fun _ => -1) rm') (ht : ∀ s p, taken s p ↔ taken' s p) : rm = rm' := by
  funext s
  apply le_antisymm
  · rcases h.last s with heq | htaken
    · exact heq ▸ h'.mono s
    · exact h'.le s _ ((ht s _).mp htaken)
  · rcases h'.last s with heq | htaken
    · exact heq ▸ h.mono s
    · exact h.le s _ ((ht s _).mpr htaken)

/-- One step of the undoing. -/
theorem undo_step (h : st.Inv n) (hs : st.Slotted n slots) {rm : Nat → Int}
    (ha : Applied n st slots rm (st.applyUbatch slots)) {us : List (List (Part Unit))}
    (hfits : ∀ u ∈ us, (st.applyUbatch slots).Fits u) {r : Bool × List Saved × Streams Unit}
    (hrun : (st.applyUbatch slots).dryRun us = some r) :
    (undo (st.save slots :: r.2.1) r.2.2).Inv n ∧ (undo (st.save slots :: r.2.1) r.2.2).nStream = st.nStream ∧
      (∀ k i, st.InSlots slots k i → ((undo (st.save slots :: r.2.1) r.2.2).strm k).cells.cell i =
        { (st.strm k).cells.cell i with shift := 0 }) ∧
      ∀ k i, ¬ st.InSlots slots k i → ((undo (st.save slots :: r.2.1) r.2.2).strm k).cells.cell i =
        ((undo r.2.1 r.2.2).strm k).cells.cell i := by
  have hrest := dryRun_rest us (st.applyUbatch slots) ha.inv ha.home hfits hrun
  have hshift : ∀ k i, st.InSlots slots k i → (((undo r.2.1 r.2.2).strm k).cells.cell i).shift = 0 := by
    intro k i hin
    obtain ⟨x, hx, rfl, hi⟩ := hin
    exact hrest.shift _ (ha.nStream.symm ▸ hs.stream x hx) i (hs.lt x hx i hi) (ha.shift hs ⟨x, hx, rfl, hi⟩)
  obtain ⟨r1, r2, r3, r4, -, -⟩ := restore_spec h hs hrest.inv (hrest.nStream.trans ha.nStream) hshift
  exact ⟨r1, r2, r3, r4⟩

/-- Cells that are under each other. -/
theorem Inv.same_of_under (h : st.Inv n) (hcur : cur.Inv n) (hn : cur.nStream = st.nStream) {k i : Nat} (hk : k < st.nStream)
    (hi : i < n) (hlow : ((st.strm k).cells.cell i).Under ((cur.strm k).cells.cell i))
    (hup : ((cur.strm k).cells.cell i).Under ((st.strm k).cells.cell i)) :
    ((cur.strm k).cells.cell i).seq = ((st.strm k).cells.cell i).seq ∧
      ((cur.strm k).cells.cell i).pos = ((st.strm k).cells.cell i).pos := by
  have hseq := hup.seq_eq hlow
  refine ⟨hseq, ?_⟩
  by_cases hempty : ((cur.strm k).cells.cell i).seq = ∅
  · rw [hcur.empty_of_seq (hn ▸ hk) hi hempty, h.empty_of_seq hk hi (hseq ▸ hempty)]
  · exact hup.pos hempty

/-- Cells that are under each other are taken alike. -/
theorem taken_congr (hs : ∀ k i, st.InSlots slots k i → ((cur.strm k).cells.cell i).seq = ((st.strm k).cells.cell i).seq ∧
      ((cur.strm k).cells.cell i).pos = ((st.strm k).cells.cell i).pos) (hn : cur.nStream = st.nStream) (s : Nat) (p : Int) :
    cur.Taken slots s p ↔ st.Taken slots s p := by
  have hstream := streamOf_congr hn
  refine exists_congr fun x => and_congr_right fun hx => exists_congr fun i => and_congr_right fun hi => ?_
  obtain ⟨hseq, hpos⟩ := hs _ i ⟨x, hx, rfl, hi⟩
  rw [hstream, hpos, Cells.seqGet, Cells.seqGet, hseq]

/-- What the undoing of a dry run leaves is under the cache that it began with. -/
theorem undo_below : ∀ (us : List (List (Part Unit))) (st : Streams Unit) {r : Bool × List Saved × Streams Unit}, st.Inv n →
    st.Home → (∀ u ∈ us, st.Fits u) → st.dryRun us = some r → (undo r.2.1 r.2.2).Below n st
  | [], st, r, _, _, _, hrun => by
    cases hrun
    exact fun k _ i _ => .refl _
  | u :: us, st, r, h, hhome, hfits, hrun => by
    rw [dryRun] at hrun
    split at hrun
    · cases hfind : st.findSlot false u with
      | none =>
          rw [hfind] at hrun
          cases hrun
          exact fun k _ i _ => .refl _
      | some slots =>
          rw [hfind] at hrun
          obtain ⟨r', hrun', rfl⟩ := Option.map_eq_some_iff.mp hrun
          obtain ⟨-, hs, -⟩ := (hfits u List.mem_cons_self).slots h hfind
          obtain ⟨rm, ha⟩ := applyUbatch_spec h hhome hs
          have hfits' : ∀ v ∈ us, (st.applyUbatch slots).Fits v := fun v hv =>
            (hfits v (List.mem_cons_of_mem _ hv)).of_nStream ha.nStream
          have hbelow := undo_below us (st.applyUbatch slots) ha.inv ha.home hfits' hrun'
          obtain ⟨-, -, r3, r4⟩ := undo_step h hs ha hfits' hrun'
          intro k hk i hi
          by_cases hin : st.InSlots slots k i
          · rw [r3 k i hin]
            exact ⟨subset_rfl, fun _ => rfl⟩
          · rw [r4 k i hin]
            exact (hbelow k (ha.nStream.symm ▸ hk) i hi).trans
              (ha.left k hk i hi fun x hx hxk hix => hin ⟨x, hx, hxk, hix⟩).under
    · cases hrun

/-- One ubatch of the dry run. -/
theorem dryRun_cons {u : List (Part Unit)} {us : List (List (Part Unit))} {saved : List Saved} {last : Streams Unit}
    (hrun : st.dryRun (u :: us) = some (true, saved, last)) : ∃ slots saved', st.admits u = true ∧
      st.findSlot false u = some slots ∧ saved = st.save slots :: saved' ∧
        (st.applyUbatch slots).dryRun us = some (true, saved', last) := by
  rw [dryRun] at hrun
  split at hrun
  · rename_i hadmits
    cases hfind : st.findSlot false u with
    | none =>
        rw [hfind] at hrun
        cases hrun
    | some slots =>
        rw [hfind] at hrun
        obtain ⟨⟨ok, saved', last'⟩, hrun', heq⟩ := Option.map_eq_some_iff.mp hrun
        cases heq
        exact ⟨slots, saved', hadmits, rfl, rfl, hrun'⟩
  · cases hrun

/-- The dry run stores the ubatches. -/
theorem emplaceAll_eq : ∀ {us : List (List (Part Unit))} {st : Streams Unit} {saved : List Saved} {last : Streams Unit},
    st.dryRun us = some (true, saved, last) → st.emplaceAll us = some last
  | [], st, saved, last, hrun => by
    cases hrun
    rfl
  | u :: us, st, saved, last, hrun => by
    obtain ⟨slots, saved', hadmits, hfind, -, hrun'⟩ := dryRun_cons hrun
    rw [emplaceAll, emplace, if_pos hadmits, hfind]
    exact emplaceAll_eq hrun'

/-- **The slots of the dry run, in the cache that its undoing has left** : in the end the cells are those of the dry run. The
cells of a slot have come back, and the others have lost only what the run itself takes from them. -/
theorem commit_spec : ∀ (us : List (List (Part Unit))) {st : Streams Unit} {saved : List Saved} {last : Streams Unit},
    st.Inv n → st.Home → (∀ u ∈ us, st.Fits u) → st.dryRun us = some (true, saved, last) → ∀ {cur : Streams Unit}, cur.Inv n →
    cur.Home → cur.nStream = st.nStream → (undo saved last).Below n cur → cur.Below n st →
      ((saved.map Saved.slots).foldl applyUbatch cur).Inv n ∧ ((saved.map Saved.slots).foldl applyUbatch cur).Home ∧
        ((saved.map Saved.slots).foldl applyUbatch cur).nStream = last.nStream ∧
          ((saved.map Saved.slots).foldl applyUbatch cur).Below n last ∧
            last.Below n ((saved.map Saved.slots).foldl applyUbatch cur)
  | [], st, saved, last, _, _, _, hrun, cur, hcur, hcurhome, hn, hlow, hup => by
    cases hrun
    exact ⟨hcur, hcurhome, hn, hup, hlow⟩
  | u :: us, st, saved, last, h, hhome, hfits, hrun, cur, hcur, hcurhome, hn, hlow, hup => by
    obtain ⟨slots, saved, -, hfind, rfl, hrun'⟩ := dryRun_cons hrun
    obtain ⟨-, hs, -⟩ := (hfits u List.mem_cons_self).slots h hfind
    obtain ⟨rm, ha⟩ := applyUbatch_spec h hhome hs
    obtain ⟨rm', ha'⟩ := applyUbatch_spec hcur hcurhome (hs.of_nStream hn)
    have hstream := streamOf_congr hn
    have hfits' : ∀ v ∈ us, (st.applyUbatch slots).Fits v := fun v hv =>
      (hfits v (List.mem_cons_of_mem _ hv)).of_nStream ha.nStream
    have hback := undo_below us _ ha.inv ha.home hfits' hrun'
    obtain ⟨-, hundo, hslot, hother⟩ := undo_step h hs ha hfits' hrun'
    -- the cells of the slots are as in the dry run
    have hsame : ∀ k i, st.InSlots slots k i → ((cur.strm k).cells.cell i).seq = ((st.strm k).cells.cell i).seq ∧
        ((cur.strm k).cells.cell i).pos = ((st.strm k).cells.cell i).pos := by
      intro k i hin
      obtain ⟨x, hx, rfl, hi⟩ := hin
      have hk := hs.stream x hx
      have hcell := hlow _ (by rw [hn]; exact hk) i (hs.lt x hx i hi)
      rw [hslot _ i ⟨x, hx, rfl, hi⟩] at hcell
      exact h.same_of_under hcur hn hk (hs.lt x hx i hi) ⟨hcell.subset, hcell.pos⟩ (hup _ hk i (hs.lt x hx i hi))
    obtain rfl : rm' = rm := Remembers.unique ha'.remembers ha.remembers (taken_congr hsame hn)
    have hstored : ∀ k i, st.InSlots slots k i → (((st.applyUbatch slots).strm k).cells.cell i).Under
        (((cur.applyUbatch slots).strm k).cells.cell i) ∧ (((cur.applyUbatch slots).strm k).cells.cell i).Under
          (((st.applyUbatch slots).strm k).cells.cell i) := by
      rintro k i ⟨x, hx, rfl, hi⟩
      obtain ⟨r, -, hzip⟩ := hs.row_of_mem hx hi
      have hin := ha.stored x hx _ hzip
      have hin' := ha'.stored x hx _ hzip
      rw [hstream] at hin'
      exact ⟨(Cell.Under.refl r.cell).sheds hin' hin, (Cell.Under.refl r.cell).sheds hin hin'⟩
    have hleft : ∀ k < st.nStream, ∀ i < n, ¬ st.InSlots slots k i → ((cur.strm k).cells.cell i).Sheds
        (((cur.applyUbatch slots).strm k).cells.cell i) fun s => rm' s < ((cur.strm k).cells.cell i).pos := by
      intro k hk i hi hout
      refine ha'.left k (hn ▸ hk) i hi fun x hx hxk hix => hout ⟨x, hx, ?_, hix⟩
      rw [← hstream]
      exact hxk
    have hleft' : ∀ k < st.nStream, ∀ i < n, ¬ st.InSlots slots k i → ((st.strm k).cells.cell i).Sheds
        (((st.applyUbatch slots).strm k).cells.cell i) fun s => rm' s < ((st.strm k).cells.cell i).pos :=
      fun k hk i hi hout => ha.left k hk i hi fun x hx hxk hix => hout ⟨x, hx, hxk, hix⟩
    refine commit_spec us ha.inv ha.home hfits' hrun' ha'.inv ha'.home (ha'.nStream.trans (hn.trans ha.nStream.symm)) ?_ ?_
    · intro k hk i hi
      have hk : k < st.nStream := hn ▸ ha'.nStream ▸ hk
      have hunder := hback k (ha.nStream.symm ▸ hk) i hi
      by_cases hin : st.InSlots slots k i
      · exact hunder.trans (hstored k i hin).1
      · have hcur' := hlow k (hn.symm ▸ hk) i hi
        rw [hother k i hin] at hcur'
        exact hunder.into_sheds hcur' (hup k hk i hi) (hleft' k hk i hi hin) (hleft k hk i hi hin)
    · intro k hk i hi
      rw [ha.nStream] at hk
      by_cases hin : st.InSlots slots k i
      · exact (hstored k i hin).2
      · exact (hup k hk i hi).sheds (hleft' k hk i hi hin) (hleft k hk i hi hin)

/-- What a batch leaves, stored in the slots that `prepare` returns. -/
theorem prepare_commit (h : st.Inv n) (hhome : st.Home) {us : List (List (Part Unit))} (hfits : ∀ u ∈ us, st.Fits u)
    {slots : List (List (Part Unit × List Nat))} {fin : Streams Unit} (hrun : st.prepare us = some (some slots, fin)) :
    ∃ last, st.emplaceAll us = some last ∧ (slots.foldl applyUbatch fin).Inv n ∧ (slots.foldl applyUbatch fin).Home ∧
      (slots.foldl applyUbatch fin).nStream = last.nStream ∧ (slots.foldl applyUbatch fin).Below n last ∧
        last.Below n (slots.foldl applyUbatch fin) := by
  unfold prepare at hrun
  obtain ⟨⟨ok, saved, last⟩, hdry, hrun⟩ := Option.bind_eq_some_iff.mp hrun
  split at hrun
  · cases hrun
  · cases ok with
    | false => cases hrun
    | true =>
        cases hrun
        have hrest := dryRun_rest us st h hhome hfits hdry
        have hbelow := undo_below us st h hhome hfits hdry
        have hback : (undo saved last).Home := hhome.of_subset h hrest.inv hrest.nStream fun k hk i hi =>
          (hbelow k hk i hi).subset
        exact ⟨last, emplaceAll_eq hdry, commit_spec us h hhome hfits hdry hrest.inv hback hrest.nStream
          (fun _ _ _ _ => .refl _) hbelow⟩

end

end Streams

end S2Moe.Kv
