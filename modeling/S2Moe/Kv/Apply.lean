import S2Moe.Kv.Slots

/-!
# `apply_ubatch`

* `Cell.Sheds` : a cell that loses some of its sequences, and its position with the last of them;
* `Remembers` : what `seq_pos_max_rm` has to do with the cells that are taken;
* `Streams.Home` : every sequence is in its stream;
* `Applied` : the cells and heads behind `apply_ubatch`; `applyUbatch_spec`;
* `reaches_home` : in every run the sequences stay in their streams.
-/

namespace S2Moe.Kv
open S2Moe.Lib
open S2Moe.Recurrent (lower upper posMax)

/-- The cell `y` is `x` without the sequences that are not `q`. -/
structure Cell.Sheds (x y : Cell) (q : Nat → Prop) : Prop where
  mem : ∀ u, u ∈ y.seq ↔ u ∈ x.seq ∧ q u
  kept : y.seq ≠ ∅ → y.pos = x.pos ∧ y.shift = x.shift
  empty : y.seq = ∅ → y = {}

section Sheds
variable {x y z : Cell} {q q' : Nat → Prop}

theorem Cell.Sheds.rfl' (h : x.seq = ∅ → x = {}) : x.Sheds x fun _ => True where
  mem _ := (and_iff_left trivial).symm
  kept _ := ⟨rfl, rfl⟩
  empty := h

theorem Cell.Sheds.congr (h : x.Sheds y q) (hq : ∀ u ∈ x.seq, q u ↔ q' u) : x.Sheds y q' where
  mem u := (h.mem u).trans (and_congr_right fun hu => hq u hu)
  kept := h.kept
  empty := h.empty

/-- Nothing is shed. -/
theorem Cell.Sheds.eq_self (h : x.Sheds y q) (hx : x.seq = ∅ → x = {}) (hq : ∀ u ∈ x.seq, q u) : y = x := by
  have hseq : y.seq = x.seq := by
    ext u
    rw [h.mem]
    exact ⟨And.left, fun hu => ⟨hu, hq u hu⟩⟩
  by_cases hempty : y.seq = ∅
  · rw [h.empty hempty, hx (hseq.symm.trans hempty)]
  · obtain ⟨hpos, hshift⟩ := h.kept hempty
    cases x
    cases y
    simp_all

theorem Cell.sheds_removed {s : Nat} {p0 p1 : Int} (h : x.seq = ∅ → x = {}) :
    x.Sheds (x.removed s p0 p1) fun u => u = s → ¬ x.within p0 p1 := by
  unfold Cell.removed
  split
  · rename_i hc
    split
    · rename_i hleft
      refine ⟨fun u => ⟨fun hu => absurd hu (Finset.notMem_empty u), fun hu => ?_⟩, fun hne => absurd rfl hne, fun _ => rfl⟩
      by_cases hus : u = s
      · exact absurd hc.1 (hu.2 hus)
      · have hmem : u ∈ x.seq.erase s := Finset.mem_erase.mpr ⟨hus, hu.1⟩
        rw [hleft] at hmem
        exact hmem
    · rename_i hleft
      refine ⟨fun u => ?_, fun _ => ⟨rfl, rfl⟩, fun he => absurd he hleft⟩
      dsimp only
      rw [Finset.mem_erase]
      exact ⟨fun hu => ⟨hu.2, fun hus => absurd hus hu.1⟩, fun hu => ⟨fun hus => hu.2 hus hc.1, hu.1⟩⟩
  · rename_i hc
    refine ⟨fun u => ⟨fun hu => ⟨hu, fun hus hw => hc ⟨hw, hus ▸ hu⟩⟩, And.left⟩, fun _ => ⟨rfl, rfl⟩, h⟩

end Sheds

section
variable {D : Type}

/-! ## The tokens are stored -/

def Row.cell (r : Row D) : Cell := ⟨r.pos, 0, r.ids.toFinset⟩

/-- A token of sequence `s` at position `p` is in one of the cells. -/
def Cells.Taken (c : Cells) (idxs : List Nat) (s : Nat) (p : Int) : Prop :=
  ∃ i ∈ idxs, (c.cell i).pos = p ∧ p ≠ -1 ∧ c.seqGet i = some s

/-- Behind the tokens that `taken` names, `rm'` has the last positions where `rm` had them before. -/
structure Remembers (taken : Nat → Int → Prop) (rm rm' : Nat → Int) : Prop where
  mono : ∀ s, rm s ≤ rm' s
  last : ∀ s, rm' s = rm s ∨ taken s (rm' s)
  le : ∀ s p, taken s p → p ≤ rm' s

theorem Remembers.trans {t t' t'' : Nat → Int → Prop} {rm rm' rm'' : Nat → Int} (h : Remembers t rm rm')
    (h' : Remembers t' rm' rm'') (ht : ∀ s p, t'' s p ↔ t s p ∨ t' s p) : Remembers t'' rm rm'' where
  mono s := (h.mono s).trans (h'.mono s)
  last s := by
    rcases h'.last s with heq | htaken
    · rcases h.last s with heq' | htaken
      · exact .inl (heq.trans heq')
      · exact .inr ((ht s _).mpr (.inl (heq ▸ htaken)))
    · exact .inr ((ht s _).mpr (.inr htaken))
  le s p hp := by
    rcases (ht s p).mp hp with hp | hp
    · exact (h.le s p hp).trans (h'.mono s)
    · exact h'.le s p hp

theorem Cells.write_remembers (c : Cells) (rm : Nat → Int) (i : Nat) (p : Int) (ids : List Nat) :
    Remembers (c.Taken [i]) rm (c.write rm i p ids).2 := by
  have htaken : ∀ s q, c.Taken [i] s q ↔ (c.cell i).pos = q ∧ q ≠ -1 ∧ c.seqGet i = some s := by
    intro s q
    unfold Cells.Taken
    simp only [List.mem_singleton, exists_eq_left]
  unfold Cells.write
  split
  · rename_i he
    have hempty := of_decide_eq_true he
    refine ⟨fun _ => le_rfl, fun _ => .inl rfl, fun s q hq => ?_⟩
    obtain ⟨hpos, hne, -⟩ := (htaken s q).mp hq
    exact absurd (hpos.symm.trans hempty) hne
  · rename_i hne
    have hpos : (c.cell i).pos ≠ -1 := fun hc => hne (decide_eq_true hc)
    dsimp only
    cases hget : c.seqGet i with
    | none =>
        refine ⟨fun _ => le_rfl, fun _ => .inl rfl, fun s q hq => ?_⟩
        obtain ⟨-, -, hs⟩ := (htaken s q).mp hq
        rw [hget] at hs
        cases hs
    | some t =>
        refine ⟨fun s => ?_, fun s => ?_, fun s q hq => ?_⟩
        · by_cases hst : s = t
          · rw [hst, Option.elim_some, Function.update_self]
            exact le_max_left _ _
          · rw [Option.elim_some, Function.update_of_ne hst]
        · by_cases hst : s = t
          · rw [hst, Option.elim_some, Function.update_self]
            rcases max_choice (rm t) (c.cell i).pos with hmax | hmax
            · exact .inl hmax
            · refine .inr ((htaken t _).mpr ?_)
              rw [hmax]
              exact ⟨rfl, hpos, hget⟩
          · rw [Option.elim_some, Function.update_of_ne hst]
            exact .inl rfl
        · obtain ⟨hat, -, hs⟩ := (htaken s q).mp hq
          obtain rfl : t = s := Option.some.inj (hget.symm.trans hs)
          rw [Option.elim_some, Function.update_self, hat]
          exact le_max_right _ _

/-- The cells and `seq_pos_max_rm` behind the tokens of one stream. -/
theorem Cache.Good.writeRows_spec {n : Nat} : ∀ (idxs : List Nat) (rows : List (Row D)) (c : Cache D) (rm : Nat → Int),
    c.Good n → idxs.length = rows.length → idxs.Nodup → (∀ i ∈ idxs, i < n) → (∀ r ∈ rows, r.Ok ∧ r.pos ≤ posMax) →
    (∀ x ∈ idxs.zip rows, (c.writeRows rm idxs rows).1.cells.cell x.1 = x.2.cell) ∧
      (∀ j, j ∉ idxs → (c.writeRows rm idxs rows).1.cells.cell j = c.cells.cell j) ∧
      (c.writeRows rm idxs rows).1.head = c.head ∧
      Remembers (c.cells.Taken idxs) rm (c.writeRows rm idxs rows).2
  | [], [], c, rm, _, _, _, _, _ =>
    ⟨fun _ hx => absurd hx List.not_mem_nil, fun _ _ => rfl, rfl,
      ⟨fun _ => le_rfl, fun _ => .inl rfl, fun _ _ ht => by obtain ⟨_, hi, -⟩ := ht; cases hi⟩⟩
  | i :: idxs, r :: rows, c, rm, h, hlen, hnodup, hlt, hok => by
    obtain ⟨hnot, hnodup⟩ := List.nodup_cons.mp hnodup
    have hi : i < c.cells.size := by
      rw [h.size_eq]
      exact hlt i List.mem_cons_self
    obtain ⟨hr, hle⟩ := hok r List.mem_cons_self
    obtain ⟨-, -, hcell⟩ := h.ok.rep.write rm hi hr.pos hr.ne hr.nodup
    have hgood : ({ c with cells := (c.cells.write rm i r.pos r.ids).1, data := Function.update c.data i r.val } :
      Cache D).Good n :=
      Cache.Good.writeRows [i] [r] c rm h (fun j hj => hlt j (by rw [List.mem_singleton.mp hj]; exact List.mem_cons_self))
        fun q hq => hok q (by rw [List.mem_singleton.mp hq]; exact List.mem_cons_self)
    obtain ⟨h1, h2, h3, h4⟩ := Cache.Good.writeRows_spec idxs rows _ (c.cells.write rm i r.pos r.ids).2 hgood
      (Nat.succ.inj hlen) hnodup (fun j hj => hlt j (List.mem_cons_of_mem _ hj))
      fun q hq => hok q (List.mem_cons_of_mem _ hq)
    rw [Cache.writeRows]
    have hother : ∀ j, j ≠ i → (c.cells.write rm i r.pos r.ids).1.cell j = c.cells.cell j := by
      intro j hj
      rw [hcell, Function.update_of_ne hj]
    refine ⟨fun x hx => ?_, fun j hj => ?_, h3, (Cells.write_remembers c.cells rm i r.pos r.ids).trans h4 fun s p => ?_⟩
    · rcases List.mem_cons.mp hx with rfl | hx
      · rw [h2 i hnot]
        dsimp only
        rw [hcell, Function.update_self]
        rfl
      · exact h1 x hx
    · rw [List.mem_cons, not_or] at hj
      rw [h2 j hj.2]
      exact hother j hj.1
    · -- the other cells are as before
      unfold Cells.Taken Cells.seqGet
      constructor
      · rintro ⟨j, hj, hat⟩
        rcases List.mem_cons.mp hj with rfl | hj
        · exact .inl ⟨j, List.mem_cons_self, hat⟩
        · refine .inr ⟨j, hj, ?_⟩
          rw [hother j fun hc => hnot (hc ▸ hj)]
          exact hat
      · rintro (⟨j, hj, hat⟩ | ⟨j, hj, hat⟩)
        · rw [List.mem_singleton.mp hj] at hat
          exact ⟨i, List.mem_cons_self, hat⟩
        · rw [hother j fun hc => hnot (hc ▸ hj)] at hat
          exact ⟨j, List.mem_cons_of_mem _ hj, hat⟩

namespace Streams

/-- Every cell is in the stream of its sequences. -/
def Home (st : Streams D) : Prop :=
  ∀ k < st.nStream, ∀ i < (st.strm k).cells.size, ∀ s ∈ ((st.strm k).cells.cell i).seq, s < maxSeq ∧ st.streamOf s = k

/-- A token of sequence `s` at position `p` is in one of the cells of the slots. -/
def Taken (st : Streams D) (slots : List (Part D × List Nat)) (s : Nat) (p : Int) : Prop :=
  ∃ x ∈ slots, (st.strm (st.streamOf x.1.seq)).cells.Taken x.2 s p

/-- Slots in different streams of `n` cells, one cell for each token. -/
structure Slotted (n : Nat) (st : Streams D) (slots : List (Part D × List Nat)) : Prop where
  distinct : (slots.map fun x => st.streamOf x.1.seq).Nodup
  stream : ∀ x ∈ slots, st.streamOf x.1.seq < st.nStream
  length : ∀ x ∈ slots, x.2.length = x.1.rows.length
  nodup : ∀ x ∈ slots, x.2.Nodup
  lt : ∀ x ∈ slots, ∀ i ∈ x.2, i < n
  rows : ∀ x ∈ slots, ∀ r ∈ x.1.rows, r.Ok ∧ r.pos ≤ posMax
  home : ∀ x ∈ slots, ∀ r ∈ x.1.rows, ∀ s ∈ r.ids, s < maxSeq ∧ st.streamOf s = st.streamOf x.1.seq

section
variable {n : Nat} {st : Streams D}

theorem Slotted.tail {x : Part D × List Nat} {slots : List (Part D × List Nat)} (h : st.Slotted n (x :: slots)) :
    st.Slotted n slots where
  distinct := (List.nodup_cons.mp h.distinct).2
  stream y hy := h.stream y (List.mem_cons_of_mem _ hy)
  length y hy := h.length y (List.mem_cons_of_mem _ hy)
  nodup y hy := h.nodup y (List.mem_cons_of_mem _ hy)
  lt y hy := h.lt y (List.mem_cons_of_mem _ hy)
  rows y hy := h.rows y (List.mem_cons_of_mem _ hy)
  home y hy := h.home y (List.mem_cons_of_mem _ hy)

/-- The streams of the other slots. -/
theorem Slotted.ne {x : Part D × List Nat} {slots : List (Part D × List Nat)} (h : st.Slotted n (x :: slots))
    {y : Part D × List Nat} (hy : y ∈ slots) : st.streamOf y.1.seq ≠ st.streamOf x.1.seq :=
  fun hc => (List.nodup_cons.mp h.distinct).1 (List.mem_map.mpr ⟨y, hy, hc⟩)

/-- The cells and `seq_pos_max_rm` behind all tokens of a ubatch. -/
theorem writeParts_spec : ∀ (slots : List (Part D × List Nat)) (st : Streams D) (rm : Nat → Int), st.Inv n →
    st.Slotted n slots →
    (∀ x ∈ slots, ∀ y ∈ x.2.zip x.1.rows,
        ((st.writeParts rm slots).1.strm (st.streamOf x.1.seq)).cells.cell y.1 = y.2.cell) ∧
      (∀ k j, (∀ x ∈ slots, st.streamOf x.1.seq = k → j ∉ x.2) →
        ((st.writeParts rm slots).1.strm k).cells.cell j = (st.strm k).cells.cell j) ∧
      (∀ k, (∀ x ∈ slots, st.streamOf x.1.seq ≠ k) → (st.writeParts rm slots).1.strm k = st.strm k) ∧
      (∀ k, ((st.writeParts rm slots).1.strm k).head = (st.strm k).head) ∧
      (st.writeParts rm slots).1.nStream = st.nStream ∧ Remembers (st.Taken slots) rm (st.writeParts rm slots).2
  | [], st, rm, _, _ =>
    ⟨fun _ hx => absurd hx List.not_mem_nil, fun _ _ _ => rfl, fun _ _ => rfl, fun _ => rfl, rfl,
      ⟨fun _ => le_rfl, fun _ => .inl rfl, fun _ _ ht => by obtain ⟨_, hx, -⟩ := ht; cases hx⟩⟩
  | (part, idxs) :: slots, st, rm, h, hs => by
    have hgood := h.good _ (hs.stream _ List.mem_cons_self)
    obtain ⟨w1, w2, w3, w4⟩ := Cache.Good.writeRows_spec idxs part.rows _ rm hgood (hs.length _ List.mem_cons_self)
      (hs.nodup _ List.mem_cons_self) (hs.lt _ List.mem_cons_self) (hs.rows _ List.mem_cons_self)
    have hgood' := Cache.Good.writeRows idxs part.rows _ rm hgood (hs.lt _ List.mem_cons_self) (hs.rows _ List.mem_cons_self)
    rw [Streams.writeParts]
    generalize (st.strm (st.streamOf part.seq)).writeRows rm idxs part.rows = w at w1 w2 w3 w4 hgood' ⊢
    have hself : (st.set (st.streamOf part.seq) w.1).strm (st.streamOf part.seq) = w.1 := Function.update_self _ _ _
    have hother : ∀ k, st.streamOf part.seq ≠ k → (st.set (st.streamOf part.seq) w.1).strm k = st.strm k :=
      fun k hk => Function.update_of_ne (Ne.symm hk) _ _
    have hs' : (st.set (st.streamOf part.seq) w.1).Slotted n slots :=
      ⟨hs.tail.distinct, hs.tail.stream, hs.tail.length, hs.tail.nodup, hs.tail.lt, hs.tail.rows, hs.tail.home⟩
    obtain ⟨p1, p2, p3, p4, p5, p6⟩ := writeParts_spec slots (st.set (st.streamOf part.seq) w.1) w.2
      (h.set fun _ => hgood') hs'
    have hne : ∀ x ∈ slots, st.streamOf x.1.seq ≠ st.streamOf part.seq := fun x hx => hs.ne hx
    refine ⟨fun x hx y hy => ?_, fun k j hj => ?_, fun k hk => ?_, fun k => ?_, p5, w4.trans p6 fun s p => ?_⟩
    · rcases List.mem_cons.mp hx with rfl | hx
      · rw [p3 _ hne, hself]
        exact w1 y hy
      · exact p1 x hx y hy
    · rw [p2 k j fun x hx => hj x (List.mem_cons_of_mem _ hx)]
      by_cases hk : st.streamOf part.seq = k
      · rw [← hk, hself]
        exact w2 j (hj _ List.mem_cons_self hk)
      · rw [hother k hk]
    · rw [p3 k fun x hx => hk x (List.mem_cons_of_mem _ hx), hother k (hk _ List.mem_cons_self)]
    · rw [p4 k]
      by_cases hk : st.streamOf part.seq = k
      · rw [← hk, hself]
        exact w3
      · rw [hother k hk]
    · constructor
      · rintro ⟨x, hx, htaken⟩
        rcases List.mem_cons.mp hx with rfl | hx
        · exact .inl htaken
        · refine .inr ⟨x, hx, ?_⟩
          change ((st.set (st.streamOf part.seq) w.1).strm (st.streamOf x.1.seq)).cells.Taken x.2 s p
          rwa [hother _ (Ne.symm (hne x hx))]
      · rintro (htaken | ⟨x, hx, htaken⟩)
        · exact ⟨_, List.mem_cons_self, htaken⟩
        · refine ⟨x, List.mem_cons_of_mem _ hx, ?_⟩
          change ((st.set (st.streamOf part.seq) w.1).strm (st.streamOf x.1.seq)).cells.Taken x.2 s p at htaken
          rwa [hother _ (Ne.symm (hne x hx))] at htaken

/-! ## The purge -/

/-- The step for sequence `s`. -/
def purgeAt (rm : Nat → Int) (st : Streams D) (s : Nat) : Streams D :=
  let c := st.strm (st.streamOf s)
  if rm s = -1 then st
  else if c.cells.seqPosMin s ≤ rm s then st.set (st.streamOf s) (c.seqRm s (c.cells.seqPosMin s) (rm s + 1))
  else st

theorem purge_eq (st : Streams D) (rm : Nat → Int) : st.purge rm = (List.range maxSeq).foldl (purgeAt rm) st := rfl

theorem Inv.empty_of_seq (h : st.Inv n) {k i : Nat} (hk : k < st.nStream) (hi : i < n)
    (hs : ((st.strm k).cells.cell i).seq = ∅) : (st.strm k).cells.cell i = {} :=
  (h.good k hk).ok.rep.cell_eq_empty (by rw [(h.good k hk).size_eq]; exact hi) hs

theorem Inv.nonneg (h : st.Inv n) {k i s : Nat} (hk : k < st.nStream) (hi : i < n)
    (hs : s ∈ ((st.strm k).cells.cell i).seq) : 0 ≤ ((st.strm k).cells.cell i).pos := by
  have hlt : i < (st.strm k).cells.size := by
    rw [(h.good k hk).size_eq]
    exact hi
  exact (h.good k hk).ok.rep.nonneg i hlt ((h.good k hk).ok.rep.pos_ne hlt hs)

/-- Sequence `s` leaves the cells up to `rm s`. -/
theorem purgeAt_sheds (h : st.Inv n) (hhome : st.Home) {rm : Nat → Int} {s : Nat} (hrm : -1 ≤ rm s) {k i : Nat}
    (hk : k < st.nStream) (hi : i < n) : ((st.strm k).cells.cell i).Sheds (((purgeAt rm st s).strm k).cells.cell i)
      fun u => u = s → rm s < ((st.strm k).cells.cell i).pos := by
  have hgood := h.good k hk
  have hlt : i < (st.strm k).cells.size := by
    rw [hgood.size_eq]
    exact hi
  have hsame := Cell.Sheds.rfl' (h.empty_of_seq hk hi)
  unfold purgeAt
  dsimp only
  split
  · rename_i hnone
    refine hsame.congr fun u hu => ⟨fun _ _ => ?_, fun _ => trivial⟩
    have := h.nonneg hk hi hu
    omega
  · rename_i hsome
    by_cases hks : k = st.streamOf s
    · have hinv := hgood.ok.rep.cellsInv hgood.bounded
      split
      · rename_i hmin
        rw [← hks]
        change ((st.strm k).cells.cell i).Sheds ((Function.update st.strm k _ k).cells.cell i) _
        rw [Function.update_self, (hgood.ok.seqRm s _ _).cell_eq i hlt]
        refine (Cell.sheds_removed (h.empty_of_seq hk hi)).congr fun u hu => forall_congr' fun hus => ?_
        subst hus
        -- the first position of the sequence is one
        have hle := hinv.min_le u i hlt hu
        obtain ⟨j, hj⟩ := hinv.min_mem u fun hc => (hinv.min_none u).mp hc i hlt hu
        obtain ⟨hj, hpos, hmem⟩ := Finset.mem_filter.mp hj
        have hnonneg := h.nonneg hk (by rw [← hgood.size_eq]; exact Finset.mem_range.mp hj) hmem
        unfold Cell.within lower upper
        rw [if_neg (by omega), if_neg (by omega)]
        omega
      · rename_i hmin
        rw [← hks] at hmin
        refine hsame.congr fun u hu => ⟨fun _ hus => ?_, fun _ => trivial⟩
        have := hinv.min_le u i hlt hu
        rw [hus] at this
        omega
    · have hstrm : (if (st.strm (st.streamOf s)).cells.seqPosMin s ≤ rm s then st.set (st.streamOf s)
          ((st.strm (st.streamOf s)).seqRm s ((st.strm (st.streamOf s)).cells.seqPosMin s) (rm s + 1)) else st).strm k =
          st.strm k := by
        split
        · exact Function.update_of_ne hks _ _
        · rfl
      rw [hstrm]
      exact hsame.congr fun u hu => ⟨fun _ hus => absurd (hhome k hk i hlt u hu).2 (hus ▸ Ne.symm hks), fun _ => trivial⟩

theorem purgeAt_nStream (rm : Nat → Int) (st : Streams D) (s : Nat) : (purgeAt rm st s).nStream = st.nStream := by
  unfold purgeAt
  dsimp only
  split
  · rfl
  · split
    · rfl
    · rfl

theorem purgeAt_strm (rm : Nat → Int) (st : Streams D) {s k : Nat} (hk : st.streamOf s = k → rm s = -1) :
    (purgeAt rm st s).strm k = st.strm k := by
  unfold purgeAt
  dsimp only
  split
  · rfl
  · rename_i hsome
    split
    · exact Function.update_of_ne (fun hc => hsome (hk hc.symm)) _ _
    · rfl

theorem purgeAt_inv (h : st.Inv n) (rm : Nat → Int) (s : Nat) : (purgeAt rm st s).Inv n := by
  unfold purgeAt
  dsimp only
  split
  · exact h
  · split
    · exact h.set fun hk => (h.good _ hk).seqRm _ _ _
    · exact h

/-- Cells that only lose sequences stay in the streams of those they keep. -/
theorem Home.of_subset {st' : Streams D} (hhome : st.Home) (h : st.Inv n) (h' : st'.Inv n) (hn : st'.nStream = st.nStream)
    (hcell : ∀ k < st.nStream, ∀ i < n, ((st'.strm k).cells.cell i).seq ⊆ ((st.strm k).cells.cell i).seq) : st'.Home := by
  intro k hk i hi s hs
  rw [(h'.good k hk).size_eq] at hi
  rw [hn] at hk
  obtain ⟨hlt, hstream⟩ := hhome k hk i (by rw [(h.good k hk).size_eq]; exact hi) s (hcell k hk i hi hs)
  unfold streamOf at hstream ⊢
  rw [hn]
  exact ⟨hlt, hstream⟩

/-- **The purge** takes every sequence from the cells up to its last position in `rm`, and from no others. -/
theorem purge_spec (h : st.Inv n) (hhome : st.Home) {rm : Nat → Int} (hrm : ∀ s, -1 ≤ rm s) :
    (st.purge rm).Inv n ∧ (st.purge rm).Home ∧ (st.purge rm).nStream = st.nStream ∧
      (∀ k < st.nStream, ∀ i < n, ((st.strm k).cells.cell i).Sheds (((st.purge rm).strm k).cells.cell i)
        fun u => rm u < ((st.strm k).cells.cell i).pos) ∧
      ∀ k, (∀ s, st.streamOf s = k → rm s = -1) → (st.purge rm).strm k = st.strm k := by
  rw [purge_eq]
  have hrun := foldl_range_rule (f := purgeAt rm) (s := st)
    (P := fun s (t : Streams D) => t.Inv n ∧ t.Home ∧ t.nStream = st.nStream ∧
      (∀ k < st.nStream, ∀ i < n, ((st.strm k).cells.cell i).Sheds ((t.strm k).cells.cell i)
        fun u => u < s → rm u < ((st.strm k).cells.cell i).pos) ∧
      ∀ k, (∀ s, st.streamOf s = k → rm s = -1) → t.strm k = st.strm k)
    ⟨h, hhome, rfl, fun k hk i hi => (Cell.Sheds.rfl' (h.empty_of_seq hk hi)).congr fun u _ =>
      ⟨fun _ hu => absurd hu (Nat.not_lt_zero u), fun _ => trivial⟩, fun _ _ => rfl⟩ maxSeq ?_
  · obtain ⟨h1, h2, h3, h4, h5⟩ := hrun
    refine ⟨h1, h2, h3, fun k hk i hi => (h4 k hk i hi).congr fun u hu => ?_, h5⟩
    have hlt := (hhome k hk i (by rw [(h.good k hk).size_eq]; exact hi) u hu).1
    exact ⟨fun hrm => hrm hlt, fun hrm _ => hrm⟩
  · rintro s - t ⟨ht, hth, htn, htc, hts⟩
    have hstep : ∀ k < st.nStream, ∀ i < n, ((t.strm k).cells.cell i).Sheds (((purgeAt rm t s).strm k).cells.cell i)
        fun u => u = s → rm s < ((t.strm k).cells.cell i).pos :=
      fun k hk i hi => purgeAt_sheds ht hth (hrm s) (htn ▸ hk) hi
    refine ⟨purgeAt_inv ht rm s, ?_, (purgeAt_nStream rm t s).trans htn, fun k hk i hi => ?_, fun k hk => ?_⟩
    · refine hth.of_subset ht (purgeAt_inv ht rm s) (purgeAt_nStream rm t s) fun k hk i hi u hu => ?_
      exact ((hstep k (htn ▸ hk) i hi).mem u |>.mp hu).1
    · refine ⟨fun u => ?_, fun hne => ?_, (hstep k hk i hi).empty⟩
      · rw [(hstep k hk i hi).mem, (htc k hk i hi).mem, and_assoc]
        refine and_congr_right fun hu => ?_
        constructor
        · rintro ⟨hold, hnew⟩ hus
          rcases Nat.lt_succ_iff_lt_or_eq.mp hus with hlt | rfl
          · exact hold hlt
          · have hmem := ((htc k hk i hi).mem u).mpr ⟨hu, hold⟩
            rw [← ((htc k hk i hi).kept (Finset.ne_empty_of_mem hmem)).1]
            exact hnew rfl
        · intro hall
          have hold : u < s → rm u < ((st.strm k).cells.cell i).pos := fun hlt => hall (Nat.lt_succ_of_lt hlt)
          refine ⟨hold, fun hus => ?_⟩
          have hmem := ((htc k hk i hi).mem u).mpr ⟨hu, hold⟩
          rw [((htc k hk i hi).kept (Finset.ne_empty_of_mem hmem)).1, ← hus]
          exact hall (by omega)
      · obtain ⟨u, hu⟩ := Finset.nonempty_iff_ne_empty.mpr hne
        have hmid : ((t.strm k).cells.cell i).seq ≠ ∅ := Finset.ne_empty_of_mem (((hstep k hk i hi).mem u).mp hu).1
        obtain ⟨hp, hs⟩ := (hstep k hk i hi).kept hne
        obtain ⟨hp', hs'⟩ := (htc k hk i hi).kept hmid
        exact ⟨hp.trans hp', hs.trans hs'⟩
    · have hstream : t.streamOf = st.streamOf := by
        funext u
        unfold streamOf
        rw [htn]
      rw [purgeAt_strm rm t fun hc => hk s (hstream ▸ hc), hts k hk]

/-! ## The whole of `apply_ubatch` -/

theorem setHeads_spec : ∀ (slots : List (Part D × List Nat)) (st : Streams D),
    (slots.map fun x => st.streamOf x.1.seq).Nodup →
    (∀ k, ((st.setHeads slots).strm k).cells = (st.strm k).cells) ∧ (st.setHeads slots).nStream = st.nStream ∧
      (∀ k, (∀ x ∈ slots, st.streamOf x.1.seq ≠ k) → (st.setHeads slots).strm k = st.strm k) ∧
      ∀ x ∈ slots, ((st.setHeads slots).strm (st.streamOf x.1.seq)).head = x.2.getLast?.elim 0 (· + 1)
  | [], _, _ => ⟨fun _ => rfl, rfl, fun _ _ => rfl, fun _ hx => absurd hx List.not_mem_nil⟩
  | (part, idxs) :: slots, st, hdistinct => by
    obtain ⟨hnot, hdistinct⟩ := List.nodup_cons.mp hdistinct
    rw [setHeads]
    obtain ⟨h1, h2, h3, h4⟩ := setHeads_spec slots (st.set (st.streamOf part.seq)
      { st.strm (st.streamOf part.seq) with head := idxs.getLast?.elim 0 (· + 1) }) hdistinct
    have hother : ∀ k, st.streamOf part.seq ≠ k → (st.set (st.streamOf part.seq)
        { st.strm (st.streamOf part.seq) with head := idxs.getLast?.elim 0 (· + 1) }).strm k = st.strm k :=
      fun k hk => Function.update_of_ne (Ne.symm hk) _ _
    have hself : (st.set (st.streamOf part.seq)
        { st.strm (st.streamOf part.seq) with head := idxs.getLast?.elim 0 (· + 1) }).strm (st.streamOf part.seq) =
        { st.strm (st.streamOf part.seq) with head := idxs.getLast?.elim 0 (· + 1) } := Function.update_self _ _ _
    refine ⟨fun k => ?_, h2, fun k hk => ?_, fun x hx => ?_⟩
    · rw [h1 k]
      by_cases hk : st.streamOf part.seq = k
      · rw [← hk, hself]
      · rw [hother k hk]
    · rw [h3 k fun x hx => hk x (List.mem_cons_of_mem _ hx), hother k (hk _ List.mem_cons_self)]
    · rcases List.mem_cons.mp hx with rfl | hx
      · rw [h3 _ fun y hy hc => hnot (List.mem_map.mpr ⟨y, hy, hc⟩), hself]
      · exact h4 x hx

/-- The cache `st'` behind `apply_ubatch`, where `rm` is `seq_pos_max_rm`. -/
structure Applied (n : Nat) (st : Streams D) (slots : List (Part D × List Nat)) (rm : Nat → Int) (st' : Streams D) :
    Prop where
  inv : st'.Inv n
  home : st'.Home
  nStream : st'.nStream = st.nStream
  remembers : Remembers (st.Taken slots) (fun _ => -1) rm
  stored : ∀ x ∈ slots, ∀ y ∈ x.2.zip x.1.rows,
    y.2.cell.Sheds ((st'.strm (st.streamOf x.1.seq)).cells.cell y.1) fun u => rm u < y.2.pos
  left : ∀ k < st.nStream, ∀ i < n, (∀ x ∈ slots, st.streamOf x.1.seq = k → i ∉ x.2) →
    ((st.strm k).cells.cell i).Sheds ((st'.strm k).cells.cell i) fun u => rm u < ((st.strm k).cells.cell i).pos
  other : ∀ k, (∀ x ∈ slots, st.streamOf x.1.seq ≠ k) → st'.strm k = st.strm k
  head : ∀ x ∈ slots, (st'.strm (st.streamOf x.1.seq)).head = x.2.getLast?.elim 0 (· + 1)

theorem Slotted.row_of_mem {slots : List (Part D × List Nat)} (h : st.Slotted n slots) {x : Part D × List Nat}
    (hx : x ∈ slots)
    {i : Nat} (hi : i ∈ x.2) : ∃ r ∈ x.1.rows, (i, r) ∈ x.2.zip x.1.rows := by
  obtain ⟨j, hj, rfl⟩ := List.getElem_of_mem hi
  have hj' : j < x.1.rows.length := h.length x hx ▸ hj
  refine ⟨x.1.rows[j], List.getElem_mem hj', List.mem_iff_getElem.mpr ⟨j, ?_, List.getElem_zip⟩⟩
  rw [List.length_zip]
  exact lt_min hj hj'

theorem Slotted.cell_of_mem {slots : List (Part D × List Nat)} (h : st.Slotted n slots) {x : Part D × List Nat}
    (hx : x ∈ slots)
    {r : Row D} (hr : r ∈ x.1.rows) : ∃ i ∈ x.2, (i, r) ∈ x.2.zip x.1.rows := by
  obtain ⟨j, hj, rfl⟩ := List.getElem_of_mem hr
  have hj' : j < x.2.length := h.length x hx ▸ hj
  refine ⟨x.2[j], List.getElem_mem hj', List.mem_iff_getElem.mpr ⟨j, ?_, List.getElem_zip⟩⟩
  rw [List.length_zip]
  exact lt_min hj' hj

theorem Taken.owner (h : st.Inv n) (hhome : st.Home) {slots : List (Part D × List Nat)} (hs : st.Slotted n slots)
    {s : Nat} {p : Int} (ht : st.Taken slots s p) :
    0 ≤ p ∧ ∃ x ∈ slots, st.streamOf x.1.seq = st.streamOf s ∧ ∃ i ∈ x.2,
      s ∈ ((st.strm (st.streamOf s)).cells.cell i).seq ∧ ((st.strm (st.streamOf s)).cells.cell i).pos = p := by
  obtain ⟨x, hx, i, hi, hpos, hne, hget⟩ := ht
  have hmem : s ∈ ((st.strm (st.streamOf x.1.seq)).cells.cell i).seq := by
    unfold Cells.seqGet at hget
    simpa using List.find?_some hget
  have hk := hs.stream x hx
  have hlt := hs.lt x hx i hi
  have hstream := (hhome _ hk i (by rw [(h.good _ hk).size_eq]; exact hlt) s hmem).2
  have hnonneg := h.nonneg hk hlt hmem
  rw [hstream]
  exact ⟨hpos ▸ hnonneg, x, hx, rfl, i, hi, hmem, hpos⟩

/-- **`apply_ubatch`.** -/
theorem applyUbatch_spec (h : st.Inv n) (hhome : st.Home) {slots : List (Part D × List Nat)} (hs : st.Slotted n slots) :
    ∃ rm, Applied n st slots rm (st.applyUbatch slots) := by
  obtain ⟨w1, w2, w3, w4, w5, w6⟩ := writeParts_spec slots st (fun _ => -1) h hs
  have hinv := Streams.Inv.writeParts slots st (fun _ => -1) h fun x hx => ⟨hs.lt x hx, hs.rows x hx⟩
  unfold applyUbatch
  generalize st.writeParts (fun _ => -1) slots = w at w1 w2 w3 w4 w5 w6 hinv ⊢
  have hstream : ∀ s, w.1.streamOf s = st.streamOf s := by
    intro s
    unfold streamOf
    rw [w5]
  have hwhome : w.1.Home := by
    intro k hk i hi s hmem
    rw [w5] at hk
    rw [hstream]
    by_cases hin : ∃ x ∈ slots, st.streamOf x.1.seq = k ∧ i ∈ x.2
    · obtain ⟨x, hx, rfl, hix⟩ := hin
      obtain ⟨r, hr, hzip⟩ := hs.row_of_mem hx hix
      rw [w1 x hx _ hzip] at hmem
      exact hs.home x hx r hr s (List.mem_toFinset.mp hmem)
    · rw [w2 k i fun x hx hxk hix => hin ⟨x, hx, hxk, hix⟩] at hmem
      rw [(hinv.good k (w5 ▸ hk)).size_eq, ← (h.good k hk).size_eq] at hi
      exact hhome k hk i hi s hmem
  obtain ⟨p1, p2, p3, p4, p5⟩ := purge_spec hinv hwhome w6.mono
  rw [w5] at p3 p4
  have hdistinct : (slots.map fun x => (w.1.purge w.2).streamOf x.1.seq).Nodup := by
    unfold streamOf
    rw [p3]
    exact hs.distinct
  obtain ⟨s1, s2, s3, s4⟩ := setHeads_spec slots (w.1.purge w.2) hdistinct
  have hstream' : ∀ s, (w.1.purge w.2).streamOf s = st.streamOf s := by
    intro s
    unfold streamOf
    rw [p3]
  simp only [hstream'] at s3 s4
  have hfinal : ((w.1.purge w.2).setHeads slots).Inv n := Streams.Inv.setHeads slots _ p1 hs.lt
  refine ⟨w.2, hfinal, ?_, s2.trans p3, w6, fun x hx y hy => ?_, fun k hk i hi hout => ?_, fun k hk => ?_, s4⟩
  · refine p2.of_subset p1 hfinal s2 fun k hk i hi => ?_
    rw [s1]
  · have hcell := p4 _ (hs.stream x hx) y.1 (hs.lt x hx _ (List.of_mem_zip hy).1)
    rw [w1 x hx y hy] at hcell
    rw [s1]
    exact hcell
  · have hcell := p4 k hk i hi
    rw [w2 k i hout] at hcell
    rw [s1]
    exact hcell
  · -- a sequence that loses a cell is in the stream of that cell
    rw [s3 k hk, p5 k fun s hs' => ?_, w3 k hk]
    rw [hstream] at hs'
    rcases w6.last s with heq | htaken
    · exact heq
    · obtain ⟨-, x, hx, hxs, -⟩ := Taken.owner h hhome hs htaken
      exact absurd (hxs.trans hs') (hk x hx)

/-! ## Ubatches -/

/-- A ubatch as it is split off a batch: its parts go to different streams, its tokens have a position and different sequences
of that stream. -/
structure Fits (st : Streams D) (u : List (Part D)) : Prop where
  distinct : (u.map fun part => st.streamOf part.seq).Nodup
  stream : ∀ part ∈ u, st.streamOf part.seq < st.nStream
  ne : ∀ part ∈ u, part.rows ≠ []
  rows : ∀ part ∈ u, ∀ r ∈ part.rows, r.Ok ∧ r.pos ≤ posMax
  home : ∀ part ∈ u, ∀ r ∈ part.rows, ∀ s ∈ r.ids, s < maxSeq ∧ st.streamOf s = st.streamOf part.seq

theorem Fits.slots (h : st.Inv n) {u : List (Part D)} (hu : st.Fits u) {cont : Bool} {slots : List (Part D × List Nat)}
    (hfind : st.findSlot cont u = some slots) : slots.map Prod.fst = u ∧ st.Slotted n slots ∧
      ∀ x ∈ slots, ∀ i ∈ x.2, (st.strm (st.streamOf x.1.seq)).cells.Usable st.swa i := by
  obtain ⟨hfst, hall⟩ := st.findSlot_slots (fun part hp => (h.good _ (hu.stream part hp)).ok.head_le) hu.ne hfind
  have hmem : ∀ x ∈ slots, x.1 ∈ u := fun x hx => hfst ▸ List.mem_map_of_mem hx
  refine ⟨hfst, ⟨?_, fun x hx => hu.stream _ (hmem x hx), fun x hx => (hall x hx).length, fun x hx => (hall x hx).nodup,
    fun x hx i hi => ?_, fun x hx => hu.rows _ (hmem x hx), fun x hx => hu.home _ (hmem x hx)⟩,
    fun x hx i hi => ((hall x hx).usable i hi).2⟩
  · have hdistinct := hu.distinct
    rw [← hfst, List.map_map] at hdistinct
    exact hdistinct
  · rw [← (h.good _ (hu.stream _ (hmem x hx))).size_eq]
    exact ((hall x hx).usable i hi).1

theorem Fits.of_nStream {st' : Streams D} {u : List (Part D)} (hu : st.Fits u) (hn : st'.nStream = st.nStream) :
    st'.Fits u := by
  have hstream : st'.streamOf = st.streamOf := by
    funext s
    unfold streamOf
    rw [hn]
  refine ⟨?_, fun part hpart => ?_, hu.ne, hu.rows, fun part hpart r hr s hs => ?_⟩
  · rw [hstream]
    exact hu.distinct
  · rw [hstream, hn]
    exact hu.stream part hpart
  · rw [hstream]
    exact hu.home part hpart r hr s hs

/-! ## Runs -/

theorem Home.set (hhome : st.Home) {k : Nat} {c : Cache D}
    (hc : k < st.nStream → ∀ i < c.cells.size, ∀ s ∈ (c.cells.cell i).seq, s < maxSeq ∧ st.streamOf s = k) :
    (st.set k c).Home := by
  intro j hj i hi s hs
  change i < (Function.update st.strm k c j).cells.size at hi
  change s ∈ ((Function.update st.strm k c j).cells.cell i).seq at hs
  by_cases hjk : j = k
  · subst hjk
    rw [Function.update_self] at hi hs
    exact hc hj i hi s hs
  · rw [Function.update_of_ne hjk] at hi hs
    exact hhome j hj i hi s hs

/-- An operation on the cells of one stream, which get no sequence but perhaps `new`. -/
theorem Home.each (hhome : st.Home) {k : Nat} {c : Cache D} {g : Cell → Cell} (he : Each (st.strm k) c g) (new : Nat → Prop)
    (hnew : ∀ s, new s → s < maxSeq ∧ st.streamOf s = k) (hg : ∀ x, ∀ s ∈ (g x).seq, s ∈ x.seq ∨ new s) :
    (st.set k c).Home := by
  refine hhome.set fun hk i hi s hs => ?_
  rw [he.size_eq] at hi
  rw [he.cell_eq i hi] at hs
  rcases hg _ s hs with hold | hs
  · exact hhome k hk i hi s hold
  · exact hnew s hs

theorem mem_of_mem_removed {x : Cell} {seq : Nat} {p0 p1 : Int} {s : Nat} (hs : s ∈ (x.removed seq p0 p1).seq) :
    s ∈ x.seq := by
  unfold Cell.removed at hs
  split at hs
  · split at hs
    · exact absurd hs (Finset.notMem_empty s)
    · exact Finset.mem_of_mem_erase hs
  · exact hs

theorem Home.seqRm (hhome : st.Home) (h : st.Inv n) {st' : Streams D} {seq p0 p1 : Int}
    (hrun : st.seqRm seq p0 p1 = some st') :
    st'.Home ∧ st'.nStream = st.nStream := by
  unfold Streams.seqRm at hrun
  split at hrun
  · rename_i hall
    cases hrun
    refine ⟨fun k hk i hi s hs => ?_, rfl⟩
    have hlt : k < st.nStream := hk
    dsimp only at hi hs
    rw [if_pos hlt] at hi hs
    have he := (h.good k hk).ok.seqRm_all (show seq < 0 by omega) p0 p1
    rw [he.size_eq] at hi
    rw [he.cell_eq i hi] at hs
    split at hs
    · exact absurd hs (Finset.notMem_empty s)
    · exact hhome k hk i hi s hs
  · split at hrun
    · rename_i hin
      cases hrun
      obtain ⟨s, rfl⟩ := Int.eq_ofNat_of_zero_le hin.1
      have hk := h.streamOf_lt (show s < st.seqCap by exact_mod_cast hin.2)
      refine ⟨hhome.each ((h.good _ hk).ok.seqRm s p0 p1) (fun _ => False) (fun _ hf => hf.elim) fun x t ht => ?_, rfl⟩
      exact .inl (mem_of_mem_removed ht)
    · cases hrun

theorem Home.seqCp (hhome : st.Home) (h : st.Inv n) (hcap : st.seqCap ≤ maxSeq) {st' : Streams D} {src dst : Nat}
    {p0 p1 : Int}
    (hsafe : StreamOp.safe st (.seqCp src dst p0 p1)) (hrun : st.seqCp src dst p0 p1 = some st') :
    st'.Home ∧ st'.nStream = st.nStream := by
  unfold Streams.seqCp at hrun
  split at hrun
  · rename_i hin
    have hsrc := h.good _ (h.streamOf_lt hin.1)
    have hdst := h.good _ (h.streamOf_lt hin.2)
    split at hrun
    · rename_i hsame
      cases hrun
      refine ⟨?_, rfl⟩
      by_cases hne : src = dst
      · have hself : (st.strm (st.streamOf src)).seqCp src dst p0 p1 = st.strm (st.streamOf src) := if_pos hne
        rw [hself]
        exact hhome.set fun hk => hhome _ hk
      · refine hhome.each (hsrc.ok.seqCp_disjoint hne (hsafe.2 hne hsame)) (· = dst) (fun s hs => ?_) fun x s hs => ?_
        · rw [hs, hsame]
          exact ⟨lt_of_lt_of_le hin.2 hcap, rfl⟩
        · unfold Cell.copied at hs
          split at hs
          · exact (Finset.mem_insert.mp hs).symm
          · exact .inl hs
    · split at hrun
      · cases hrun
        obtain ⟨-, h2, h3⟩ := hsrc.ok.rep.copyCells hdst.ok.rep (hdst.size_eq.trans hsrc.size_eq.symm) src dst
        refine ⟨hhome.set fun hk i hi s hs => ?_, rfl⟩
        dsimp only at hi hs
        rw [h2] at hi
        rw [h3 i hi] at hs
        split at hs
        · rw [Finset.mem_singleton.mp hs]
          exact ⟨lt_of_lt_of_le hin.2 hcap, rfl⟩
        · exact absurd hs (Finset.notMem_empty s)
      · cases hrun
  · cases hrun

theorem Home.onStream (hhome : st.Home) (h : st.Inv n) {st' : Streams D} {seq : Nat} {f : Cache D → Cache D}
    (hf : (st.strm (st.streamOf seq)).Good n → f (st.strm (st.streamOf seq)) = st.strm (st.streamOf seq) ∨
      ∃ g, Each (st.strm (st.streamOf seq)) (f (st.strm (st.streamOf seq))) g ∧ ∀ x : Cell, (g x).seq ⊆ x.seq)
    (hrun : st.onStream seq f = some st') : st'.Home ∧ st'.nStream = st.nStream := by
  unfold Streams.onStream at hrun
  split at hrun
  · rename_i hin
    cases hrun
    refine ⟨?_, rfl⟩
    rcases hf (h.good _ (h.streamOf_lt hin)) with hself | ⟨g, he, hg⟩
    · rw [hself]
      exact hhome.set fun hk => hhome _ hk
    · exact hhome.each he (fun _ => False) (fun _ hf => hf.elim) fun x s hs => .inl (hg x hs)
  · cases hrun

end

end Streams

/-- The tokens of a ubatch are for the streams of their parts. -/
def StreamOp.homed (st : Streams D) : StreamOp D → Prop
  | .emplace u _ => ∀ part ∈ u, ∀ r ∈ part.rows, ∀ s ∈ r.ids, s < maxSeq ∧ st.streamOf s = st.streamOf part.seq
  | _ => True

section
variable {n : Nat} {st st' : Streams D}

theorem StreamOp.safe.fits (h : st.Inv n) {u : List (Part D)} {cont : Bool} (hsafe : StreamOp.safe st (.emplace u cont))
    (hhomed : StreamOp.homed st (.emplace u cont)) (hadmits : st.admits u = true) : st.Fits u where
  distinct := hsafe.1.1
  stream part hpart := by
    have hadm := List.all_eq_true.mp hadmits part hpart
    rw [Bool.and_eq_true] at hadm
    exact h.streamOf_lt (of_decide_eq_true hadm.1)
  ne part hpart := (hsafe.1.2 part hpart).1
  rows part hpart r hr := by
    obtain ⟨-, hle, hne⟩ := (hsafe.1.2 _ hpart).2 r hr
    obtain ⟨hpos, hnodup⟩ := hsafe.2 _ hpart r hr
    exact ⟨⟨hpos, hne, hnodup⟩, hle⟩
  home := hhomed

theorem Streams.Home.step {op : StreamOp D} (hhome : st.Home) (h : st.Inv n) (hcap : st.seqCap ≤ maxSeq) (hsafe : op.safe st)
    (hhomed : op.homed st) (hstep : streamStep op st = some st') : st'.Home ∧ st'.nStream = st.nStream := by
  cases op with
  | clear =>
      cases hstep
      refine ⟨fun k hk i hi s hs => ?_, rfl⟩
      have hlt : k < st.nStream := hk
      change i < (if k < st.nStream then (st.strm k).clear else st.strm k).cells.size at hi
      change s ∈ ((if k < st.nStream then (st.strm k).clear else st.strm k).cells.cell i).seq at hs
      rw [if_pos hlt] at hi hs
      have he := (h.good k hlt).ok.clear
      rw [he.size_eq] at hi
      rw [he.cell_eq i hi] at hs
      exact absurd hs (Finset.notMem_empty s)
  | seqRm seq p0 p1 => exact hhome.seqRm h hstep
  | seqCp src dst p0 p1 => exact hhome.seqCp h hcap hsafe hstep
  | seqKeep seq =>
      change st.onStream seq (fun c => c.seqKeep seq) = some st' at hstep
      refine hhome.onStream h (fun hg => .inr ⟨_, hg.ok.seqKeep seq, fun x s hs => ?_⟩) hstep
      unfold Cell.kept at hs
      split at hs
      · rename_i hmem
        rw [Finset.mem_singleton.mp hs]
        exact hmem
      · exact absurd hs (Finset.notMem_empty s)
  | seqAdd seq p0 p1 shift =>
      change st.onStream seq (fun c => c.seqAdd seq p0 p1 shift) = some st' at hstep
      refine hhome.onStream h (fun hg => ?_) hstep
      by_cases hnone : shift = 0 ∨ lower p0 = upper p1
      · left
        unfold Cache.seqAdd
        split
        · rfl
        · rw [if_pos (hnone.resolve_left ‹_›)]
      · rw [not_or] at hnone
        refine .inr ⟨_, hg.ok.seqAdd seq hnone.1 hnone.2, fun x s hs => ?_⟩
        unfold Cell.moved at hs
        split at hs
        · split at hs
          · exact absurd hs (Finset.notMem_empty s)
          · exact hs
        · exact hs
  | seqDiv seq p0 p1 d =>
      change st.seqDiv seq p0 p1 d = some st' at hstep
      unfold Streams.seqDiv at hstep
      split at hstep
      · cases hstep
      · refine hhome.onStream h (fun hg => ?_) hstep
        by_cases hnone : d = 1 ∨ lower p0 = upper p1
        · left
          unfold Cache.seqDiv
          split
          · rfl
          · rw [if_pos (hnone.resolve_left ‹_›)]
        · rw [not_or] at hnone
          refine .inr ⟨_, hg.ok.seqDiv seq hnone.1 hnone.2 hsafe.2, fun x s hs => ?_⟩
          unfold Cell.divided at hs
          split at hs
          · exact hs
          · exact hs
  | emplace u cont =>
      change st.emplace u cont = some st' at hstep
      unfold Streams.emplace at hstep
      split at hstep
      · rename_i hadmits
        obtain ⟨slots, hfind, rfl⟩ := Option.map_eq_some_iff.mp hstep
        obtain ⟨-, hs, -⟩ := (hsafe.fits h hhomed hadmits).slots h hfind
        obtain ⟨rm, ha⟩ := Streams.applyUbatch_spec h hhome hs
        exact ⟨ha.home, ha.nStream⟩
      · cases hstep

/-- **In every run the sequences stay in their streams.** -/
theorem reaches_home (swa : Swa) {nStream : Nat} (hpos : 0 < nStream) (hmax : nStream ≤ maxSeq) (size : Nat)
    (data : Nat → Nat → D) (st : Streams D)
    (h : Reaches streamStep (fun st op => op.safe st ∧ op.homed st) (Streams.create swa nStream size data) st) :
    st.Inv size ∧ st.Home := by
  have hstart : (Streams.create swa nStream size data).Inv size :=
    ⟨hpos, fun k _ => ⟨⟨Rep.init size, Nat.zero_le _⟩, fun _ _ => pos_empty_le, rfl⟩⟩
  have hinv : st.Inv size ∧ st.Home ∧ st.nStream ≤ maxSeq := by
    refine h.invariant (I := fun st => st.Inv size ∧ st.Home ∧ st.nStream ≤ maxSeq)
      ⟨hstart, fun k _ i _ s hs => absurd hs (Finset.notMem_empty s), hmax⟩ ?_
    rintro s s' op ⟨hi, hhome, hle⟩ hs hstep
    have hcap : s.seqCap ≤ maxSeq := by
      unfold Streams.seqCap
      split
      · exact hle
      · exact le_rfl
    obtain ⟨h1, h2⟩ := hhome.step hi hcap hs.1 hs.2 hstep
    exact ⟨hi.step hs.1 hstep, h1, h2 ▸ hle⟩
  exact ⟨hinv.1, hinv.2.1⟩

end

end

end S2Moe.Kv
