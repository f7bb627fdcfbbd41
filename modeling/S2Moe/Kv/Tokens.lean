import Mathlib
import S2Moe.Kv.Update

/-!
# The tokens of `llama_kv_cache`

What the cache is for: a slot is empty, or it has a token with its position, its sequences and its rows. There are no
shifts and no queued copies, and the rows of a token are those without their rotation.

* `StoredToken`, `Tokens`, `Tokens.edit`, `Tokens.Placed` : what the operations do to the tokens;
* `Streams.view` : the tokens of a cache, behind its queued copies and its shifts;
* `Cell.Sheds.entry` and what follows it : one cell;
* `view_edit`, `view_update`, `view_emplace` : one operation;
* `update_data` : the rows that an attention reads behind an update.
-/

namespace S2Moe.Kv
open S2Moe.Lib
open S2Moe.Recurrent (lower upper posMax)

structure StoredToken (D : Type) where
  pos : Int
  seq : Finset Nat
  row : D
deriving DecidableEq

/-- The slots of each stream. -/
abbrev Tokens (D : Type) := Nat → Nat → Option (StoredToken D)

section Spec
variable {D : Type}

namespace StoredToken

def within (e : StoredToken D) (p0 p1 : Int) : Prop := lower p0 ≤ e.pos ∧ e.pos < upper p1

open scoped Classical in
/-- The token stays in the sequences with `q`, if there are any. -/
noncomputable def shed (q : Nat → Prop) (e : StoredToken D) : Option (StoredToken D) :=
  if e.seq.filter q = ∅ then none else some { e with seq := e.seq.filter q }

open scoped Classical in
noncomputable def copied (src dst : Nat) (p0 p1 : Int) (e : StoredToken D) : StoredToken D :=
  if e.within p0 p1 ∧ src ∈ e.seq then { e with seq := insert dst e.seq } else e

open scoped Classical in
/-- The token moves, or it is moved out. -/
noncomputable def moved (seq : Nat) (p0 p1 shift : Int) (e : StoredToken D) : Option (StoredToken D) :=
  if e.within p0 p1 ∧ seq ∈ e.seq then if e.pos + shift < 0 then none else some { e with pos := e.pos + shift } else some e

open scoped Classical in
/-- The rows of the token are turned by twice the way that it moves, against it. -/
noncomputable def divided [AddAction Int D] (seq : Nat) (p0 p1 d : Int) (e : StoredToken D) : StoredToken D :=
  if e.within p0 p1 ∧ seq ∈ e.seq then
    { e with pos := e.pos.tdiv d, row := (2 * (e.pos - e.pos.tdiv d)) +ᵥ e.row }
  else e

end StoredToken

/-- A token of a batch; its rows are rotated to its position. -/
def Row.entry [AddAction Int D] (r : Row D) : StoredToken D := ⟨r.pos, r.ids.toFinset, (-r.pos) +ᵥ r.val⟩

/-- The stream of a sequence. -/
def homeOf (nStream seq : Nat) : Nat := if 1 < nStream then seq else 0

namespace Tokens

def onStream (t : Tokens D) (k : Nat) (f : StoredToken D → Option (StoredToken D)) : Tokens D :=
  fun j i => if j = k then (t j i).bind f else t j i

/-- The operations that place no tokens. -/
noncomputable def edit [AddAction Int D] (nStream : Nat) (op : StreamOp D) (t : Tokens D) : Tokens D :=
  match op with
  | .clear => fun _ _ => none
  | .seqRm seq p0 p1 =>
    if seq = -1 then fun k i => (t k i).bind fun e => e.shed fun _ => ¬ e.within p0 p1
    else t.onStream (homeOf nStream seq.toNat) fun e => e.shed fun s => s = seq.toNat → ¬ e.within p0 p1
  | .seqCp src dst p0 p1 =>
    if homeOf nStream src = homeOf nStream dst then
      t.onStream (homeOf nStream src) fun e => some (e.copied src dst p0 p1)
    else fun k i =>
      if k = homeOf nStream dst then
        (t (homeOf nStream src) i).bind fun e => if src ∈ e.seq then some { e with seq := {dst} } else none
      else t k i
  | .seqKeep seq => t.onStream (homeOf nStream seq) fun e => e.shed fun s => s = seq
  | .seqAdd seq p0 p1 shift => t.onStream (homeOf nStream seq) fun e => e.moved seq p0 p1 shift
  | .seqDiv seq p0 p1 d => t.onStream (homeOf nStream seq) fun e => some (e.divided seq p0 p1 d)
  | .emplace _ _ => t

variable (nStream : Nat) (t : Tokens D)

/-- A slot has a token of sequence `s` at position `p`. -/
def Has (k i s : Nat) (p : Int) : Prop := ∃ e, t k i = some e ∧ s ∈ e.seq ∧ e.pos = p

/-- A token of sequence `s` at position `p` gives way to a new one. -/
def Taken (slots : List (Part D × List Nat)) (s : Nat) (p : Int) : Prop :=
  ∃ x ∈ slots, ∃ i ∈ x.2, t.Has (homeOf nStream x.1.seq) i s p

/-- What is left of a token: its sequences that have lost no later one. -/
noncomputable def outlived (slots : List (Part D × List Nat)) (e : StoredToken D) : Option (StoredToken D) :=
  e.shed fun s => ∀ p, t.Taken nStream slots s p → p < e.pos

/-- **The tokens of a ubatch are placed**, each in a slot of its own. A slot is empty, or its token has one sequence, whose
window is past it. -/
structure Placed [AddAction Int D] (w : Swa) (u : List (Part D)) (t t' : Tokens D) : Prop where
  placed : ∃ slots : List (Part D × List Nat), slots.map Prod.fst = u ∧
    (∀ x ∈ slots, x.2.length = x.1.rows.length ∧ x.2.Nodup) ∧
    (∀ x ∈ slots, ∀ i ∈ x.2, ∀ e, t (homeOf nStream x.1.seq) i = some e → ∃ s last, e.seq = {s} ∧
      IsGreatest {p | ∃ j, t.Has (homeOf nStream x.1.seq) j s p} last ∧ w.isMasked e.pos (last + 1) = true) ∧
    (∀ x ∈ slots, ∀ y ∈ x.2.zip x.1.rows, t' (homeOf nStream x.1.seq) y.1 = t.outlived nStream slots y.2.entry) ∧
    ∀ k i, (∀ x ∈ slots, homeOf nStream x.1.seq = k → i ∉ x.2) → t' k i = (t k i).bind (t.outlived nStream slots)

end Tokens

end Spec

/-! ## The tokens of a cache -/

section View
variable {D : Type} [AddAction Int D]

/-- The token of a cell, whose row in the end is `d` turned by the cell's shift. -/
def Cell.entry (x : Cell) (d : D) : Option (StoredToken D) :=
  if x.pos = -1 then none else some ⟨x.pos, x.seq, (x.shift - x.pos) +ᵥ d⟩

def Streams.view (st : Streams D) : Tokens D := fun k i =>
  if k < st.nStream ∧ i < (st.strm k).cells.size then ((st.strm k).cells.cell i).entry (st.pending k i) else none

/-! ### One cell -/

section Cell
variable {x y : Cell} {d : D} {s dst : Nat} {p0 p1 shift : Int}

theorem Cell.entry_empty (d : D) : ({} : Cell).entry d = none := if_pos rfl

theorem Cell.entry_of_ne (h : x.pos ≠ -1) (d : D) : x.entry d = some ⟨x.pos, x.seq, (x.shift - x.pos) +ᵥ d⟩ := if_neg h

/-- A cell and its entry have the same positions. -/
theorem Cell.within_ne (h : x.within p0 p1) : 0 ≤ x.pos := by
  have hlow : 0 ≤ lower p0 := by
    unfold lower
    split <;> omega
  exact hlow.trans h.1

theorem Cell.Sheds.entry {q : Int → Nat → Prop} (h : x.Sheds y (q x.pos)) (hx : x.pos = -1 ↔ x.seq = ∅) (d : D) :
    y.entry d = (x.entry d).bind fun e => e.shed (q e.pos) := by
  classical
  have hfilter : y.seq = x.seq.filter (q x.pos) := by
    ext u
    rw [h.mem, Finset.mem_filter]
  by_cases hy : y.seq = ∅
  · rw [h.empty hy, Cell.entry_empty]
    by_cases hpos : x.pos = -1
    · rw [Cell.entry, if_pos hpos]
      rfl
    · rw [Cell.entry_of_ne hpos, Option.bind_some, StoredToken.shed]
      exact (if_pos (by rw [← hfilter]; convert hy)).symm
  · obtain ⟨hpos, hshift⟩ := h.kept hy
    have hne : x.pos ≠ -1 := by
      intro hc
      obtain ⟨u, hu⟩ := Finset.nonempty_iff_ne_empty.mpr hy
      have hmem := ((h.mem u).mp hu).1
      rw [hx.mp hc] at hmem
      exact absurd hmem (Finset.notMem_empty u)
    rw [Cell.entry_of_ne hne, Cell.entry_of_ne (hpos ▸ hne), Option.bind_some, StoredToken.shed]
    rw [if_neg (fun hc => hy (by rw [hfilter]; convert hc)), hpos, hshift, hfilter]

/-- An operation on the cells of a sequence in a range. -/
theorem Cell.entry_hit {f : Cell → Cell} {g : StoredToken D → Option (StoredToken D)} (x : Cell) (d : D)
    (hmiss : ¬ (x.within p0 p1 ∧ s ∈ x.seq) → f x = x ∧ ∀ row, g ⟨x.pos, x.seq, row⟩ = some ⟨x.pos, x.seq, row⟩)
    (hhit : x.within p0 p1 ∧ s ∈ x.seq → (f x).entry d = g ⟨x.pos, x.seq, (x.shift - x.pos) +ᵥ d⟩) :
    (f x).entry d = (x.entry d).bind g := by
  by_cases hc : x.within p0 p1 ∧ s ∈ x.seq
  · have hpos := Cell.within_ne hc.1
    rw [hhit hc, Cell.entry_of_ne (by omega), Option.bind_some]
  · obtain ⟨hf, hg⟩ := hmiss hc
    rw [hf]
    by_cases hpos : x.pos = -1
    · rw [Cell.entry, if_pos hpos]
      rfl
    · rw [Cell.entry_of_ne hpos, Option.bind_some, hg]

theorem Cell.entry_copied (x : Cell) (d : D) :
    (x.copied s dst p0 p1).entry d = (x.entry d).bind fun e => some (e.copied s dst p0 p1) := by
  refine @Cell.entry_hit D _ s p0 p1 (fun x => x.copied s dst p0 p1) _ x d
    (fun hc => ⟨if_neg hc, fun row => congrArg some (if_neg hc)⟩) fun hc => ?_
  have hpos := Cell.within_ne hc.1
  rw [Cell.copied, if_pos hc, StoredToken.copied, if_pos (show StoredToken.within ⟨x.pos, x.seq, _⟩ p0 p1 ∧ s ∈ x.seq from hc)]
  exact if_neg (by dsimp only; omega)

theorem Cell.entry_moved (x : Cell) (d : D) :
    (x.moved s p0 p1 shift).entry d = (x.entry d).bind fun e => e.moved s p0 p1 shift := by
  refine @Cell.entry_hit D _ s p0 p1 (fun x => x.moved s p0 p1 shift) _ x d
    (fun hc => ⟨if_neg hc, fun row => if_neg hc⟩) fun hc => ?_
  rw [Cell.moved, if_pos hc, StoredToken.moved, if_pos (show StoredToken.within ⟨x.pos, x.seq, _⟩ p0 p1 ∧ s ∈ x.seq from hc)]
  dsimp only
  by_cases hneg : x.pos + shift < 0
  · rw [if_pos hneg, if_pos hneg, Cell.entry_empty]
  · rw [if_neg hneg, if_neg hneg, Cell.entry_of_ne (by dsimp only; omega)]
    dsimp only
    rw [show x.shift + shift - (x.pos + shift) = x.shift - x.pos from by ring]

theorem Cell.entry_divided (x : Cell) (d : D) {q : Int} (hq : x.within p0 p1 → s ∈ x.seq → 0 ≤ x.pos.tdiv q) :
    (x.divided s p0 p1 q).entry d = (x.entry d).bind fun e => some (e.divided s p0 p1 q) := by
  refine @Cell.entry_hit D _ s p0 p1 (fun x => x.divided s p0 p1 q) _ x d
    (fun hc => ⟨if_neg hc, fun row => congrArg some (if_neg hc)⟩) fun hc => ?_
  have hnonneg := hq hc.1 hc.2
  rw [Cell.divided, if_pos hc, StoredToken.divided,
    if_pos (show StoredToken.within ⟨x.pos, x.seq, _⟩ p0 p1 ∧ s ∈ x.seq from hc), Cell.entry_of_ne (by dsimp only; omega)]
  dsimp only
  rw [vadd_vadd]
  congr 4
  omega

end Cell

/-! ### One operation -/

namespace Streams
variable {n : Nat} {st st' : Streams D}

theorem view_of_lt (h : st.Inv n) {k i : Nat} (hk : k < st.nStream) (hi : i < n) :
    st.view k i = ((st.strm k).cells.cell i).entry (st.pending k i) :=
  if_pos ⟨hk, by rw [(h.good k hk).size_eq]; exact hi⟩

theorem view_of_not (h : st.Inv n) {k i : Nat} (hout : ¬ (k < st.nStream ∧ i < n)) : st.view k i = none := by
  refine if_neg fun hin => hout ⟨hin.1, ?_⟩
  rw [← (h.good k hin.1).size_eq]
  exact hin.2

omit [AddAction Int D] in
theorem pending_set (st : Streams D) {k : Nat} {c : Cache D} (hdata : c.data = (st.strm k).data) :
    (st.set k c).pending = st.pending := by
  funext j
  rw [pending_eq, pending_eq]
  show (Function.update st.strm k c (st.origin j)).data = _
  by_cases hj : st.origin j = k
  · rw [hj, Function.update_self, hdata]
  · rw [Function.update_of_ne hj]

/-- An operation that changes each token for itself. -/
theorem view_map (h : st.Inv n) (h' : st'.Inv n) (hn : st'.nStream = st.nStream) (hpending : st'.pending = st.pending)
    {g : Nat → StoredToken D → Option (StoredToken D)} (hcell : ∀ k < st.nStream, ∀ i < n, ∀ d,
      ((st'.strm k).cells.cell i).entry d = (((st.strm k).cells.cell i).entry d).bind (g k)) :
    st'.view = fun k i => (st.view k i).bind (g k) := by
  funext k i
  by_cases hin : k < st.nStream ∧ i < n
  · rw [view_of_lt h' (hn.symm ▸ hin.1) hin.2, view_of_lt h hin.1 hin.2, hpending]
    exact hcell k hin.1 i hin.2 _
  · rw [view_of_not h' (hn.symm ▸ hin), view_of_not h hin]
    rfl

/-- An operation on one stream. -/
theorem view_set (h : st.Inv n) {k : Nat} {c : Cache D} (hc : c.Good n) (hdata : c.data = (st.strm k).data)
    {g : StoredToken D → Option (StoredToken D)}
    (hcell : ∀ i < n, ∀ d, (c.cells.cell i).entry d = (((st.strm k).cells.cell i).entry d).bind g) :
    (st.set k c).view = st.view.onStream k g := by
  have hview := @view_map D _ n st (st.set k c) h (h.set fun _ => hc) rfl (st.pending_set hdata)
    (fun j => if j = k then g else some) fun j _ i hi d => ?_
  · rw [hview]
    funext j i
    unfold Tokens.onStream
    split
    · rfl
    · exact Option.bind_fun_some _
  · show ((Function.update st.strm k c j).cells.cell i).entry d = _
    by_cases hj : j = k
    · rw [if_pos hj, hj, Function.update_self]
      exact hcell i hi d
    · rw [if_neg hj, Function.update_of_ne hj]
      exact (Option.bind_fun_some _).symm

theorem view_onStream (h : st.Inv n) {seq : Nat} {f : Cache D → Cache D} {g : StoredToken D → Option (StoredToken D)}
    (hop : ∀ c, c = st.strm (st.streamOf seq) → c.Good n → (f c).Good n ∧ (f c).data = c.data ∧
      ∀ i < n, ∀ d, ((f c).cells.cell i).entry d = ((c.cells.cell i).entry d).bind g)
    (hrun : st.onStream seq f = some st') : st'.view = st.view.onStream (homeOf st.nStream seq) g := by
  unfold Streams.onStream at hrun
  split at hrun
  · rename_i hcap
    cases hrun
    obtain ⟨hgood, hdata, hcell⟩ := hop _ rfl (h.good _ (h.streamOf_lt hcap))
    exact view_set h hgood hdata hcell
  · cases hrun

/-- The cells of an operation that changes each for itself. -/
theorem entry_of_each {c c' : Cache D} {f : Cell → Cell} {g : StoredToken D → Option (StoredToken D)} (hc : c.Good n)
    (he : Each c c' f)
    (hf : ∀ i < n, ∀ d, (f (c.cells.cell i)).entry d = ((c.cells.cell i).entry d).bind g) :
    c'.data = c.data ∧ ∀ i < n, ∀ d, (c'.cells.cell i).entry d = ((c.cells.cell i).entry d).bind g := by
  refine ⟨he.data_eq, fun i hi d => ?_⟩
  rw [he.cell_eq i (hc.size_eq.symm ▸ hi)]
  exact hf i hi d

omit [AddAction Int D] in
theorem pos_iff_of_good {c : Cache D} (hc : c.Good n) {i : Nat} (hi : i < n) :
    (c.cells.cell i).pos = -1 ↔ (c.cells.cell i).seq = ∅ := by
  have hlt : i < c.cells.size := by
    rw [hc.size_eq]
    exact hi
  exact ⟨fun hp => (hc.ok.rep.empty i hlt hp).1, fun hs => Classical.byContradiction fun hp => hc.ok.rep.full i hlt hp hs⟩

/-- An operation on all streams. -/
theorem view_all (h : st.Inv n) {f : Cache D → Cache D} {g : StoredToken D → Option (StoredToken D)}
    (hop : ∀ c : Cache D, c.Good n → (f c).Good n ∧ (f c).data = c.data ∧
      ∀ i < n, ∀ d, ((f c).cells.cell i).entry d = ((c.cells.cell i).entry d).bind g)
    (hst : st' = { st with strm := fun k => if k < st.nStream then f (st.strm k) else st.strm k }) :
    st'.view = fun k i => (st.view k i).bind g := by
  subst hst
  have hstrm : ∀ k < st.nStream, (if k < st.nStream then f (st.strm k) else st.strm k) = f (st.strm k) := fun k hk =>
    if_pos hk
  have h' : ({ st with strm := fun k => if k < st.nStream then f (st.strm k) else st.strm k } : Streams D).Inv n := by
    refine ⟨h.pos, fun k hk => ?_⟩
    show (if k < st.nStream then f (st.strm k) else st.strm k).Good n
    rw [hstrm k hk]
    exact (hop _ (h.good k hk)).1
  refine view_map h h' rfl ?_ fun k hk i hi d => ?_
  · funext k
    rw [pending_eq, pending_eq]
    show (if st.origin k < st.nStream then f (st.strm (st.origin k)) else st.strm (st.origin k)).data = _
    split
    · rename_i hk
      exact (hop _ (h.good _ hk)).2.1
    · rfl
  · show ((if k < st.nStream then f (st.strm k) else st.strm k).cells.cell i).entry d = _
    rw [hstrm k hk]
    exact (hop _ (h.good k hk)).2.2 i hi d

theorem view_clear (h : st.Inv n) : st.clear.view = (fun _ _ => none : Tokens D) := by
  have hview := @view_all D _ n st st.clear h Cache.clear (fun _ => none) (fun c hc => ⟨hc.clear, ?_⟩) rfl
  · rw [hview]
    funext k i
    cases st.view k i <;> rfl
  · exact entry_of_each hc hc.ok.clear fun i hi d => by cases (c.cells.cell i).entry d <;> rfl

theorem view_seqRm (h : st.Inv n) {seq p0 p1 : Int} (hrun : st.seqRm seq p0 p1 = some st') :
    st'.view = Tokens.edit st.nStream (.seqRm seq p0 p1) st.view := by
  unfold Tokens.edit
  dsimp only
  unfold Streams.seqRm at hrun
  by_cases hall : seq = -1
  · rw [if_pos hall] at hrun ⊢
    cases hrun
    refine view_all (f := fun c => c.seqRm seq p0 p1) h (fun c hc => ⟨hc.seqRm seq p0 p1, ?_⟩) rfl
    refine entry_of_each hc (hc.ok.seqRm_all (by omega) p0 p1) fun i hi d => ?_
    refine Cell.Sheds.entry (q := fun p _ => ¬ (lower p0 ≤ p ∧ p < upper p1)) ?_ (pos_iff_of_good hc hi) d
    split
    · rename_i hwithin
      exact ⟨fun u => ⟨fun hu => absurd hu (Finset.notMem_empty u), fun hu => absurd hwithin hu.2⟩,
        fun hne => absurd rfl hne, fun _ => rfl⟩
    · rename_i hwithin
      exact ⟨fun u => ⟨fun hu => ⟨hu, hwithin⟩, And.left⟩, fun _ => ⟨rfl, rfl⟩,
        fun hs => hc.ok.rep.cell_eq_empty (hc.size_eq.symm ▸ hi) hs⟩
  · rw [if_neg hall] at hrun ⊢
    split at hrun
    · rename_i hcap
      cases hrun
      obtain ⟨s, rfl⟩ := Int.eq_ofNat_of_zero_le hcap.1
      have hk : st.streamOf s < st.nStream := h.streamOf_lt (by exact_mod_cast hcap.2)
      have hgood := h.good _ hk
      obtain ⟨hdata, hcell⟩ := entry_of_each (g := fun e => e.shed fun u => u = s → ¬ e.within p0 p1) hgood
        (hgood.ok.seqRm s p0 p1) fun i hi d => Cell.Sheds.entry
          (q := fun p u => u = s → ¬ (lower p0 ≤ p ∧ p < upper p1))
          (Cell.sheds_removed fun hs => hgood.ok.rep.cell_eq_empty (hgood.size_eq.symm ▸ hi) hs) (pos_iff_of_good hgood hi) d
      exact view_set h (hgood.seqRm s p0 p1) hdata hcell
    · cases hrun

/-- A sequence that is copied to itself stays as it is. -/
theorem entry_seqCp {c : Cache D} (hc : c.Good n) {src dst : Nat} {p0 p1 : Int} (hnew : src ≠ dst →
    ∀ j < c.cells.size, (c.cells.cell j).within p0 p1 → src ∈ (c.cells.cell j).seq → dst ∉ (c.cells.cell j).seq) :
    (c.seqCp src dst p0 p1).data = c.data ∧ ∀ i < n, ∀ d : D, ((c.seqCp src dst p0 p1).cells.cell i).entry d =
      ((c.cells.cell i).entry d).bind fun e => some (e.copied src dst p0 p1) := by
  by_cases hne : src = dst
  · subst hne
    have hself : ∀ e : StoredToken D, e.copied src src p0 p1 = e := by
      intro e
      unfold StoredToken.copied
      split
      · rename_i hmem
        rw [Finset.insert_eq_of_mem hmem.2]
      · rfl
    have hcache : c.seqCp src src p0 p1 = c := if_pos rfl
    rw [hcache]
    refine ⟨rfl, fun i _ d => ?_⟩
    rw [show (fun e : StoredToken D => some (e.copied src src p0 p1)) = some from funext fun e => congrArg some (hself e)]
    exact (Option.bind_fun_some _).symm
  · exact entry_of_each hc (hc.ok.seqCp_disjoint hne (hnew hne)) fun i _ d => Cell.entry_copied _ d

omit [AddAction Int D] in
/-- The rows of a copied stream are those of the other one from the copy on. -/
theorem pending_copyStream (st : Streams D) (src dst k : Nat) : (st.copyStream src dst).pending k =
    if k = st.streamOf dst then st.pending (st.streamOf src) else st.pending k := by
  have hdata : ∀ k, ((st.copyStream src dst).strm k).data = (st.strm k).data := by
    intro k
    show (Function.update st.strm (st.streamOf dst) _ k).data = _
    by_cases hk : k = st.streamOf dst
    · rw [hk, Function.update_self]
    · rw [Function.update_of_ne hk]
  rw [pending_eq, hdata, show (st.copyStream src dst).origin k = _ from st.origin_concat _ k]
  split
  · rw [pending_eq]
  · rw [pending_eq]

theorem view_copyStream (h : st.Inv n) {src dst : Nat} (hsrc : st.streamOf src < st.nStream)
    (hdst : st.streamOf dst < st.nStream) (h' : (st.copyStream src dst).Inv n) : (st.copyStream src dst).view =
    fun k i => if k = st.streamOf dst then
      (st.view (st.streamOf src) i).bind fun e => if src ∈ e.seq then some { e with seq := {dst} } else none
    else st.view k i := by
  have hgood := h.good _ hsrc
  obtain ⟨-, -, hcells⟩ := hgood.ok.rep.copyCells (h.good _ hdst).ok.rep
    ((h.good _ hdst).size_eq.trans hgood.size_eq.symm) src dst
  funext k i
  by_cases hin : k < st.nStream ∧ i < n
  · rw [view_of_lt h' hin.1 hin.2, pending_copyStream]
    by_cases hk : k = st.streamOf dst
    · have hcell : ((st.copyStream src dst).strm k).cells.cell i =
          if src ∈ ((st.strm (st.streamOf src)).cells.cell i).seq then
            { (st.strm (st.streamOf src)).cells.cell i with seq := {dst} } else {} := by
        show (Function.update st.strm (st.streamOf dst) _ k).cells.cell i = _
        rw [hk, Function.update_self]
        exact hcells i (hgood.size_eq.symm ▸ hin.2)
      rw [if_pos hk, if_pos hk, view_of_lt h hsrc hin.2, hcell]
      by_cases hpos : ((st.strm (st.streamOf src)).cells.cell i).pos = -1
      · have hempty := (pos_iff_of_good hgood hin.2).mp hpos
        rw [if_neg (by rw [hempty]; exact Finset.notMem_empty src), Cell.entry_empty, Cell.entry, if_pos hpos]
        rfl
      · rw [Cell.entry_of_ne hpos, Option.bind_some]
        dsimp only
        by_cases hs : src ∈ ((st.strm (st.streamOf src)).cells.cell i).seq
        · rw [if_pos hs, if_pos hs]
          exact if_neg hpos
        · rw [if_neg hs, if_neg hs, Cell.entry_empty]
    · rw [if_neg hk, if_neg hk, view_of_lt h hin.1 hin.2]
      show ((Function.update st.strm (st.streamOf dst) _ k).cells.cell i).entry _ = _
      rw [Function.update_of_ne hk]
  · rw [view_of_not h' hin, view_of_not h hin]
    split
    · rename_i hk
      rw [view_of_not h fun hc => hin ⟨hk ▸ hdst, hc.2⟩]
      rfl
    · rfl

theorem view_seqCp (h : st.Inv n) {src dst : Nat} {p0 p1 : Int} (hsafe : StreamOp.safe st (.seqCp src dst p0 p1))
    (hrun : st.seqCp src dst p0 p1 = some st') : st'.view = Tokens.edit st.nStream (.seqCp src dst p0 p1) st.view := by
  have h' := h.seqCp hsafe hrun
  unfold Tokens.edit
  dsimp only
  unfold Streams.seqCp at hrun
  split at hrun
  · rename_i hcap
    have hsrc := h.streamOf_lt hcap.1
    by_cases hsame : st.streamOf src = st.streamOf dst
    · rw [if_pos hsame] at hrun
      rw [if_pos (show homeOf st.nStream src = homeOf st.nStream dst from hsame)]
      cases hrun
      obtain ⟨hdata, hcell⟩ := entry_seqCp (h.good _ hsrc) fun hne => hsafe.2 hne hsame
      exact view_set h ((h.good _ hsrc).seqCp fun hne => hsafe.2 hne hsame) hdata hcell
    · rw [if_neg hsame] at hrun
      rw [if_neg (show ¬ homeOf st.nStream src = homeOf st.nStream dst from hsame)]
      split at hrun
      · cases hrun
        exact view_copyStream h hsrc (h.streamOf_lt hcap.2) h'
      · cases hrun
  · cases hrun

/-- An operation that is left out leaves the tokens as they are. -/
theorem entry_refl {c : Cache D} {g : StoredToken D → Option (StoredToken D)} (hg : ∀ e, g e = some e) :
    c.data = c.data ∧ ∀ i < n, ∀ d, (c.cells.cell i).entry d = ((c.cells.cell i).entry d).bind g := by
  refine ⟨rfl, fun i _ d => ?_⟩
  rw [show g = some from funext hg]
  exact (Option.bind_fun_some _).symm

omit [AddAction Int D] in
theorem lower_not_within {e : StoredToken D} {p0 p1 : Int} (hrange : lower p0 = upper p1) : ¬ e.within p0 p1 := by
  intro hc
  have h1 := hc.1
  have h2 := hc.2
  omega

/-- **The operations that place no tokens.** -/
theorem view_edit (h : st.Inv n) {op : StreamOp D} (hsafe : op.safe st) (hop : ∀ u cont, op ≠ .emplace u cont)
    (hstep : streamStep op st = some st') : st'.view = Tokens.edit st.nStream op st.view := by
  cases op with
  | clear =>
      cases hstep
      exact view_clear h
  | seqRm seq p0 p1 => exact view_seqRm h hstep
  | seqCp src dst p0 p1 => exact view_seqCp h hsafe hstep
  | seqKeep seq =>
      refine view_onStream (f := fun c => c.seqKeep seq) h (fun c _ hc => ⟨hc.seqKeep seq, ?_⟩) hstep
      refine entry_of_each hc (hc.ok.seqKeep seq) fun i hi d => ?_
      refine Cell.Sheds.entry (q := fun _ s => s = seq) ?_ (pos_iff_of_good hc hi) d
      unfold Cell.kept
      split
      · rename_i hmem
        refine ⟨fun u => ⟨fun hu => ?_, fun hu => ?_⟩, fun _ => ⟨rfl, rfl⟩, fun hs => ?_⟩
        · obtain rfl := Finset.mem_singleton.mp hu
          exact ⟨hmem, rfl⟩
        · exact Finset.mem_singleton.mpr hu.2
        · exact absurd hs (Finset.singleton_ne_empty seq)
      · rename_i hmem
        exact ⟨fun u => ⟨fun hu => absurd hu (Finset.notMem_empty u), fun hu => absurd (hu.2 ▸ hu.1) hmem⟩,
          fun hne => absurd rfl hne, fun _ => rfl⟩
  | seqAdd seq p0 p1 shift =>
      refine view_onStream (f := fun c => c.seqAdd seq p0 p1 shift) h (fun c hceq hc => ⟨?_, ?_⟩) hstep
      · exact hc.seqAdd (by rw [hceq]; exact hsafe.1)
      · by_cases hzero : shift = 0
        · have hcache : c.seqAdd seq p0 p1 shift = c := if_pos hzero
          rw [hcache]
          refine entry_refl fun e => ?_
          unfold StoredToken.moved
          split
          · rename_i hin
            have hpos : 0 ≤ e.pos := Cell.within_ne (x := ⟨e.pos, 0, ∅⟩) hin.1
            rw [hzero, add_zero, if_neg (not_lt.mpr hpos)]
          · rfl
        · by_cases hrange : lower p0 = upper p1
          · have hcache : c.seqAdd seq p0 p1 shift = c := by
              unfold Cache.seqAdd
              rw [if_neg hzero, if_pos hrange]
            rw [hcache]
            refine entry_refl fun e => if_neg fun hin => lower_not_within hrange hin.1
          · exact entry_of_each hc (hc.ok.seqAdd seq hzero hrange) fun i _ d => Cell.entry_moved _ d
  | seqDiv seq p0 p1 d =>
      change st.seqDiv seq p0 p1 d = some st' at hstep
      unfold Streams.seqDiv at hstep
      split at hstep
      · cases hstep
      · refine view_onStream (f := fun c => c.seqDiv seq p0 p1 d) h (fun c hceq hc => ⟨?_, ?_⟩) hstep
        · exact hc.seqDiv (by rw [hceq]; exact hsafe.2)
        · by_cases hone : d = 1
          · have hcache : c.seqDiv seq p0 p1 d = c := if_pos hone
            rw [hcache]
            refine entry_refl fun e => congrArg some ?_
            unfold StoredToken.divided
            split
            · rw [hone, Int.tdiv_one, sub_self, mul_zero, zero_vadd]
            · rfl
          · by_cases hrange : lower p0 = upper p1
            · have hcache : c.seqDiv seq p0 p1 d = c := by
                unfold Cache.seqDiv
                rw [if_neg hone, if_pos hrange]
              rw [hcache]
              exact entry_refl fun e => congrArg some (if_neg fun hin => lower_not_within hrange hin.1)
            · exact entry_of_each hc (hc.ok.seqDiv seq hone hrange (by rw [hceq]; exact hsafe.2)) fun i hi d' =>
                Cell.entry_divided _ d' (by rw [hceq]; exact hsafe.2 i (by rw [← hceq, hc.size_eq]; exact hi))
  | emplace u cont => exact absurd rfl (hop u cont)

/-! ### The update -/

theorem origin_update (st : Streams D) (k : Nat) : st.update.origin k = k := by
  unfold Streams.origin
  rw [st.update_copies]
  rfl

theorem kShift_of_ne {c : Cells} {i : Nat} (h : (c.cell i).pos ≠ -1) : c.kShift i = (c.cell i).shift :=
  if_neg fun he => h (of_decide_eq_true he)

/-- **An update leaves the tokens as they are.** -/
theorem view_update (h : st.Inv n) (hflag : st.Flagged) : st.update.view = st.view := by
  funext k i
  by_cases hin : k < st.nStream ∧ i < n
  · obtain ⟨hcell, hdata⟩ := st.update_cell hflag hin.1 ((h.good k hin.1).size_eq.symm ▸ hin.2)
    rw [view_of_lt h.update (st.update_nStream.symm ▸ hin.1) hin.2, view_of_lt h hin.1 hin.2, pending_eq, origin_update,
      hcell,
      hdata]
    by_cases hpos : ((st.strm k).cells.cell i).pos = -1
    · rw [Cell.entry, if_pos hpos, Cell.entry, if_pos hpos]
    · rw [Cell.entry_of_ne hpos, Cell.entry_of_ne (x := { (st.strm k).cells.cell i with shift := 0 }) hpos, kShift_of_ne hpos]
      dsimp only
      rw [vadd_vadd, zero_sub, neg_add_eq_sub]
  · rw [view_of_not h.update (st.update_nStream.symm ▸ hin), view_of_not h hin]

/-- **Behind an update the rows of a token are rotated to its position.** -/
theorem update_data (h : st.Inv n) (hflag : st.Flagged) {k i : Nat} {e : StoredToken D} (he : st.view k i = some e) :
    (st.update.strm k).data i = e.pos +ᵥ e.row := by
  have hin : k < st.nStream ∧ i < n := by
    by_contra hout
    rw [view_of_not h hout] at he
    cases he
  obtain ⟨-, hdata⟩ := st.update_cell hflag hin.1 ((h.good k hin.1).size_eq.symm ▸ hin.2)
  rw [view_of_lt h hin.1 hin.2, Cell.entry] at he
  split at he
  · cases he
  · rename_i hpos
    cases he
    dsimp only
    rw [hdata, kShift_of_ne hpos, vadd_vadd, add_sub_cancel]

/-! ### A ubatch -/

theorem has_iff (h : st.Inv n) {k i s : Nat} {p : Int} (hk : k < st.nStream) : st.view.Has k i s p ↔
    i < n ∧ s ∈ ((st.strm k).cells.cell i).seq ∧ ((st.strm k).cells.cell i).pos = p := by
  constructor
  · rintro ⟨e, he, hs, hp⟩
    have hi : i < n := by
      by_contra hout
      rw [view_of_not h fun hin => hout hin.2] at he
      cases he
    rw [view_of_lt h hk hi, Cell.entry] at he
    split at he
    · cases he
    · cases he
      exact ⟨hi, hs, hp⟩
  · rintro ⟨hi, hs, hp⟩
    have hne : ((st.strm k).cells.cell i).pos ≠ -1 := fun hc => by
      rw [(h.good k hk).ok.rep.empty i ((h.good k hk).size_eq.symm ▸ hi) hc |>.1] at hs
      exact absurd hs (Finset.notMem_empty s)
    exact ⟨_, (view_of_lt h hk hi).trans (Cell.entry_of_ne hne _), hs, hp⟩

theorem taken_iff (h : st.Inv n) {slots : List (Part D × List Nat)} (hs : st.Slotted n slots)
    (husable : ∀ x ∈ slots, ∀ i ∈ x.2, (st.strm (st.streamOf x.1.seq)).cells.Usable st.swa i) (s : Nat) (p : Int) :
    st.view.Taken st.nStream slots s p ↔ st.Taken slots s p := by
  constructor
  · rintro ⟨x, hx, i, hi, hhas⟩
    obtain ⟨-, hmem, hp⟩ := (has_iff h (hs.stream x hx)).mp hhas
    have hne : ((st.strm (st.streamOf x.1.seq)).cells.cell i).pos ≠ -1 := fun hc => by
      rw [((pos_iff_of_good (h.good _ (hs.stream x hx)) (hs.lt x hx i hi)).mp hc)] at hmem
      exact absurd hmem (Finset.notMem_empty s)
    rcases husable x hx i hi with hfree | ⟨t, ht, hseq, -⟩
    · exact absurd hfree hne
    · rw [hseq, Finset.mem_singleton] at hmem
      exact ⟨x, hx, i, hi, hp, hp ▸ hne, hmem ▸ Cells.seqGet_eq_some ht hseq⟩
  · rintro ⟨x, hx, i, hi, hp, hne, hget⟩
    have hmem : s ∈ ((st.strm (st.streamOf x.1.seq)).cells.cell i).seq := by
      unfold Cells.seqGet at hget
      simpa using List.find?_some hget
    exact ⟨x, hx, i, hi, (has_iff h (hs.stream x hx)).mpr ⟨hs.lt x hx i hi, hmem, hp⟩⟩

/-- What is remembered of a sequence is its last token that gave way. -/
theorem outlived_iff {taken : Nat → Int → Prop} {rm : Nat → Int} (h : Remembers taken (fun _ => -1) rm) {s : Nat} {p : Int}
    (hp : 0 ≤ p) : (∀ q, taken s q → q < p) ↔ rm s < p := by
  constructor
  · intro hall
    rcases h.last s with heq | htaken
    · omega
    · exact hall _ htaken
  · exact fun hlt q hq => (h.le s q hq).trans_lt hlt

omit [AddAction Int D] in
/-- The rows where a ubatch goes, and the other ones. -/
theorem pending_applyUbatch {u : List (Part D)} (hbeside : st.Beside u) {slots : List (Part D × List Nat)}
    (hfst : slots.map Prod.fst = u) (hs : st.Slotted n slots) {rm : Nat → Int}
    (ha : Applied n st slots rm (st.applyUbatch slots)) :
    (∀ x ∈ slots, ∀ y ∈ x.2.zip x.1.rows, (st.applyUbatch slots).pending (st.streamOf x.1.seq) y.1 = y.2.val) ∧
      ∀ k i, (∀ x ∈ slots, st.streamOf x.1.seq = k → i ∉ x.2) → (st.applyUbatch slots).pending k i = st.pending k i := by
  obtain ⟨hrows, hother, hcopies⟩ := applyUbatch_data hs
  have horigin : (st.applyUbatch slots).origin = st.origin := by
    unfold Streams.origin
    rw [hcopies]
  have hgoes : ∀ k, st.Goes u k ↔ ∃ x ∈ slots, st.streamOf x.1.seq = k := by
    intro k
    unfold Streams.Goes
    rw [← hfst]
    simp
  refine ⟨fun x hx y hy => ?_, fun k i hout => ?_⟩
  · rw [pending_eq, horigin, hbeside _ (Or.inl ((hgoes _).mpr ⟨x, hx, rfl⟩))]
    exact hrows x hx y hy
  · rw [pending_eq, pending_eq, horigin]
    by_cases hk : st.Goes u k ∨ st.Goes u (st.origin k)
    · rw [hbeside k hk]
      exact hother k i hout
    · rw [not_or, hgoes (st.origin k)] at hk
      rw [ha.other _ fun x hx heq => hk.2 ⟨x, hx, heq⟩]

/-- **A ubatch that is placed beside the queued copies.** -/
theorem view_emplace (h : st.Inv n) (hhome : st.Home) {u : List (Part D)} (hu : st.Fits u) (hbeside : st.Beside u)
    {cont : Bool} {slots : List (Part D × List Nat)} (hfind : st.findSlot cont u = some slots) :
    Tokens.Placed st.nStream st.swa u st.view (st.applyUbatch slots).view := by
  obtain ⟨hfst, hs, husable⟩ := hu.slots h hfind
  obtain ⟨rm, ha⟩ := applyUbatch_spec h hhome hs
  obtain ⟨hrows, hother⟩ := pending_applyUbatch hbeside hfst hs ha
  have hshed : ∀ e : StoredToken D, 0 ≤ e.pos → st.view.outlived st.nStream slots e = e.shed fun s => rm s < e.pos := by
    intro e hpos
    unfold Tokens.outlived
    congr 1
    funext s
    rw [← outlived_iff ha.remembers hpos]
    simp only [taken_iff h hs husable]
  refine ⟨slots, hfst, fun x hx => ⟨hs.length x hx, hs.nodup x hx⟩, fun x hx i hi e he => ?_, fun x hx y hy => ?_,
    fun k i hout => ?_⟩
  · have hk := hs.stream x hx
    have hin := hs.lt x hx i hi
    rw [show st.view (homeOf st.nStream x.1.seq) i = _ from view_of_lt h hk hin, Cell.entry] at he
    split at he
    · cases he
    · rename_i hne
      cases he
      rcases husable x hx i hi with hfree | ⟨s, -, hseq, hmasked⟩
      · exact absurd hfree hne
      · have hgood := h.good _ hk
        have hinv := hgood.ok.rep.cellsInv hgood.bounded
        have hmem : s ∈ ((st.strm (st.streamOf x.1.seq)).cells.cell i).seq := hseq ▸ Finset.mem_singleton_self s
        have hsome : (st.strm (st.streamOf x.1.seq)).cells.seqPosMax s ≠ -1 := fun hnone =>
          (hinv.max_none s).mp hnone i (hgood.size_eq.symm ▸ hin) hmem
        refine ⟨s, _, hseq, ⟨?_, ?_⟩, hmasked⟩
        · obtain ⟨j, hj⟩ := hinv.max_mem s hsome
          obtain ⟨hjn, hjp, hjs⟩ := Finset.mem_filter.mp hj
          exact ⟨j, (has_iff h hk).mpr ⟨hgood.size_eq ▸ Finset.mem_range.mp hjn, hjs, hjp⟩⟩
        · rintro p ⟨j, hj⟩
          obtain ⟨hjn, hjs, rfl⟩ := (has_iff h hk).mp hj
          exact hinv.le_max s j (hgood.size_eq.symm ▸ hjn) hjs
  · have hk := hs.stream x hx
    have hin := hs.lt x hx y.1 (List.of_mem_zip hy).1
    obtain ⟨hok, -⟩ := hs.rows x hx y.2 (List.of_mem_zip hy).2
    show (st.applyUbatch slots).view (st.streamOf x.1.seq) y.1 = _
    rw [view_of_lt ha.inv (ha.nStream.symm ▸ hk) hin, hrows x hx y hy]
    have hpos : y.2.cell.pos ≠ -1 := fun hc => by
      have := hok.pos
      have hc : y.2.pos = -1 := hc
      omega
    rw [(ha.stored x hx y hy).entry (q := fun p s => rm s < p) (iff_of_false hpos fun hc =>
      hok.ne (List.toFinset_eq_empty_iff _ |>.mp hc)), Cell.entry_of_ne hpos, Option.bind_some, hshed _ hok.pos]
    congr 1
    show (⟨y.2.pos, y.2.ids.toFinset, (0 - y.2.pos) +ᵥ y.2.val⟩ : StoredToken D) = y.2.entry
    rw [zero_sub]
    rfl
  · by_cases hin : k < st.nStream ∧ i < n
    · rw [view_of_lt ha.inv (ha.nStream.symm ▸ hin.1) hin.2, hother k i hout, view_of_lt h hin.1 hin.2,
        (ha.left k hin.1 i hin.2 hout).entry (q := fun p s => rm s < p) (pos_iff_of_good (h.good k hin.1) hin.2)]
      by_cases hne : ((st.strm k).cells.cell i).pos = -1
      · rw [Cell.entry, if_pos hne]
        rfl
      · rw [Cell.entry_of_ne hne, Option.bind_some, Option.bind_some]
        exact (hshed _ ((h.good k hin.1).ok.rep.nonneg i ((h.good k hin.1).size_eq.symm ▸ hin.2) hne)).symm
    · rw [view_of_not ha.inv (ha.nStream.symm ▸ hin), view_of_not h hin]
      rfl

end Streams

end View

end S2Moe.Kv
