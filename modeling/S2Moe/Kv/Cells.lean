import Mathlib.Algebra.BigOperators.Pi
import Mathlib.Algebra.Order.BigOperators.Group.Multiset
import Mathlib.Tactic

/-!
# `llama_kv_cells`

One stream of KV cells. The map `seq_pos[s]` from positions to counts is the multiset `seqPos s`.

* `Cells` and its operations, under their names in the source; an operation on cell `i` that returns whether the cell
  became empty returns that first;
* `Rep` : `used` are the cells with a position, empty cells have nothing in them, and `seqPos s` are the positions of
  sequence `s`;
* `Rep.set` : what an operation on one cell has to do to keep this.
-/

namespace S2Moe.Kv

structure Cell where
  pos : Int := -1
  shift : Int := 0
  seq : Finset Nat := ∅
deriving DecidableEq

structure Cells where
  size : Nat
  cell : Nat → Cell := fun _ => {}
  used : Finset Nat := ∅
  seqPos : Nat → Multiset Int := fun _ => 0
  hasShift : Bool := false

namespace Cells

def reset (c : Cells) : Cells :=
  { c with
    cell := fun i => if i < c.size then {} else c.cell i
    used := ∅, seqPos := fun _ => 0, hasShift := false }

def isEmpty (c : Cells) (i : Nat) : Bool := decide ((c.cell i).pos = -1)

def getUsed (c : Cells) : Nat := c.used.card

/-- One past the last used cell. -/
def usedMaxP1 (c : Cells) : Nat := c.used.sup (· + 1)

def set (c : Cells) (i : Nat) (x : Cell) : Cells := { c with cell := Function.update c.cell i x }

/-- Cell `i` leaves the positions of its sequences. -/
def seqPosRm (c : Cells) (i : Nat) : Cells :=
  { c with seqPos := fun s => if s ∈ (c.cell i).seq then (c.seqPos s).erase (c.cell i).pos else c.seqPos s }

/-- Cell `i` joins the positions of its sequences. -/
def seqPosAdd (c : Cells) (i : Nat) : Cells :=
  { c with seqPos := fun s => if s ∈ (c.cell i).seq then (c.cell i).pos ::ₘ c.seqPos s else c.seqPos s }

def seqPosDec (c : Cells) (seq : Nat) (p : Int) : Cells :=
  { c with seqPos := Function.update c.seqPos seq ((c.seqPos seq).erase p) }

def seqPosInc (c : Cells) (seq : Nat) (p : Int) : Cells :=
  { c with seqPos := Function.update c.seqPos seq (p ::ₘ c.seqPos seq) }

def eraseUsed (c : Cells) (i : Nat) : Cells := { c with used := c.used.erase i }

/-- The cell is cleared. -/
def rm (c : Cells) (i : Nat) : Cells := ((c.seqPosRm i).set i {}).eraseUsed i

def seqHas (c : Cells) (i seq : Nat) : Bool := decide (seq ∈ (c.cell i).seq)

def seqRm (c : Cells) (i seq : Nat) : Bool × Cells :=
  let left := (c.cell i).seq.erase seq
  let d := c.seqPosDec seq (c.cell i).pos
  if left = ∅ then (true, (d.set i {}).eraseUsed i) else (false, d.set i { c.cell i with seq := left })

def seqKeep (c : Cells) (i seq : Nat) : Bool × Cells :=
  if seq ∈ (c.cell i).seq then
    (false, ((c.seqPosRm i).set i { c.cell i with seq := {seq} }).seqPosInc seq (c.cell i).pos)
  else if (c.cell i).seq ≠ ∅ then (true, ((c.seqPosRm i).set i {}).eraseUsed i)
  else (false, c)

def seqAdd (c : Cells) (i seq : Nat) : Cells :=
  (c.set i { c.cell i with seq := insert seq (c.cell i).seq }).seqPosInc seq (c.cell i).pos

/-- The last of the positions of `seq`, which are not negative; -1 without any. -/
def seqPosMax (c : Cells) (seq : Nat) : Int := (c.seqPos seq).fold max (-1)

def posIn (c : Cells) (i : Nat) (p0 p1 : Int) : Bool := decide (p0 ≤ (c.cell i).pos ∧ (c.cell i).pos < p1)

/-- An empty cell gets a position. -/
def posSet (c : Cells) (i : Nat) (p : Int) : Cells :=
  let d := c.set i { c.cell i with pos := p }
  { d with used := insert i d.used }

def posAdd (c : Cells) (i : Nat) (d : Int) : Bool × Cells :=
  let x := c.cell i
  let c := { c.seqPosRm i with hasShift := true }
  if x.pos + d < 0 then (true, (c.set i {}).eraseUsed i)
  else (false, (c.set i { x with pos := x.pos + d, shift := x.shift + d }).seqPosAdd i)

/-- The shift grows by the old position less the new one. -/
def posDiv (c : Cells) (i : Nat) (d : Int) : Cells :=
  let x := c.cell i
  let c := { c.seqPosRm i with hasShift := true }
  (c.set i { x with pos := x.pos.tdiv d, shift := x.shift + (x.pos - x.pos.tdiv d) }).seqPosAdd i

end Cells

/-! ## The representation -/

/-- What a cell contributes to the positions of `s`. -/
def Cell.contrib (x : Cell) (s : Nat) : Multiset Int := if s ∈ x.seq then {x.pos} else 0

structure Rep (c : Cells) : Prop where
  used_iff : ∀ i, i ∈ c.used ↔ i < c.size ∧ (c.cell i).pos ≠ -1
  empty : ∀ i < c.size, (c.cell i).pos = -1 → (c.cell i).seq = ∅ ∧ (c.cell i).shift = 0
  full : ∀ i < c.size, (c.cell i).pos ≠ -1 → (c.cell i).seq ≠ ∅
  nonneg : ∀ i < c.size, (c.cell i).pos ≠ -1 → 0 ≤ (c.cell i).pos
  seqPos_eq : ∀ s, c.seqPos s = ∑ i ∈ Finset.range c.size, (c.cell i).contrib s

section Rep
variable {c c' : Cells} {i : Nat} {x : Cell}

theorem Rep.init (size : Nat) : Rep { size := size } where
  used_iff i := by simp
  empty i _ _ := ⟨rfl, rfl⟩
  full i _ h := absurd rfl h
  nonneg i _ h := absurd rfl h
  seqPos_eq s := by simp [Cell.contrib]

/-- An operation that replaces one cell: `used` and `seqPos` must follow. -/
theorem Rep.set (h : Rep c) (hi : i < c.size) (hsize : c'.size = c.size) (hcell : c'.cell = Function.update c.cell i x)
    (hused : ∀ j, j ∈ c'.used ↔ if j = i then x.pos ≠ -1 else j ∈ c.used)
    (hempty : x.pos = -1 → x.seq = ∅ ∧ x.shift = 0) (hfull : x.pos ≠ -1 → x.seq ≠ ∅ ∧ 0 ≤ x.pos)
    (hpos : ∀ s rest, c.seqPos s = (c.cell i).contrib s + rest → c'.seqPos s = x.contrib s + rest) : Rep c' where
  used_iff j := by
    rw [hused, hsize, hcell]
    by_cases hj : j = i
    · rw [if_pos hj, hj, Function.update_self]
      exact ⟨fun hx => ⟨hi, hx⟩, fun hx => hx.2⟩
    · rw [if_neg hj, Function.update_of_ne hj]
      exact h.used_iff j
  empty j hj hp := by
    rw [hsize] at hj
    rw [hcell] at hp ⊢
    by_cases hji : j = i
    · rw [hji, Function.update_self] at hp ⊢
      exact hempty hp
    · rw [Function.update_of_ne hji] at hp ⊢
      exact h.empty j hj hp
  full j hj hp := by
    rw [hsize] at hj
    rw [hcell] at hp ⊢
    by_cases hji : j = i
    · rw [hji, Function.update_self] at hp ⊢
      exact (hfull hp).1
    · rw [Function.update_of_ne hji] at hp ⊢
      exact h.full j hj hp
  nonneg j hj hp := by
    rw [hsize] at hj
    rw [hcell] at hp ⊢
    by_cases hji : j = i
    · rw [hji, Function.update_self] at hp ⊢
      exact (hfull hp).2
    · rw [Function.update_of_ne hji] at hp ⊢
      exact h.nonneg j hj hp
  seqPos_eq s := by
    have hmem : i ∈ Finset.range c.size := Finset.mem_range.mpr hi
    have hsplit : c.seqPos s = (c.cell i).contrib s + ∑ j ∈ (Finset.range c.size).erase i, (c.cell j).contrib s := by
      rw [h.seqPos_eq]
      exact (Finset.add_sum_erase _ (fun j => (c.cell j).contrib s) hmem).symm
    rw [hpos s _ hsplit, hsize, hcell,
      ← Finset.add_sum_erase _ (fun j => (Function.update c.cell i x j).contrib s) hmem, Function.update_self]
    congr 1
    apply Finset.sum_congr rfl
    intro j hj
    rw [Function.update_of_ne (Finset.ne_of_mem_erase hj)]

theorem contrib_empty (s : Nat) : (Cell.contrib {} s) = 0 := if_neg (Finset.notMem_empty s)

/-- An operation that clears one cell. -/
theorem Rep.clearCell (h : Rep c) (hi : i < c.size) (hsize : c'.size = c.size)
    (hcell : c'.cell = Function.update c.cell i {}) (hused : c'.used = c.used.erase i)
    (hpos : ∀ s rest, c.seqPos s = (c.cell i).contrib s + rest → c'.seqPos s = rest) : Rep c' := by
  refine h.set (x := {}) hi hsize hcell (fun j => ?_) (fun _ => ⟨rfl, rfl⟩) (fun hc => absurd rfl hc) fun s rest hs => ?_
  · rw [hused]
    by_cases hj : j = i
    · simp [hj]
    · simp [hj]
  · rw [contrib_empty, zero_add]
    exact hpos s rest hs

/-- An operation that changes a cell in use. -/
theorem Rep.changeCell (h : Rep c) (hi : i < c.size) (hne : (c.cell i).pos ≠ -1) (hsize : c'.size = c.size)
    (hcell : c'.cell = Function.update c.cell i x) (hused : c'.used = c.used) (hseq : x.seq ≠ ∅) (hx : 0 ≤ x.pos)
    (hpos : ∀ s rest, c.seqPos s = (c.cell i).contrib s + rest → c'.seqPos s = x.contrib s + rest) : Rep c' := by
  have hxne : x.pos ≠ -1 := by omega
  refine h.set hi hsize hcell (fun j => ?_) (fun hc => absurd hc hxne) (fun _ => ⟨hseq, hx⟩) hpos
  rw [hused]
  by_cases hj : j = i
  · rw [if_pos hj, hj]
    exact ⟨fun _ => hxne, fun _ => (h.used_iff i).mpr ⟨hi, hne⟩⟩
  · rw [if_neg hj]

theorem Rep.pos_ne (h : Rep c) (hi : i < c.size) {s : Nat} (hs : s ∈ (c.cell i).seq) : (c.cell i).pos ≠ -1 := by
  intro hp
  rw [(h.empty i hi hp).1] at hs
  cases hs

/-- Taking a cell out of the positions of its sequences. -/
theorem seqPosRm_eq {s : Nat} {rest : Multiset Int} (h : c.seqPos s = (c.cell i).contrib s + rest) :
    (c.seqPosRm i).seqPos s = rest := by
  unfold Cells.seqPosRm
  dsimp only
  rw [h]
  unfold Cell.contrib
  by_cases hs : s ∈ (c.cell i).seq
  · rw [if_pos hs, if_pos hs, Multiset.singleton_add, Multiset.erase_cons_head]
  · rw [if_neg hs, if_neg hs, zero_add]

theorem seqPosAdd_eq (s : Nat) : (c.seqPosAdd i).seqPos s = (c.cell i).contrib s + c.seqPos s := by
  unfold Cells.seqPosAdd Cell.contrib
  dsimp only
  split
  · rw [Multiset.singleton_add]
  · rw [zero_add]

theorem Rep.rm (h : Rep c) (hi : i < c.size) : Rep (c.rm i) :=
  h.clearCell hi rfl rfl rfl fun _ _ hs => seqPosRm_eq hs

theorem Rep.seqRm (h : Rep c) (hi : i < c.size) {seq : Nat} (hmem : seq ∈ (c.cell i).seq) : Rep (c.seqRm i seq).2 := by
  have hne := h.pos_ne hi hmem
  -- only the positions of `seq` change
  have hdec : ∀ s rest, c.seqPos s = (c.cell i).contrib s + rest →
      (c.seqPosDec seq (c.cell i).pos).seqPos s = (if s ∈ (c.cell i).seq.erase seq then {(c.cell i).pos} else 0) + rest := by
    intro s rest hs
    unfold Cells.seqPosDec
    dsimp only
    by_cases hss : s = seq
    · subst hss
      rw [Function.update_self, hs, Cell.contrib, if_pos hmem, Multiset.singleton_add, Multiset.erase_cons_head,
        if_neg (Finset.notMem_erase s _), zero_add]
    · rw [Function.update_of_ne hss, hs, Cell.contrib]
      congr 1
      exact if_congr (by simp [hss]) rfl rfl
  unfold Cells.seqRm
  dsimp only
  split
  · rename_i hleft
    refine h.clearCell hi rfl rfl rfl fun s rest hs => ?_
    have := hdec s rest hs
    rw [hleft, if_neg (Finset.notMem_empty s), zero_add] at this
    exact this
  · rename_i hleft
    exact h.changeCell (x := { c.cell i with seq := (c.cell i).seq.erase seq }) hi hne rfl rfl rfl hleft
      (h.nonneg i hi hne) hdec

theorem Rep.seqKeep (h : Rep c) (hi : i < c.size) (seq : Nat) : Rep (c.seqKeep i seq).2 := by
  unfold Cells.seqKeep
  split
  · rename_i hmem
    have hne := h.pos_ne hi hmem
    refine h.changeCell (x := { c.cell i with seq := {seq} }) hi hne rfl rfl rfl (Finset.singleton_ne_empty seq)
      (h.nonneg i hi hne) fun s rest hs => ?_
    have hrm := seqPosRm_eq hs
    unfold Cells.seqPosInc Cell.contrib
    dsimp only
    by_cases hss : s = seq
    · subst hss
      rw [Function.update_self, if_pos (Finset.mem_singleton_self s), Multiset.singleton_add]
      congr 1
    · rw [Function.update_of_ne hss, if_neg (fun hc => hss (Finset.mem_singleton.mp hc)), zero_add]
      exact hrm
  · split
    · exact h.clearCell hi rfl rfl rfl fun _ _ hs => seqPosRm_eq hs
    · exact h

theorem Rep.seqAdd (h : Rep c) (hi : i < c.size) {seq : Nat} (hne : (c.cell i).pos ≠ -1) (hnew : seq ∉ (c.cell i).seq) :
    Rep (c.seqAdd i seq) := by
  refine h.changeCell (x := { c.cell i with seq := insert seq (c.cell i).seq }) hi hne rfl rfl rfl
    (Finset.insert_ne_empty _ _) (h.nonneg i hi hne) fun s rest hs => ?_
  unfold Cells.seqAdd Cells.seqPosInc Cells.set Cell.contrib
  unfold Cell.contrib at hs
  dsimp only
  by_cases hss : s = seq
  · subst hss
    rw [if_neg hnew, zero_add] at hs
    rw [Function.update_self, if_pos (Finset.mem_insert_self _ _), hs, Multiset.singleton_add]
  · rw [Function.update_of_ne hss, hs]
    congr 1
    exact if_congr (by simp [hss]) rfl rfl

/-- A cell in use gets another position and shift. -/
theorem Rep.reposition (h : Rep c) (hi : i < c.size) (hne : (c.cell i).pos ≠ -1) {p sh : Int} (hp : 0 ≤ p) :
    Rep ((({ c.seqPosRm i with hasShift := true } : Cells).set i { c.cell i with pos := p, shift := sh }).seqPosAdd i) := by
  refine h.changeCell (x := { c.cell i with pos := p, shift := sh }) hi hne rfl rfl rfl (h.full i hi hne) hp
    fun s rest hs => ?_
  rw [seqPosAdd_eq]
  have hcell : (({ c.seqPosRm i with hasShift := true } : Cells).set i { c.cell i with pos := p, shift := sh }).cell i =
      { c.cell i with pos := p, shift := sh } := Function.update_self _ _ _
  rw [hcell]
  congr 1
  exact seqPosRm_eq hs

theorem Rep.posAdd (h : Rep c) (hi : i < c.size) (hne : (c.cell i).pos ≠ -1) (d : Int) : Rep (c.posAdd i d).2 := by
  unfold Cells.posAdd
  dsimp only
  split
  · exact h.clearCell hi rfl rfl rfl fun _ _ hs => seqPosRm_eq hs
  · rename_i hd
    exact h.reposition hi hne (Int.not_lt.mp hd)

theorem Rep.posDiv (h : Rep c) (hi : i < c.size) (hne : (c.cell i).pos ≠ -1) {d : Int} (hd : 0 ≤ (c.cell i).pos.tdiv d) :
    Rep (c.posDiv i d) := h.reposition hi hne hd

/-! ## Filling an empty cell -/

/-- The sequences of a token join a cell one after the other. -/
theorem foldl_seqAdd (i : Nat) : ∀ (ids : List Nat) (c : Cells), ids.Nodup → (∀ s ∈ ids, s ∉ (c.cell i).seq) →
    (ids.foldl (fun c s => c.seqAdd i s) c).size = c.size ∧ (ids.foldl (fun c s => c.seqAdd i s) c).used = c.used ∧
      (ids.foldl (fun c s => c.seqAdd i s) c).cell =
        Function.update c.cell i { c.cell i with seq := (c.cell i).seq ∪ ids.toFinset } ∧
      ∀ s, (ids.foldl (fun c s => c.seqAdd i s) c).seqPos s = (if s ∈ ids then {(c.cell i).pos} else 0) + c.seqPos s
  | [], c, _, _ => by
    refine ⟨rfl, rfl, ?_, fun s => ?_⟩
    · simp
    · simp
  | t :: ids, c, hnodup, hnew => by
    rw [List.nodup_cons] at hnodup
    have hcell : (c.seqAdd i t).cell i = { c.cell i with seq := insert t (c.cell i).seq } := Function.update_self _ _ _
    have hnew' : ∀ s ∈ ids, s ∉ ((c.seqAdd i t).cell i).seq := by
      intro s hs
      rw [hcell]
      intro hc
      rcases Finset.mem_insert.mp hc with rfl | hc
      · exact hnodup.1 hs
      · exact hnew s (List.mem_cons_of_mem _ hs) hc
    obtain ⟨h1, h2, h3, h4⟩ := foldl_seqAdd i ids (c.seqAdd i t) hnodup.2 hnew'
    rw [List.foldl_cons]
    refine ⟨h1, h2, ?_, fun s => ?_⟩
    · rw [h3, hcell]
      unfold Cells.seqAdd Cells.seqPosInc Cells.set
      dsimp only
      rw [Function.update_idem]
      congr 2
      ext x
      simp only [List.toFinset_cons, Finset.mem_union, Finset.mem_insert]
      tauto
    · rw [h4, hcell]
      unfold Cells.seqAdd Cells.seqPosInc
      dsimp only
      by_cases hst : s = t
      · subst hst
        rw [if_neg hnodup.1, if_pos List.mem_cons_self, Function.update_self, zero_add, Multiset.singleton_add]
        rfl
      · rw [Function.update_of_ne hst]
        congr 1
        exact if_congr (by simp [hst]) rfl rfl

/-- An empty cell is given a token with position `p` and sequences `ids`. -/
def Cells.place (c : Cells) (i : Nat) (p : Int) (ids : List Nat) : Cells :=
  ids.foldl (fun c s => c.seqAdd i s) (c.posSet i p)

section Place
variable {p : Int} {ids : List Nat}

theorem Rep.place_spec (h : Rep c) (hi : i < c.size) (he : (c.cell i).pos = -1) (hnodup : ids.Nodup) :
    (c.place i p ids).size = c.size ∧ (c.place i p ids).used = insert i c.used ∧
      (c.place i p ids).cell = Function.update c.cell i { pos := p, shift := 0, seq := ids.toFinset } ∧
      ∀ s, (c.place i p ids).seqPos s = (if s ∈ ids then {p} else 0) + c.seqPos s := by
  obtain ⟨hseq, hshift⟩ := h.empty i hi he
  have hcell : (c.posSet i p).cell i = { c.cell i with pos := p } := Function.update_self _ _ _
  obtain ⟨h1, h2, h3, h4⟩ := foldl_seqAdd i ids (c.posSet i p) hnodup (fun s _ => by rw [hcell, hseq]; simp)
  refine ⟨h1, h2, ?_, fun s => ?_⟩
  · unfold Cells.place
    rw [h3, hcell]
    unfold Cells.posSet Cells.set
    dsimp only
    rw [Function.update_idem, hseq, hshift, Finset.empty_union]
  · unfold Cells.place
    rw [h4, hcell]
    rfl

theorem Rep.place (h : Rep c) (hi : i < c.size) (he : (c.cell i).pos = -1) (hnodup : ids.Nodup) (hne : ids ≠ [])
    (hp : 0 ≤ p) : Rep (c.place i p ids) := by
  obtain ⟨h1, h2, h3, h4⟩ := h.place_spec (p := p) hi he hnodup
  obtain ⟨hseq, -⟩ := h.empty i hi he
  refine h.set hi h1 h3 (fun j => ?_) (fun hc => ?_) (fun _ => ⟨?_, hp⟩) fun s rest hs => ?_
  · rw [h2, Finset.mem_insert]
    by_cases hj : j = i
    · rw [if_pos hj]
      refine ⟨fun _ hc => ?_, fun _ => .inl hj⟩
      dsimp only at hc
      omega
    · rw [if_neg hj]
      exact ⟨fun hc => hc.resolve_left hj, .inr⟩
  · dsimp only at hc
    omega
  · intro hc
    exact hne (List.toFinset_eq_empty_iff ids |>.mp hc)
  · rw [h4, hs]
    unfold Cell.contrib
    rw [hseq, if_neg (Finset.notMem_empty s), zero_add]
    congr 1
    exact if_congr List.mem_toFinset.symm rfl rfl

end Place

/-! ## The positions of a sequence -/

theorem Rep.mem_seqPos (h : Rep c) {s : Nat} {p : Int} :
    p ∈ c.seqPos s ↔ ∃ i < c.size, s ∈ (c.cell i).seq ∧ (c.cell i).pos = p := by
  rw [h.seqPos_eq, Multiset.mem_sum]
  constructor
  · rintro ⟨i, hi, hp⟩
    unfold Cell.contrib at hp
    split at hp
    · rename_i hs
      exact ⟨i, Finset.mem_range.mp hi, hs, (Multiset.mem_singleton.mp hp).symm⟩
    · cases Multiset.notMem_zero _ hp
  · rintro ⟨i, hi, hs, rfl⟩
    refine ⟨i, Finset.mem_range.mpr hi, ?_⟩
    unfold Cell.contrib
    rw [if_pos hs]
    exact Multiset.mem_singleton_self _

theorem fold_max_le {m : Multiset Int} {p : Int} (h0 : -1 ≤ p) (hle : ∀ q ∈ m, q ≤ p) : m.fold max (-1) ≤ p := by
  induction m using Multiset.induction_on with
  | empty => exact h0
  | cons q m ih =>
      rw [Multiset.fold_cons_left]
      exact max_le (hle q (Multiset.mem_cons_self q m)) (ih fun r hr => hle r (Multiset.mem_cons_of_mem hr))

theorem le_fold_max {m : Multiset Int} {p : Int} (hp : p ∈ m) : p ≤ m.fold max (-1) := by
  induction m using Multiset.induction_on with
  | empty => cases Multiset.notMem_zero p hp
  | cons q m ih =>
      rw [Multiset.fold_cons_left]
      rcases Multiset.mem_cons.mp hp with rfl | hp
      · exact le_max_left _ _
      · exact (ih hp).trans (le_max_right _ _)

theorem Rep.seqPosMax_eq (h : Rep c) {s : Nat} {p : Int} (hp : ∃ i < c.size, s ∈ (c.cell i).seq ∧ (c.cell i).pos = p)
    (hle : ∀ i < c.size, s ∈ (c.cell i).seq → (c.cell i).pos ≤ p) : c.seqPosMax s = p := by
  have hnonneg : 0 ≤ p := by
    obtain ⟨i, hi, hs, rfl⟩ := hp
    exact h.nonneg i hi (h.pos_ne hi hs)
  apply le_antisymm
  · refine fold_max_le (by omega) fun q hq => ?_
    obtain ⟨i, hi, hs, rfl⟩ := h.mem_seqPos.mp hq
    exact hle i hi hs
  · exact le_fold_max (h.mem_seqPos.mpr hp)

theorem Rep.seqPosMax_none (h : Rep c) {s : Nat} (hnone : ∀ i < c.size, s ∉ (c.cell i).seq) : c.seqPosMax s = -1 := by
  have hempty : c.seqPos s = 0 := by
    apply Multiset.eq_zero_of_forall_notMem
    intro p hp
    obtain ⟨i, hi, hs, -⟩ := h.mem_seqPos.mp hp
    exact hnone i hi hs
  unfold Cells.seqPosMax
  rw [hempty]
  rfl

end Rep

end S2Moe.Kv
