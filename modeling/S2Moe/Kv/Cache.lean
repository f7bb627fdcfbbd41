import S2Moe.Kv.Cells
import S2Moe.Lib.Loop
import S2Moe.Recurrent.Cells

/-!
# `llama_kv_cache`: one stream, no sliding window

`data` stands for the K and V rows of the cells.

* `clear`, `seqRm`, `seqCp`, `seqKeep`, `seqAdd` : the sequence operations, each with a lemma that says what becomes of
  every cell;
* `Each` : a cache whose cells are those of another one, each changed in the same way.
-/

namespace S2Moe.Kv
open S2Moe.Lib
open S2Moe.Recurrent (lower upper posMax)

structure Cache (D : Type) where
  cells : Cells
  head : Nat := 0
  data : Nat → D

/-- A token of a batch: its position, its sequences, and what is stored for it. -/
structure Row (D : Type) where
  pos : Int
  ids : List Nat
  val : D
deriving DecidableEq

/-! ## Loops over the cells -/

/-- The body rewrites cell `i` and says whether it became empty; the first such cell is `new_head`. -/
def loop (c : Cells) (body : Nat → Cells → Bool × Cells) : Option Nat × Cells :=
  (List.range c.size).foldl
    (fun acc i => (acc.1 <|> if (body i acc.2).1 then some i else none, (body i acc.2).2)) (none, c)

theorem loop_spec {c : Cells} (body : Nat → Cells → Bool × Cells) (g : Cell → Cell) (h : Rep c)
    (hbody : ∀ i < c.size, ∀ d : Cells, Rep d → d.size = c.size → d.cell i = c.cell i →
      Rep (body i d).2 ∧ (body i d).2.size = d.size ∧ (body i d).2.cell = Function.update d.cell i (g (d.cell i))) :
    Rep (loop c body).2 ∧ (loop c body).2.size = c.size ∧
      (∀ j < c.size, (loop c body).2.cell j = g (c.cell j)) ∧ ∀ i, (loop c body).1 = some i → i < c.size := by
  have hrule := foldl_range_rule
    (f := fun (acc : Option Nat × Cells) i =>
      (acc.1 <|> if (body i acc.2).1 then some i else none, (body i acc.2).2))
    (P := fun i acc => Rep acc.2 ∧ acc.2.size = c.size ∧
      (∀ j, acc.2.cell j = if j < i then g (c.cell j) else c.cell j) ∧ ∀ j, acc.1 = some j → j < c.size)
    (s := (none, c)) ⟨h, rfl, fun j => (if_neg (Nat.not_lt_zero j)).symm, fun j hj => by cases hj⟩ c.size ?_
  · refine ⟨hrule.1, hrule.2.1, fun j hj => ?_, hrule.2.2.2⟩
    exact (hrule.2.2.1 j).trans (if_pos hj)
  · rintro i hi acc ⟨hrep, hsize, hcell, hnew⟩
    have hown : acc.2.cell i = c.cell i := by
      rw [hcell, if_neg (lt_irrefl i)]
    obtain ⟨h1, h2, h3⟩ := hbody i hi acc.2 hrep hsize hown
    refine ⟨h1, h2.trans hsize, fun j => ?_, fun j hj => ?_⟩
    · dsimp only
      rw [h3]
      by_cases hj : j = i
      · rw [hj, Function.update_self, hown, if_pos (Nat.lt_succ_self i)]
      · rw [Function.update_of_ne hj, hcell]
        exact if_congr (by omega) rfl rfl
    · dsimp only at hj
      cases ha : acc.1 with
      | some a =>
          rw [ha] at hj
          exact hnew j (ha.trans hj)
      | none =>
          rw [ha] at hj
          split at hj
          · cases hj
            exact hi
          · cases hj

/-- The cells alone, whatever the rest is. -/
theorem loop_cell {c : Cells} (body : Nat → Cells → Bool × Cells) (g : Cell → Cell)
    (hbody : ∀ i d, (body i d).2.size = d.size ∧ (body i d).2.cell = Function.update d.cell i (g (d.cell i))) :
    (loop c body).2.size = c.size ∧ ∀ j < c.size, (loop c body).2.cell j = g (c.cell j) := by
  have hrule := foldl_range_rule
    (f := fun (acc : Option Nat × Cells) i =>
      (acc.1 <|> if (body i acc.2).1 then some i else none, (body i acc.2).2))
    (P := fun i acc => acc.2.size = c.size ∧ ∀ j, acc.2.cell j = if j < i then g (c.cell j) else c.cell j)
    (s := (none, c)) ⟨rfl, fun j => (if_neg (Nat.not_lt_zero j)).symm⟩ c.size ?_
  · exact ⟨hrule.1, fun j hj => (hrule.2 j).trans (if_pos hj)⟩
  · rintro i _ acc ⟨hsize, hcell⟩
    obtain ⟨h1, h2⟩ := hbody i acc.2
    refine ⟨h1.trans hsize, fun j => ?_⟩
    dsimp only
    rw [h2]
    by_cases hj : j = i
    · rw [hj, Function.update_self, hcell, if_neg (lt_irrefl i), if_pos (Nat.lt_succ_self i)]
    · rw [Function.update_of_ne hj, hcell]
      exact if_congr (by omega) rfl rfl

/-- `head` moves down to the first cell that was freed. -/
def freedHead (head : Nat) : Option Nat → Nat
  | some i => if i < head then i else head
  | none => head

namespace Cache

variable {D : Type}

def clear (c : Cache D) : Cache D := { c with cells := c.cells.reset, head := 0 }

def rmBody (seq p0 p1 : Int) (i : Nat) (d : Cells) : Bool × Cells :=
  if 0 ≤ seq then
    if d.posIn i p0 p1 ∧ d.seqHas i seq.toNat then d.seqRm i seq.toNat else (false, d)
  else if d.posIn i p0 p1 then (true, d.rm i) else (false, d)

def seqRm (c : Cache D) (seq p0 p1 : Int) : Cache D :=
  let r := loop c.cells (rmBody seq (lower p0) (upper p1))
  { c with cells := r.2, head := freedHead c.head r.1 }

def cpBody (src dst : Nat) (p0 p1 : Int) (i : Nat) (d : Cells) : Bool × Cells :=
  if d.posIn i p0 p1 ∧ d.seqHas i src then (false, d.seqAdd i dst) else (false, d)

def seqCp (c : Cache D) (src dst : Nat) (p0 p1 : Int) : Cache D :=
  if src = dst then c else { c with cells := (loop c.cells (cpBody src dst (lower p0) (upper p1))).2 }

def seqKeep (c : Cache D) (seq : Nat) : Cache D :=
  let r := loop c.cells fun i d => d.seqKeep i seq
  { c with cells := r.2, head := freedHead c.head r.1 }

def addBody (seq : Nat) (p0 p1 shift : Int) (i : Nat) (d : Cells) : Bool × Cells :=
  if d.posIn i p0 p1 ∧ d.seqHas i seq then d.posAdd i shift else (false, d)

def seqAdd (c : Cache D) (seq : Nat) (p0 p1 shift : Int) : Cache D :=
  if shift = 0 then c
  else if lower p0 = upper p1 then c
  else
    let r := loop c.cells (addBody seq (lower p0) (upper p1) shift)
    { c with cells := r.2, head := r.1.getD 0 }

def divBody (seq : Nat) (p0 p1 d : Int) (i : Nat) (c : Cells) : Bool × Cells :=
  if c.posIn i p0 p1 ∧ c.seqHas i seq then (false, c.posDiv i d) else (false, c)

def seqDiv (c : Cache D) (seq : Nat) (p0 p1 d : Int) : Cache D :=
  if d = 1 then c
  else if lower p0 = upper p1 then c
  else { c with cells := (loop c.cells (divBody seq (lower p0) (upper p1) d)).2 }

end Cache

/-! ## What becomes of a cell -/

def Cell.within (x : Cell) (p0 p1 : Int) : Prop := lower p0 ≤ x.pos ∧ x.pos < upper p1

instance (x : Cell) (p0 p1 : Int) : Decidable (x.within p0 p1) := inferInstanceAs (Decidable (_ ∧ _))

/-- Behind `seq_rm` of one sequence. -/
def Cell.removed (seq : Nat) (p0 p1 : Int) (x : Cell) : Cell :=
  if x.within p0 p1 ∧ seq ∈ x.seq then
    if x.seq.erase seq = ∅ then {} else { x with seq := x.seq.erase seq }
  else x

/-- Behind `seq_cp`. -/
def Cell.copied (src dst : Nat) (p0 p1 : Int) (x : Cell) : Cell :=
  if x.within p0 p1 ∧ src ∈ x.seq then { x with seq := insert dst x.seq } else x

/-- Behind `seq_keep`. -/
def Cell.kept (seq : Nat) (x : Cell) : Cell := if seq ∈ x.seq then { x with seq := {seq} } else {}

/-- Behind `seq_add`. -/
def Cell.moved (seq : Nat) (p0 p1 shift : Int) (x : Cell) : Cell :=
  if x.within p0 p1 ∧ seq ∈ x.seq then
    if x.pos + shift < 0 then {} else { x with pos := x.pos + shift, shift := x.shift + shift }
  else x

/-- Behind `seq_div`. -/
def Cell.divided (seq : Nat) (p0 p1 d : Int) (x : Cell) : Cell :=
  if x.within p0 p1 ∧ seq ∈ x.seq then
    { x with pos := x.pos.tdiv d, shift := x.shift + (x.pos - x.pos.tdiv d) }
  else x

section Cell
variable {x : Cell} {s dst : Nat} {p0 p1 shift : Int}

theorem Cell.removed_of_mem (hw : x.within p0 p1) (hs : x.seq = {s}) : x.removed s p0 p1 = {} := by
  unfold Cell.removed
  rw [if_pos ⟨hw, by rw [hs]; exact Finset.mem_singleton_self s⟩, if_pos (by rw [hs]; exact Finset.erase_singleton s)]

theorem Cell.removed_of_not (h : ¬ (x.within p0 p1 ∧ s ∈ x.seq)) : x.removed s p0 p1 = x := if_neg h

/-- The other sequences stay, and the position with them. -/
theorem Cell.mem_removed {y : Nat} (hy : y ≠ s) : y ∈ (x.removed s p0 p1).seq ↔ y ∈ x.seq := by
  unfold Cell.removed
  split
  · split
    · rename_i hempty
      have hmem : y ∈ x.seq ↔ y ∈ x.seq.erase s := by
        rw [Finset.mem_erase]
        exact ⟨fun h => ⟨hy, h⟩, And.right⟩
      rw [hmem, hempty]
    · exact Finset.mem_erase.trans ⟨And.right, fun h => ⟨hy, h⟩⟩
  · rfl

theorem Cell.removed_pos {y : Nat} (hy : y ≠ s) (hmem : y ∈ x.seq) : (x.removed s p0 p1).pos = x.pos := by
  unfold Cell.removed
  split
  · split
    · rename_i hempty
      have hleft : y ∈ x.seq.erase s := Finset.mem_erase.mpr ⟨hy, hmem⟩
      rw [hempty] at hleft
      exact absurd hleft (Finset.notMem_empty y)
    · rfl
  · rfl

theorem Cell.removed_notMem (hw : s ∈ x.seq → x.within p0 p1) : s ∉ (x.removed s p0 p1).seq := by
  unfold Cell.removed
  split
  · split
    · exact Finset.notMem_empty s
    · exact Finset.notMem_erase s _
  · rename_i hnot
    exact fun hs => hnot ⟨hw hs, hs⟩

theorem Cell.copied_of_mem (hw : x.within p0 p1) (hs : s ∈ x.seq) :
    x.copied s dst p0 p1 = { x with seq := insert dst x.seq } := if_pos ⟨hw, hs⟩

theorem Cell.copied_of_notMem (hs : s ∉ x.seq) : x.copied s dst p0 p1 = x := if_neg fun h => hs h.2

theorem Cell.kept_of_mem (hs : s ∈ x.seq) : x.kept s = { x with seq := {s} } := if_pos hs

theorem Cell.kept_of_notMem (hs : s ∉ x.seq) : x.kept s = {} := if_neg hs

theorem Cell.moved_of_mem (hw : x.within p0 p1) (hs : s ∈ x.seq) (hpos : 0 ≤ x.pos + shift) :
    x.moved s p0 p1 shift = { x with pos := x.pos + shift, shift := x.shift + shift } := by
  unfold Cell.moved
  rw [if_pos ⟨hw, hs⟩, if_neg (by omega)]

theorem Cell.moved_of_notMem (hs : s ∉ x.seq) : x.moved s p0 p1 shift = x := if_neg fun h => hs h.2

end Cell

structure Cache.Ok {D : Type} (c : Cache D) : Prop where
  rep : Rep c.cells
  head_le : c.head ≤ c.cells.size

/-- The cache `c'` has the cells of `c`, each behind `g`. -/
structure Each {D : Type} (c c' : Cache D) (g : Cell → Cell) : Prop where
  ok : c'.Ok
  size_eq : c'.cells.size = c.cells.size
  cell_eq : ∀ j < c.cells.size, c'.cells.cell j = g (c.cells.cell j)
  data_eq : c'.data = c.data

section Ops
variable {D : Type} {c : Cache D}

theorem freedHead_le (head : Nat) : ∀ new, freedHead head new ≤ head
  | none => le_rfl
  | some i => by
    change (if i < head then i else head) ≤ head
    split <;> omega

theorem Each.of_loop {c' : Cache D} {body : Nat → Cells → Bool × Cells} {g : Cell → Cell} (h : c.Ok)
    (hcells : c'.cells = (loop c.cells body).2) (hdata : c'.data = c.data)
    (hhead : c'.head ≤ c.head ∨ c'.head = (loop c.cells body).1.getD 0)
    (hbody : ∀ i < c.cells.size, ∀ d : Cells, Rep d → d.size = c.cells.size → d.cell i = c.cells.cell i →
      Rep (body i d).2 ∧ (body i d).2.size = d.size ∧ (body i d).2.cell = Function.update d.cell i (g (d.cell i))) :
    Each c c' g := by
  obtain ⟨h1, h2, h3, h4⟩ := loop_spec body g h.rep hbody
  rw [← hcells] at h1 h2 h3
  refine ⟨⟨h1, ?_⟩, h2, h3, hdata⟩
  rw [h2]
  rcases hhead with hle | heq
  · exact hle.trans h.head_le
  · rw [heq]
    cases hnew : (loop c.cells body).1 with
    | none => exact Nat.zero_le _
    | some i => exact (h4 i hnew).le

theorem Each.trans {c₁ c₂ : Cache D} {g g' : Cell → Cell} (h₁ : Each c c₁ g) (h₂ : Each c₁ c₂ g') :
    Each c c₂ (fun x => g' (g x)) where
  ok := h₂.ok
  size_eq := h₂.size_eq.trans h₁.size_eq
  cell_eq j hj := by
    rw [h₂.cell_eq j (by rw [h₁.size_eq]; exact hj), h₁.cell_eq j hj]
  data_eq := h₂.data_eq.trans h₁.data_eq

theorem Each.congr {c' : Cache D} {g g' : Cell → Cell} (h : Each c c' g)
    (hg : ∀ j < c.cells.size, g (c.cells.cell j) = g' (c.cells.cell j)) : Each c c' g' where
  ok := h.ok
  size_eq := h.size_eq
  cell_eq j hj := (h.cell_eq j hj).trans (hg j hj)
  data_eq := h.data_eq

theorem Cache.Ok.seqRm (h : c.Ok) (seq : Nat) (p0 p1 : Int) :
    Each c (c.seqRm seq p0 p1) (Cell.removed seq p0 p1) := by
  refine Each.of_loop h rfl rfl (.inl (freedHead_le _ _)) ?_
  intro i hi d hd hsize _
  unfold Cache.rmBody
  rw [if_pos (Int.natCast_nonneg seq), Int.toNat_natCast]
  by_cases hc : (d.cell i).within p0 p1 ∧ seq ∈ (d.cell i).seq
  · have hin : d.posIn i (lower p0) (upper p1) ∧ d.seqHas i seq :=
      ⟨decide_eq_true hc.1, decide_eq_true hc.2⟩
    rw [if_pos hin]
    refine ⟨hd.seqRm (by omega) hc.2, ?_, ?_⟩
    · unfold Cells.seqRm
      dsimp only
      split
      · rfl
      · rfl
    · unfold Cells.seqRm Cell.removed
      rw [if_pos hc]
      dsimp only
      split
      · rfl
      · rfl
  · have hout : ¬ (d.posIn i (lower p0) (upper p1) ∧ d.seqHas i seq) :=
      fun hin => hc ⟨of_decide_eq_true hin.1, of_decide_eq_true hin.2⟩
    rw [if_neg hout]
    refine ⟨hd, rfl, ?_⟩
    unfold Cell.removed
    rw [if_neg hc, Function.update_eq_self]

/-- `seq_rm` of all sequences. -/
theorem Cache.Ok.seqRm_all (h : c.Ok) {seq : Int} (hneg : seq < 0) (p0 p1 : Int) :
    Each c (c.seqRm seq p0 p1) (fun x => if x.within p0 p1 then {} else x) := by
  refine Each.of_loop h rfl rfl (.inl (freedHead_le _ _)) ?_
  intro i hi d hd hsize _
  unfold Cache.rmBody
  rw [if_neg (by omega)]
  by_cases hc : (d.cell i).within p0 p1
  · have hin : d.posIn i (lower p0) (upper p1) := decide_eq_true hc
    rw [if_pos hin, if_pos hc]
    exact ⟨hd.rm (by omega), rfl, rfl⟩
  · have hout : ¬ d.posIn i (lower p0) (upper p1) := fun hin => hc (of_decide_eq_true hin)
    rw [if_neg hout, if_neg hc, Function.update_eq_self]
    exact ⟨hd, rfl, rfl⟩

/-- `seq_cp` where no cell that is copied has the destination yet. -/
theorem Cache.Ok.seqCp_disjoint (h : c.Ok) {src dst : Nat} (hne : src ≠ dst) {p0 p1 : Int}
    (hnew : ∀ j < c.cells.size, (c.cells.cell j).within p0 p1 → src ∈ (c.cells.cell j).seq → dst ∉ (c.cells.cell j).seq) :
    Each c (c.seqCp src dst p0 p1) (Cell.copied src dst p0 p1) := by
  unfold Cache.seqCp
  rw [if_neg hne]
  refine Each.of_loop h rfl rfl (.inl le_rfl) ?_
  intro i hi d hd hsize hown
  unfold Cache.cpBody Cell.copied
  by_cases hc : (d.cell i).within p0 p1 ∧ src ∈ (d.cell i).seq
  · have hin : d.posIn i (lower p0) (upper p1) ∧ d.seqHas i src :=
      ⟨decide_eq_true hc.1, decide_eq_true hc.2⟩
    rw [if_pos hin, if_pos hc]
    refine ⟨hd.seqAdd (by omega) (hd.pos_ne (by omega) hc.2) ?_, rfl, rfl⟩
    rw [hown] at hc ⊢
    exact hnew i hi hc.1 hc.2
  · have hout : ¬ (d.posIn i (lower p0) (upper p1) ∧ d.seqHas i src) :=
      fun hin => hc ⟨of_decide_eq_true hin.1, of_decide_eq_true hin.2⟩
    rw [if_neg hout, if_neg hc, Function.update_eq_self]
    exact ⟨hd, rfl, rfl⟩

/-- `seq_cp` to a sequence that is not there yet. -/
theorem Cache.Ok.seqCp (h : c.Ok) {src dst : Nat} (hne : src ≠ dst)
    (hnew : ∀ j < c.cells.size, dst ∉ (c.cells.cell j).seq) (p0 p1 : Int) :
    Each c (c.seqCp src dst p0 p1) (Cell.copied src dst p0 p1) :=
  h.seqCp_disjoint hne fun j hj _ _ => hnew j hj

/-- A cell without sequences is an empty one. -/
theorem Rep.cell_eq_empty {d : Cells} (h : Rep d) {i : Nat} (hi : i < d.size) (hs : (d.cell i).seq = ∅) :
    d.cell i = {} := by
  have hp : (d.cell i).pos = -1 := by
    by_contra hp
    exact h.full i hi hp hs
  have hshift := (h.empty i hi hp).2
  cases hc : d.cell i with
  | mk p sh sq =>
      rw [hc] at hs hp hshift
      dsimp only at hs hp hshift
      rw [hs, hp, hshift]

theorem Cache.Ok.seqKeep (h : c.Ok) (seq : Nat) : Each c (c.seqKeep seq) (Cell.kept seq) := by
  refine Each.of_loop h rfl rfl (.inl (freedHead_le _ _)) ?_
  intro i hi d hd hsize _
  refine ⟨hd.seqKeep (by omega) seq, ?_, ?_⟩
  · unfold Cells.seqKeep
    split
    · rfl
    · split
      · rfl
      · rfl
  · unfold Cells.seqKeep Cell.kept
    split
    · rfl
    · split
      · rfl
      · rename_i hs
        rw [not_not] at hs
        rw [← hd.cell_eq_empty (by omega) hs, Function.update_eq_self]

theorem Cache.Ok.seqAdd (h : c.Ok) (seq : Nat) {p0 p1 shift : Int} (hshift : shift ≠ 0)
    (hrange : lower p0 ≠ upper p1) : Each c (c.seqAdd seq p0 p1 shift) (Cell.moved seq p0 p1 shift) := by
  unfold Cache.seqAdd
  rw [if_neg hshift, if_neg hrange]
  refine Each.of_loop h rfl rfl (.inr rfl) ?_
  intro i hi d hd hsize _
  unfold Cache.addBody
  by_cases hc : (d.cell i).within p0 p1 ∧ seq ∈ (d.cell i).seq
  · have hin : d.posIn i (lower p0) (upper p1) ∧ d.seqHas i seq :=
      ⟨decide_eq_true hc.1, decide_eq_true hc.2⟩
    rw [if_pos hin]
    refine ⟨hd.posAdd (by omega) (hd.pos_ne (by omega) hc.2) shift, ?_, ?_⟩
    · unfold Cells.posAdd
      dsimp only
      split
      · rfl
      · rfl
    · unfold Cells.posAdd Cell.moved
      rw [if_pos hc]
      dsimp only
      split
      · rfl
      · rfl
  · have hout : ¬ (d.posIn i (lower p0) (upper p1) ∧ d.seqHas i seq) :=
      fun hin => hc ⟨of_decide_eq_true hin.1, of_decide_eq_true hin.2⟩
    rw [if_neg hout]
    refine ⟨hd, rfl, ?_⟩
    unfold Cell.moved
    rw [if_neg hc, Function.update_eq_self]

/-- `seq_div` that leaves no position negative. -/
theorem Cache.Ok.seqDiv (h : c.Ok) (seq : Nat) {p0 p1 d : Int} (hd1 : d ≠ 1) (hrange : lower p0 ≠ upper p1)
    (hd : ∀ j < c.cells.size, (c.cells.cell j).within p0 p1 → seq ∈ (c.cells.cell j).seq →
      0 ≤ (c.cells.cell j).pos.tdiv d) : Each c (c.seqDiv seq p0 p1 d) (Cell.divided seq p0 p1 d) := by
  unfold Cache.seqDiv
  rw [if_neg hd1, if_neg hrange]
  refine Each.of_loop h rfl rfl (.inl le_rfl) ?_
  intro i hi e he hsize hown
  unfold Cache.divBody Cell.divided
  by_cases hc : (e.cell i).within p0 p1 ∧ seq ∈ (e.cell i).seq
  · have hin : e.posIn i (lower p0) (upper p1) ∧ e.seqHas i seq :=
      ⟨decide_eq_true hc.1, decide_eq_true hc.2⟩
    rw [if_pos hin, if_pos hc]
    refine ⟨he.posDiv (by omega) (he.pos_ne (by omega) hc.2) ?_, rfl, rfl⟩
    rw [hown] at hc ⊢
    exact hd i hi hc.1 hc.2
  · have hout : ¬ (e.posIn i (lower p0) (upper p1) ∧ e.seqHas i seq) :=
      fun hin => hc ⟨of_decide_eq_true hin.1, of_decide_eq_true hin.2⟩
    rw [if_neg hout, if_neg hc, Function.update_eq_self]
    exact ⟨he, rfl, rfl⟩

theorem Rep.reset {d : Cells} (_h : Rep d) : Rep d.reset := by
  have hcell : ∀ i < d.size, d.reset.cell i = {} := fun i hi => if_pos hi
  refine ⟨fun i => ?_, fun i hi _ => ?_, fun i hi hp => ?_, fun i hi hp => ?_, fun s => ?_⟩
  · constructor
    · intro hi
      exact absurd hi (Finset.notMem_empty i)
    · rintro ⟨hi, hp⟩
      rw [hcell i hi] at hp
      exact absurd rfl hp
  · rw [hcell i hi]
    exact ⟨rfl, rfl⟩
  · rw [hcell i hi] at hp
    exact absurd rfl hp
  · rw [hcell i hi] at hp
    exact absurd rfl hp
  · symm
    apply Finset.sum_eq_zero
    intro i hi
    rw [hcell i (Finset.mem_range.mp hi)]
    rfl

theorem Cache.Ok.clear (h : c.Ok) : Each c c.clear (fun _ => {}) :=
  ⟨⟨h.rep.reset, Nat.zero_le _⟩, rfl, fun _ hj => if_pos hj, rfl⟩

end Ops

end S2Moe.Kv
