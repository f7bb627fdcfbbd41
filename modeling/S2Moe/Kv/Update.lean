import Mathlib
import S2Moe.Kv.Apply

/-!
# The update of `llama_kv_cache`

Copies between streams and shifts of positions change the cells at once, but the K and V rows wait for the next update. A row
is of any kind that can be rotated.

* `Streams.pending` : the rows when the queued copies are done;
* `Streams.update` : the copies, then the K-shift of the whole cache, where some stream has a shift;
* `Cells.Flagged` : a stream with a shift says so;
* `applyUbatch_data` : the rows that a ubatch writes, and no other ones;
* `Streams.origin` : the stream that the rows of each stream come from; `Streams.Beside` : what is written beside the copies.
-/

namespace S2Moe.Kv
open S2Moe.Lib
open S2Moe.Recurrent (lower upper posMax)

variable {D : Type}

/-- The shift of a cell in the graph's input. -/
def Cells.kShift (c : Cells) (i : Nat) : Int := if c.isEmpty i then 0 else (c.cell i).shift

/-- The K-shift of a stream, and `reset_shift`. -/
def Cache.applyShift [AddAction Int D] (c : Cache D) : Cache D :=
  { c with cells := c.cells.resetShift, data := fun i => c.cells.kShift i +ᵥ c.data i }

/-- One of the queued copies, of all rows of a stream. -/
def copyBuffer (data : Nat → Nat → D) (copy : Nat × Nat) : Nat → Nat → D := Function.update data copy.2 (data copy.1)

namespace Streams

/-- `get_has_shift` -/
def hasShift (st : Streams D) : Bool := (List.range st.nStream).any fun k => (st.strm k).cells.hasShift

def pending (st : Streams D) : Nat → Nat → D := st.copies.foldl copyBuffer fun k => (st.strm k).data

/-- The queued copies are done, in their order. -/
def copyBuffers (st : Streams D) : Streams D :=
  { st with strm := fun k => { st.strm k with data := st.pending k }, copies := [] }

/-- `init_update` and `update`. Every cache can be shifted; without RoPE a rotation changes nothing. -/
def update [AddAction Int D] (st : Streams D) : Streams D :=
  if st.hasShift then
    { st.copyBuffers with strm := fun k =>
        if k < st.nStream then (st.copyBuffers.strm k).applyShift else st.copyBuffers.strm k }
  else st.copyBuffers

/-- `init_batch` and its ubatches, behind the update. Without room for all of them there is no decode. -/
def decode [AddAction Int D] (st : Streams D) (us : List (List (Part D))) : Option (Streams D) :=
  us.foldlM (fun st u => st.emplace u false) st.update

end Streams
/-! ## Streams that say that they have a shift -/

def Cells.Flagged (c : Cells) : Prop := ∀ i < c.size, (c.cell i).shift ≠ 0 → c.hasShift = true

/-- The cells `d` come from `c`: where there is a new shift, `has_shift` is set. -/
structure Cells.Follows (c d : Cells) : Prop where
  size_eq : d.size = c.size
  flag : c.hasShift = true → d.hasShift = true
  shift : ∀ j, (d.cell j).shift ≠ 0 → (c.cell j).shift ≠ 0 ∨ d.hasShift = true

section Follows
variable {c d e : Cells} {i : Nat}

theorem Cells.Follows.refl (c : Cells) : c.Follows c := ⟨rfl, id, fun _ => Or.inl⟩

theorem Cells.Follows.trans (h : c.Follows d) (h' : d.Follows e) : c.Follows e := by
  refine ⟨h'.size_eq.trans h.size_eq, fun hc => h'.flag (h.flag hc), fun j hj => ?_⟩
  rcases h'.shift j hj with hd | he
  · exact (h.shift j hd).imp_right h'.flag
  · exact Or.inr he

theorem Cells.Follows.flagged (h : c.Follows d) (hc : c.Flagged) : d.Flagged := by
  intro j hj hshift
  rw [h.size_eq] at hj
  rcases h.shift j hshift with hold | hnew
  · exact h.flag (hc j hj hold)
  · exact hnew

theorem Cells.Follows.foldl {ι : Type} {f : Cells → ι → Cells} (hf : ∀ (d : Cells) i, d.Follows (f d i)) :
    ∀ (l : List ι) (c : Cells), c.Follows (l.foldl f c) := by
  intro l
  induction l with
  | nil => exact Cells.Follows.refl
  | cons i l ih => exact fun c => (hf c i).trans (ih (f c i))

/-- One cell is replaced. -/
theorem Cells.Follows.of_update {x : Cell} (hsize : d.size = c.size) (hflag : c.hasShift = true → d.hasShift = true)
    (hcell : d.cell = Function.update c.cell i x) (hx : x.shift ≠ 0 → (c.cell i).shift ≠ 0 ∨ d.hasShift = true) :
    c.Follows d := by
  refine ⟨hsize, hflag, fun j hj => ?_⟩
  rw [hcell] at hj
  by_cases hji : j = i
  · subst hji
    rw [Function.update_self] at hj
    exact hx hj
  · rw [Function.update_of_ne hji] at hj
    exact Or.inl hj

theorem Cells.Follows.loop {body : Nat → Cells → Bool × Cells} (hbody : ∀ i (d : Cells), d.Follows (body i d).2) (c : Cells) :
    c.Follows (Kv.loop c body).2 := by
  have hfold : ∀ (l : List Nat) (acc : Option Nat × Cells), acc.2.Follows (l.foldl
      (fun acc i => (acc.1 <|> if (body i acc.2).1 then some i else none, (body i acc.2).2)) acc).2 := by
    intro l
    induction l with
    | nil => exact fun acc => .refl acc.2
    | cons i l ih =>
        intro acc
        exact (hbody i acc.2).trans (ih (acc.1 <|> if (body i acc.2).1 then some i else none, (body i acc.2).2))
  exact hfold _ (none, c)

theorem Cells.follows_seqAdd (c : Cells) (i s : Nat) : c.Follows (c.seqAdd i s) := .of_update rfl id rfl Or.inl

theorem Cells.follows_posSet (c : Cells) (i : Nat) (p : Int) : c.Follows (c.posSet i p) := .of_update rfl id rfl Or.inl

theorem Cells.follows_rm (c : Cells) (i : Nat) : c.Follows (c.rm i) := .of_update rfl id rfl fun h => absurd rfl h

theorem Cells.follows_seqRm (c : Cells) (i s : Nat) : c.Follows (c.seqRm i s).2 := by
  unfold Cells.seqRm
  dsimp only
  split
  · exact .of_update rfl id rfl fun h => absurd rfl h
  · exact .of_update rfl id rfl Or.inl

theorem Cells.follows_seqKeep (c : Cells) (i s : Nat) : c.Follows (c.seqKeep i s).2 := by
  unfold Cells.seqKeep
  split
  · exact .of_update rfl id rfl Or.inl
  · split
    · exact .of_update rfl id rfl fun h => absurd rfl h
    · exact .refl c

theorem Cells.follows_posAdd (c : Cells) (i : Nat) (d : Int) : c.Follows (c.posAdd i d).2 := by
  unfold Cells.posAdd
  dsimp only
  split
  · exact .of_update rfl (fun _ => rfl) rfl fun h => absurd rfl h
  · exact .of_update rfl (fun _ => rfl) rfl fun _ => Or.inr rfl

theorem Cells.follows_posDiv (c : Cells) (i : Nat) (d : Int) : c.Follows (c.posDiv i d) :=
  .of_update rfl (fun _ => rfl) rfl fun _ => Or.inr rfl

theorem Cells.follows_place (c : Cells) (i : Nat) (p : Int) (ids : List Nat) : c.Follows (c.place i p ids) :=
  (c.follows_posSet i p).trans (Cells.Follows.foldl (fun d s => d.follows_seqAdd i s) ids _)

theorem Cells.follows_write (c : Cells) (rm : Nat → Int) (i : Nat) (p : Int) (ids : List Nat) :
    c.Follows (c.write rm i p ids).1 := by
  unfold Cells.write
  split
  · exact c.follows_place i p ids
  · exact (c.follows_rm i).trans ((c.rm i).follows_place i p ids)

theorem Cells.follows_copyCell (src : Cells) (seq dst : Nat) (d : Cells) (i : Nat) :
    d.Follows (src.copyCell seq dst d i) := by
  unfold Cells.copyCell
  split
  · dsimp only
    split
    · exact (d.follows_posSet i _).trans (Cells.follows_seqAdd _ i dst)
    · exact ((d.follows_posSet i _).trans (Cells.follows_seqAdd _ i dst)).trans (Cells.follows_posAdd _ i _)
  · exact .refl d

namespace Cache
variable (c : Cache D)

theorem follows_seqRm (seq p0 p1 : Int) : c.cells.Follows (c.seqRm seq p0 p1).cells := by
  refine Cells.Follows.loop (fun i d => ?_) c.cells
  unfold rmBody
  split
  · split
    · exact d.follows_seqRm i seq.toNat
    · exact .refl d
  · split
    · exact d.follows_rm i
    · exact .refl d

theorem follows_seqCp (src dst : Nat) (p0 p1 : Int) : c.cells.Follows (c.seqCp src dst p0 p1).cells := by
  unfold Cache.seqCp
  split
  · exact .refl _
  · refine Cells.Follows.loop (fun i d => ?_) c.cells
    unfold cpBody
    split
    · exact d.follows_seqAdd i dst
    · exact .refl d

theorem follows_seqKeep (seq : Nat) : c.cells.Follows (c.seqKeep seq).cells :=
  Cells.Follows.loop (fun i d => d.follows_seqKeep i seq) c.cells

theorem follows_seqAdd (seq : Nat) (p0 p1 shift : Int) : c.cells.Follows (c.seqAdd seq p0 p1 shift).cells := by
  unfold Cache.seqAdd
  split
  · exact .refl _
  · split
    · exact .refl _
    · refine Cells.Follows.loop (fun i d => ?_) c.cells
      unfold addBody
      split
      · exact d.follows_posAdd i shift
      · exact .refl d

theorem follows_seqDiv (seq : Nat) (p0 p1 d : Int) : c.cells.Follows (c.seqDiv seq p0 p1 d).cells := by
  unfold Cache.seqDiv
  split
  · exact .refl _
  · split
    · exact .refl _
    · refine Cells.Follows.loop (fun i e => ?_) c.cells
      unfold divBody
      split
      · exact e.follows_posDiv i d
      · exact .refl e

theorem follows_writeRows : ∀ (idxs : List Nat) (rows : List (Row D)) (c : Cache D) (rm : Nat → Int),
    c.cells.Follows (c.writeRows rm idxs rows).1.cells := by
  intro idxs
  induction idxs with
  | nil => exact fun rows c rm => .refl c.cells
  | cons i idxs ih =>
      intro rows c rm
      cases rows with
      | nil => exact .refl c.cells
      | cons r rows =>
          let w := c.cells.write rm i r.pos r.ids
          have hrest := ih rows { c with cells := w.1, data := Function.update c.data i r.val } w.2
          exact (c.cells.follows_write rm i r.pos r.ids).trans hrest

end Cache

end Follows

namespace Streams
variable {st st' : Streams D} {n : Nat}

/-- Every stream says so. -/
def Flagged (st : Streams D) : Prop := ∀ k, (st.strm k).cells.Flagged

/-- What every operation keeps: the window, and that a stream with a shift says so. -/
structure Keeps (st st' : Streams D) : Prop where
  swa_eq : st'.swa = st.swa
  flagged : st.Flagged → st'.Flagged

theorem Keeps.refl (st : Streams D) : st.Keeps st := ⟨rfl, id⟩

theorem Keeps.trans {t : Streams D} (h : st.Keeps st') (h' : st'.Keeps t) : st.Keeps t :=
  ⟨h'.swa_eq.trans h.swa_eq, fun hf => h'.flagged (h.flagged hf)⟩

theorem Keeps.map (hswa : st'.swa = st.swa)
    (hcells : ∀ k, (st.strm k).cells.Flagged → (st'.strm k).cells.Flagged) : st.Keeps st' :=
  ⟨hswa, fun h k => hcells k (h k)⟩

theorem Keeps.set {k : Nat} {c : Cache D} (hc : (st.strm k).cells.Flagged → c.cells.Flagged) : st.Keeps (st.set k c) := by
  refine .map rfl fun j h => ?_
  show (Function.update st.strm k c j).cells.Flagged
  by_cases hj : j = k
  · subst hj
    rw [Function.update_self]
    exact hc h
  · rw [Function.update_of_ne hj]
    exact h

theorem Keeps.onStream {seq : Nat} {f : Cache D → Cache D} (hf : ∀ c : Cache D, c.cells.Follows (f c).cells)
    (hrun : st.onStream seq f = some st') : st.Keeps st' := by
  unfold Streams.onStream at hrun
  split at hrun
  · cases hrun
    exact .set (hf _).flagged
  · cases hrun

theorem flagged_reset (c : Cells) : c.reset.Flagged := by
  intro i hi hshift
  have hcell : c.reset.cell i = {} := if_pos hi
  rw [hcell] at hshift
  exact absurd rfl hshift

theorem purge_rule {P : Streams D → Prop} (hset : ∀ t k (seq p0 p1 : Int), P t → P (t.set k ((t.strm k).seqRm seq p0 p1)))
    (h : P st) (rm : Nat → Int) : P (st.purge rm) := by
  refine foldl_range_rule (P := fun _ t => P t) h maxSeq fun s _ t ht => ?_
  dsimp only
  split
  · exact ht
  · split
    · exact hset t _ _ _ _ ht
    · exact ht

theorem setHeads_rule {P : Streams D → Prop} (hset : ∀ t k head, P t → P (t.set k { t.strm k with head := head })) :
    ∀ (slots : List (Part D × List Nat)) (st : Streams D), P st → P (st.setHeads slots) := by
  intro slots
  induction slots with
  | nil => exact fun st h => h
  | cons x slots ih => exact fun st h => ih _ (hset st _ _ h)

theorem keeps_applyUbatch (st : Streams D) (slots : List (Part D × List Nat)) : st.Keeps (st.applyUbatch slots) := by
  have hparts : ∀ (slots : List (Part D × List Nat)) (st : Streams D) (rm : Nat → Int),
      st.Keeps (st.writeParts rm slots).1 := by
    intro slots
    induction slots with
    | nil => exact fun st rm => .refl st
    | cons x slots ih =>
        exact fun st rm => (Keeps.set (Cache.follows_writeRows x.2 x.1.rows _ rm).flagged).trans (ih _ _)
  refine setHeads_rule (fun t k head h => h.trans (.set id)) slots _ ?_
  exact purge_rule (fun t k seq p0 p1 h => h.trans (.set (Cache.follows_seqRm _ seq p0 p1).flagged)) (hparts slots st _) _

theorem keeps_step {op : StreamOp D} (hstep : streamStep op st = some st') : st.Keeps st' := by
  cases op with
  | clear =>
      cases hstep
      refine .map rfl fun k h => ?_
      show (if k < st.nStream then (st.strm k).clear else st.strm k).cells.Flagged
      split
      · exact flagged_reset _
      · exact h
  | seqRm seq p0 p1 =>
      change st.seqRm seq p0 p1 = some st' at hstep
      unfold Streams.seqRm at hstep
      split at hstep
      · cases hstep
        refine .map rfl fun k h => ?_
        show (if k < st.nStream then (st.strm k).seqRm seq p0 p1 else st.strm k).cells.Flagged
        split
        · exact (Cache.follows_seqRm _ _ _ _).flagged h
        · exact h
      · split at hstep
        · cases hstep
          exact .set (Cache.follows_seqRm _ _ _ _).flagged
        · cases hstep
  | seqCp src dst p0 p1 =>
      change st.seqCp src dst p0 p1 = some st' at hstep
      unfold Streams.seqCp at hstep
      split at hstep
      · split at hstep
        · cases hstep
          exact .set (Cache.follows_seqCp _ _ _ _ _).flagged
        · split at hstep
          · cases hstep
            refine (Keeps.set (k := st.streamOf dst) fun _ => ?_).trans (.map rfl fun _ => id)
            exact (Cells.Follows.foldl (fun d i => Cells.follows_copyCell _ src dst d i) _ _).flagged (flagged_reset _)
          · cases hstep
      · cases hstep
  | seqKeep seq => exact .onStream (fun c => c.follows_seqKeep seq) hstep
  | seqAdd seq p0 p1 shift => exact .onStream (fun c => c.follows_seqAdd seq p0 p1 shift) hstep
  | seqDiv seq p0 p1 d =>
      change st.seqDiv seq p0 p1 d = some st' at hstep
      unfold Streams.seqDiv at hstep
      split at hstep
      · cases hstep
      · exact .onStream (fun c => c.follows_seqDiv seq p0 p1 d) hstep
  | emplace u cont =>
      change st.emplace u cont = some st' at hstep
      unfold Streams.emplace at hstep
      split at hstep
      · obtain ⟨slots, -, rfl⟩ := Option.map_eq_some_iff.mp hstep
        exact st.keeps_applyUbatch slots
      · cases hstep

end Streams

/-! ## Rows -/

theorem Cache.writeRows_data : ∀ (idxs : List Nat) (rows : List (Row D)) (c : Cache D) (rm : Nat → Int), idxs.Nodup →
    (∀ y ∈ idxs.zip rows, (c.writeRows rm idxs rows).1.data y.1 = y.2.val) ∧
      ∀ j, j ∉ idxs → (c.writeRows rm idxs rows).1.data j = c.data j := by
  intro idxs
  induction idxs with
  | nil => exact fun rows c rm _ => ⟨fun y hy => absurd hy List.not_mem_nil, fun j _ => rfl⟩
  | cons i idxs ih =>
      intro rows c rm hnodup
      cases rows with
      | nil => exact ⟨fun y hy => absurd hy List.not_mem_nil, fun j _ => rfl⟩
      | cons r rows =>
          obtain ⟨hnot, hnodup⟩ := List.nodup_cons.mp hnodup
          let w := c.cells.write rm i r.pos r.ids
          obtain ⟨hrows, hother⟩ := ih rows { c with cells := w.1, data := Function.update c.data i r.val } w.2 hnodup
          refine ⟨fun y hy => ?_, fun j hj => ?_⟩
          · rcases List.mem_cons.mp hy with rfl | hy
            · exact (hother i hnot).trans (Function.update_self _ _ _)
            · exact hrows y hy
          · rw [List.mem_cons, not_or] at hj
            exact (hother j hj.2).trans (Function.update_of_ne hj.1 _ _)

/-- The stream that the rows of each stream come from, when the copies are done. -/
def originOf (copies : List (Nat × Nat)) : Nat → Nat := copies.foldl (fun f copy => Function.update f copy.2 (f copy.1)) id

theorem foldl_copyBuffer (data : Nat → Nat → D) : ∀ (copies : List (Nat × Nat)) (f : Nat → Nat),
    copies.foldl copyBuffer (fun k => data (f k)) =
      fun k => data (copies.foldl (fun f copy => Function.update f copy.2 (f copy.1)) f k) := by
  intro copies
  induction copies with
  | nil => exact fun f => rfl
  | cons copy copies ih =>
      intro f
      rw [List.foldl_cons, List.foldl_cons, ← ih (Function.update f copy.2 (f copy.1))]
      congr 1
      funext k
      unfold copyBuffer
      by_cases hk : k = copy.2
      · rw [hk, Function.update_self, Function.update_self]
      · rw [Function.update_of_ne hk, Function.update_of_ne hk]

namespace Streams
variable {st st' : Streams D} {n : Nat}

def origin (st : Streams D) : Nat → Nat := originOf st.copies

theorem pending_eq (st : Streams D) (k : Nat) : st.pending k = (st.strm (st.origin k)).data := by
  exact congrFun (foldl_copyBuffer (fun k => (st.strm k).data) st.copies id) k

theorem origin_concat (st : Streams D) (copy : Nat × Nat) (k : Nat) :
    originOf (st.copies ++ [copy]) k = if k = copy.2 then st.origin copy.1 else st.origin k := by
  rw [originOf, List.foldl_append, List.foldl_cons, List.foldl_nil, Function.update_apply]
  rfl

/-- The streams that a ubatch goes to. -/
def Goes (st : Streams D) (u : List (Part D)) (k : Nat) : Prop := ∃ part ∈ u, st.streamOf part.seq = k

/-- The streams of a ubatch take no part in the queued copies. -/
def Beside (st : Streams D) (u : List (Part D)) : Prop := ∀ k, st.Goes u k ∨ st.Goes u (st.origin k) → st.origin k = k

/-- The rows and the queued copies are the same. -/
structure SameRows (st st' : Streams D) : Prop where
  data_eq : ∀ k, (st'.strm k).data = (st.strm k).data
  copies_eq : st'.copies = st.copies

theorem SameRows.set (h : st.SameRows st') {k : Nat} {c : Cache D} (hc : c.data = (st'.strm k).data) :
    st.SameRows (st'.set k c) := by
  refine ⟨fun j => ?_, h.copies_eq⟩
  rw [← h.data_eq]
  show (Function.update st'.strm k c j).data = _
  by_cases hj : j = k
  · rw [hj, Function.update_self, hc]
  · rw [Function.update_of_ne hj]

/-- **What `apply_ubatch` writes.** -/
theorem applyUbatch_data {slots : List (Part D × List Nat)} (hs : st.Slotted n slots) :
    (∀ x ∈ slots, ∀ y ∈ x.2.zip x.1.rows, ((st.applyUbatch slots).strm (st.streamOf x.1.seq)).data y.1 = y.2.val) ∧
      (∀ k j, (∀ x ∈ slots, st.streamOf x.1.seq = k → j ∉ x.2) →
        ((st.applyUbatch slots).strm k).data j = (st.strm k).data j) ∧
      (st.applyUbatch slots).copies = st.copies := by
  have hparts : ∀ (slots : List (Part D × List Nat)) (st : Streams D) (rm : Nat → Int), st.Slotted n slots →
      (∀ x ∈ slots, ∀ y ∈ x.2.zip x.1.rows, ((st.writeParts rm slots).1.strm (st.streamOf x.1.seq)).data y.1 = y.2.val) ∧
        (∀ k j, (∀ x ∈ slots, st.streamOf x.1.seq = k → j ∉ x.2) →
          ((st.writeParts rm slots).1.strm k).data j = (st.strm k).data j) ∧
        (st.writeParts rm slots).1.copies = st.copies := by
    intro slots
    induction slots with
    | nil => exact fun st rm _ => ⟨fun x hx => absurd hx List.not_mem_nil, fun _ _ _ => rfl, rfl⟩
    | cons x slots ih =>
        intro st rm hs
        let c := st.strm (st.streamOf x.1.seq)
        let w := c.writeRows rm x.2 x.1.rows
        obtain ⟨hw, hwother⟩ := Cache.writeRows_data x.2 x.1.rows c rm (hs.nodup x List.mem_cons_self)
        obtain ⟨hrows, hother, hcopies⟩ := ih (st.set (st.streamOf x.1.seq) w.1) w.2
          ⟨hs.tail.distinct, hs.tail.stream, hs.tail.length, hs.tail.nodup, hs.tail.lt, hs.tail.rows, hs.tail.home⟩
        refine ⟨fun z hz y hy => ?_, fun k j hout => ?_, hcopies⟩
        · rcases List.mem_cons.mp hz with rfl | hz
          · refine (hother _ y.1 fun x' hx' heq => absurd heq (hs.ne hx')).trans ?_
            rw [show (st.set (st.streamOf z.1.seq) w.1).strm (st.streamOf z.1.seq) = w.1 from Function.update_self _ _ _]
            exact hw y hy
          · exact hrows z hz y hy
        · refine (hother k j fun x' hx' heq => hout x' (List.mem_cons_of_mem _ hx') heq).trans ?_
          show (Function.update st.strm (st.streamOf x.1.seq) w.1 k).data j = _
          by_cases hk : k = st.streamOf x.1.seq
          · rw [hk, Function.update_self]
            exact hwother j (hout x List.mem_cons_self hk.symm)
          · rw [Function.update_of_ne hk]
  have hrest : ((st.writeParts (fun _ => -1) slots).1).SameRows (st.applyUbatch slots) := by
    refine setHeads_rule (fun t k head h => h.set rfl) slots _ ?_
    exact purge_rule (fun t k seq p0 p1 h => h.set rfl) ⟨fun _ => rfl, rfl⟩ _
  obtain ⟨hrows, hother, hcopies⟩ := hparts slots st (fun _ => -1) hs
  refine ⟨fun x hx y hy => ?_, fun k j hout => ?_, hrest.copies_eq.trans hcopies⟩
  · rw [hrest.data_eq]
    exact hrows x hx y hy
  · rw [hrest.data_eq]
    exact hother k j hout

/-! ## Behind an update -/

section Update
variable [AddAction Int D]

theorem update_copies (st : Streams D) : st.update.copies = [] := by
  unfold Streams.update
  split <;> rfl

theorem update_nStream (st : Streams D) : st.update.nStream = st.nStream := by
  unfold Streams.update
  split <;> rfl

theorem update_swa (st : Streams D) : st.update.swa = st.swa := by
  unfold Streams.update
  split <;> rfl

/-- The cells are as before, or without their shifts. -/
theorem update_cells (st : Streams D) (k : Nat) : ((st.update.strm k).cells = (st.strm k).cells ∨
    (st.update.strm k).cells = (st.strm k).cells.resetShift) ∧ (st.update.strm k).head = (st.strm k).head := by
  unfold Streams.update
  split
  · dsimp only
    split
    · exact ⟨Or.inr rfl, rfl⟩
    · exact ⟨Or.inl rfl, rfl⟩
  · exact ⟨Or.inl rfl, rfl⟩

theorem update_size (st : Streams D) (k : Nat) : (st.update.strm k).cells.size = (st.strm k).cells.size := by
  rcases (st.update_cells k).1 with heq | heq <;> rw [heq]
  rfl

theorem resetShift_cell (c : Cells) {i : Nat} (hi : i < c.size) : c.resetShift.cell i = { c.cell i with shift := 0 } :=
  if_pos hi

/-- **What an update does to a cell and its row.** -/
theorem update_cell (hflag : st.Flagged) {k i : Nat} (hk : k < st.nStream) (hi : i < (st.strm k).cells.size) :
    (st.update.strm k).cells.cell i = { (st.strm k).cells.cell i with shift := 0 } ∧
      (st.update.strm k).data i = (st.strm k).cells.kShift i +ᵥ st.pending k i := by
  unfold Streams.update
  by_cases hshift : st.hasShift = true
  · rw [if_pos hshift]
    dsimp only
    rw [if_pos hk]
    exact ⟨if_pos hi, rfl⟩
  · rw [if_neg hshift]
    have hnone : ((st.strm k).cells.cell i).shift = 0 := by
      by_contra hne
      exact hshift (List.any_eq_true.mpr ⟨k, List.mem_range.mpr hk, hflag k i hi hne⟩)
    have hzero : (st.strm k).cells.kShift i = 0 := by
      unfold Cells.kShift
      split
      · rfl
      · exact hnone
    refine ⟨?_, ?_⟩
    · rw [← hnone]
      rfl
    · rw [hzero, zero_vadd]
      rfl

theorem Inv.update (h : st.Inv n) : st.update.Inv n := by
  refine ⟨st.update_nStream.symm ▸ h.pos, fun k hk => ?_⟩
  rw [st.update_nStream] at hk
  have hgood := h.good k hk
  obtain ⟨hcells, hhead⟩ := st.update_cells k
  have hcell : ∀ i < (st.strm k).cells.size, ((st.update.strm k).cells.cell i).pos = ((st.strm k).cells.cell i).pos := by
    intro i hi
    rcases hcells with heq | heq
    · rw [heq]
    · rw [heq, resetShift_cell _ hi]
  refine ⟨⟨?_, ?_⟩, fun i hi => ?_, (st.update_size k).trans hgood.size_eq⟩
  · rcases hcells with heq | heq
    · rw [heq]
      exact hgood.ok.rep
    · rw [heq]
      exact hgood.ok.rep.resetShift
  · rw [hhead, st.update_size]
    exact hgood.ok.head_le
  · rw [st.update_size] at hi
    rw [hcell i hi]
    exact hgood.bounded i hi

theorem Home.update (hhome : st.Home) : st.update.Home := by
  intro k hk i hi s hs
  rw [st.update_nStream] at hk
  rw [st.update_size] at hi
  have hseq : ((st.update.strm k).cells.cell i).seq = ((st.strm k).cells.cell i).seq := by
    rcases (st.update_cells k).1 with heq | heq
    · rw [heq]
    · rw [heq, resetShift_cell _ hi]
  rw [hseq] at hs
  obtain ⟨hmax, hstream⟩ := hhome k hk i hi s hs
  refine ⟨hmax, ?_⟩
  unfold Streams.streamOf at hstream ⊢
  rwa [st.update_nStream]

theorem Flagged.update (hflag : st.Flagged) : st.update.Flagged := by
  intro k
  rcases (st.update_cells k).1 with heq | heq
  · rw [heq]
    exact hflag k
  · rw [heq]
    intro i hi hshift
    rw [resetShift_cell (st.strm k).cells hi] at hshift
    exact absurd rfl hshift

end Update

end Streams

end S2Moe.Kv
