import S2Moe.Batch.Split
import S2Moe.Lib.Bytes
import S2Moe.Lib.Run

/-!
# The outputs of `llama_context`

The graph computes one row for each output token of a ubatch, in the order of the ubatch. The rows of a batch lie in the
buffers in the order of the ubatches; `decode` sorts `out_ids` and remembers the swaps, and `output_reorder` carries them
out on the buffers when the first row is asked for.

* `selectionSort` : the sorted ids and the swaps; `reorder` : the swaps on a buffer. `reorder_selectionSort` says that both
  are one permutation;
* `encode`, `decode`, `getLogitsIth`, `getEmbeddingsIth`;
* `Call.get` : the row that a call computed for a token, or for the output that is so many from the end;
* `reaches_getLogitsIth` : what is returned is the row of the last call that computed anything.
-/

namespace S2Moe.Context
open S2Moe.Lib S2Moe.Batch

/-! ## Sorting -/

section Sorting
variable {α : Type}

def swapAt (f : Nat → α) (i j : Nat) : Nat → α := fun k => if k = i then f j else if k = j then f i else f k

/-- The index of the first smallest entry of `i, ..., n - 1`. -/
def minIndex (ids : Nat → Nat) (i n : Nat) : Nat :=
  (List.range' (i + 1) (n - (i + 1))).foldl (fun m j => if ids j < ids m then j else m) i

def sortStep (n : Nat) (acc : (Nat → Nat) × List (Nat × Nat)) (i : Nat) : (Nat → Nat) × List (Nat × Nat) :=
  let m := minIndex acc.1 i n
  if m = i then acc else (swapAt acc.1 i m, acc.2 ++ [(i, m)])

/-- The ids in their final order, and the swaps. -/
def selectionSort (n : Nat) (ids : Nat → Nat) : (Nat → Nat) × List (Nat × Nat) :=
  (List.range (n - 1)).foldl (sortStep n) (ids, [])

def reorder (swaps : List (Nat × Nat)) (f : Nat → α) : Nat → α := swaps.foldl (fun f s => swapAt f s.1 s.2) f

end Sorting

/-! ## The buffers -/

/-- `ids` is `output_ids`, with `nBatch` entries; `n` is `n_outputs`. Without embeddings there is no buffer for them. -/
structure Outputs (R E : Type) where
  ids : Nat → Int := fun _ => -1
  n : Nat := 0
  logits : Nat → R
  embd : Nat → E
  hasEmbd : Bool := false
  swaps : List (Nat × Nat) := []

/-- What is fixed for a context. With `lastOnly` only the last row of a ubatch is copied: the draft vocabulary of EAGLE3. -/
structure Config where
  nBatch : Nat
  nUbatch : Nat
  le : nUbatch ≤ nBatch
  hasMemory : Bool
  lastOnly : Bool := false

/-- One call, with the batch as `init` leaves it. A row of a draft vocabulary counts as what it expands to; embeddings are
stored for each token unless they are pooled. -/
structure Call (R E : Type) where
  tokens : List Token
  row : Nat → R
  embeddings : Bool := false
  emb : Option (Nat → E) := none

section Outputs
variable {R E : Type}

def Call.isOutput (c : Call R E) (i : Nat) : Bool := (Allocr.token { tokens := c.tokens } i).output

/-- The output tokens in the order of the batch. -/
def Call.outputs (c : Call R E) : List Nat := (List.range c.tokens.length).filter c.isOutput

/-- `init` with `output_all`. -/
def Call.outputAll (c : Call R E) : Call R E := { c with tokens := c.tokens.map fun t => { t with output := true } }

namespace Outputs

def reserve (o : Outputs R E) (embeddings : Bool) : Outputs R E :=
    { o with ids := fun _ => -1, n := 0, hasEmbd := embeddings }

def outputReorder (o : Outputs R E) : Outputs R E :=
  { o with
    logits := reorder o.swaps o.logits
    embd := if o.hasEmbd then reorder o.swaps o.embd else o.embd
    swaps := [] }

/-- The row that index `i` stands for. -/
def index (cfg : Config) (o : Outputs R E) (i : Int) : Option Nat :=
  let j := if i < 0 then o.n + i else if cfg.nBatch ≤ i.toNat then -1 else o.ids i.toNat
  if j < 0 then none else if o.n ≤ j.toNat then none else some j.toNat

def getLogitsIth (cfg : Config) (o : Outputs R E) (i : Int) : Option R × Outputs R E :=
  let o := o.outputReorder
  ((o.index cfg i).map o.logits, o)

def getEmbeddingsIth (cfg : Config) (o : Outputs R E) (i : Int) : Option E × Outputs R E :=
  let o := o.outputReorder
  (if o.hasEmbd then (o.index cfg i).map o.embd else none, o)

/-- Nothing when an assertion fails. `output_swaps` is left as it is. -/
def encode (cfg : Config) (o : Outputs R E) (accepted : Bool) (c : Call R E) : Option (Bool × Outputs R E) :=
  if !accepted || c.tokens.isEmpty then some (false, o)
  else if cfg.nUbatch < c.tokens.length then none
  else
    let ubatch := Allocr.splitSimple { tokens := c.outputAll.tokens } c.tokens.length
    let o := o.reserve c.embeddings
    some (true, { o with
      ids := fun i => if i < c.tokens.length then i else o.ids i
      n := c.tokens.length
      logits := putRows o.logits 0 (ubatch.map c.row)
      embd := c.emb.elim o.embd fun emb => putRows o.embd 0 (ubatch.map emb) })

/-- The rows of one ubatch, behind those of the ubatches before it. -/
def extract (cfg : Config) (c : Call R E) (acc : Nat × Outputs R E) (ubatch : List Nat) : Nat × Outputs R E :=
  let outs := if c.outputs.length = c.tokens.length then ubatch else ubatch.filter c.isOutput
  let o := acc.2
  (acc.1 + outs.length, { o with
    logits :=
      if cfg.lastOnly then putRows o.logits (acc.1 + (outs.length - 1)) (outs.getLast?.toList.map c.row)
      else putRows o.logits acc.1 (outs.map c.row)
    embd := c.emb.elim o.embd fun emb => putRows o.embd acc.1 (outs.map emb) })

def mapIds (n : Nat) (outIds : Nat → Nat) (ids : Nat → Int) : Nat → Int :=
  (List.range n).foldl (fun ids k => Function.update ids (outIds k) k) ids

/-- The output mappings, once all ubatches are computed. -/
def setMappings (o : Outputs R E) (n : Nat) (outIds : Nat → Nat) : Outputs R E :=
  if ∀ k < n, outIds k = k then { o with n := n, ids := mapIds n outIds o.ids }
  else
    let r := selectionSort n outIds
    { o with n := n, ids := mapIds n r.1 fun _ => -1, swaps := o.swaps ++ r.2 }

/-- `slots` says whether the memory finds room for the ubatches. -/
def decode (cfg : Config) (o : Outputs R E) (accepted slots : Bool) (sp : Splitter) (c : Call R E) :
    Option (Bool × Outputs R E) :=
  if cfg.hasMemory then
    if !accepted || c.tokens.isEmpty then some (false, o)
    else if cfg.nBatch < c.tokens.length then none
    else
      let o := { o with swaps := [] }
      match initBatch sp cfg.nUbatch c.tokens with
      | none => some (false, o)
      | some (us, outIds) =>
        if !slots then some (false, o)
        else
          let r := us.foldl (extract cfg c) (0, o.reserve c.embeddings)
          some (true, r.2.setMappings c.outputs.length fun k => outIds.getD k 0)
  else o.encode cfg accepted c

end Outputs

/-! ## Runs -/

inductive Op (R E : Type) where
  | encode (accepted : Bool) (c : Call R E)
  | decode (accepted slots : Bool) (sp : Splitter) (c : Call R E)
  | getLogitsIth (i : Int)
  | getEmbeddingsIth (i : Int)

/-- `last` is the last call that computed anything, with the tokens it took for outputs. -/
structure Run (R E : Type) where
  out : Outputs R E
  last : Option (Call R E) := none

def Run.after (r : Run R E) (c : Call R E) (res : Bool × Outputs R E) : Run R E :=
  ⟨res.2, if res.1 then some c else r.last⟩

def step (cfg : Config) : Op R E → Run R E → Option (Run R E)
  | .encode accepted c, r => (r.out.encode cfg accepted c).map (r.after c.outputAll)
  | .decode accepted slots sp c, r =>
    (r.out.decode cfg accepted slots sp c).map (r.after (if cfg.hasMemory then c else c.outputAll))
  | .getLogitsIth i, r => some { r with out := (r.out.getLogitsIth cfg i).2 }
  | .getEmbeddingsIth i, r => some { r with out := (r.out.getEmbeddingsIth cfg i).2 }

/-- The row computed for token `i`, or, from the end, for an output. -/
def Call.get (c : Call R E) (i : Int) : Option R :=
  if i < 0 then if c.outputs.length + i < 0 then none else (c.outputs[(c.outputs.length + i).toNat]?).map c.row
  else if i.toNat ∈ c.outputs then some (c.row i.toNat) else none

/-- No swap is pending when a call computes rows without clearing them, or is turned away behind the point where they are
cleared; with `lastOnly` a ubatch has at most one output. -/
def Op.safe (cfg : Config) (r : Run R E) : Op R E → Prop
  | .encode accepted c => accepted → c.tokens ≠ [] → r.out.swaps = []
  | .decode accepted slots sp c =>
    accepted → c.tokens ≠ [] →
      if cfg.hasMemory then
        match initBatch sp cfg.nUbatch c.tokens with
        | none => r.out.swaps = []
        | some (us, _) =>
          if slots then cfg.lastOnly → ∀ u ∈ us, (u.filter c.isOutput).length ≤ 1 else r.out.swaps = []
      else r.out.swaps = []
  | _ => True

end Outputs

/-! ## Sorting and reordering -/

section Sorting
variable {α : Type}

theorem swapAt_apply (f : Nat → α) (i j k : Nat) : swapAt f i j k = f (if k = i then j else if k = j then i else k) := by
  unfold swapAt
  split
  · rfl
  · split
    · rfl
    · rfl

theorem swapAt_comp (f : Nat → α) (ids : Nat → Nat) (i j : Nat) :
    swapAt (fun k => f (ids k)) i j = fun k => f (swapAt ids i j k) := by
  funext k
  rw [swapAt_apply, swapAt_apply]

theorem reorder_append (s t : List (Nat × Nat)) (f : Nat → α) : reorder (s ++ t) f = reorder t (reorder s f) :=
  List.foldl_append

/-- **Sorting the ids and carrying out the swaps later is the same permutation.** -/
theorem reorder_selectionSort (n : Nat) (ids : Nat → Nat) (f : Nat → α) :
    reorder (selectionSort n ids).2 (fun k => f (ids k)) = fun k => f ((selectionSort n ids).1 k) := by
  unfold selectionSort
  refine foldl_range_rule (f := sortStep n) (s := (ids, []))
    (P := fun _ acc => reorder acc.2 (fun k => f (ids k)) = fun k => f (acc.1 k)) rfl (n - 1) ?_
  rintro i - ⟨cur, swaps⟩ h
  unfold sortStep
  dsimp only at h ⊢
  split
  · exact h
  · dsimp only
    rw [reorder_append, h]
    exact swapAt_comp f cur i (minIndex cur i n)

/-- Only the rows `0, ..., n - 1` are swapped. -/
theorem reorder_congr {n : Nat} {swaps : List (Nat × Nat)} (hlt : ∀ s ∈ swaps, s.1 < n ∧ s.2 < n) {f g : Nat → α}
    (h : ∀ k < n, f k = g k) : ∀ k < n, reorder swaps f k = reorder swaps g k := by
  induction swaps generalizing f g with
  | nil => exact h
  | cons s swaps ih =>
      refine ih (fun t ht => hlt t (List.mem_cons_of_mem _ ht)) fun k hk => ?_
      obtain ⟨h1, h2⟩ := hlt s List.mem_cons_self
      change swapAt f s.1 s.2 k = swapAt g s.1 s.2 k
      rw [swapAt_apply, swapAt_apply]
      exact h _ (by split_ifs <;> omega)

/-- The smallest entry lies in the range, and is smallest. -/
theorem minIndex_spec (ids : Nat → Nat) {i n : Nat} (hi : i < n) :
    i ≤ minIndex ids i n ∧ minIndex ids i n < n ∧ ∀ j, i ≤ j → j < n → ids (minIndex ids i n) ≤ ids j := by
  have hfold : ∀ (l : List Nat) (m : Nat),
      (l.foldl (fun m j => if ids j < ids m then j else m) m ∈ m :: l) ∧
        ∀ j ∈ m :: l, ids (l.foldl (fun m j => if ids j < ids m then j else m) m) ≤ ids j := by
    intro l
    induction l with
    | nil => simp
    | cons x l ih =>
        intro m
        rw [List.foldl_cons]
        obtain ⟨h1, h2⟩ := ih (if ids x < ids m then x else m)
        split at h1
        · rename_i hlt
          rw [if_pos hlt] at h2 ⊢
          refine ⟨List.mem_cons_of_mem _ h1, fun j hj => ?_⟩
          rcases List.mem_cons.mp hj with rfl | hj
          · exact (h2 x List.mem_cons_self).trans hlt.le
          · exact h2 j hj
        · rename_i hge
          rw [if_neg hge] at h2 ⊢
          refine ⟨?_, fun j hj => ?_⟩
          · rcases List.mem_cons.mp h1 with h1 | h1
            · rw [h1]
              exact List.mem_cons_self
            · exact List.mem_cons_of_mem _ (List.mem_cons_of_mem _ h1)
          · rcases List.mem_cons.mp hj with rfl | hj
            · exact h2 j List.mem_cons_self
            · rcases List.mem_cons.mp hj with rfl | hj
              · exact (h2 m List.mem_cons_self).trans (not_lt.mp hge)
              · exact h2 j (List.mem_cons_of_mem _ hj)
  obtain ⟨h1, h2⟩ := hfold (List.range' (i + 1) (n - (i + 1))) i
  have hrange : ∀ j, j ∈ i :: List.range' (i + 1) (n - (i + 1)) ↔ i ≤ j ∧ j < n := by
    intro j
    rw [List.mem_cons, List.mem_range'_1]
    omega
  obtain ⟨h3, h4⟩ := (hrange _).mp h1
  exact ⟨h3, h4, fun j hij hj => h2 j ((hrange j).mpr ⟨hij, hj⟩)⟩

theorem selectionSort_swaps_lt (n : Nat) (ids : Nat → Nat) : ∀ s ∈ (selectionSort n ids).2, s.1 < n ∧ s.2 < n := by
  unfold selectionSort
  refine foldl_range_rule (f := sortStep n) (s := (ids, [])) (P := fun _ acc => ∀ s ∈ acc.2, s.1 < n ∧ s.2 < n)
    (fun s hs => absurd hs List.not_mem_nil) (n - 1) ?_
  rintro i hi ⟨cur, swaps⟩ h
  unfold sortStep
  dsimp only at h ⊢
  split
  · exact h
  · intro s hs
    rcases List.mem_append.mp hs with hs | hs
    · exact h s hs
    · rw [List.mem_singleton.mp hs]
      exact ⟨by omega, (minIndex_spec cur (by omega)).2.1⟩

/-- The entries of the first `i` places are settled: smaller than all behind them. -/
structure SortedTo (n : Nat) (ids : Nat → Nat) (i : Nat) (cur : Nat → Nat) : Prop where
  perm : ((List.range n).map cur).Perm ((List.range n).map ids)
  inj : ∀ a < n, ∀ b < n, cur a = cur b → a = b
  lt : ∀ a < i, ∀ b, a < b → b < n → cur a < cur b

theorem map_swapAt_perm (cur : Nat → Nat) {i m n : Nat} (hi : i < n) (hm : m < n) :
    ((List.range n).map (swapAt cur i m)).Perm ((List.range n).map cur) := by
  have heq : (List.range n).map (swapAt cur i m) =
      ((List.range n).map fun k => if k = i then m else if k = m then i else k).map cur := by
    rw [List.map_map]
    apply List.map_congr_left
    intro k _
    rw [swapAt_apply]
    rfl
  rw [heq]
  apply List.Perm.map
  have hinj : Function.Injective fun k : Nat => if k = i then m else if k = m then i else k := by
    intro a b hab
    dsimp only at hab
    split_ifs at hab <;> omega
  rw [List.perm_ext_iff_of_nodup (List.nodup_range.map hinj) List.nodup_range]
  intro k
  rw [List.mem_map, List.mem_range]
  constructor
  · rintro ⟨a, ha, rfl⟩
    rw [List.mem_range] at ha
    split_ifs <;> omega
  · intro hk
    refine ⟨if k = i then m else if k = m then i else k, ?_, ?_⟩
    · rw [List.mem_range]
      split_ifs <;> omega
    · split_ifs <;> omega

theorem SortedTo.step {n : Nat} {ids cur : Nat → Nat} {i : Nat} (h : SortedTo n ids i cur) (hi : i < n) :
    SortedTo n ids (i + 1) (if minIndex cur i n = i then cur else swapAt cur i (minIndex cur i n)) := by
  obtain ⟨hle, hlt, hmin⟩ := minIndex_spec cur hi
  split
  · rename_i hm
    refine ⟨h.perm, h.inj, fun a ha b hab hb => ?_⟩
    by_cases hai : a = i
    · have hcur := hmin b (by omega) hb
      rw [hm, ← hai] at hcur
      refine lt_of_le_of_ne hcur fun hc => ?_
      have := h.inj a (by omega) b hb hc
      omega
    · exact h.lt a (by omega) b hab hb
  · rename_i hm
    refine ⟨(map_swapAt_perm cur hi hlt).trans h.perm, fun a ha b hb hab => ?_, fun a ha b hab hb => ?_⟩
    · rw [swapAt_apply, swapAt_apply] at hab
      have := h.inj _ (by split_ifs <;> omega) _ (by split_ifs <;> omega) hab
      split_ifs at this <;> omega
    · rw [swapAt_apply, swapAt_apply]
      by_cases hai : a = i
      · rw [if_pos hai, if_neg (by omega)]
        have hne : minIndex cur i n ≠ (if b = minIndex cur i n then i else b) := by
          split_ifs <;> omega
        refine lt_of_le_of_ne (hmin _ (by split_ifs <;> omega) (by split_ifs <;> omega)) fun hc => hne ?_
        exact h.inj _ hlt _ (by split_ifs <;> omega) hc
      · rw [if_neg hai, if_neg (by omega)]
        exact h.lt a (by omega) _ (by split_ifs <;> omega) (by split_ifs <;> omega)

theorem selectionSort_sorted (n : Nat) (ids : Nat → Nat) (hinj : ∀ a < n, ∀ b < n, ids a = ids b → a = b) :
    SortedTo n ids n (selectionSort n ids).1 := by
  have hrun : SortedTo n ids (n - 1) (selectionSort n ids).1 := by
    unfold selectionSort
    refine foldl_range_rule (f := sortStep n) (s := (ids, [])) (P := fun i acc => SortedTo n ids i acc.1)
      ⟨List.Perm.refl _, hinj, fun a ha => absurd ha (Nat.not_lt_zero a)⟩ (n - 1) ?_
    rintro i hi ⟨cur, swaps⟩ h
    have hstep := h.step (i := i) (by omega)
    unfold sortStep
    dsimp only at hstep ⊢
    split at hstep
    · rename_i hm
      rw [if_pos hm]
      exact hstep
    · rename_i hm
      rw [if_neg hm]
      exact hstep
  -- behind the last place there is nothing
  refine ⟨hrun.perm, hrun.inj, fun a ha b hab hb => hrun.lt a (by omega) b hab hb⟩

end Sorting

/-! ## What the buffers show -/

section Shows
variable {R E : Type} {cfg : Config} {o : Outputs R E} {c : Call R E}

/-- The outputs of `c` have the rows `0, 1, ...`, once the pending swaps are carried out. -/
def Shows (cfg : Config) (o : Outputs R E) : Option (Call R E) → Prop
  | none => o.n = 0 ∧ ∀ i, o.ids i = -1
  | some c =>
    c.tokens.length ≤ cfg.nBatch ∧ o.n = c.outputs.length ∧ (∀ i ∉ c.outputs, o.ids i = -1) ∧
      ∀ (k i : Nat), c.outputs[k]? = some i → o.ids i = k ∧ reorder o.swaps o.logits k = c.row i

theorem Shows.outputReorder {last : Option (Call R E)} (h : Shows cfg o last) : Shows cfg o.outputReorder last := by
  cases last with
  | none => exact h
  | some c => exact h

theorem Call.lt_of_mem_outputs {i : Nat} (h : i ∈ c.outputs) : i < c.tokens.length :=
  List.mem_range.mp (List.mem_filter.mp h).1

theorem Shows.getLogitsIth {last : Option (Call R E)} (h : Shows cfg o last) (i : Int) :
    (o.getLogitsIth cfg i).1 = last.bind fun c => c.get i := by
  unfold Outputs.getLogitsIth Outputs.index
  dsimp only [Outputs.outputReorder]
  cases last with
  | none =>
      obtain ⟨hn, hids⟩ := h
      rw [hn]
      split_ifs <;> first | rfl | (rw [hids] at *; omega) | omega
  | some c =>
      obtain ⟨hbatch, hn, hother, hrows⟩ := h
      rw [hn, Option.bind_some]
      unfold Call.get
      by_cases hneg : i < 0
      · rw [if_pos hneg, if_pos hneg]
        split
        · rfl
        · rename_i hj
          have hlt : (c.outputs.length + i).toNat < c.outputs.length := by omega
          rw [if_neg (by omega), Option.map_some, List.getElem?_eq_getElem hlt, Option.map_some]
          exact congrArg some (hrows _ _ (List.getElem?_eq_getElem hlt)).2
      · rw [if_neg hneg, if_neg hneg]
        by_cases hmem : i.toNat ∈ c.outputs
        · have hlt := Call.lt_of_mem_outputs hmem
          obtain ⟨k, hk⟩ := List.mem_iff_getElem?.mp hmem
          obtain ⟨hid, hrow⟩ := hrows k _ hk
          have hklt := (List.getElem?_eq_some_iff.mp hk).1
          have hin : ¬ cfg.nBatch ≤ i.toNat := by omega
          have hk0 : ¬ (k : Int) < 0 := by omega
          rw [if_neg hin, hid, if_neg hk0, Int.toNat_natCast, if_neg (by omega), if_pos hmem, Option.map_some]
          exact congrArg some hrow
        · rw [if_neg hmem]
          have hid := hother _ hmem
          split_ifs <;> first | rfl | omega

/-! ### Encoding -/

theorem Call.outputs_outputAll (c : Call R E) : c.outputAll.outputs = List.range c.tokens.length := by
  have hlen : c.outputAll.tokens.length = c.tokens.length := List.length_map _
  unfold Call.outputs
  rw [hlen, List.filter_eq_self]
  intro i hi
  rw [List.mem_range] at hi
  unfold Call.isOutput Call.outputAll Allocr.token
  dsimp only
  rw [List.getD_eq_getElem?_getD, List.getElem?_map, List.getElem?_eq_getElem hi]
  rfl

/-- A batch in one ubatch keeps its order. -/
theorem splitSimple_all {tokens : List Token} (hne : tokens ≠ []) :
    Allocr.splitSimple { tokens := tokens } tokens.length = List.range tokens.length := by
  have hpos := List.length_pos_iff.mpr hne
  have hfirst : Allocr.firstUnused { tokens := tokens } = some 0 := by
    unfold Allocr.firstUnused
    rw [List.find?_range_eq_some]
    exact ⟨by simp, by simpa using hpos, fun j hj => absurd hj (Nat.not_lt_zero j)⟩
  unfold Allocr.splitSimple
  rw [hfirst]
  dsimp only
  rw [Nat.sub_zero, max_eq_right (by omega), min_self, ← List.range_eq_range']

theorem Shows.encode {accepted ok : Bool} {o' : Outputs R E} (hsafe : accepted → c.tokens ≠ [] → o.swaps = [])
    (hrun : o.encode cfg accepted c = some (ok, o')) :
    (ok = false ∧ o' = o) ∨ (ok = true ∧ Shows cfg o' (some c.outputAll)) := by
  unfold Outputs.encode at hrun
  split at hrun
  · cases hrun
    exact .inl ⟨rfl, rfl⟩
  · rename_i hgo
    rw [Bool.or_eq_true, not_or, Bool.not_eq_true', Bool.not_eq_false, List.isEmpty_iff] at hgo
    split at hrun
    · cases hrun
    · rename_i hfit
      cases hrun
      have hlen : c.outputAll.tokens.length = c.tokens.length := List.length_map _
      have hne : c.outputAll.tokens ≠ [] := fun hc => hgo.2 (List.map_eq_nil_iff.mp hc)
      refine .inr ⟨rfl, ?_, ?_, fun i hi => ?_, fun k i hk => ?_⟩
      · rw [hlen]
        have := cfg.le
        omega
      · rw [Call.outputs_outputAll, List.length_range]
      · rw [Call.outputs_outputAll, List.mem_range] at hi
        exact if_neg hi
      · rw [Call.outputs_outputAll] at hk
        obtain ⟨hklt, hki⟩ := List.getElem?_eq_some_iff.mp hk
        rw [List.getElem_range] at hki
        rw [List.length_range] at hklt
        subst hki
        refine ⟨if_pos hklt, ?_⟩
        dsimp only [Outputs.reserve]
        rw [hsafe hgo.1 hgo.2, ← hlen, splitSimple_all hne]
        have hrow : ((List.range c.outputAll.tokens.length).map c.row)[k]? = some (c.row k) := by
          rw [List.getElem?_map, List.getElem?_range (by omega)]
          rfl
        have hput := putRows_of_getElem (m := o.logits) (n := 0) hrow
        rw [Nat.zero_add] at hput
        exact hput

/-! ### Decoding -/

/-- Where every token is an output, nothing is filtered out. -/
theorem extract_outs {u : List Nat} (hu : ∀ i ∈ u, i < c.tokens.length) :
    (if c.outputs.length = c.tokens.length then u else u.filter c.isOutput) = u.filter c.isOutput := by
  split
  · rename_i hall
    symm
    rw [List.filter_eq_self]
    intro i hi
    have hfull : c.outputs = List.range c.tokens.length := by
      refine (List.filter_sublist (p := c.isOutput) (l := List.range c.tokens.length)).eq_of_length ?_
      rw [List.length_range]
      exact hall
    have hmem : i ∈ c.outputs := by
      rw [hfull, List.mem_range]
      exact hu i hi
    exact (List.mem_filter.mp hmem).2
  · rfl

/-- The rows of a ubatch, also when only the last one is copied, if there is no other. -/
theorem extract_eq (acc : Nat × Outputs R E) {u : List Nat} (hu : ∀ i ∈ u, i < c.tokens.length)
    (hlast : cfg.lastOnly → (u.filter c.isOutput).length ≤ 1) :
    (Outputs.extract cfg c acc u).1 = acc.1 + (u.filter c.isOutput).length ∧
      (Outputs.extract cfg c acc u).2.logits = putRows acc.2.logits acc.1 ((u.filter c.isOutput).map c.row) ∧
      (Outputs.extract cfg c acc u).2.ids = acc.2.ids ∧ (Outputs.extract cfg c acc u).2.swaps = acc.2.swaps := by
  unfold Outputs.extract
  dsimp only
  rw [extract_outs hu]
  refine ⟨rfl, ?_, rfl, rfl⟩
  split
  · rename_i hl
    have hle := hlast hl
    cases hout : u.filter c.isOutput with
    | nil => rfl
    | cons x rest =>
        rw [hout, List.length_cons] at hle
        obtain rfl : rest = [] := List.length_eq_zero_iff.mp (by omega)
        rfl
  · rfl

/-- All ubatches: the rows lie in the order of `out_ids`. -/
theorem extract_all : ∀ (us : List (List Nat)) (acc : Nat × Outputs R E), (∀ u ∈ us, ∀ i ∈ u, i < c.tokens.length) →
    (cfg.lastOnly → ∀ u ∈ us, (u.filter c.isOutput).length ≤ 1) →
    (us.foldl (Outputs.extract cfg c) acc).2.ids = acc.2.ids ∧
      (us.foldl (Outputs.extract cfg c) acc).2.swaps = acc.2.swaps ∧
      (∀ j < acc.1, (us.foldl (Outputs.extract cfg c) acc).2.logits j = acc.2.logits j) ∧
      ∀ k i, (us.flatten.filter c.isOutput)[k]? = some i →
        (us.foldl (Outputs.extract cfg c) acc).2.logits (acc.1 + k) = c.row i
  | [], acc, _, _ => by
    refine ⟨rfl, rfl, fun _ _ => rfl, fun k i hk => ?_⟩
    simp at hk
  | u :: us, acc, hlt, hlast => by
    obtain ⟨h1, h2, h3, h4⟩ := extract_eq acc (hlt u List.mem_cons_self) fun hl => hlast hl u List.mem_cons_self
    obtain ⟨g1, g2, g3, g4⟩ := extract_all us (Outputs.extract cfg c acc u)
      (fun v hv => hlt v (List.mem_cons_of_mem _ hv)) (fun hl v hv => hlast hl v (List.mem_cons_of_mem _ hv))
    rw [List.foldl_cons]
    refine ⟨g1.trans h3, g2.trans h4, fun j hj => ?_, fun k i hk => ?_⟩
    · rw [g3 j (by omega), h2, putRows_of_lt hj]
    · rw [List.flatten_cons, List.filter_append] at hk
      by_cases hku : k < (u.filter c.isOutput).length
      · rw [List.getElem?_append_left hku] at hk
        rw [g3 _ (by omega), h2]
        exact putRows_of_getElem (by rw [List.getElem?_map, hk]; rfl)
      · rw [List.getElem?_append_right (by omega)] at hk
        have hrow := g4 _ i hk
        rw [h1] at hrow
        rwa [show acc.1 + k = acc.1 + (u.filter c.isOutput).length + (k - (u.filter c.isOutput).length) by omega]

theorem mapIds_spec {n : Nat} {g : Nat → Nat} (ids : Nat → Int) (hinj : ∀ a < n, ∀ b < n, g a = g b → a = b) :
    (∀ k < n, Outputs.mapIds n g ids (g k) = k) ∧ ∀ i, (∀ k < n, g k ≠ i) → Outputs.mapIds n g ids i = ids i := by
  have hrun := foldl_range_rule (f := fun (ids : Nat → Int) k => Function.update ids (g k) (k : Int)) (s := ids)
    (P := fun m cur => (∀ k < m, cur (g k) = k) ∧ ∀ i, (∀ k < m, g k ≠ i) → cur i = ids i)
    ⟨fun k hk => absurd hk (Nat.not_lt_zero k), fun _ _ => rfl⟩ n ?_
  · exact hrun
  · rintro m hm cur ⟨h1, h2⟩
    refine ⟨fun k hk => ?_, fun i hi => ?_⟩
    · by_cases hkm : k = m
      · rw [hkm, Function.update_self]
      · rw [Function.update_of_ne fun hc => hkm (hinj k (by omega) m hm hc)]
        exact h1 k (by omega)
    · rw [Function.update_of_ne fun hc => hi m (Nat.lt_succ_self m) hc.symm]
      exact h2 i fun k hk => hi k (by omega)

theorem Call.outputs_pairwise (c : Call R E) : c.outputs.Pairwise (· < ·) := List.pairwise_lt_range.filter _

/-- Increasing ids that are the outputs, each with its row. -/
theorem Shows.of_sorted {o' : Outputs R E} {g : Nat → Nat} {ids : Nat → Int} (hbatch : c.tokens.length ≤ cfg.nBatch)
    (hn : o'.n = c.outputs.length) (hids : o'.ids = Outputs.mapIds c.outputs.length g ids) (hnone : ∀ i, ids i = -1)
    (hperm : ((List.range c.outputs.length).map g).Perm c.outputs)
    (hlt : ∀ a < c.outputs.length, ∀ b, a < b → b < c.outputs.length → g a < g b)
    (hrow : ∀ k < c.outputs.length, reorder o'.swaps o'.logits k = c.row (g k)) : Shows cfg o' (some c) := by
  have hsorted : ((List.range c.outputs.length).map g).Pairwise (· < ·) := by
    rw [List.pairwise_map]
    refine List.pairwise_lt_range.imp_of_mem fun {a b} ha hb hab => ?_
    exact hlt a (List.mem_range.mp ha) b hab (List.mem_range.mp hb)
  have heq : (List.range c.outputs.length).map g = c.outputs :=
    hperm.eq_of_pairwise (fun a b _ _ hab hba => absurd hba hab.asymm) hsorted c.outputs_pairwise
  have hget : ∀ (k i : Nat), c.outputs[k]? = some i → k < c.outputs.length ∧ g k = i := by
    intro k i hk
    have hklt := (List.getElem?_eq_some_iff.mp hk).1
    rw [← heq, List.getElem?_map, List.getElem?_range hklt] at hk
    exact ⟨hklt, Option.some.inj hk⟩
  have hinj : ∀ a < c.outputs.length, ∀ b < c.outputs.length, g a = g b → a = b := by
    intro a ha b hb hab
    rcases Nat.lt_trichotomy a b with h | h | h
    · have := hlt a ha b h hb
      omega
    · exact h
    · have := hlt b hb a h ha
      omega
  obtain ⟨hhit, hmiss⟩ := mapIds_spec ids hinj
  refine ⟨hbatch, hn, fun i hi => ?_, fun k i hk => ?_⟩
  · rw [hids, hmiss i fun k hk hki => hi ?_, hnone]
    rw [← heq, ← hki]
    exact List.mem_map_of_mem (List.mem_range.mpr hk)
  · obtain ⟨hklt, rfl⟩ := hget k i hk
    exact ⟨by rw [hids]; exact hhit k hklt, hrow k hklt⟩

theorem Shows.setMappings {outIds : List Nat} (hbatch : c.tokens.length ≤ cfg.nBatch) (hperm : outIds.Perm c.outputs)
    (hids : ∀ i, o.ids i = -1) (hswaps : o.swaps = []) (hrows : ∀ (k i : Nat), outIds[k]? = some i → o.logits k = c.row i) :
    Shows cfg (o.setMappings c.outputs.length fun k => outIds.getD k 0) (some c) := by
  have hlen := hperm.length_eq
  have hgetD : ∀ (k : Nat) (hk : k < outIds.length), outIds.getD k 0 = outIds[k] := by
    intro k hk
    rw [List.getD_eq_getElem?_getD, List.getElem?_eq_getElem hk]
    rfl
  have hmap : (List.range c.outputs.length).map (fun k => outIds.getD k 0) = outIds := by
    rw [← hlen]
    refine List.ext_getElem (by rw [List.length_map, List.length_range]) fun k h1 h2 => ?_
    rw [List.getElem_map, List.getElem_range, hgetD k h2]
  have hrow : ∀ k < c.outputs.length, o.logits k = c.row (outIds.getD k 0) := by
    intro k hk
    rw [← hlen] at hk
    rw [hgetD k hk]
    exact hrows k _ (List.getElem?_eq_getElem hk)
  unfold Outputs.setMappings
  split
  · rename_i hid
    refine Shows.of_sorted hbatch rfl rfl hids (by rw [hmap]; exact hperm) (fun a ha b hab hb => ?_) fun k hk => ?_
    · have h1 : outIds.getD a 0 = a := hid a ha
      have h2 : outIds.getD b 0 = b := hid b hb
      rwa [h1, h2]
    · dsimp only
      rw [hswaps]
      exact hrow k hk
  · have hnodup : outIds.Nodup := hperm.nodup_iff.mpr (c.outputs_pairwise.imp fun h => h.ne)
    have hinj : ∀ a < c.outputs.length, ∀ b < c.outputs.length, outIds.getD a 0 = outIds.getD b 0 → a = b := by
      intro a ha b hb hab
      rw [← hlen] at ha hb
      rw [hgetD a ha, hgetD b hb] at hab
      exact (hnodup.getElem_inj_iff).mp hab
    have hsort := selectionSort_sorted _ _ hinj
    refine Shows.of_sorted hbatch rfl rfl (fun _ => rfl) ?_ hsort.lt fun k hk => ?_
    · refine hsort.perm.trans ?_
      rw [hmap]
      exact hperm
    · dsimp only
      rw [hswaps, List.nil_append]
      have hreorder := congrFun (reorder_selectionSort c.outputs.length (fun k => outIds.getD k 0) c.row) k
      rw [← hreorder]
      exact reorder_congr (selectionSort_swaps_lt _ _) hrow k hk

theorem Shows.decode {accepted slots ok : Bool} {sp : Splitter} {o' : Outputs R E} {last : Option (Call R E)}
    (h : Shows cfg o last) (hmem : cfg.hasMemory = true)
    (hsafe : Op.safe cfg ⟨o, last⟩ (.decode accepted slots sp c))
    (hrun : o.decode cfg accepted slots sp c = some (ok, o')) :
    (ok = false ∧ Shows cfg o' last) ∨ (ok = true ∧ Shows cfg o' (some c)) := by
  unfold Outputs.decode at hrun
  rw [if_pos hmem] at hrun
  split at hrun
  · cases hrun
    exact .inl ⟨rfl, h⟩
  · rename_i hgo
    rw [Bool.or_eq_true, not_or, Bool.not_eq_true', Bool.not_eq_false, List.isEmpty_iff] at hgo
    have hs := hsafe hgo.1 hgo.2
    rw [if_pos hmem] at hs
    split at hrun
    · cases hrun
    · rename_i hfit
      -- a batch that is turned away takes the pending swaps with it
      have hclear : o.swaps = [] → Shows cfg { o with swaps := [] } last := by
        intro hnil
        have heq : { o with swaps := [] } = o := by
          cases o
          dsimp only at hnil ⊢
          rw [hnil]
        rw [heq]
        exact h
      cases hinit : initBatch sp cfg.nUbatch c.tokens with
      | none =>
          rw [hinit] at hrun hs
          cases hrun
          exact .inl ⟨rfl, hclear hs⟩
      | some r =>
          obtain ⟨us, outIds⟩ := r
          rw [hinit] at hrun hs
          dsimp only at hrun hs
          split at hrun
          · rename_i hslots
            rw [Bool.not_eq_true'] at hslots
            rw [hslots] at hs
            cases hrun
            exact .inl ⟨rfl, hclear hs⟩
          · rename_i hslots
            rw [Bool.not_eq_true', Bool.not_eq_false] at hslots
            rw [hslots, if_pos rfl] at hs
            cases hrun
            obtain ⟨hperm, hout, -⟩ := initBatch_perm hinit
            have hlt : ∀ u ∈ us, ∀ i ∈ u, i < c.tokens.length := by
              intro u hu i hi
              exact List.mem_range.mp (hperm.subset (List.mem_flatten.mpr ⟨u, hu, hi⟩))
            obtain ⟨g1, g2, -, g4⟩ := extract_all us (0, ({ o with swaps := [] } : Outputs R E).reserve c.embeddings) hlt hs
            refine .inr ⟨rfl, Shows.setMappings (by omega) ?_ (fun i => by rw [g1]; rfl) g2 fun k i hk => ?_⟩
            · rw [hout]
              exact hperm.filter _
            · rw [hout] at hk
              have hrow := g4 k i hk
              rwa [Nat.zero_add] at hrow

theorem Shows.step {r r' : Run R E} {op : Op R E} (h : Shows cfg r.out r.last) (hsafe : op.safe cfg r)
    (hstep : step cfg op r = some r') : Shows cfg r'.out r'.last := by
  cases op with
  | encode accepted c =>
      obtain ⟨⟨ok, o'⟩, hrun, rfl⟩ := Option.map_eq_some_iff.mp hstep
      rcases Shows.encode hsafe hrun with ⟨rfl, rfl⟩ | ⟨rfl, hshow⟩
      · exact h
      · exact hshow
  | decode accepted slots sp c =>
      obtain ⟨⟨ok, o'⟩, hrun, rfl⟩ := Option.map_eq_some_iff.mp hstep
      cases hmem : cfg.hasMemory with
      | true =>
          rcases h.decode hmem hsafe hrun with ⟨rfl, hshow⟩ | ⟨rfl, hshow⟩
          · exact hshow
          · exact hshow
      | false =>
          unfold Outputs.decode at hrun
          rw [hmem, if_neg Bool.false_ne_true] at hrun
          have hs : accepted → c.tokens ≠ [] → r.out.swaps = [] := by
            intro ha hne
            have hs := hsafe ha hne
            rwa [hmem, if_neg Bool.false_ne_true] at hs
          rcases Shows.encode hs hrun with ⟨rfl, rfl⟩ | ⟨rfl, hshow⟩
          · exact h
          · exact hshow
  | getLogitsIth i =>
      cases hstep
      exact h.outputReorder
  | getEmbeddingsIth i =>
      cases hstep
      exact h.outputReorder

/-- **A row that is asked for is the one that the last computing call has for the token, and the swaps carried out late are
the permutation of the ids.** -/
theorem reaches_getLogitsIth (cfg : Config) (logits : Nat → R) (embd : Nat → E) (r : Run R E)
    (h : Reaches (step cfg) (Op.safe cfg) ⟨{ logits := logits, embd := embd }, none⟩ r) :
    (∀ i, (r.out.getLogitsIth cfg i).1 = r.last.bind fun c => c.get i) ∧
      ∀ (n : Nat) (ids : Nat → Nat) (row : Nat → R),
        reorder (selectionSort n ids).2 (fun k => row (ids k)) = fun k => row ((selectionSort n ids).1 k) := by
  have hstart : Shows cfg (⟨{ logits := logits, embd := embd }, none⟩ : Run R E).out none := ⟨rfl, fun _ => rfl⟩
  have hshow : Shows cfg r.out r.last :=
    h.invariant (I := fun r : Run R E => Shows cfg r.out r.last) hstart fun _ _ _ hi hs hstep => hi.step hs hstep
  exact ⟨hshow.getLogitsIth, reorder_selectionSort⟩

end Shows

/-! ## A batch of two sequences, and an encoder call behind it -/

def streamsCfg : Config := { nBatch := 8, nUbatch := 4, le := by decide, hasMemory := true }

def emptyRun : Run Nat Unit := ⟨{ logits := fun _ => 0, embd := fun _ => () }, none⟩

/-- The tokens of the two sequences alternate, so that the second and the third row change places. -/
def alternating : Call Nat Unit where
  tokens := [⟨0, 0, [], true⟩, ⟨0, 1, [], true⟩, ⟨1, 0, [], true⟩, ⟨1, 1, [], true⟩]
  row i := 10 + i

def encoded : Call Nat Unit := { alternating with row := fun i => 20 + i }

def decodeAlternating : Op Nat Unit := .decode true true (.equal true) alternating

theorem reaches_getLogitsIth_alternating :
    ((step streamsCfg decodeAlternating emptyRun).map fun r => r.out.swaps) = some [(1, 2)] ∧
      ∃ r, step streamsCfg decodeAlternating emptyRun = some r ∧ (r.out.getLogitsIth streamsCfg 2).1 = some 12 := by
  have hswaps : ((step streamsCfg decodeAlternating emptyRun).map fun r => r.out.swaps) = some [(1, 2)] := by decide
  refine ⟨hswaps, ?_⟩
  obtain ⟨r, hr, -⟩ := Option.map_eq_some_iff.mp hswaps
  have hsafe : decodeAlternating.safe streamsCfg emptyRun := fun _ _ => fun hc => absurd hc Bool.false_ne_true
  have hget := (reaches_getLogitsIth streamsCfg _ _ r (.step decodeAlternating .start hsafe hr)).1 2
  have hlast : ((step streamsCfg decodeAlternating emptyRun).map fun r => r.last.bind fun c => c.get 2) =
      some (some 12) := by decide
  rw [hr] at hlast
  exact ⟨r, hr, hget.trans (Option.some.inj hlast)⟩

/-- The encoder leaves the swaps of the decoder in place: they move its own rows. -/
theorem encode_stale_swaps :
    ¬ ∀ r, Reaches (step streamsCfg) (fun _ _ => True) emptyRun r →
      ∀ i, (r.out.getLogitsIth streamsCfg i).1 = r.last.bind fun c => c.get i := by
  intro h
  have hrun : ((runList (step streamsCfg) [decodeAlternating, .encode true encoded] emptyRun).map fun r =>
      ((r.out.getLogitsIth streamsCfg 1).1, r.last.bind fun c => c.get 1)) = some (some 22, some 21) := by decide
  obtain ⟨r, hr, hval⟩ := Option.map_eq_some_iff.mp hrun
  have hget := h r (Reaches.runList .start (fun _ _ _ => trivial) hr) 1
  obtain ⟨h1, h2⟩ := Prod.mk.inj hval
  rw [h1, h2] at hget
  cases hget

end S2Moe.Context
