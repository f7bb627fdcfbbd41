import S2Moe.Lib.Loop
import Mathlib.Data.List.Forall2

/-!
# The routing that is read back behind a decode

`build_moe_ffn` leaves tensors with the ids and the weights of each layer, `extract_moe_topk_from_ubatch` copies them into
vectors with a row for each token of the batch, and `get_last_moe_topk` reads one row of them.

* `capture` : the tensors of a layer; `Tensor.mem` is what is read from the front of a tensor, whatever its strides are;
* `extractLayer`, `extractUbatch`, `getLastMoeTopk` : the copy and the read; `none` is an access outside a vector;
* `Decode` : the ubatches, the layers and what the device left in their log tensors; `Computed` : what the layers compute;
* `Sound` : each entry is that of the token's row; `Readable` : when it is;
* `readback_iff` : the readback is sound for whatever is computed exactly when the decode is readable.
-/

namespace S2Moe.Router
open S2Moe.Lib

section Code

/-- A vector, or memory that is read. -/
structure Buffer (α : Type) where
  size : Nat
  val : Nat → α

namespace Buffer
variable {α : Type} (b : Buffer α)

def get? (i : Nat) : Option α := if i < b.size then some (b.val i) else none

def set? (i : Nat) (x : α) : Option (Buffer α) :=
    if i < b.size then some { b with val := Function.update b.val i x } else none

end Buffer

/-- `ggml_tensor`, with what `ggml_backend_tensor_get` reads of it. -/
structure Tensor (α : Type) where
  ne0 : Nat
  ne1 : Nat
  ne2 : Nat
  mem : Buffer α

/-- Rows behind one another. -/
def packed {α : Type} (width rows : Nat) (f : Nat → Nat → α) : Buffer α := ⟨width * rows, fun p => f (p / width) (p % width)⟩

/-- The first columns of rows of `stride` columns, from the first element to the last one. -/
def viewed {α : Type} (width stride rows : Nat) (f : Nat → Nat → α) : Buffer α :=
  ⟨if rows = 0 then 0 else (rows - 1) * stride + width, fun p => f (p / stride) (p % stride)⟩

inductive WeightKind where
  | raw | scaled | norm | softmax
deriving DecidableEq

def WeightKind.rank : WeightKind → Nat
  | .raw => 1
  | .scaled => 2
  | .norm => 3
  | .softmax => 4

/-- The arguments of `build_moe_ffn` for a layer. The rows of a layer behind the selection of the output rows are those of the
output tokens. -/
structure MoeLayer where
  layer : Nat
  nExpert : Nat
  nExpertUsed : Nat
  moeTopkLogK : Int
  softmaxWeight : Bool
  normW : Bool
  scaleW : Bool
  afterOutputs : Bool
  used_pos : 0 < nExpertUsed
  used_le : nExpertUsed ≤ nExpert

namespace MoeLayer
variable (s : MoeLayer)

def logK : Nat := if 0 < s.moeTopkLogK then min s.moeTopkLogK.toNat s.nExpert else 0

/-- `add_moe_weight_layer` : a node of a higher kind replaces the last one. -/
def addMoeWeightLayer (old : Option (WeightKind × Tensor Rat)) (new : WeightKind × Tensor Rat) :
    Option (WeightKind × Tensor Rat) :=
  match old with
  | none => some new
  | some o => if o.1.rank < new.1.rank then some new else some o

/-- The nodes of the weights, as they are named. -/
def weightNodes (width rows : Nat) (f : WeightKind → Nat → Nat → Rat) : List (WeightKind × Tensor Rat) :=
  [(.raw, ⟨1, width, rows, packed width rows (f .raw)⟩)] ++
    (if s.softmaxWeight then [(.softmax, ⟨1, width, rows, packed width rows (f .softmax)⟩)] else []) ++
    (if s.normW then [(.norm, ⟨width, rows, 1, packed width rows (f .norm)⟩)] else []) ++
    (if s.scaleW then [(.scaled, ⟨1, width, rows, packed width rows (f .scaled)⟩)] else [])

def weightTensor (width rows : Nat) (f : WeightKind → Nat → Nat → Rat) : Option (Tensor Rat) :=
  ((s.weightNodes width rows f).foldl addMoeWeightLayer none).map Prod.snd

end MoeLayer

/-- The tensors of a layer that `llm_graph_result` has. -/
structure MoeTensors where
  topk : Option (Tensor Int)
  weight : Option (Tensor Rat)
  topkLog : Option (Tensor Int)
  weightLog : Option (Tensor Rat)

/-- What `build_moe_ffn` captures. The selected experts are a view of the sorted ones, and are copied if `moe_topk_log_k`
is set. -/
def MoeLayer.capture (s : MoeLayer) (rows : Nat) (sorted logIds : Nat → Nat → Int)
    (weights weightsLog : WeightKind → Nat → Nat → Rat) :
    MoeTensors where
  topk := some ⟨s.nExpertUsed, rows, 1,
    if 0 ≤ s.moeTopkLogK then packed s.nExpertUsed rows sorted else viewed s.nExpertUsed s.nExpert rows sorted⟩
  weight := s.weightTensor s.nExpertUsed rows weights
  topkLog := if 0 < s.logK then some ⟨s.logK, rows, 1, packed s.logK rows logIds⟩ else none
  weightLog := if 0 < s.logK then s.weightTensor s.logK rows weightsLog else none

/-- A ubatch behind its graph: `idx`, and the layers that were registered. -/
structure GraphResult where
  idx : List Nat
  moeLayers : List (Nat × MoeTensors)

/-- `moe_topk_layer_data`. -/
structure TopkLayerData where
  layer : Nat
  nExpert : Nat
  expertIds : Buffer Int
  scores : Buffer Rat

/-- The log tensors, or the primary ones. -/
def MoeTensors.source (m : MoeTensors) : Option (Tensor Int × Tensor Rat) :=
  match m.topkLog, m.weightLog with
  | some t, some w => some (t, w)
  | _, _ =>
    match m.topk, m.weight with
    | some t, some w => some (t, w)
    | _, _ => none

/-- The first loop. -/
def register (nTokensAll : Nat) (data : List TopkLayerData) (l : Nat × MoeTensors) : List TopkLayerData :=
  if data.any fun d => d.layer == l.1 then data
  else
    match l.2.source with
    | none => data
    | some (t, _) =>
      if t.ne0 = 0 then data else data ++ [⟨l.1, t.ne0, ⟨t.ne0 * nTokensAll, fun _ => 0⟩, ⟨t.ne0 * nTokensAll, fun _ => 0⟩⟩]

/-- The columns and rows of the weights. -/
def weightShape (nExpert : Nat) (w : Tensor Rat) : Nat × Nat :=
  if w.ne0 = 1 ∧ w.ne1 = nExpert then (w.ne1, w.ne2) else if w.ne0 = nExpert then (w.ne0, w.ne1) else (0, 0)

/-- The ids that are copied: those of the log tensor, unless one of them is invalid. `logged` says that `t` is the log
tensor. -/
def readIds (totalExperts : Int) (m : MoeTensors) (t : Tensor Int) (count : Nat) : Buffer Int :=
  let logged := m.topkLog.isSome && m.weightLog.isSome
  if logged ∧ ∃ i < count, t.mem.val i < 0 ∨ max 1 totalExperts ≤ t.mem.val i then
    match m.topk with
    | some primary => primary.mem
    | none => t.mem
  else t.mem

def copyEntry (ids : Buffer Int) (weights : Buffer Rat) (nExpert i b : Nat) (d : TopkLayerData) (e : Nat) :
    Option TopkLayerData := do
  let id ← ids.get? (e + nExpert * i)
  let weight ← weights.get? (e + nExpert * i)
  let expertIds ← d.expertIds.set? (e + nExpert * b) id
  let scores ← d.scores.set? (e + nExpert * b) weight
  some { d with expertIds := expertIds, scores := scores }

/-- One row. -/
def copyRow (ids : Buffer Int) (weights : Buffer Rat) (nExpert nTokensAll : Nat) (idx : List Nat) (d : TopkLayerData)
    (i : Nat) :
    Option TopkLayerData := do
  let b ← idx[i]?
  if nTokensAll ≤ b then some d else (List.range nExpert).foldlM (copyEntry ids weights nExpert i b) d

/-- One turn of the second loop. -/
def extractLayer (totalExperts : Int) (nTokensAll : Nat) (g : GraphResult) (d : TopkLayerData) : Option TopkLayerData :=
  match (g.moeLayers.find? fun l => l.1 == d.layer).map Prod.snd with
  | none => some d
  | some m =>
    match m.source with
    | none => some d
    | some (t, w) =>
      if t.ne1 = 0 then some d
      else if t.ne0 ≠ d.nExpert then some d
      else if weightShape t.ne0 w ≠ (t.ne0, t.ne1) then some d
      else if t.mem.size < t.ne0 * t.ne1 ∨ w.mem.size < t.ne0 * t.ne1 then some d
      else
        (List.range t.ne1).foldlM
          (copyRow (readIds totalExperts m t (t.ne0 * t.ne1)) w.mem t.ne0 nTokensAll g.idx) d

/-- `extract_moe_topk_from_ubatch`. -/
def extractUbatch (totalExperts : Int) (nTokensAll : Nat) (data : List TopkLayerData) (g : GraphResult) :
    Option (List TopkLayerData) :=
  (g.moeLayers.foldl (register nTokensAll) data).mapM (extractLayer totalExperts nTokensAll g)

/-- `LLAMA_MOE_TOPK_MAX`. -/
def moeTopkMax : Nat := 16

/-- `get_last_moe_topk` : the layers with their entries. -/
def getLastMoeTopk (data : List TopkLayerData) (nTokensAll : Nat) (tokenIndex : Int) (maxLayers : Nat) :
    Option (List (Nat × List (Int × Rat))) :=
  if data = [] ∨ tokenIndex < 0 ∨ (nTokensAll : Int) ≤ tokenIndex then some []
  else (data.take maxLayers).mapM fun d =>
    ((List.range (min d.nExpert moeTopkMax)).mapM fun e => do
      let id ← d.expertIds.get? (e + d.nExpert * tokenIndex.toNat)
      let score ← d.scores.get? (e + d.nExpert * tokenIndex.toNat)
      some (id, score)).map fun entries => (d.layer, entries)

end Code

section Spec

def MoeLayer.width (s : MoeLayer) : Nat := if 0 < s.logK then s.logK else s.nExpertUsed

/-- The kind of the node that stays. -/
def MoeLayer.keptKind (s : MoeLayer) : WeightKind :=
  if s.softmaxWeight then .softmax else if s.normW then .norm else if s.scaleW then .scaled else .raw

/-- A batch with routing capture. Every token is in one ubatch; `logIds` is what the device left in the log tensors, for
each ubatch, layer, row and column. -/
structure Decode where
  nTokens : Nat
  output : Nat → Bool
  ubatches : List (List Nat)
  split : ubatches.flatten.Perm (List.range nTokens)
  layers : List MoeLayer
  nodup : (layers.map MoeLayer.layer).Nodup
  totalExperts : Int
  logIds : Nat → Nat → Nat → Nat → Int

/-- What the layers compute: `sorted` has all experts of a row, the best first. -/
structure Computed (D : Decode) where
  sorted : Nat → Nat → Nat → Nat → Int
  perm : ∀ k, ∀ s ∈ D.layers, ∀ r,
    ((List.range s.nExpert).map (sorted k s.layer r)).Perm ((List.range s.nExpert).map Int.ofNat)
  weights : Nat → Nat → WeightKind → Nat → Nat → Rat
  weightsLog : Nat → Nat → WeightKind → Nat → Nat → Rat

namespace Decode
variable (D : Decode)

/-- The tokens of the rows of a layer. -/
def rows (u : List Nat) (s : MoeLayer) : List Nat := if s.afterOutputs then u.filter D.output else u

def tensors (c : Computed D) (k : Nat) (u : List Nat) (s : MoeLayer) : MoeTensors :=
  s.capture (D.rows u s).length (c.sorted k s.layer) (D.logIds k s.layer) (c.weights k s.layer) (c.weightsLog k s.layer)

def result (c : Computed D) (k : Nat) : GraphResult :=
  ⟨D.ubatches.getD k [], D.layers.map fun s => (s.layer, D.tensors c k (D.ubatches.getD k []) s)⟩

/-- The loop over the ubatches. -/
def run (c : Computed D) : Option (List TopkLayerData) :=
  (List.range D.ubatches.length).foldlM (fun data k => extractUbatch D.totalExperts D.nTokens data (D.result c k)) []

/-- The log tensor has ids only. -/
def LogValid (k : Nat) (s : MoeLayer) (rows : Nat) : Prop :=
  ∀ r < rows, ∀ e < s.logK, 0 ≤ D.logIds k s.layer r e ∧ D.logIds k s.layer r e < max 1 D.totalExperts

instance (k : Nat) (s : MoeLayer) (rows : Nat) : Decidable (D.LogValid k s rows) :=
  inferInstanceAs (Decidable (∀ r < rows, ∀ e < s.logK, _ ∧ _))

/-- The ids of a row: the log tensor has them, unless the device left something else there. -/
def idAt (c : Computed D) (k : Nat) (s : MoeLayer) (rows r e : Nat) : Int :=
  if 0 < s.logK ∧ D.LogValid k s rows then D.logIds k s.layer r e else c.sorted k s.layer r e

def weightAt (c : Computed D) (k : Nat) (s : MoeLayer) (r e : Nat) : Rat :=
  if 0 < s.logK then c.weightsLog k s.layer s.keptKind r e else c.weights k s.layer s.keptKind r e

/-- Whatever the layers compute, no access is outside a vector, and the entries of each reported layer are those of the
token's own row. -/
def Sound : Prop :=
  ∀ c : Computed D, ∃ data, D.run c = some data ∧ ∀ t < D.nTokens, ∀ maxLayers, ∃ out,
    getLastMoeTopk data D.nTokens t maxLayers = some out ∧ ∀ x ∈ out, ∃ s ∈ D.layers, s.layer = x.1 ∧
      ∃ k u r, D.ubatches[k]? = some u ∧ (D.rows u s)[r]? = some t ∧
      x.2 = (List.range (min s.width moeTopkMax)).map fun e => (D.idAt c k s (D.rows u s).length r e, D.weightAt c k s r e)

/-- Every token has a row in every layer; where the ids are read through a view, it has no gaps or there is one row; and
where the ids of a log tensor are replaced by the selected experts, there are as many of them, or there is one row and
there are enough. -/
structure Readable : Prop where
  outputs : ∀ s ∈ D.layers, s.afterOutputs = true → ∀ t < D.nTokens, D.output t = true
  view : ∀ s ∈ D.layers, s.moeTopkLogK < 0 → s.nExpertUsed = s.nExpert ∨ ∀ u ∈ D.ubatches, u.length ≤ 1
  fallback : ∀ k u, D.ubatches[k]? = some u → ∀ s ∈ D.layers, 0 < s.logK → ¬ D.LogValid k s u.length →
    s.logK = s.nExpertUsed ∨ s.logK < s.nExpertUsed ∧ u.length ≤ 1

end Decode

end Spec

/-! ## The copy -/

section Copy

theorem Buffer.get?_eq {α : Type} {b : Buffer α} {i : Nat} {x : α} : b.get? i = some x ↔ i < b.size ∧ b.val i = x := by
  rw [Buffer.get?]
  split_ifs with h
  · rw [Option.some.injEq, and_iff_right h]
  · exact iff_of_false (by simp) fun hc => h hc.1

theorem Buffer.set?_eq {α : Type} {b c : Buffer α} {i : Nat} {x : α} :
    b.set? i x = some c ↔ i < b.size ∧ c = ⟨b.size, Function.update b.val i x⟩ := by
  rw [Buffer.set?]
  split_ifs with h
  · rw [Option.some.injEq, and_iff_right h, eq_comm]
  · exact iff_of_false (by simp) fun hc => h hc.1

theorem packed_val {α : Type} {w : Nat} {f : Nat → Nat → α} (rows r : Nat) {e : Nat} (he : e < w) :
    (packed w rows f).val (e + w * r) = f r e := by
  show f ((e + w * r) / w) ((e + w * r) % w) = f r e
  rw [Nat.add_mul_div_left _ _ (by omega), Nat.div_eq_of_lt he, Nat.add_mul_mod_self_left, Nat.mod_eq_of_lt he, Nat.zero_add]

theorem viewed_val {α : Type} {stride : Nat} {f : Nat → Nat → α} (w rows r : Nat) {e : Nat} (he : e < stride) :
    (viewed w stride rows f).val (e + stride * r) = f r e := packed_val rows r he

theorem le_viewed_size {α : Type} {w stride : Nat} (rows : Nat) (f : Nat → Nat → α) (h : w ≤ stride) :
    w * rows ≤ (viewed w stride rows f).size := by
  rw [viewed]
  dsimp only
  split_ifs with h0
  · rw [h0, Nat.mul_zero]
  · have hle := Nat.mul_le_mul_left (rows - 1) h
    calc w * rows = (rows - 1) * w + w := by
          rw [← Nat.succ_mul, Nat.succ_eq_add_one, Nat.sub_add_cancel (by omega), Nat.mul_comm]
      _ ≤ (rows - 1) * stride + w := by omega

/-- `d'` is `d` with the first `n` entries of row `b` taken from row `i`. -/
structure RowCopied (ids : Buffer Int) (weights : Buffer Rat) (w i b n : Nat) (d d' : TopkLayerData) : Prop where
  layer : d'.layer = d.layer
  nExpert : d'.nExpert = d.nExpert
  idsSize : d'.expertIds.size = d.expertIds.size
  scoresSize : d'.scores.size = d.scores.size
  new : ∀ e < n, d'.expertIds.val (e + w * b) = ids.val (e + w * i) ∧ d'.scores.val (e + w * b) = weights.val (e + w * i)
  old : ∀ p, (∀ e < n, p ≠ e + w * b) → d'.expertIds.val p = d.expertIds.val p ∧ d'.scores.val p = d.scores.val p

variable {ids : Buffer Int} {weights : Buffer Rat} {w nTokensAll : Nat} {d d' : TopkLayerData} {i b n : Nat}

theorem RowCopied.refl (ids : Buffer Int) (weights : Buffer Rat) (w i b : Nat) (d : TopkLayerData) :
    RowCopied ids weights w i b 0 d d :=
  ⟨rfl, rfl, rfl, rfl, fun e he => absurd he (Nat.not_lt_zero e), fun _ _ => ⟨rfl, rfl⟩⟩

theorem copyEntry_spec (h : RowCopied ids weights w i b n d d') {x : TopkLayerData} :
    copyEntry ids weights w i b d' n = some x ↔
      (n + w * i < ids.size ∧ n + w * i < weights.size ∧ n + w * b < d.expertIds.size ∧ n + w * b < d.scores.size) ∧
        x = { d' with
          expertIds := ⟨d'.expertIds.size, Function.update d'.expertIds.val (n + w * b) (ids.val (n + w * i))⟩
          scores := ⟨d'.scores.size, Function.update d'.scores.val (n + w * b) (weights.val (n + w * i))⟩ } := by
  simp only [copyEntry, Option.bind_eq_bind, Option.bind_eq_some_iff, Buffer.get?_eq, Buffer.set?_eq, h.idsSize, h.scoresSize]
  constructor
  · rintro ⟨_, ⟨h1, rfl⟩, _, ⟨h2, rfl⟩, _, ⟨h3, rfl⟩, _, ⟨h4, rfl⟩, hx⟩
    exact ⟨⟨h1, h2, h3, h4⟩, (Option.some.inj hx).symm⟩
  · rintro ⟨⟨h1, h2, h3, h4⟩, rfl⟩
    exact ⟨_, ⟨h1, rfl⟩, _, ⟨h2, rfl⟩, _, ⟨h3, rfl⟩, _, ⟨h4, rfl⟩, rfl⟩

theorem RowCopied.entry (h : RowCopied ids weights w i b n d d') : RowCopied ids weights w i b (n + 1) d
    { d' with
      expertIds := ⟨d'.expertIds.size, Function.update d'.expertIds.val (n + w * b) (ids.val (n + w * i))⟩
      scores := ⟨d'.scores.size, Function.update d'.scores.val (n + w * b) (weights.val (n + w * i))⟩ } where
  layer := h.layer
  nExpert := h.nExpert
  idsSize := h.idsSize
  scoresSize := h.scoresSize
  new e he := by
    dsimp only
    rcases Nat.lt_succ_iff_lt_or_eq.mp he with he | rfl
    · rw [Function.update_of_ne (by omega), Function.update_of_ne (by omega)]
      exact h.new e he
    · rw [Function.update_self, Function.update_self]
      exact ⟨rfl, rfl⟩
  old p hp := by
    dsimp only
    rw [Function.update_of_ne (hp n (Nat.lt_succ_self n)), Function.update_of_ne (hp n (Nat.lt_succ_self n))]
    exact h.old p fun e he => hp e (Nat.lt_succ_of_lt he)

theorem copyRow_eq {idx : List Nat} (hb : idx[i]? = some b) (hn : b < nTokensAll) :
    copyRow ids weights w nTokensAll idx d i = (List.range w).foldlM (copyEntry ids weights w i b) d := by
  rw [copyRow, hb]
  exact if_neg (by omega)

/-- Where a row of the batch begins and ends. -/
theorem row_le {b n : Nat} (w : Nat) (hb : b < n) : w * b + w ≤ w * n :=
  calc w * b + w = w * (b + 1) := (Nat.mul_succ w b).symm
    _ ≤ w * n := Nat.mul_le_mul_left w hb

theorem copyRow_isSome {idx : List Nat} (hb : idx[i]? = some b) (hn : b < nTokensAll) (hd : d.expertIds.size = w * nTokensAll)
    (hs : d.scores.size = w * nTokensAll) (hw : w * i + w ≤ weights.size) (hi : w * i + w ≤ ids.size) :
    ∃ d', copyRow ids weights w nTokensAll idx d i = some d' ∧ RowCopied ids weights w i b w d d' := by
  rw [copyRow_eq hb hn]
  refine foldlM_range_rule (P := fun m x => RowCopied ids weights w i b m d x) (RowCopied.refl ids weights w i b d) w ?_
  intro e he x hx
  have hrow := row_le w hn
  exact ⟨_, (copyEntry_spec hx).mpr ⟨⟨by omega, by omega, by omega, by omega⟩, rfl⟩, hx.entry⟩

theorem copyRow_some {idx : List Nat} (hb : idx[i]? = some b) (hn : b < nTokensAll) (hw : 0 < w)
    (h : copyRow ids weights w nTokensAll idx d i = some d') : RowCopied ids weights w i b w d d' ∧ w * i + w ≤ ids.size := by
  rw [copyRow_eq hb hn] at h
  have hrun := foldlM_range_some (P := fun m x => RowCopied ids weights w i b m d x ∧ (m = 0 ∨ m + w * i ≤ ids.size))
    ⟨RowCopied.refl ids weights w i b d, .inl rfl⟩ w (r := d') ?_ h
  · exact ⟨hrun.1, by omega⟩
  · rintro e - x y ⟨hx, -⟩ hy
    obtain ⟨⟨hi, -⟩, rfl⟩ := (copyEntry_spec hx).mp hy
    exact ⟨hx.entry, .inr (by omega)⟩

/-- `d'` is `d` with the rows of `us` taken from the first rows. -/
structure RowsCopied (ids : Buffer Int) (weights : Buffer Rat) (w : Nat) (us : List Nat) (d d' : TopkLayerData) : Prop where
  layer : d'.layer = d.layer
  nExpert : d'.nExpert = d.nExpert
  idsSize : d'.expertIds.size = d.expertIds.size
  scoresSize : d'.scores.size = d.scores.size
  new : ∀ r t, us[r]? = some t → ∀ e < w,
    d'.expertIds.val (e + w * t) = ids.val (e + w * r) ∧ d'.scores.val (e + w * t) = weights.val (e + w * r)
  old : ∀ t ∉ us, ∀ e < w, d'.expertIds.val (e + w * t) = d.expertIds.val (e + w * t) ∧
    d'.scores.val (e + w * t) = d.scores.val (e + w * t)

theorem RowsCopied.refl (ids : Buffer Int) (weights : Buffer Rat) (w : Nat) (d : TopkLayerData) :
    RowsCopied ids weights w [] d d :=
  ⟨rfl, rfl, rfl, rfl, fun r t h => absurd h (by simp), fun _ _ _ _ => ⟨rfl, rfl⟩⟩

/-- Entries of different rows. -/
theorem entry_ne {e e' t b : Nat} (he : e < w) (he' : e' < w) (h : t ≠ b) : e + w * t ≠ e' + w * b := by
  intro heq
  refine h ?_
  calc t = (e + w * t) / w := by rw [Nat.add_mul_div_left _ _ (by omega), Nat.div_eq_of_lt he, Nat.zero_add]
    _ = (e' + w * b) / w := by rw [heq]
    _ = b := by rw [Nat.add_mul_div_left _ _ (by omega), Nat.div_eq_of_lt he', Nat.zero_add]

theorem RowsCopied.row {us : List Nat} {x y : TopkLayerData} (h : RowsCopied ids weights w us d x)
    (hrow : RowCopied ids weights w us.length b w x y) (hb : b ∉ us) : RowsCopied ids weights w (us ++ [b]) d y where
  layer := hrow.layer.trans h.layer
  nExpert := hrow.nExpert.trans h.nExpert
  idsSize := hrow.idsSize.trans h.idsSize
  scoresSize := hrow.scoresSize.trans h.scoresSize
  new r t ht e he := by
    rcases Nat.lt_or_ge r us.length with hr | hr
    · rw [List.getElem?_append_left hr] at ht
      have hne : t ≠ b := fun h => hb (h ▸ List.mem_of_getElem? ht)
      have hold := hrow.old (e + w * t) fun e' he' => entry_ne he he' hne
      rw [hold.1, hold.2]
      exact h.new r t ht e he
    · rw [List.getElem?_append_right hr, List.getElem?_singleton] at ht
      obtain ⟨hr', hb'⟩ := Option.ite_none_right_eq_some.mp ht
      obtain rfl := Option.some.inj hb'
      obtain rfl : r = us.length := by omega
      exact hrow.new e he
  old t ht e he := by
    rw [List.mem_append, List.mem_singleton, not_or] at ht
    have hold := hrow.old (e + w * t) fun e' he' => entry_ne he he' ht.2
    rw [hold.1, hold.2]
    exact h.old t ht.1 e he

variable {us : List Nat}

/-- The first rows with the next one. -/
theorem take_row {r : Nat} (hr : r < us.length) : us[r]? = some us[r] ∧ us.take (r + 1) = us.take r ++ [us[r]] ∧
    (us.take r).length = r :=
  ⟨List.getElem?_eq_getElem hr, List.take_succ_eq_append_getElem hr, by rw [List.length_take]; omega⟩

theorem getElem_notMem_take (hu : us.Nodup) {r : Nat} (hr : r < us.length) : us[r] ∉ us.take r := by
  have hnd := hu.sublist (List.take_sublist (r + 1) us)
  rw [(take_row hr).2.1, List.nodup_append] at hnd
  exact fun h => hnd.2.2 _ h _ (List.mem_singleton_self _) rfl

/-- **The rows of a layer**: each is copied if the ids are there. -/
theorem copyRows_isSome {R : Nat} (hu : us.Nodup) (hlt : ∀ t ∈ us, t < nTokensAll) (hR : R ≤ us.length)
    (hd : d.expertIds.size = w * nTokensAll) (hs : d.scores.size = w * nTokensAll) (hw : w * R ≤ weights.size)
    (hi : w * R ≤ ids.size) :
    ∃ d', (List.range R).foldlM (copyRow ids weights w nTokensAll us) d = some d' ∧
      RowsCopied ids weights w (us.take R) d d' := by
  refine foldlM_range_rule (P := fun m x => RowsCopied ids weights w (us.take m) d x) (RowsCopied.refl ids weights w d) R ?_
  intro r hr x hx
  have hlt' : r < us.length := by omega
  obtain ⟨hb, htake, hlen⟩ := take_row hlt'
  have hrow := row_le w hr
  obtain ⟨y, hy, hcopied⟩ : ∃ y, copyRow ids weights w nTokensAll us x r = some y ∧ RowCopied ids weights w r us[r] w x y :=
    copyRow_isSome hb (hlt _ (List.getElem_mem _)) (hx.idsSize.trans hd) (hx.scoresSize.trans hs) (by omega) (by omega)
  refine ⟨y, hy, ?_⟩
  rw [htake]
  exact hx.row (by rwa [hlen]) (getElem_notMem_take hu _)

/-- If the rows were copied, the ids were there. -/
theorem copyRows_some {R : Nat} (hu : us.Nodup) (hlt : ∀ t ∈ us, t < nTokensAll) (hR : R ≤ us.length) (hw : 0 < w)
    (h : (List.range R).foldlM (copyRow ids weights w nTokensAll us) d = some d') :
    RowsCopied ids weights w (us.take R) d d' ∧ (R = 0 ∨ w * R ≤ ids.size) := by
  refine foldlM_range_some (P := fun m x => RowsCopied ids weights w (us.take m) d x ∧ (m = 0 ∨ w * m ≤ ids.size))
    ⟨RowsCopied.refl ids weights w d, .inl rfl⟩ R ?_ h
  rintro r hr x y ⟨hx, -⟩ hy
  have hlt' : r < us.length := by omega
  obtain ⟨hb, htake, hlen⟩ := take_row hlt'
  obtain ⟨hcopied, hsize⟩ := copyRow_some hb (hlt _ (List.getElem_mem _)) hw hy
  rw [htake]
  exact ⟨hx.row (by rwa [hlen]) (getElem_notMem_take hu _), .inr (by rwa [Nat.mul_succ])⟩

end Copy

/-! ## The tensors that are read -/

section Tensors

namespace MoeLayer
variable (s : MoeLayer)

theorem logK_pos : 0 < s.logK ↔ 0 < s.moeTopkLogK := by
  have hu := s.used_pos
  have hle := s.used_le
  rw [logK]
  split_ifs with h
  · exact iff_of_true (by omega) h
  · exact iff_of_false (Nat.lt_irrefl 0) h

theorem width_pos : 0 < s.width := by
  rw [width]
  split_ifs with h
  · exact h
  · exact s.used_pos

/-- The weights have the rows and columns of the ids, whichever node stays. -/
theorem weightTensor_spec (width rows : Nat) (f : WeightKind → Nat → Nat → Rat) :
    ∃ t, s.weightTensor width rows f = some t ∧ weightShape width t = (width, rows) ∧
      t.mem = packed width rows (f s.keptKind) := by
  have hflat : ∀ k, weightShape width ⟨1, width, rows, packed width rows (f k)⟩ = (width, rows) := fun k => if_pos ⟨rfl, rfl⟩
  have hnorm : ∀ k, weightShape width ⟨width, rows, 1, packed width rows (f k)⟩ = (width, rows) := by
    intro k
    by_cases h : width = 1 ∧ rows = width
    · obtain ⟨rfl, rfl⟩ := h
      rfl
    · exact (if_neg h).trans (if_pos rfl)
  rcases hsoft : s.softmaxWeight <;> rcases hn : s.normW <;> rcases hsc : s.scaleW <;>
    simp [weightTensor, weightNodes, addMoeWeightLayer, keptKind, WeightKind.rank, hsoft, hn, hsc, hflat, hnorm]

end MoeLayer

theorem packed_forall {α : Type} {w rows : Nat} {f : Nat → Nat → α} {P : α → Prop} :
    (∀ i < w * rows, P ((packed w rows f).val i)) ↔ ∀ r < rows, ∀ e < w, P (f r e) := by
  constructor
  · intro h r hr e he
    have hlt := row_le w hr
    rw [← packed_val (f := f) rows r he]
    exact h _ (by omega)
  · intro h i hi
    have hw : 0 < w := Nat.pos_of_ne_zero fun h0 => by simp [h0] at hi
    exact h _ (Nat.div_lt_of_lt_mul hi) _ (Nat.mod_lt i hw)

namespace Decode
variable {D : Decode} (c : Computed D) (k : Nat) (u : List Nat) (s : MoeLayer)

/-- The memory that the ids of a layer are copied from. -/
def idsRead : Buffer Int :=
  if 0 < s.logK then
    if D.LogValid k s (D.rows u s).length then packed s.logK (D.rows u s).length (D.logIds k s.layer)
    else packed s.nExpertUsed (D.rows u s).length (c.sorted k s.layer)
  else if 0 ≤ s.moeTopkLogK then packed s.nExpertUsed (D.rows u s).length (c.sorted k s.layer)
  else viewed s.nExpertUsed s.nExpert (D.rows u s).length (c.sorted k s.layer)

/-- What the copy reads of a layer. -/
structure Source (t : Tensor Int) (w : Tensor Rat) : Prop where
  source : (D.tensors c k u s).source = some (t, w)
  ne0 : t.ne0 = s.width
  ne1 : t.ne1 = (D.rows u s).length
  shape : weightShape s.width w = (s.width, (D.rows u s).length)
  mem : w.mem = packed s.width (D.rows u s).length (D.weightAt c k s)
  size : 0 < (D.rows u s).length → s.width * (D.rows u s).length ≤ t.mem.size
  ids : readIds D.totalExperts (D.tensors c k u s) t (s.width * (D.rows u s).length) = idsRead c k u s

/-- The loop over the ids finds out if the log tensor is valid. -/
theorem logValid_iff (k : Nat) (s : MoeLayer) (rows : Nat) : D.LogValid k s rows ↔
    ¬ ∃ i < s.logK * rows, (packed s.logK rows (D.logIds k s.layer)).val i < 0 ∨
      max 1 D.totalExperts ≤ (packed s.logK rows (D.logIds k s.layer)).val i := by
  rw [LogValid, ← packed_forall (P := fun id : Int => 0 ≤ id ∧ id < max 1 D.totalExperts)]
  push Not
  rfl

theorem source_log (h : 0 < s.logK) : ∃ t w, Source c k u s t w := by
  obtain ⟨w, hw, hshape, hmem⟩ := s.weightTensor_spec s.logK (D.rows u s).length (c.weightsLog k s.layer)
  have hwidth : s.width = s.logK := if_pos h
  have hcap : (D.tensors c k u s).topkLog = some
    ⟨s.logK, (D.rows u s).length, 1, packed s.logK (D.rows u s).length (D.logIds k s.layer)⟩ :=
    if_pos h
  have hlog : (D.tensors c k u s).weightLog = some w := (if_pos h).trans hw
  refine ⟨⟨s.logK, (D.rows u s).length, 1, packed s.logK (D.rows u s).length (D.logIds k s.layer)⟩, w, ?_, hwidth.symm,
    rfl, ?_, ?_, ?_, ?_⟩
  · rw [MoeTensors.source, hcap, hlog]
  · rw [hwidth, hshape]
  · rw [hwidth, hmem]
    exact congrArg _ (funext₂ fun r e => (if_pos h).symm)
  · exact fun _ => le_of_eq (congrArg (· * _) hwidth)
  · have hprimary : (D.tensors c k u s).topk =
        some ⟨s.nExpertUsed, (D.rows u s).length, 1, packed s.nExpertUsed (D.rows u s).length (c.sorted k s.layer)⟩ := by
      have hpos := s.logK_pos.mp h
      exact congrArg (fun m => some (Tensor.mk s.nExpertUsed (D.rows u s).length 1 m)) (if_pos (by omega))
    have hvalid := D.logValid_iff k s (D.rows u s).length
    rw [readIds, idsRead, if_pos h, hcap, hlog, hprimary, hwidth]
    by_cases hv : D.LogValid k s (D.rows u s).length
    · rw [if_pos hv, if_neg]
      exact fun hc => hvalid.mp hv hc.2
    · rw [if_neg hv, if_pos]
      exact ⟨rfl, not_not.mp fun hc => hv (hvalid.mpr hc)⟩

theorem source_primary (h : ¬ 0 < s.logK) : ∃ t w, Source c k u s t w := by
  obtain ⟨w, hw, hshape, hmem⟩ := s.weightTensor_spec s.nExpertUsed (D.rows u s).length (c.weights k s.layer)
  have hwidth : s.width = s.nExpertUsed := if_neg h
  have hcap : (D.tensors c k u s).topkLog = none := if_neg h
  have hids : idsRead c k u s = if 0 ≤ s.moeTopkLogK then packed s.nExpertUsed (D.rows u s).length (c.sorted k s.layer)
      else viewed s.nExpertUsed s.nExpert (D.rows u s).length (c.sorted k s.layer) := if_neg h
  refine ⟨⟨s.nExpertUsed, (D.rows u s).length, 1, idsRead c k u s⟩, w, ?_, hwidth.symm, rfl, ?_, ?_, ?_, ?_⟩
  · have hweight : (D.tensors c k u s).weight = some w := hw
    rw [MoeTensors.source, hcap, hweight, hids]
    rfl
  · rw [hwidth, hshape]
  · rw [hwidth, hmem]
    exact congrArg _ (funext₂ fun r e => (if_neg h).symm)
  · intro _
    rw [hwidth]
    show _ ≤ (idsRead c k u s).size
    rw [hids]
    split_ifs
    · exact le_refl _
    · exact le_viewed_size _ _ s.used_le
  · rw [readIds, hcap]
    exact if_neg fun hc => by simpa using hc.1

theorem source_spec : ∃ t w, Source c k u s t w := by
  by_cases h : 0 < s.logK
  · exact source_log c k u s h
  · exact source_primary c k u s h

end Decode

end Tensors

/-! ## The run -/

section Run

namespace Decode
variable {D : Decode} {c : Computed D} {k : Nat} {s : MoeLayer} {d d' : TopkLayerData}

/-- The tokens of a ubatch. -/
def ubatch (D : Decode) (k : Nat) : List Nat := D.ubatches.getD k []

theorem ubatch_eq (hk : k < D.ubatches.length) : D.ubatches[k]? = some (D.ubatch k) := by
  rw [ubatch, List.getD_eq_getElem?_getD, List.getElem?_eq_getElem hk]
  rfl

theorem ubatch_getElem (hk : k < D.ubatches.length) : D.ubatch k = D.ubatches[k] :=
  Option.some.inj ((ubatch_eq hk).symm.trans (List.getElem?_eq_getElem hk))

theorem ubatch_mem (hk : k < D.ubatches.length) : D.ubatch k ∈ D.ubatches := List.mem_of_getElem? (ubatch_eq hk)

theorem mem_ubatches {t : Nat} : (∃ k < D.ubatches.length, t ∈ D.ubatch k) ↔ t < D.nTokens := by
  rw [← List.mem_range, ← D.split.mem_iff, List.mem_flatten]
  constructor
  · rintro ⟨k, hk, ht⟩
    exact ⟨_, ubatch_mem hk, ht⟩
  · rintro ⟨u, hu, ht⟩
    obtain ⟨k, hk, rfl⟩ := List.mem_iff_getElem.mp hu
    refine ⟨k, hk, ?_⟩
    rwa [ubatch_getElem hk]

theorem ubatch_nodup (hk : k < D.ubatches.length) : (D.ubatch k).Nodup :=
  (List.nodup_flatten.mp (D.split.nodup_iff.mpr List.nodup_range)).1 _ (ubatch_mem hk)

/-- No token is in two ubatches. -/
theorem ubatch_unique {k' t : Nat} (hk : k < D.ubatches.length) (hk' : k' < D.ubatches.length) (ht : t ∈ D.ubatch k)
    (ht' : t ∈ D.ubatch k') : k = k' := by
  have hdis := List.pairwise_iff_getElem.mp (List.nodup_flatten.mp (D.split.nodup_iff.mpr List.nodup_range)).2
  rw [ubatch_getElem hk] at ht
  rw [ubatch_getElem hk'] at ht'
  rcases Nat.lt_trichotomy k k' with h | h | h
  · exact absurd ht' (hdis k k' hk hk' h ht)
  · exact h
  · exact absurd ht (hdis k' k hk' hk h ht')

theorem rows_length_le (u : List Nat) (s : MoeLayer) : (D.rows u s).length ≤ u.length := by
  rw [rows]
  split_ifs
  · exact List.length_filter_le _ _
  · exact le_refl _

/-- The ids of a layer are there. -/
def Fits (c : Computed D) (k : Nat) (s : MoeLayer) : Prop :=
  (D.rows (D.ubatch k) s).length = 0 ∨ s.width * (D.rows (D.ubatch k) s).length ≤ (idsRead c k (D.ubatch k) s).size

/-- The data of a layer behind `n` ubatches: the first tokens of each have the rows. -/
structure Held (c : Computed D) (n : Nat) (s : MoeLayer) (d : TopkLayerData) : Prop where
  layer : d.layer = s.layer
  nExpert : d.nExpert = s.width
  idsSize : d.expertIds.size = s.width * D.nTokens
  scoresSize : d.scores.size = s.width * D.nTokens
  fits : ∀ k < n, Fits c k s
  entry : ∀ k < n, ∀ r t, ((D.ubatch k).take (D.rows (D.ubatch k) s).length)[r]? = some t → ∀ e < s.width,
    d.expertIds.val (e + s.width * t) = (idsRead c k (D.ubatch k) s).val (e + s.width * r) ∧
      d.scores.val (e + s.width * t) = D.weightAt c k s r e

/-- The data of a layer that was registered. -/
def fresh (D : Decode) (s : MoeLayer) : TopkLayerData :=
  ⟨s.layer, s.width, ⟨s.width * D.nTokens, fun _ => 0⟩, ⟨s.width * D.nTokens, fun _ => 0⟩⟩

theorem Held.fresh (c : Computed D) (s : MoeLayer) : Held c 0 s (D.fresh s) :=
  ⟨rfl, rfl, rfl, rfl, fun k hk => absurd hk (Nat.not_lt_zero k), fun k hk => absurd hk (Nat.not_lt_zero k)⟩

theorem find_layer (hs : s ∈ D.layers) :
    ((D.result c k).moeLayers.find? fun l => l.1 == s.layer).map Prod.snd = some (D.tensors c k (D.ubatch k) s) := by
  have hsome : (D.layers.find? fun l => l.layer == s.layer) = some s := by
    have hfound : (D.layers.find? fun l => l.layer == s.layer).isSome :=
      List.find?_isSome.mpr ⟨s, hs, beq_self_eq_true s.layer⟩
    obtain ⟨s', hs'⟩ := Option.isSome_iff_exists.mp hfound
    have hname : s'.layer = s.layer := by simpa using List.find?_some hs'
    rw [hs', List.inj_on_of_nodup_map D.nodup (List.mem_of_find?_eq_some hs') hs hname]
  rw [result, List.find?_map]
  show ((D.layers.find? fun l => l.layer == s.layer).map _).map _ = _
  rw [hsome]
  rfl

/-- The second loop copies the rows. -/
theorem extractLayer_eq (hs : s ∈ D.layers) (hd : Held c k s d) :
    extractLayer D.totalExperts D.nTokens (D.result c k) d = (List.range (D.rows (D.ubatch k) s).length).foldlM
      (copyRow (idsRead c k (D.ubatch k) s) (packed s.width (D.rows (D.ubatch k) s).length
        (D.weightAt c k s)) s.width D.nTokens
        (D.ubatch k)) d := by
  obtain ⟨t, w, h⟩ := source_spec c k (D.ubatch k) s
  rw [extractLayer, hd.layer, find_layer hs]
  dsimp only
  rw [h.source]
  dsimp only
  rw [h.ne0, h.ne1, h.ids, h.mem, h.shape, hd.nExpert]
  by_cases hR : (D.rows (D.ubatch k) s).length = 0
  · rw [if_pos hR, hR]
    rfl
  · have hsize := h.size (by omega)
    have hw : (packed s.width (D.rows (D.ubatch k) s).length (D.weightAt c k s)).size = s.width *
      (D.rows (D.ubatch k) s).length := rfl
    rw [if_neg hR, if_neg (not_not.mpr rfl), if_neg (not_not.mpr rfl), if_neg (by omega)]
    rfl

theorem Held.next (hk : k < D.ubatches.length) (hd : Held c k s d) (hfits : Fits c k s)
    (h : RowsCopied (idsRead c k (D.ubatch k) s) (packed s.width (D.rows (D.ubatch k) s).length (D.weightAt c k s)) s.width
      ((D.ubatch k).take (D.rows (D.ubatch k) s).length) d d') : Held c (k + 1) s d' where
  layer := h.layer.trans hd.layer
  nExpert := h.nExpert.trans hd.nExpert
  idsSize := h.idsSize.trans hd.idsSize
  scoresSize := h.scoresSize.trans hd.scoresSize
  fits j hj := by
    rcases Nat.lt_succ_iff_lt_or_eq.mp hj with hj | rfl
    · exact hd.fits j hj
    · exact hfits
  entry j hj r t ht e he := by
    rcases Nat.lt_succ_iff_lt_or_eq.mp hj with hj | rfl
    · -- the row is another token's, so it stays
      have hother : t ∉ (D.ubatch k).take (D.rows (D.ubatch k) s).length := fun hmem =>
        absurd (ubatch_unique (by omega) hk (List.mem_of_mem_take (List.mem_of_getElem? ht)) (List.mem_of_mem_take hmem))
          (by omega)
      have hold := h.old t hother e he
      rw [hold.1, hold.2]
      exact hd.entry j hj r t ht e he
    · have hnew := h.new r t ht e he
      rwa [packed_val _ _ he] at hnew

theorem ubatch_lt (hk : k < D.ubatches.length) : ∀ t ∈ D.ubatch k, t < D.nTokens := fun _ ht => mem_ubatches.mp ⟨k, hk, ht⟩

/-- **A turn of the second loop** copies the rows if the ids are there. -/
theorem extractLayer_isSome (hk : k < D.ubatches.length) (hs : s ∈ D.layers) (hd : Held c k s d) (hfits : Fits c k s) :
    ∃ d', extractLayer D.totalExperts D.nTokens (D.result c k) d = some d' ∧ Held c (k + 1) s d' := by
  rw [extractLayer_eq hs hd]
  have hsize : s.width * (D.rows (D.ubatch k) s).length ≤ (idsRead c k (D.ubatch k) s).size := by
    rcases hfits with h | h
    · rw [h, Nat.mul_zero]
      exact Nat.zero_le _
    · exact h
  obtain ⟨d', hd', hcopied⟩ := copyRows_isSome (ubatch_nodup hk) (ubatch_lt hk) (rows_length_le _ _) hd.idsSize hd.scoresSize
    (le_refl (packed s.width (D.rows (D.ubatch k) s).length (D.weightAt c k s)).size) hsize
  exact ⟨d', hd', hd.next hk hfits hcopied⟩

/-- If the turn did not fail, the ids were there. -/
theorem extractLayer_some (hk : k < D.ubatches.length) (hs : s ∈ D.layers) (hd : Held c k s d)
    (h : extractLayer D.totalExperts D.nTokens (D.result c k) d = some d') : Held c (k + 1) s d' := by
  rw [extractLayer_eq hs hd] at h
  obtain ⟨hcopied, hfits⟩ := copyRows_some (ubatch_nodup hk) (ubatch_lt hk) (rows_length_le _ _) s.width_pos h
  exact hd.next hk hfits hcopied

/-- The data behind `n` ubatches. -/
def AllHeld (c : Computed D) (n : Nat) (data : List TopkLayerData) : Prop :=
  (n = 0 ∧ data = []) ∨ List.Forall₂ (Held c n) D.layers data

theorem register_fresh (u : List Nat) {data : List TopkLayerData} (hnew : ∀ d ∈ data, d.layer ≠ s.layer) :
    register D.nTokens data (s.layer, D.tensors c k u s) = data ++ [D.fresh s] := by
  obtain ⟨t, w, h⟩ := source_spec c k u s
  have hany : ¬ (data.any fun d => d.layer == s.layer) = true := by
    intro hc
    obtain ⟨d, hd, hname⟩ := List.any_eq_true.mp hc
    exact hnew d hd (beq_iff_eq.mp hname)
  have hpos := s.width_pos
  rw [register, if_neg hany, h.source]
  dsimp only
  rw [if_neg (by rw [h.ne0]; omega), h.ne0]
  rfl

theorem register_held (u : List Nat) {data : List TopkLayerData} (hold : ∃ d ∈ data, d.layer = s.layer) :
    register D.nTokens data (s.layer, D.tensors c k u s) = data := by
  obtain ⟨d, hd, hname⟩ := hold
  have hany : (data.any fun d => d.layer == s.layer) = true := List.any_eq_true.mpr ⟨d, hd, beq_iff_eq.mpr hname⟩
  exact if_pos hany

theorem registered_fresh (c : Computed D) (k : Nat) (u : List Nat) : ∀ (ls : List MoeLayer) (data : List TopkLayerData),
    (ls.map MoeLayer.layer).Nodup → (∀ d ∈ data, ∀ s ∈ ls, d.layer ≠ s.layer) →
      (ls.map fun s => (s.layer, D.tensors c k u s)).foldl (register D.nTokens) data = data ++ ls.map D.fresh
  | [], data, _, _ => (List.append_nil data).symm
  | s :: ls, data, hnd, hnew => by
    obtain ⟨hs, hnd⟩ := List.nodup_cons.mp hnd
    rw [List.map_cons, List.foldl_cons, register_fresh u fun d hd => hnew d hd s List.mem_cons_self,
      registered_fresh c k u ls _ hnd,
      List.append_assoc, List.map_cons, List.singleton_append]
    intro d hd s' hs'
    rcases List.mem_append.mp hd with hd | hd
    · exact hnew d hd s' (List.mem_cons_of_mem _ hs')
    · obtain rfl := List.mem_singleton.mp hd
      intro heq
      have hname : s.layer = s'.layer := heq
      exact hs (hname ▸ List.mem_map_of_mem hs')

theorem registered_held (c : Computed D) (k : Nat) (u : List Nat) {data : List TopkLayerData} : ∀ ls : List MoeLayer,
    (∀ s ∈ ls, ∃ d ∈ data, d.layer = s.layer) →
      (ls.map fun s => (s.layer, D.tensors c k u s)).foldl (register D.nTokens) data = data
  | [], _ => rfl
  | s :: ls, hold => by
    rw [List.map_cons, List.foldl_cons, register_held u (hold s List.mem_cons_self)]
    exact registered_held c k u ls fun s hs => hold s (List.mem_cons_of_mem _ hs)

/-- The data of a layer. -/
theorem exists_held {α β : Type} {P : α → β → Prop} {ls : List α} {data : List β} (h : List.Forall₂ P ls data) :
    ∀ s ∈ ls, ∃ d ∈ data, P s d := by
  induction h with
  | nil => exact fun s hs => absurd hs List.not_mem_nil
  | @cons s d ls data hP _ ih =>
    intro s' hs'
    rcases List.mem_cons.mp hs' with rfl | hs'
    · exact ⟨d, List.mem_cons_self, hP⟩
    · obtain ⟨d', hd', hP'⟩ := ih s' hs'
      exact ⟨d', List.mem_cons_of_mem _ hd', hP'⟩

/-- The first loop: the layers are registered at the first ubatch. -/
theorem register_spec {data : List TopkLayerData} (h : AllHeld c k data) :
    List.Forall₂ (Held c k) D.layers ((D.result c k).moeLayers.foldl (register D.nTokens) data) := by
  rcases h with ⟨rfl, rfl⟩ | h
  · have hall : (D.result c 0).moeLayers.foldl (register D.nTokens) [] = D.layers.map D.fresh :=
      registered_fresh c 0 _ D.layers [] D.nodup fun d hd => absurd hd List.not_mem_nil
    rw [hall, List.forall₂_map_right_iff, List.forall₂_same]
    exact fun s _ => Held.fresh c s
  · have hall : (D.result c k).moeLayers.foldl (register D.nTokens) data = data := by
      refine registered_held c k _ D.layers fun s hs => ?_
      obtain ⟨d, hd, hheld⟩ := exists_held h s hs
      exact ⟨d, hd, hheld.layer⟩
    rwa [hall]

theorem run_isSome (hfits : ∀ k < D.ubatches.length, ∀ s ∈ D.layers, Fits c k s) :
    ∃ data, D.run c = some data ∧ AllHeld c D.ubatches.length data := by
  refine foldlM_range_rule (P := AllHeld c) (.inl ⟨rfl, rfl⟩) _ ?_
  intro k hk data hdata
  obtain ⟨data', hdata', hheld⟩ := mapM_forall₂ (register_spec hdata) fun s hs d hd =>
    extractLayer_isSome hk hs hd (hfits k hk s hs)
  exact ⟨data', hdata', .inr hheld⟩

theorem run_some {data : List TopkLayerData} (h : D.run c = some data) : AllHeld c D.ubatches.length data := by
  refine foldlM_range_some (P := AllHeld c) (.inl ⟨rfl, rfl⟩) _ ?_ h
  intro k hk data data' hdata hdata'
  exact .inr (forall₂_of_mapM (register_spec hdata) (fun s hs d d' hd hd' => extractLayer_some hk hs hd hd') hdata')

end Decode

end Run

/-! ## The entries that are read -/

section Entries

/-- The entries of a token. -/
def TopkLayerData.entries (d : TopkLayerData) (t : Nat) : List (Int × Rat) :=
  (List.range (min d.nExpert moeTopkMax)).map fun e => (d.expertIds.val (e + d.nExpert * t), d.scores.val (e + d.nExpert * t))

theorem getLastMoeTopk_eq {data : List TopkLayerData} {n t : Nat} (maxLayers : Nat) (ht : t < n)
    (hsize : ∀ d ∈ data, d.expertIds.size = d.nExpert * n ∧ d.scores.size = d.nExpert * n) :
    getLastMoeTopk data n t maxLayers = some ((data.take maxLayers).map fun d => (d.layer, d.entries t)) := by
  by_cases hdata : data = []
  · rw [getLastMoeTopk, if_pos (.inl hdata), hdata, List.take_nil]
    rfl
  · have hread : ¬ (data = [] ∨ (t : Int) < 0 ∨ (n : Int) ≤ t) := by
      rintro (h | h)
      · exact hdata h
      · omega
    rw [getLastMoeTopk, if_neg hread, Int.toNat_natCast]
    refine mapM_eq_map fun d hd => ?_
    obtain ⟨hids, hscores⟩ := hsize d (List.mem_of_mem_take hd)
    have hrow := row_le d.nExpert ht
    rw [mapM_eq_map (g := fun e => (d.expertIds.val (e + d.nExpert * t), d.scores.val (e + d.nExpert * t)))]
    · rfl
    · intro e he
      have he : e < d.nExpert := Nat.lt_of_lt_of_le (List.mem_range.mp he) (Nat.min_le_left _ _)
      rw [Buffer.get?_eq.mpr ⟨by omega, rfl⟩, Buffer.get?_eq.mpr ⟨by omega, rfl⟩]
      rfl

namespace Decode
variable {D : Decode} {c : Computed D} {k : Nat} {s : MoeLayer}

theorem rows_eq (houtputs : ∀ s ∈ D.layers, s.afterOutputs = true → ∀ t < D.nTokens, D.output t = true) (hs : s ∈ D.layers)
    (hk : k < D.ubatches.length) : D.rows (D.ubatch k) s = D.ubatch k := by
  rw [rows]
  split_ifs with h
  · exact List.filter_eq_self.mpr fun t ht => houtputs s hs h t (ubatch_lt hk t ht)
  · rfl

/-- Where the decode is readable, the memory has the ids of each row. -/
theorem Readable.ids (h : D.Readable) (c : Computed D) (hk : k < D.ubatches.length) (hs : s ∈ D.layers) :
    s.width * (D.ubatch k).length ≤ (idsRead c k (D.ubatch k) s).size ∧ ∀ r < (D.ubatch k).length, ∀ e < s.width,
      (idsRead c k (D.ubatch k) s).val (e + s.width * r) = D.idAt c k s (D.ubatch k).length r e := by
  rw [idsRead, rows_eq h.outputs hs hk, MoeLayer.width]
  by_cases hlog : 0 < s.logK
  · rw [if_pos hlog, if_pos hlog]
    by_cases hv : D.LogValid k s (D.ubatch k).length
    · rw [if_pos hv]
      refine ⟨le_refl _, fun r _ e he => ?_⟩
      rw [packed_val _ _ he, idAt, if_pos ⟨hlog, hv⟩]
    · rw [if_neg hv]
      have hid : ∀ r e, D.idAt c k s (D.ubatch k).length r e = c.sorted k s.layer r e := fun r e => if_neg fun hc => hv hc.2
      rcases h.fallback k _ (ubatch_eq hk) s hs hlog hv with heq | ⟨hlt, hone⟩
      · rw [heq]
        exact ⟨le_refl _, fun r _ e he => by rw [packed_val _ _ he, hid]⟩
      · refine ⟨Nat.mul_le_mul_right _ hlt.le, fun r hr e he => ?_⟩
        obtain rfl : r = 0 := by omega
        have hval := packed_val (f := c.sorted k s.layer) (D.ubatch k).length 0 (Nat.lt_trans he hlt)
        rwa [hid]
  · have hid : ∀ r e, D.idAt c k s (D.ubatch k).length r e = c.sorted k s.layer r e := fun r e => if_neg fun hc => hlog hc.1
    rw [if_neg hlog, if_neg hlog]
    by_cases hpos : 0 ≤ s.moeTopkLogK
    · rw [if_pos hpos]
      exact ⟨le_refl _, fun r _ e he => by rw [packed_val _ _ he, hid]⟩
    · rw [if_neg hpos]
      refine ⟨le_viewed_size _ _ s.used_le, fun r hr e he => ?_⟩
      have hval := fun r => viewed_val (f := c.sorted k s.layer) s.nExpertUsed (D.ubatch k).length r
        (Nat.lt_of_lt_of_le he s.used_le)
      rw [hid]
      rcases h.view s hs (by omega) with heq | hone
      · have hv := hval r
        rwa [← heq] at hv ⊢
      · have hlen := hone _ (ubatch_mem hk)
        obtain rfl : r = 0 := by omega
        exact hval 0

theorem AllHeld.held {n : Nat} {data : List TopkLayerData} (h : AllHeld c n data) : ∀ d ∈ data, ∃ s ∈ D.layers,
    Held c n s d := by
  rcases h with ⟨-, rfl⟩ | h
  · exact fun d hd => absurd hd List.not_mem_nil
  · exact exists_held h.flip

theorem AllHeld.read {n t : Nat} {data : List TopkLayerData} (h : AllHeld c n data) (maxLayers : Nat) (ht : t < D.nTokens) :
    getLastMoeTopk data D.nTokens t maxLayers = some ((data.take maxLayers).map fun d => (d.layer, d.entries t)) := by
  refine getLastMoeTopk_eq maxLayers ht fun d hd => ?_
  obtain ⟨s, -, hheld⟩ := h.held d hd
  rw [hheld.nExpert]
  exact ⟨hheld.idsSize, hheld.scoresSize⟩

theorem entries_eq {n t : Nat} {d : TopkLayerData} {f : Nat → Int × Rat} (hd : Held c n s d) :
    d.entries t = (List.range (min s.width moeTopkMax)).map f ↔
      ∀ e < min s.width moeTopkMax, (d.expertIds.val (e + s.width * t), d.scores.val (e + s.width * t)) = f e := by
  rw [TopkLayerData.entries, hd.nExpert, List.map_inj_left]
  exact forall_congr' fun e => imp_congr_left List.mem_range

/-- A readable decode is read back. -/
theorem Readable.sound (h : D.Readable) : D.Sound := by
  intro c
  have hfits : ∀ k < D.ubatches.length, ∀ s ∈ D.layers, Fits c k s := by
    intro k hk s hs
    rw [Fits, rows_eq h.outputs hs hk]
    exact .inr (h.ids c hk hs).1
  obtain ⟨data, hdata, hheld⟩ := run_isSome hfits
  refine ⟨data, hdata, fun t ht maxLayers => ⟨_, hheld.read maxLayers ht, fun x hx => ?_⟩⟩
  obtain ⟨d, hd, rfl⟩ := List.mem_map.mp hx
  obtain ⟨s, hs, hd⟩ := hheld.held d (List.mem_of_mem_take hd)
  obtain ⟨k, hk, hmem⟩ := mem_ubatches.mpr ht
  obtain ⟨r, hr⟩ := List.mem_iff_getElem?.mp hmem
  have hrows := rows_eq h.outputs hs hk
  refine ⟨s, hs, hd.layer.symm, k, D.ubatch k, r, ubatch_eq hk, by rwa [hrows], ?_⟩
  rw [hrows]
  refine (entries_eq hd).mpr fun e he => ?_
  have he : e < s.width := Nat.lt_of_lt_of_le he (Nat.min_le_left _ _)
  have hrow := hd.entry k hk r t (by rwa [hrows, List.take_length]) e he
  obtain ⟨hlt, -⟩ := List.getElem?_eq_some_iff.mp hr
  rw [hrow.1, hrow.2, (h.ids c hk hs).2 r hlt e he]

/-- Experts that are sorted by their ids. -/
def ranked (D : Decode) : Computed D where
  sorted _ _ _ e := e
  perm _ _ _ _ := List.Perm.refl _
  weights _ _ _ _ _ := 0
  weightsLog _ _ _ _ _ := 0

/-- A layer that is reported for a token. -/
theorem Sound.reported (h : D.Sound) : ∃ data, D.run D.ranked = some data ∧ ∀ t < D.nTokens, ∀ s ∈ D.layers,
    ∃ d, Held D.ranked D.ubatches.length s d ∧ ∃ k u r, D.ubatches[k]? = some u ∧ (D.rows u s)[r]? = some t ∧
      d.entries t = (List.range (min s.width moeTopkMax)).map fun e =>
        (D.idAt D.ranked k s (D.rows u s).length r e, D.weightAt D.ranked k s r e) := by
  obtain ⟨data, hdata, hread⟩ := h D.ranked
  have hheld := run_some hdata
  refine ⟨data, hdata, fun t ht s hs => ?_⟩
  obtain ⟨out, hout, hrows⟩ := hread t ht data.length
  rw [hheld.read _ ht, List.take_length] at hout
  obtain rfl := Option.some.inj hout
  obtain ⟨d, hmem, hd⟩ : ∃ d ∈ data, Held D.ranked D.ubatches.length s d := by
    rcases hheld with ⟨hn, -⟩ | hall
    · obtain ⟨k, hk, -⟩ := mem_ubatches.mpr ht
      omega
    · exact exists_held hall s hs
  obtain ⟨s', hs', hname, hrow⟩ := hrows _ (List.mem_map_of_mem hmem)
  obtain rfl := List.inj_on_of_nodup_map D.nodup hs' hs (hname.trans hd.layer)
  exact ⟨d, hd, hrow⟩

theorem Sound.outputs (h : D.Sound) : ∀ s ∈ D.layers, s.afterOutputs = true → ∀ t < D.nTokens, D.output t = true := by
  intro s hs hafter t ht
  obtain ⟨_, -, hreported⟩ := h.reported
  obtain ⟨_, -, k, u, r, -, hr, -⟩ := hreported t ht s hs
  rw [rows, if_pos hafter] at hr
  exact (List.mem_filter.mp (List.mem_of_getElem? hr)).2

/-- The first entry of the second row of a ubatch. -/
theorem Sound.second (h : D.Sound) (hs : s ∈ D.layers) (hk : k < D.ubatches.length) (htwo : 1 < (D.ubatch k).length) :
    ∃ r, (idsRead D.ranked k (D.ubatch k) s).val s.width = D.idAt D.ranked k s (D.ubatch k).length r 0 := by
  obtain ⟨_, -, hreported⟩ := h.reported
  have hrows := rows_eq h.outputs hs hk
  have hmem : (D.ubatch k)[1] ∈ D.ubatch k := List.getElem_mem _
  obtain ⟨d, hd, k', u, r, hu, hr, hentries⟩ := hreported _ (ubatch_lt hk _ hmem) s hs
  obtain ⟨hk', rfl⟩ := List.getElem?_eq_some_iff.mp hu
  rw [← ubatch_getElem hk', rows_eq h.outputs hs hk'] at hr hentries
  obtain rfl := ubatch_unique hk hk' hmem (List.mem_of_getElem? hr)
  refine ⟨r, ?_⟩
  have hpos : 0 < min s.width moeTopkMax := Nat.lt_min.mpr ⟨s.width_pos, by decide⟩
  have hfirst := congrArg Prod.fst ((entries_eq hd).mp hentries 0 hpos)
  have hrow := hd.entry k hk 1 (D.ubatch k)[1] (by rw [hrows, List.take_length, List.getElem?_eq_getElem htwo]) 0 s.width_pos
  rw [hrow.1, Nat.zero_add, Nat.mul_one] at hfirst
  exact hfirst

theorem Sound.view (h : D.Sound) : ∀ s ∈ D.layers, s.moeTopkLogK < 0 → s.nExpertUsed = s.nExpert ∨
    ∀ u ∈ D.ubatches, u.length ≤ 1 := by
  intro s hs hneg
  by_contra hc
  push Not at hc
  obtain ⟨hne, u, hu, htwo⟩ := hc
  obtain ⟨k, hk, rfl⟩ := List.mem_iff_getElem.mp hu
  rw [← ubatch_getElem hk] at htwo
  obtain ⟨r, hr⟩ := h.second hs hk htwo
  have hlog : ¬ 0 < s.logK := fun hl => absurd (s.logK_pos.mp hl) (by omega)
  have hid : D.idAt D.ranked k s (D.ubatch k).length r 0 = 0 := if_neg fun hl => hlog hl.1
  rw [hid, idsRead, if_neg hlog, if_neg (by omega), MoeLayer.width, if_neg hlog] at hr
  -- the second row is read from the columns that the view leaves out
  have hlt : s.nExpertUsed < s.nExpert := Nat.lt_of_le_of_ne s.used_le hne
  have hval := viewed_val (f := D.ranked.sorted k s.layer) s.nExpertUsed (D.rows (D.ubatch k) s).length 0 hlt
  rw [Nat.mul_zero, Nat.add_zero, hr] at hval
  exact absurd (Int.ofNat.inj hval) s.used_pos.ne

theorem Sound.fallback (h : D.Sound) : ∀ k u, D.ubatches[k]? = some u → ∀ s ∈ D.layers, 0 < s.logK →
    ¬ D.LogValid k s u.length →
    s.logK = s.nExpertUsed ∨ s.logK < s.nExpertUsed ∧ u.length ≤ 1 := by
  intro k u hu s hs hlog hv
  obtain ⟨hk, rfl⟩ := List.getElem?_eq_some_iff.mp hu
  rw [← ubatch_getElem hk] at hv ⊢
  have hrows := rows_eq h.outputs hs hk
  have hwidth : s.width = s.logK := if_pos hlog
  have hread : idsRead D.ranked k (D.ubatch k) s = packed s.nExpertUsed (D.ubatch k).length (D.ranked.sorted k s.layer) := by
    rw [idsRead, hrows, if_pos hlog, if_neg hv]
  have hle : s.logK ≤ s.nExpertUsed := by
    obtain ⟨data, hdata, -⟩ := h D.ranked
    have hfits : Fits D.ranked k s := by
      rcases run_some hdata with ⟨hn, -⟩ | hall
      · omega
      · obtain ⟨d, -, hd⟩ := exists_held hall s hs
        exact hd.fits k hk
    have hpos : 0 < (D.ubatch k).length := Nat.pos_of_ne_zero fun h0 => hv fun r hr => by omega
    rw [Fits, hrows, hread, hwidth] at hfits
    rcases hfits with h0 | hfits
    · omega
    · exact Nat.le_of_mul_le_mul_right hfits hpos
  rcases Nat.lt_or_eq_of_le hle with hlt | heq
  · refine .inr ⟨hlt, ?_⟩
    by_contra htwo
    obtain ⟨r, hr⟩ := h.second hs hk (by omega)
    have hid : D.idAt D.ranked k s (D.ubatch k).length r 0 = 0 := if_neg fun hl => hv hl.2
    rw [hid, hread, hwidth] at hr
    -- the second row is read from the end of the first one
    have hval := packed_val (f := D.ranked.sorted k s.layer) (D.ubatch k).length 0 hlt
    rw [Nat.mul_zero, Nat.add_zero, hr] at hval
    exact absurd (Int.ofNat.inj hval) hlog.ne
  · exact .inl heq

/-- Two tokens, the last of which is an output, and a layer behind the selection of the output rows. -/
def lastOutput : Decode where
  nTokens := 2
  output t := t == 1
  ubatches := [[0, 1]]
  split := List.Perm.refl _
  layers := [⟨0, 4, 2, 0, false, false, false, true, Nat.zero_lt_two, by decide⟩]
  nodup := List.nodup_singleton _
  totalExperts := 4
  logIds _ _ _ _ := 0

/-- The second token is reported with expert 0. -/
example : (lastOutput.run lastOutput.ranked).bind (getLastMoeTopk · 2 1 1) = some [(0, [(0, 0), (0, 0)])] := by decide +kernel

end Decode

end Entries

end S2Moe.Router
