import Mathlib.Data.List.Basic
import Mathlib.Data.List.Infix

/-!
# The routing captures of a graph

`llm_graph_result` keeps the routing tensors of its layers in parallel vectors: those of the graph, and those of the log,
which grow on their own.

* `Captures` and its methods; a pointer is an `Option`, and `none` is null;
* `Call`, `tensors`, `weights`, `Highest` : the calls, and what they have added for a layer;
* `Column` : one layer's place in three of the vectors, `Column.Holds` : it stands for what has been added;
* `Held` : the vectors have a place for every layer that was added, each with what belongs to it; `Held.step`;
* `captures_right` : so do the getters say, in every run that adds a new layer to the log only when the log has an entry
for every layer.
-/

namespace S2Moe.Graph

/-- `moe_weight_kind` -/
inductive WeightKind where
  | none | raw | scaled | norm | softmax
deriving DecidableEq

/-- The enumerators in order. -/
def WeightKind.rank : WeightKind → Nat
  | .none => 0
  | .raw => 1
  | .scaled => 2
  | .norm => 3
  | .softmax => 4

/-- The `moe_*` vectors of `llm_graph_result`. -/
structure Captures (α : Type*) where
  layers : List Int
  topk : List (Option α)
  weight : List (Option α)
  kinds : List WeightKind
  topkLog : List (Option α)
  weightLog : List (Option α)
  kindsLog : List WeightKind

/-- `std::vector::resize`. -/
def resize {β : Type*} (xs : List β) (n : Nat) (v : β) : List β := xs.take n ++ .replicate (n - xs.length) v

namespace Captures
variable {α : Type*}

/-- What `reset` leaves. -/
def reset : Captures α := ⟨[], [], [], [], [], [], []⟩

/-- The loops over `moe_layers`. -/
def find (c : Captures α) (layer : Int) : Option Nat :=
  if layer ∈ c.layers then some (c.layers.idxOf layer) else none

/-- `add_moe_topk_layer` -/
def addTopk (c : Captures α) (layer : Int) (tensor : Option α) : Captures α :=
  match c.find layer with
  | some i => { c with topk := c.topk.set i tensor }
  | none =>
    { c with
      layers := c.layers ++ [layer], topk := c.topk ++ [tensor], weight := c.weight ++ [none],
      kinds := c.kinds ++ [.none] }

/-- `add_moe_weight_layer` -/
def addWeight (c : Captures α) (layer : Int) (tensor : Option α) (kind : WeightKind) : Captures α :=
  match c.find layer with
  | some i =>
    if (c.kinds.getD i .none).rank < kind.rank then
      { c with weight := c.weight.set i tensor, kinds := c.kinds.set i kind }
    else c
  | none =>
    { c with
      layers := c.layers ++ [layer], topk := c.topk ++ [none], weight := c.weight ++ [tensor],
      kinds := c.kinds ++ [kind] }

/-- The vectors of the log grow to the number of layers. -/
def growLog (c : Captures α) : Captures α :=
  { c with
    topkLog := resize c.topkLog c.layers.length none, weightLog := resize c.weightLog c.layers.length none,
    kindsLog := resize c.kindsLog c.layers.length .none }

/-- `add_moe_topk_layer_log` -/
def addTopkLog (c : Captures α) (layer : Int) (tensor : Option α) : Captures α :=
  match c.find layer with
  | some i =>
    let c := if c.topkLog.length ≤ i then c.growLog else c
    { c with topkLog := c.topkLog.set i tensor }
  | none =>
    { layers := c.layers ++ [layer], topk := c.topk ++ [none], weight := c.weight ++ [none], kinds := c.kinds ++ [.none],
      topkLog := c.topkLog ++ [tensor], weightLog := c.weightLog ++ [none], kindsLog := c.kindsLog ++ [.none] }

/-- `add_moe_weight_layer_log` -/
def addWeightLog (c : Captures α) (layer : Int) (tensor : Option α) (kind : WeightKind) : Captures α :=
  match c.find layer with
  | some i =>
    let c := if c.weightLog.length ≤ i then c.growLog else c
    if (c.kindsLog.getD i .none).rank < kind.rank then
      { c with weightLog := c.weightLog.set i tensor, kindsLog := c.kindsLog.set i kind }
    else c
  | none =>
    { layers := c.layers ++ [layer], topk := c.topk ++ [none], weight := c.weight ++ [none], kinds := c.kinds ++ [.none],
      topkLog := c.topkLog ++ [none], weightLog := c.weightLog ++ [tensor], kindsLog := c.kindsLog ++ [kind] }

/-- `get_moe_topk` -/
def getTopk (c : Captures α) (layer : Int) : Option α :=
  match c.find layer with
  | some i => c.topk.getD i none
  | none => none

/-- `get_moe_weight` -/
def getWeight (c : Captures α) (layer : Int) : Option α :=
  match c.find layer with
  | some i => c.weight.getD i none
  | none => none

/-- `get_moe_topk_log` -/
def getTopkLog (c : Captures α) (layer : Int) : Option α :=
  match c.find layer with
  | some i => if i < c.topkLog.length then c.topkLog.getD i none else none
  | none => none

/-- `get_moe_weight_log` -/
def getWeightLog (c : Captures α) (layer : Int) : Option α :=
  match c.find layer with
  | some i => if i < c.weightLog.length then c.weightLog.getD i none else none
  | none => none

end Captures

section Calls
variable {α : Type*}

inductive Call (α : Type*) where
  | topk (layer : Int) (tensor : Option α)
  | weight (layer : Int) (tensor : Option α) (kind : WeightKind)
  | topkLog (layer : Int) (tensor : Option α)
  | weightLog (layer : Int) (tensor : Option α) (kind : WeightKind)

def Call.apply (c : Captures α) : Call α → Captures α
  | .topk layer tensor => c.addTopk layer tensor
  | .weight layer tensor kind => c.addWeight layer tensor kind
  | .topkLog layer tensor => c.addTopkLog layer tensor
  | .weightLog layer tensor kind => c.addWeightLog layer tensor kind

def Call.layer : Call α → Int
  | .topk layer _ | .weight layer _ _ | .topkLog layer _ | .weightLog layer _ _ => layer

def Call.isLog : Call α → Bool
  | .topk _ _ | .weight _ _ _ => false
  | .topkLog _ _ | .weightLog _ _ _ => true

/-- The state behind the calls, from `reset` on. -/
def captured (ops : List (Call α)) : Captures α := ops.foldl Call.apply .reset

/-- The tensors that a call of the one kind or the other has added for the layer. -/
def Call.tensor? (log : Bool) (layer : Int) : Call α → Option (Option α)
  | .topk l tensor => if log = false ∧ l = layer then some tensor else none
  | .topkLog l tensor => if log = true ∧ l = layer then some tensor else none
  | _ => none

def Call.weight? (log : Bool) (layer : Int) : Call α → Option (Option α × WeightKind)
  | .weight l tensor kind => if log = false ∧ l = layer then some (tensor, kind) else none
  | .weightLog l tensor kind => if log = true ∧ l = layer then some (tensor, kind) else none
  | _ => none

def tensors (log : Bool) (layer : Int) (ops : List (Call α)) : List (Option α) := ops.filterMap (Call.tensor? log layer)

def weights (log : Bool) (layer : Int) (ops : List (Call α)) : List (Option α × WeightKind) :=
  ops.filterMap (Call.weight? log layer)

/-- The first of the highest kind. -/
def Highest (ws : List (Option α × WeightKind)) (w : Option α × WeightKind) : Prop :=
  ∃ before behind, ws = before ++ w :: behind ∧ (∀ v ∈ before, v.2.rank < w.2.rank) ∧ ∀ v ∈ behind, v.2.rank ≤ w.2.rank

/-- What the getters should return. -/
structure Right (c : Captures α) (ops : List (Call α)) : Prop where
  topk : ∀ layer, c.getTopk layer = (tensors false layer ops).getLast?.join
  topkLog : ∀ layer, c.getTopkLog layer = (tensors true layer ops).getLast?.join
  weight : ∀ layer, (weights false layer ops = [] ∧ c.getWeight layer = none) ∨
    ∃ kind, Highest (weights false layer ops) (c.getWeight layer, kind)
  weightLog : ∀ layer, (weights true layer ops = [] ∧ c.getWeightLog layer = none) ∨
    ∃ kind, Highest (weights true layer ops) (c.getWeightLog layer, kind)

/-- A call of the log that is the first of its layer finds an entry for every layer in the log; a weight without a kind is the
first that is known of its layer, or comes behind another. -/
def Call.Sound (c : Captures α) (before : List (Call α)) (op : Call α) : Prop :=
  (op.isLog = true → op.layer ∈ c.layers ∨ c.topkLog.length = c.layers.length) ∧
    ∀ log tensor, op.weight? log op.layer = some (tensor, .none) →
      op.layer ∉ c.layers ∨ weights log op.layer before ≠ []

end Calls

section Columns
variable {α β : Type*} {layers : List Int} {xs : List β} {d v : β} {layer : Int}

/-- The entry of a layer in one of the vectors. -/
def entry (layers : List Int) (xs : List β) (d : β) (layer : Int) : β := xs.getD (layers.idxOf layer) d

theorem entry_set (hmem : layer ∈ layers) (hlen : layers.idxOf layer < xs.length) (l : Int) :
    entry layers (xs.set (layers.idxOf layer) v) d l = if l = layer then v else entry layers xs d l := by
  rw [entry, entry, List.getD_eq_getElem?_getD, List.getD_eq_getElem?_getD]
  by_cases h : l = layer
  · rw [if_pos h, h, List.getElem?_set_self hlen]
    rfl
  · rw [if_neg h, List.getElem?_set_ne]
    intro heq
    exact h ((List.idxOf_inj hmem).mp heq).symm

theorem entry_append (hmem : layer ∉ layers) (hlen : xs.length = layers.length) (l : Int) :
    entry (layers ++ [layer]) (xs ++ [v]) d l = if l = layer then v else entry layers xs d l := by
  rw [entry, entry, List.getD_eq_getElem?_getD, List.getD_eq_getElem?_getD]
  by_cases h : l = layer
  · rw [if_pos h, h, List.idxOf_append_of_notMem hmem, List.getElem?_append_right (by omega), hlen]
    simp
  · rw [if_neg h]
    by_cases hl : l ∈ layers
    · have hlt := List.idxOf_lt_length_of_mem hl
      rw [List.idxOf_append_of_mem hl, List.getElem?_append_left (by omega)]
    · rw [List.idxOf_append_of_notMem hl, List.idxOf_of_notMem hl, List.getElem?_eq_none (le_of_eq hlen),
        List.getElem?_eq_none]
      rw [List.length_append, List.idxOf_cons_ne _ (Ne.symm h), List.idxOf_nil, hlen]
      simp

/-- A vector that has not grown has nothing of the new layer. -/
theorem entry_new (hlen : xs.length ≤ layers.length) (l : Int) :
    entry (layers ++ [layer]) xs d l = entry layers xs d l := by
  rw [entry, entry, List.getD_eq_getElem?_getD, List.getD_eq_getElem?_getD]
  by_cases hl : l ∈ layers
  · rw [List.idxOf_append_of_mem hl]
  · rw [List.idxOf_append_of_notMem hl, List.idxOf_of_notMem hl, List.getElem?_eq_none hlen, List.getElem?_eq_none (by omega)]

theorem entry_resize {n : Nat} (hlen : xs.length ≤ n) (l : Int) : entry layers (resize xs n d) d l = entry layers xs d l := by
  rw [entry, entry, resize, List.take_of_length_le hlen, List.getD_eq_getElem?_getD, List.getD_eq_getElem?_getD]
  by_cases hlt : layers.idxOf l < xs.length
  · rw [List.getElem?_append_left hlt]
  · rw [List.getElem?_append_right (not_lt.mp hlt), List.getElem?_replicate, List.getElem?_eq_none (not_lt.mp hlt)]
    split <;> rfl

theorem length_resize {n : Nat} (hlen : xs.length ≤ n) : (resize xs n v).length = n := by
  rw [resize, List.length_append, List.length_take, List.length_replicate]
  omega

/-- One layer's place in the vectors of the graph or of the log. -/
@[ext] structure Column (α : Type*) where
  topk : Option α
  weight : Option α
  kind : WeightKind

def Captures.column (c : Captures α) (log : Bool) (layer : Int) : Column α :=
  if log then ⟨entry c.layers c.topkLog none layer, entry c.layers c.weightLog none layer,
    entry c.layers c.kindsLog .none layer⟩
  else ⟨entry c.layers c.topk none layer, entry c.layers c.weight none layer, entry c.layers c.kinds .none layer⟩

/-- The vectors have one length, and those of the log another, which is not more. -/
structure Captures.Aligned (c : Captures α) : Prop where
  topk : c.topk.length = c.layers.length
  weight : c.weight.length = c.layers.length
  kinds : c.kinds.length = c.layers.length
  weightLog : c.weightLog.length = c.topkLog.length
  kindsLog : c.kindsLog.length = c.topkLog.length
  log : c.topkLog.length ≤ c.layers.length

/-- What a call does to the place of its layer; it may be the first of the layer. -/
def Call.onColumn (known : Prop) [Decidable known] (col : Column α) : Call α → Column α
  | .topk _ tensor | .topkLog _ tensor => { col with topk := tensor }
  | .weight _ tensor kind | .weightLog _ tensor kind =>
    if known ∧ kind.rank ≤ col.kind.rank then col else { col with weight := tensor, kind }

variable {c : Captures α} {op : Call α}

theorem find_eq_some (hmem : layer ∈ c.layers) : c.find layer = some (c.layers.idxOf layer) := if_pos hmem

theorem find_eq_none (hmem : layer ∉ c.layers) : c.find layer = none := if_neg hmem

theorem Captures.Aligned.growLog (h : c.Aligned) : c.growLog.Aligned := by
  have hlen := length_resize (v := (none : Option α)) h.log
  refine ⟨h.topk, h.weight, h.kinds, ?_, ?_, le_of_eq hlen⟩
  · exact (length_resize (h.weightLog.le.trans h.log)).trans hlen.symm
  · exact (length_resize (h.kindsLog.le.trans h.log)).trans hlen.symm

theorem Captures.Aligned.column_growLog (h : c.Aligned) (log : Bool) (l : Int) : c.growLog.column log l = c.column log l := by
  cases log with
  | false => rfl
  | true =>
      ext1
      · exact entry_resize h.log l
      · exact entry_resize (h.weightLog.le.trans h.log) l
      · exact entry_resize (h.kindsLog.le.trans h.log) l

/-- The vectors of the log reach the layer. -/
theorem Captures.Aligned.grown (h : c.Aligned) (hmem : layer ∈ c.layers) :
    ∃ c' : Captures α, (if c.topkLog.length ≤ c.layers.idxOf layer then c.growLog else c) = c' ∧ c'.Aligned ∧
      c'.layers = c.layers ∧ c.layers.idxOf layer < c'.topkLog.length ∧ ∀ log l, c'.column log l = c.column log l := by
  by_cases hlog : c.topkLog.length ≤ c.layers.idxOf layer
  · refine ⟨c.growLog, if_pos hlog, h.growLog, rfl, ?_, h.column_growLog⟩
    exact (List.idxOf_lt_length_of_mem hmem).trans_eq (length_resize h.log).symm
  · exact ⟨c, if_neg hlog, h, rfl, not_le.mp hlog, fun _ _ => rfl⟩

/-- What the calls do to a layer that is there, and to one that is not. -/
theorem addTopk_known (hmem : layer ∈ c.layers) (t : Option α) :
    c.addTopk layer t = { c with topk := c.topk.set (c.layers.idxOf layer) t } := by
  rw [Captures.addTopk, find_eq_some hmem]

theorem addTopk_new (hmem : layer ∉ c.layers) (t : Option α) : c.addTopk layer t =
    { c with layers := c.layers ++ [layer], topk := c.topk ++ [t], weight := c.weight ++ [none], kinds := c.kinds ++ [.none] } := by
  rw [Captures.addTopk, find_eq_none hmem]

theorem addWeight_known (hmem : layer ∈ c.layers) (t : Option α) (kind : WeightKind) : c.addWeight layer t kind =
    if kind.rank ≤ (entry c.layers c.kinds .none layer).rank then c
    else { c with weight := c.weight.set (c.layers.idxOf layer) t, kinds := c.kinds.set (c.layers.idxOf layer) kind } := by
  rw [Captures.addWeight, find_eq_some hmem]
  by_cases hle : kind.rank ≤ (entry c.layers c.kinds .none layer).rank
  · rw [if_pos hle]
    exact if_neg (not_lt.mpr hle)
  · rw [if_neg hle]
    exact if_pos (not_le.mp hle)

theorem addWeight_new (hmem : layer ∉ c.layers) (t : Option α) (kind : WeightKind) : c.addWeight layer t kind =
    { c with layers := c.layers ++ [layer], topk := c.topk ++ [none], weight := c.weight ++ [t], kinds := c.kinds ++ [kind] } := by
  rw [Captures.addWeight, find_eq_none hmem]

theorem addTopkLog_known (h : c.Aligned) (hmem : layer ∈ c.layers) (t : Option α) : ∃ c' : Captures α,
    c.addTopkLog layer t = { c' with topkLog := c'.topkLog.set (c.layers.idxOf layer) t } ∧ c'.Aligned ∧
      c'.layers = c.layers ∧ c.layers.idxOf layer < c'.topkLog.length ∧ ∀ log l, c'.column log l = c.column log l := by
  obtain ⟨c', heq, hrest⟩ := h.grown hmem
  refine ⟨c', ?_, hrest⟩
  rw [Captures.addTopkLog, find_eq_some hmem]
  dsimp only
  rw [heq]

theorem addWeightLog_known (h : c.Aligned) (hmem : layer ∈ c.layers) (t : Option α) (kind : WeightKind) :
    ∃ c' : Captures α, (c.addWeightLog layer t kind =
        if kind.rank ≤ (entry c'.layers c'.kindsLog .none layer).rank then c'
        else { c' with
          weightLog := c'.weightLog.set (c.layers.idxOf layer) t, kindsLog := c'.kindsLog.set (c.layers.idxOf layer) kind }) ∧
      c'.Aligned ∧ c'.layers = c.layers ∧ c.layers.idxOf layer < c'.topkLog.length ∧
      ∀ log l, c'.column log l = c.column log l := by
  obtain ⟨c', heq, hal, hlayers, hrest⟩ := h.grown hmem
  refine ⟨c', ?_, hal, hlayers, hrest⟩
  rw [Captures.addWeightLog, find_eq_some hmem]
  dsimp only
  rw [h.weightLog, heq, entry, hlayers]
  by_cases hle : kind.rank ≤ (c'.kindsLog.getD (c.layers.idxOf layer) .none).rank
  · rw [if_pos hle, if_neg (not_lt.mpr hle)]
  · rw [if_neg hle, if_pos (not_le.mp hle)]

/-- A new layer: each vector of the graph grows by one, and so do those of the log if the call is one of the log. -/
theorem Captures.Aligned.snoc (h : c.Aligned) (t t' u u' : Option α) (k k' : WeightKind) (layer : Int) :
    Captures.Aligned ({ c with
      layers := c.layers ++ [layer], topk := c.topk ++ [t], weight := c.weight ++ [u], kinds :=
        c.kinds ++ [k] } : Captures α) ∧
    Captures.Aligned ({
      layers := c.layers ++ [layer], topk := c.topk ++ [t], weight := c.weight ++ [u], kinds := c.kinds ++ [k],
      topkLog := c.topkLog ++ [t'], weightLog := c.weightLog ++ [u'], kindsLog := c.kindsLog ++ [k'] } : Captures α) := by
  obtain ⟨h1, h2, h3, h4, h5, h6⟩ := h
  constructor
  · constructor <;> simp only [List.length_append, List.length_singleton] <;> omega
  · constructor <;> simp only [List.length_append, List.length_singleton] <;> omega

/-- What a call does to the layers and to the lengths. -/
theorem Captures.Aligned.apply (h : c.Aligned) (op : Call α) :
    (op.apply c).Aligned ∧ (op.apply c).layers = if op.layer ∈ c.layers then c.layers else c.layers ++ [op.layer] := by
  cases op with
  | topk layer t =>
      by_cases hmem : layer ∈ c.layers
      · rw [Call.apply, addTopk_known hmem]
        exact ⟨⟨(List.length_set).trans h.topk, h.weight, h.kinds, h.weightLog, h.kindsLog, h.log⟩, (if_pos hmem).symm⟩
      · rw [Call.apply, addTopk_new hmem]
        exact ⟨(h.snoc t none none none .none .none layer).1, (if_neg hmem).symm⟩
  | weight layer t kind =>
      by_cases hmem : layer ∈ c.layers
      · rw [Call.apply, addWeight_known hmem]
        split
        · exact ⟨h, (if_pos hmem).symm⟩
        · exact ⟨⟨h.topk, (List.length_set).trans h.weight, (List.length_set).trans h.kinds, h.weightLog, h.kindsLog, h.log⟩,
            (if_pos hmem).symm⟩
      · rw [Call.apply, addWeight_new hmem]
        exact ⟨(h.snoc none none t none kind .none layer).1, (if_neg hmem).symm⟩
  | topkLog layer t =>
      by_cases hmem : layer ∈ c.layers
      · obtain ⟨c', heq, hal, hlayers, -, -⟩ := addTopkLog_known h hmem t
        rw [Call.apply, heq]
        refine ⟨⟨hal.topk, hal.weight, hal.kinds, ?_, ?_, ?_⟩, hlayers.trans (if_pos hmem).symm⟩
        · exact hal.weightLog.trans List.length_set.symm
        · exact hal.kindsLog.trans List.length_set.symm
        · exact List.length_set.trans_le hal.log
      · rw [Call.apply, Captures.addTopkLog, find_eq_none hmem]
        exact ⟨(h.snoc none t none none .none .none layer).2, (if_neg hmem).symm⟩
  | weightLog layer t kind =>
      by_cases hmem : layer ∈ c.layers
      · obtain ⟨c', heq, hal, hlayers, -, -⟩ := addWeightLog_known h hmem t kind
        rw [Call.apply, heq]
        split
        · exact ⟨hal, hlayers.trans (if_pos hmem).symm⟩
        · exact ⟨⟨hal.topk, hal.weight, hal.kinds, List.length_set.trans hal.weightLog, List.length_set.trans hal.kindsLog,
            hal.log⟩, hlayers.trans (if_pos hmem).symm⟩
      · rw [Call.apply, Captures.addWeightLog, find_eq_none hmem]
        exact ⟨(h.snoc none none none t .none kind layer).2, (if_neg hmem).symm⟩

theorem entry_of_notMem (hmem : layer ∉ layers) (hlen : xs.length ≤ layers.length) : entry layers xs d layer = d := by
  rw [entry, List.idxOf_of_notMem hmem, List.getD_eq_getElem?_getD, List.getElem?_eq_none hlen]
  rfl

/-- Nothing is there of a layer that is not there. -/
theorem Captures.Aligned.column_new (h : c.Aligned) (hmem : layer ∉ c.layers) (log : Bool) :
    c.column log layer = ⟨none, none, .none⟩ := by
  cases log with
  | false =>
      exact Column.ext (entry_of_notMem hmem h.topk.le) (entry_of_notMem hmem h.weight.le) (entry_of_notMem hmem h.kinds.le)
  | true =>
      exact Column.ext (entry_of_notMem hmem h.log) (entry_of_notMem hmem (h.weightLog.le.trans h.log))
        (entry_of_notMem hmem (h.kindsLog.le.trans h.log))

/-- A new layer, and nothing of it in the log. -/
theorem Captures.Aligned.column_snoc (h : c.Aligned) (hmem : layer ∉ c.layers) (t u : Option α) (k : WeightKind) (log : Bool)
    (l : Int) :
    Captures.column { c with
      layers := c.layers ++ [layer], topk := c.topk ++ [t], weight := c.weight ++ [u], kinds := c.kinds ++ [k] } log l =
        if log = false ∧ l = layer then ⟨t, u, k⟩ else c.column log l := by
  cases log with
  | true =>
      rw [if_neg (by simp)]
      exact Column.ext (entry_new h.log l) (entry_new (h.weightLog.le.trans h.log) l)
        (entry_new (h.kindsLog.le.trans h.log) l)
  | false =>
      have htopk := @entry_append _ _ _ none t _ hmem h.topk l
      have hweight := @entry_append _ _ _ none u _ hmem h.weight l
      have hkinds := @entry_append _ _ _ .none k _ hmem h.kinds l
      by_cases hl : l = layer
      · rw [if_pos ⟨rfl, hl⟩]
        rw [if_pos hl] at htopk hweight hkinds
        exact Column.ext htopk hweight hkinds
      · rw [if_neg fun hc => hl hc.2]
        rw [if_neg hl] at htopk hweight hkinds
        exact Column.ext htopk hweight hkinds

/-- A new layer in a log that has an entry for every other. -/
theorem Captures.Aligned.column_snocLog (h : c.Aligned) (hmem : layer ∉ c.layers) (hlog : c.topkLog.length = c.layers.length)
    (t u : Option α) (k : WeightKind) (log : Bool) (l : Int) :
    Captures.column {
      layers := c.layers ++ [layer], topk := c.topk ++ [none], weight := c.weight ++ [none], kinds := c.kinds ++ [.none],
      topkLog := c.topkLog ++ [t], weightLog := c.weightLog ++ [u], kindsLog := c.kindsLog ++ [k] } log l =
        if log = true ∧ l = layer then ⟨t, u, k⟩ else c.column log l := by
  cases log with
  | false =>
      rw [if_neg (by simp)]
      have hplain := h.column_snoc hmem none none .none false l
      by_cases hl : l = layer
      · rw [if_pos ⟨rfl, hl⟩] at hplain
        refine hplain.trans ?_
        rw [hl, h.column_new hmem]
      · rw [if_neg fun hc => hl hc.2] at hplain
        exact hplain
  | true =>
      have htopk := @entry_append _ _ _ none t _ hmem hlog l
      have hweight := @entry_append _ _ _ none u _ hmem (h.weightLog.trans hlog) l
      have hkinds := @entry_append _ _ _ .none k _ hmem (h.kindsLog.trans hlog) l
      by_cases hl : l = layer
      · rw [if_pos ⟨rfl, hl⟩]
        rw [if_pos hl] at htopk hweight hkinds
        exact Column.ext htopk hweight hkinds
      · rw [if_neg fun hc => hl hc.2]
        rw [if_neg hl] at htopk hweight hkinds
        exact Column.ext htopk hweight hkinds

/-- Writing the place of a layer in vectors that reach it. -/
theorem entry_set_column {layers : List Int} {topk weight : List (Option α)} {kinds : List WeightKind} (hmem : layer ∈ layers)
    (htopk : layers.idxOf layer < topk.length) (hweight : layers.idxOf layer < weight.length)
    (hkinds : layers.idxOf layer < kinds.length) (l : Int) (t u : Option α) (k : WeightKind) :
    (⟨entry layers (topk.set (layers.idxOf layer) t) none l, entry layers weight none l, entry layers kinds .none l⟩ :
      Column α) =
      (if l = layer then ⟨t, entry layers weight none l, entry layers kinds .none l⟩
        else ⟨entry layers topk none l, entry layers weight none l, entry layers kinds .none l⟩) ∧
    (⟨entry layers topk none l, entry layers (weight.set (layers.idxOf layer) u) none l,
        entry layers (kinds.set (layers.idxOf layer) k) .none l⟩ : Column α) =
      if l = layer then ⟨entry layers topk none l, u, k⟩
        else ⟨entry layers topk none l, entry layers weight none l, entry layers kinds .none l⟩ := by
  rw [entry_set hmem htopk, entry_set hmem hweight, entry_set hmem hkinds]
  by_cases hl : l = layer
  · simp only [if_pos hl, and_self]
  · simp only [if_neg hl, and_self]

/-- A call changes the place of its layer, and no other. -/
theorem Captures.Aligned.column_apply (h : c.Aligned)
    (hsound : op.isLog = true → op.layer ∈ c.layers ∨ c.topkLog.length = c.layers.length) (log : Bool) (l : Int) :
    (op.apply c).column log l =
      if log = op.isLog ∧ l = op.layer then op.onColumn (op.layer ∈ c.layers) (c.column log l) else c.column log l := by
  by_cases hmem : op.layer ∈ c.layers
  · have hlt := List.idxOf_lt_length_of_mem hmem
    cases op with
    | topk layer t =>
        have hmem : layer ∈ c.layers := hmem
        rw [Call.apply, addTopk_known hmem]
        cases log with
        | true => exact (if_neg fun hc => Bool.noConfusion hc.1).symm
        | false =>
            refine (entry_set_column hmem (hlt.trans_eq h.topk.symm) (hlt.trans_eq h.weight.symm)
              (hlt.trans_eq h.kinds.symm) l t none .none).1.trans ?_
            by_cases hl : l = layer
            · rw [if_pos hl]
              exact (if_pos ⟨rfl, hl⟩).symm
            · rw [if_neg hl]
              exact (if_neg fun hc => hl hc.2).symm
    | weight layer t kind =>
        have hmem : layer ∈ c.layers := hmem
        rw [Call.apply, addWeight_known hmem]
        cases log with
        | true =>
            refine Eq.trans ?_ (if_neg fun hc => Bool.noConfusion hc.1).symm
            split <;> rfl
        | false =>
            by_cases hle : kind.rank ≤ (entry c.layers c.kinds .none layer).rank
            · rw [if_pos hle]
              by_cases hl : l = layer
              · subst hl
                exact ((if_pos ⟨rfl, rfl⟩).trans (if_pos ⟨hmem, hle⟩)).symm
              · exact (if_neg fun hc => hl hc.2).symm
            · rw [if_neg hle]
              refine (entry_set_column hmem (hlt.trans_eq h.topk.symm) (hlt.trans_eq h.weight.symm)
                (hlt.trans_eq h.kinds.symm) l none t kind).2.trans ?_
              by_cases hl : l = layer
              · subst hl
                exact (if_pos rfl).trans ((if_pos ⟨rfl, rfl⟩).trans (if_neg fun hc => hle hc.2)).symm
              · rw [if_neg hl]
                exact (if_neg fun hc => hl hc.2).symm
    | topkLog layer t =>
        have hmem : layer ∈ c.layers := hmem
        obtain ⟨c', heq, hal, hlayers, hlt', hcol⟩ := addTopkLog_known h hmem t
        rw [Call.apply, heq, ← hcol log l, ← hlayers]
        rw [← hlayers] at hlt' hmem
        cases log with
        | false => exact (if_neg fun hc => Bool.noConfusion hc.1).symm
        | true =>
            refine (entry_set_column hmem hlt' (hlt'.trans_eq hal.weightLog.symm) (hlt'.trans_eq hal.kindsLog.symm) l t none
              .none).1.trans ?_
            by_cases hl : l = layer
            · rw [if_pos hl]
              exact (if_pos ⟨rfl, hl⟩).symm
            · rw [if_neg hl]
              exact (if_neg fun hc => hl hc.2).symm
    | weightLog layer t kind =>
        have hmem : layer ∈ c.layers := hmem
        obtain ⟨c', heq, hal, hlayers, hlt', hcol⟩ := addWeightLog_known h hmem t kind
        rw [Call.apply, heq, ← hcol log l, ← hlayers]
        rw [← hlayers] at hlt' hmem
        cases log with
        | false =>
            refine Eq.trans ?_ (if_neg fun hc => Bool.noConfusion hc.1).symm
            split <;> rfl
        | true =>
            by_cases hle : kind.rank ≤ (entry c'.layers c'.kindsLog .none layer).rank
            · rw [if_pos hle]
              by_cases hl : l = layer
              · subst hl
                exact ((if_pos ⟨rfl, rfl⟩).trans (if_pos ⟨hmem, hle⟩)).symm
              · exact (if_neg fun hc => hl hc.2).symm
            · rw [if_neg hle]
              refine (entry_set_column hmem hlt' (hlt'.trans_eq hal.weightLog.symm) (hlt'.trans_eq hal.kindsLog.symm) l none t
                kind).2.trans ?_
              by_cases hl : l = layer
              · subst hl
                exact (if_pos rfl).trans ((if_pos ⟨rfl, rfl⟩).trans (if_neg fun hc => hle hc.2)).symm
              · rw [if_neg hl]
                exact (if_neg fun hc => hl hc.2).symm
  · -- the place of the layer was empty
    have hnew : ∀ col : Column α, op.onColumn (op.layer ∈ c.layers) ⟨none, none, .none⟩ = col →
        (if log = op.isLog ∧ l = op.layer then col else c.column log l) =
          if log = op.isLog ∧ l = op.layer then op.onColumn (op.layer ∈ c.layers) (c.column log l) else c.column log l := by
      rintro col rfl
      by_cases hcond : log = op.isLog ∧ l = op.layer
      · rw [if_pos hcond, if_pos hcond, hcond.2, h.column_new hmem]
      · rw [if_neg hcond, if_neg hcond]
    cases op with
    | topk layer t =>
        have hmem : layer ∉ c.layers := hmem
        rw [Call.apply, addTopk_new hmem, h.column_snoc hmem]
        exact hnew _ rfl
    | weight layer t kind =>
        have hmem : layer ∉ c.layers := hmem
        rw [Call.apply, addWeight_new hmem, h.column_snoc hmem]
        exact hnew _ (if_neg fun hc => hmem hc.1)
    | topkLog layer t =>
        have hmem : layer ∉ c.layers := hmem
        rw [Call.apply, Captures.addTopkLog, find_eq_none hmem]
        dsimp only
        rw [h.column_snocLog hmem ((hsound rfl).resolve_left hmem)]
        exact hnew _ rfl
    | weightLog layer t kind =>
        have hmem : layer ∉ c.layers := hmem
        rw [Call.apply, Captures.addWeightLog, find_eq_none hmem]
        dsimp only
        rw [h.column_snocLog hmem ((hsound rfl).resolve_left hmem)]
        exact hnew _ (if_neg fun hc => hmem hc.1)

end Columns

section Histories
variable {α : Type*} {col : Column α} {ts : List (Option α)} {ws : List (Option α × WeightKind)}

/-- The place stands for the tensors and the weights that were added. -/
structure Column.Holds (col : Column α) (ts : List (Option α)) (ws : List (Option α × WeightKind)) : Prop where
  topk : col.topk = ts.getLast?.join
  weight : (ws = [] ∧ col.weight = none ∧ col.kind = .none) ∨ Highest ws (col.weight, col.kind)

theorem Column.Holds.addTopk (h : col.Holds ts ws) (t : Option α) : Column.Holds { col with topk := t } (ts ++ [t]) ws := by
  refine ⟨?_, h.weight⟩
  rw [List.getLast?_concat]
  rfl

/-- The first weight stays whatever its kind. -/
theorem Column.Holds.addFirst (h : col.Holds ts []) (t : Option α) (kind : WeightKind) :
    Column.Holds { col with weight := t, kind } ts [(t, kind)] :=
  ⟨h.topk, .inr ⟨[], [], rfl, by simp, by simp⟩⟩

theorem Column.Holds.addWeight (h : col.Holds ts ws) (t : Option α) (kind : WeightKind) (hkind : kind = .none → ws ≠ []) :
    Column.Holds (if kind.rank ≤ col.kind.rank then col else { col with weight := t, kind }) ts (ws ++ [(t, kind)]) := by
  rcases h.weight with ⟨rfl, -, hnone⟩ | ⟨before, behind, heq, hbefore, hbehind⟩
  · rw [if_neg]
    · exact h.addFirst t kind
    · rw [hnone]
      cases kind with
      | none => exact absurd rfl (hkind rfl)
      | raw => decide
      | scaled => decide
      | norm => decide
      | softmax => decide
  · by_cases hle : kind.rank ≤ col.kind.rank
    · rw [if_pos hle]
      refine ⟨h.topk, .inr ⟨before, behind ++ [(t, kind)], ?_, hbefore, fun v hv => ?_⟩⟩
      · rw [heq, List.append_assoc, List.cons_append]
      · rcases List.mem_append.mp hv with hv | hv
        · exact hbehind v hv
        · rw [List.mem_singleton.mp hv]
          exact hle
    · rw [if_neg hle]
      refine ⟨h.topk, .inr ⟨ws, [], rfl, fun v hv => ?_, by simp⟩⟩
      rw [heq] at hv
      rcases List.mem_append.mp hv with hv | hv
      · exact (hbefore v hv).trans (not_le.mp hle)
      · rcases List.mem_cons.mp hv with rfl | hv
        · exact not_le.mp hle
        · exact (hbehind v hv).trans_lt (not_le.mp hle)

end Histories

section Runs
variable {α : Type*} {c : Captures α} {ops : List (Call α)}

/-- The vectors hold what the calls have added. -/
structure Held (c : Captures α) (ops : List (Call α)) : Prop where
  aligned : c.Aligned
  layers : ∀ op ∈ ops, op.layer ∈ c.layers
  columns : ∀ log layer, (c.column log layer).Holds (tensors log layer ops) (weights log layer ops)

theorem held_reset : Held (Captures.reset : Captures α) [] := by
  refine ⟨⟨rfl, rfl, rfl, rfl, rfl, le_rfl⟩, by simp, fun log layer => ?_⟩
  cases log <;> exact ⟨rfl, .inl ⟨rfl, rfl, rfl⟩⟩

theorem tensors_concat (log : Bool) (layer : Int) (ops : List (Call α)) (op : Call α) :
    tensors log layer (ops ++ [op]) = tensors log layer ops ++ (op.tensor? log layer).toList := by
  rw [tensors, List.filterMap_append]
  cases h : op.tensor? log layer <;> simp [tensors, h]

theorem weights_concat (log : Bool) (layer : Int) (ops : List (Call α)) (op : Call α) :
    weights log layer (ops ++ [op]) = weights log layer ops ++ (op.weight? log layer).toList := by
  rw [weights, List.filterMap_append]
  cases h : op.weight? log layer <;> simp [weights, h]

/-- Of a layer that is not there nothing has been added. -/
theorem Held.weights_new (h : Held c ops) {layer : Int} (hmem : layer ∉ c.layers) (log : Bool) :
    weights log layer ops = [] := by
  rw [weights, List.filterMap_eq_nil_iff]
  intro op hop
  have hlayer := h.layers op hop
  cases op with
  | topk => rfl
  | topkLog => rfl
  | weight l t kind =>
      refine if_neg fun hc : log = false ∧ l = layer => hmem ?_
      rw [← hc.2]
      exact hlayer
  | weightLog l t kind =>
      refine if_neg fun hc : log = true ∧ l = layer => hmem ?_
      rw [← hc.2]
      exact hlayer

/-- What a call adds for its layer, and that it adds nothing for another. -/
theorem Call.other {log : Bool} {layer : Int} (op : Call α) (hcond : ¬ (log = op.isLog ∧ layer = op.layer)) :
    op.tensor? log layer = none ∧ op.weight? log layer = none := by
  cases op with
  | topk l t => exact ⟨if_neg fun hc => hcond ⟨hc.1, hc.2.symm⟩, rfl⟩
  | topkLog l t => exact ⟨if_neg fun hc => hcond ⟨hc.1, hc.2.symm⟩, rfl⟩
  | weight l t kind => exact ⟨rfl, if_neg fun hc => hcond ⟨hc.1, hc.2.symm⟩⟩
  | weightLog l t kind => exact ⟨rfl, if_neg fun hc => hcond ⟨hc.1, hc.2.symm⟩⟩

/-- A weight in the place of its layer. -/
theorem Held.weight (h : Held c ops) (log : Bool) (layer : Int) (t : Option α) (kind : WeightKind)
    (hkind : kind = .none → layer ∉ c.layers ∨ weights log layer ops ≠ []) :
    Column.Holds (if layer ∈ c.layers ∧ kind.rank ≤ (c.column log layer).kind.rank then c.column log layer
      else { c.column log layer with weight := t, kind }) (tensors log layer ops) (weights log layer ops ++ [(t, kind)]) := by
  have hcol := h.columns log layer
  by_cases hmem : layer ∈ c.layers
  · have hadd := hcol.addWeight t kind fun hnone => (hkind hnone).resolve_left (not_not.mpr hmem)
    by_cases hle : kind.rank ≤ (c.column log layer).kind.rank
    · rw [if_pos hle] at hadd
      rwa [if_pos ⟨hmem, hle⟩]
    · rw [if_neg hle] at hadd
      rwa [if_neg fun hc => hle hc.2]
  · rw [if_neg fun hc => hmem hc.1]
    rw [h.weights_new hmem] at hcol ⊢
    exact hcol.addFirst t kind

/-- **A sound call keeps the places of the layers apart.** -/
theorem Held.step (h : Held c ops) {op : Call α} (hsound : op.Sound c ops) : Held (op.apply c) (ops ++ [op]) := by
  obtain ⟨haligned, hlayers⟩ := h.aligned.apply op
  refine ⟨haligned, fun o ho => ?_, fun log layer => ?_⟩
  · rw [hlayers]
    rcases List.mem_append.mp ho with ho | ho
    · have hmem := h.layers o ho
      split
      · exact hmem
      · exact List.mem_append_left _ hmem
    · rw [List.mem_singleton.mp ho]
      split
      · assumption
      · exact List.mem_append_right _ (List.mem_singleton.mpr rfl)
  · rw [h.aligned.column_apply hsound.1, tensors_concat, weights_concat]
    by_cases hcond : log = op.isLog ∧ layer = op.layer
    · rw [if_pos hcond]
      obtain ⟨rfl, rfl⟩ := hcond
      cases op with
      | topk layer t =>
          have ht : (Call.topk layer t).tensor? false layer = some t := if_pos ⟨rfl, rfl⟩
          have hadd := (h.columns false layer).addTopk t
          rw [← List.append_nil (weights false layer ops)] at hadd
          show Column.Holds _ (_ ++ ((Call.topk layer t).tensor? false layer).toList) _
          rw [ht]
          exact hadd
      | topkLog layer t =>
          have ht : (Call.topkLog layer t).tensor? true layer = some t := if_pos ⟨rfl, rfl⟩
          have hadd := (h.columns true layer).addTopk t
          rw [← List.append_nil (weights true layer ops)] at hadd
          show Column.Holds _ (_ ++ ((Call.topkLog layer t).tensor? true layer).toList) _
          rw [ht]
          exact hadd
      | weight layer t kind =>
          have hw : (Call.weight layer t kind).weight? false layer = some (t, kind) := if_pos ⟨rfl, rfl⟩
          have hadd := h.weight false layer t kind fun hnone => hsound.2 false t (by rw [← hnone]; exact hw)
          rw [← List.append_nil (tensors false layer ops)] at hadd
          show Column.Holds _ _ (_ ++ ((Call.weight layer t kind).weight? false layer).toList)
          rw [hw]
          exact hadd
      | weightLog layer t kind =>
          have hw : (Call.weightLog layer t kind).weight? true layer = some (t, kind) := if_pos ⟨rfl, rfl⟩
          have hadd := h.weight true layer t kind fun hnone => hsound.2 true t (by rw [← hnone]; exact hw)
          rw [← List.append_nil (tensors true layer ops)] at hadd
          show Column.Holds _ _ (_ ++ ((Call.weightLog layer t kind).weight? true layer).toList)
          rw [hw]
          exact hadd
    · rw [if_neg hcond, (op.other hcond).1, (op.other hcond).2, Option.toList_none, List.append_nil, Option.toList_none,
        List.append_nil]
      exact h.columns log layer

/-- The getters read the places. -/
theorem Held.right (h : Held c ops) : Right c ops := by
  have hget : ∀ layer, c.getTopk layer = (c.column false layer).topk ∧ c.getWeight layer = (c.column false layer).weight ∧
      c.getTopkLog layer = (c.column true layer).topk ∧ c.getWeightLog layer = (c.column true layer).weight := by
    intro layer
    by_cases hmem : layer ∈ c.layers
    · have hlog : ∀ {xs : List (Option α)}, (if c.layers.idxOf layer < xs.length then xs.getD (c.layers.idxOf layer) none
          else none) = entry c.layers xs none layer := by
        intro xs
        by_cases hlt : c.layers.idxOf layer < xs.length
        · exact if_pos hlt
        · rw [if_neg hlt, entry, List.getD_eq_getElem?_getD, List.getElem?_eq_none (not_lt.mp hlt)]
          rfl
      rw [Captures.getTopk, Captures.getWeight, Captures.getTopkLog, Captures.getWeightLog, find_eq_some hmem]
      exact ⟨rfl, rfl, hlog, hlog⟩
    · rw [Captures.getTopk, Captures.getWeight, Captures.getTopkLog, Captures.getWeightLog, find_eq_none hmem,
        h.aligned.column_new hmem, h.aligned.column_new hmem]
      exact ⟨rfl, rfl, rfl, rfl⟩
  refine ⟨fun layer => ?_, fun layer => ?_, fun layer => ?_, fun layer => ?_⟩
  · rw [(hget layer).1, (h.columns false layer).topk]
  · rw [(hget layer).2.2.1, (h.columns true layer).topk]
  · rw [(hget layer).2.1]
    exact (h.columns false layer).weight.imp (fun hw => ⟨hw.1, hw.2.1⟩) fun hw => ⟨_, hw⟩
  · rw [(hget layer).2.2.2]
    exact (h.columns true layer).weight.imp (fun hw => ⟨hw.1, hw.2.1⟩) fun hw => ⟨_, hw⟩

/-- **In a run of sound calls the getters return what was added for their layer.** -/
theorem captures_right (ops : List (Call α))
    (hsound : ∀ k (op : Call α), ops[k]? = some op → op.Sound (captured (ops.take k)) (ops.take k)) :
    ∀ k, Right (captured (ops.take k)) (ops.take k) := by
  intro k
  apply Held.right
  induction k with
  | zero => exact held_reset
  | succ k ih =>
      rw [List.take_add_one]
      cases hop : ops[k]? with
      | none =>
          rw [Option.toList_none, List.append_nil]
          exact ih
      | some op =>
          rw [Option.toList_some, captured, List.foldl_append]
          exact ih.step (hsound k op hop)

/-- A layer of the log that is the first of all. -/
theorem captures_right_log :
    Right (captured [Call.topkLog 3 (some 'a'), .topk 3 (some 'b')]) [Call.topkLog 3 (some 'a'), .topk 3 (some 'b')] := by
  refine captures_right [Call.topkLog 3 (some 'a'), .topk 3 (some 'b')] (fun k op hop => ?_) 2
  rcases k with _ | _ | k
  · obtain rfl := Option.some.inj hop
    exact ⟨fun _ => .inr rfl, fun _ _ h => (by cases h)⟩
  · obtain rfl := Option.some.inj hop
    exact ⟨(by simp [Call.isLog]), fun _ _ h => (by cases h)⟩
  · cases hop

/-- A layer of the graph is added, and then another one of the log: the log has the tensor in the place of the first. -/
theorem log_misaligned : ∃ c : Captures Char, captured [Call.topk 0 (some 'a'), .topkLog 1 (some 'b')] = c ∧
    c.getTopkLog 0 = some 'b' ∧ c.getTopkLog 1 = none ∧
    ¬ Right c [Call.topk 0 (some 'a'), .topkLog 1 (some 'b')] := by
  refine ⟨_, rfl, rfl, rfl, fun h => ?_⟩
  have hzero := h.topkLog 0
  cases hzero

end Runs

end S2Moe.Graph
