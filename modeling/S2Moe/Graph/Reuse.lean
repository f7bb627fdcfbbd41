import S2Moe.Lib.Run
import Mathlib.Tactic.Ring

/-!
# Reusing the graph of the ubatch before

`llama_context::process_ubatch` keeps the graph it built last. A graph is built from `llm_graph_params`; before it builds a
new one, `llm_graph_result::can_reuse` compares the parameters of the graph it has with the new ones, and asks each input of
the graph whether its tensors still fit.

* `GraphParams`, and `graphParams` : the parameters a context gives for a ubatch, of what is fixed for the context (`Setup`)
  and of what its setters change (`Settings`);
* `Builder` : what the builder of an architecture adds, `topology` : what the parameters decide about the graph;
* `allowReuse`, `GraphInput.canReuse`, `canReuse`;
* `topology_eq_iff` : a graph that is reused is the graph the new parameters give, unless the warm-up flag has changed and
  the two settings of it route to different numbers of experts;
* `State`, `step` : a context and its graph over a run, `reaches_topology` : what every ubatch of a run is computed with.
-/

namespace S2Moe.Graph
open S2Moe.Lib

/-! ## The parameters -/

inductive GraphType
  | default
  | encoder
  | decoder
  deriving DecidableEq

inductive PoolingType
  | none
  | mean
  | cls
  | last
  | rank
  deriving DecidableEq

structure HParams where
  nEmbd : Nat
  nLayer : Nat
  nExpert : Nat
  nExpertUsed : Nat
  nPosPerEmbd : Nat := 1
  nEmbdVGqaMax : Nat := 1
  moeReuseStrength : Rat := 0
  moeReuseExpertCap : Int := 0
  deriving DecidableEq

structure CParams where
  embeddings : Bool
  causalAttn : Bool
  warmup : Bool
  kvUnified : Bool
  eagle3ExtractEnabled : Bool
  poolingType : PoolingType
  deriving DecidableEq

/-- `token`, `embd` and `data` say which pointers are set. `encode` and `decode` assert `one` of every batch. -/
structure Ubatch where
  equalSeqs : Bool
  nTokens : Nat
  nSeqTokens : Nat
  nSeqs : Nat
  nSeqsUnq : Nat
  token : Bool
  embd : Bool
  one : token = !embd
  data : Bool
  seqIdUnq : Nat → Int

/-- What the builder reads through the memory context and through `cross`. -/
structure Views where
  nKv : Nat := 0
  nKvSwa : Nat := 0
  nRs : Nat := 0
  nEnc : Nat := 0

/-- `cvec`, `loras`, `cross` and `eagle3` are addresses, and so is the tensor of `sharedTokenEmbd`. -/
structure GraphParams where
  arch : Nat
  hparams : HParams
  cparams : CParams
  ubatch : Ubatch
  gtype : GraphType
  cvec : Nat
  loras : Nat
  mctx : Views
  cross : Nat
  eagle3 : Nat
  nOutputs : Nat
  sharedTokenEmbd : Option Nat
  isDraftContext : Bool
  draftSkipAttnLayers : List Int
  draftSkipMlpLayers : List Int
  draftExpertTopk : Int
  moeTopkLogK : Int
  draftLayerExpertTopk : List Int
  moeExpertTopk : Int
  moeReuseEnabled : Bool
  moeReuseRuntime : Bool

/-- `llm_graph_effective_n_expert_used` -/
def effectiveNExpertUsed (p : GraphParams) : Int :=
  if p.cparams.warmup then p.hparams.nExpert
  else if p.isDraftContext then p.hparams.nExpertUsed
  else if 0 < p.moeExpertTopk then max (min p.moeExpertTopk p.hparams.nExpert) 1
  else p.hparams.nExpertUsed

/-! ## The routing of a layer -/

structure ReuseOp where
  topk : Int
  strength : Rat
  cap : Int
  runtime : Bool
  deriving DecidableEq

/-- What `build_moe_ffn` adds: the experts selected, the reuse op before the selection, whether the selection is copied for
the caller, the width of the logged selection, and the number of columns. -/
structure MoeFfn where
  nExpertUsed : Int
  reuse : Option ReuseOp
  capture : Bool
  logK : Int
  nTokens : Nat
  deriving DecidableEq

def buildMoeFfn (p : GraphParams) (nTokens : Nat) (nExpertUsed : Int) : MoeFfn :=
  let useReuse := p.moeReuseEnabled && (p.moeReuseRuntime || decide (0 < p.hparams.moeReuseStrength)) &&
    decide (0 < p.hparams.moeReuseExpertCap) && decide (1 < p.hparams.nExpert) && decide (1 < nTokens)
  { nExpertUsed
    reuse := if useReuse then
        some ⟨nExpertUsed, p.hparams.moeReuseStrength, p.hparams.moeReuseExpertCap, p.moeReuseRuntime⟩
      else none
    capture := decide (0 ≤ p.moeTopkLogK)
    logK := if 0 < p.moeTopkLogK then min p.moeTopkLogK p.hparams.nExpert else 0
    nTokens }

/-- How a builder finds the number of experts of a layer: as the context gives it, with the draft limits of each layer, or
with the one draft limit of Qwen3Next. -/
inductive Routing
  | context
  | draftLayers
  | draftAll
  deriving DecidableEq

/-- `layer_topk_map[il]`, where the map is not empty. -/
def layerTopk (p : GraphParams) (il : Nat) : Int := if il < p.hparams.nLayer then p.draftLayerExpertTopk.getD il (-1) else -1

/-- `current_k` before it is limited. -/
def draftK (p : GraphParams) (il : Nat) : Int :=
  if p.isDraftContext then
    if !p.draftLayerExpertTopk.isEmpty && decide (0 < layerTopk p il) then layerTopk p il
    else if 0 < p.draftExpertTopk then p.draftExpertTopk
    else effectiveNExpertUsed p
  else effectiveNExpertUsed p

/-- At most `nExpertUsed`, at most `nExpert`, and at least 1. -/
def limitK (nExpertUsed nExpert k : Int) : Int :=
  let k := if nExpertUsed < k then nExpertUsed else k
  let k := if nExpert < k then nExpert else k
  if k < 1 then 1 else k

/-- `current_k` -/
def currentK (p : GraphParams) (il : Nat) : Int := limitK (effectiveNExpertUsed p) p.hparams.nExpert (draftK p il)

def Routing.topk (p : GraphParams) (il : Nat) : Routing → Int
  | .context => effectiveNExpertUsed p
  | .draftLayers => currentK p il
  | .draftAll =>
    if p.isDraftContext ∧ 0 < p.draftExpertTopk then min p.draftExpertTopk (effectiveNExpertUsed p)
    else effectiveNExpertUsed p

/-! ## The inputs -/

/-- The sizes of a tensor, first dimension first; those left out are 1. -/
abbrev Shape := List Nat

def Shape.ne (s : Shape) (i : Nat) : Nat := s.getD i 1

def kqMaskPad : Nat := 64

/-- `GGML_PAD` -/
def pad (x n : Nat) : Nat := (x + n - 1) / n * n

/-- The input objects of a graph, with the shapes of their tensors. Only the first five have a `can_reuse` of their own.
`unlisted` is a tensor that is marked as an input and that no input object holds. -/
inductive GraphInput
  | embd (tokens embd : Option Shape)
  | pos (pos : Shape)
  | outIds (nOutputs : Nat) (outIds : Shape)
  | attnKv (kIdxs vIdxs kqMask : Shape)
  | attnKvIswa (kIdxs vIdxs kqMask kIdxsSwa vIdxsSwa kqMaskSwa : Shape)
  | other (tensors : List Shape)
  | unlisted (tensor : Shape)
  deriving DecidableEq

/-- The inputs a builder asks for. The embeddings of DFlash are the features where the ubatch has embeddings. -/
inductive InputKind
  | embd (width : Nat)
  | features (width : Nat)
  | dflash (width : Nat)
  | unlisted (width : Nat)
  | pos
  | attnScale
  | outIds
  | mean
  | cls
  | crossEmbd (width : Nat)
  | posBucketEnc
  | posBucketDec
  | attnNoCache
  | attnKv
  | attnKvIswa
  | attnCross
  | rs
  | memHybrid
  deriving DecidableEq

section Inputs
variable (vTrans : Bool) (p : GraphParams)

def kIdxs : Shape := [p.ubatch.nTokens]

def vIdxs : Shape := if vTrans then [p.ubatch.nTokens * p.hparams.nEmbdVGqaMax] else [p.ubatch.nTokens]

def nStream : Nat := if p.cparams.kvUnified then 1 else p.ubatch.nSeqsUnq

def kqMask (nKv : Nat) : Shape := [nKv, pad (p.ubatch.nTokens / nStream p) kqMaskPad, 1, nStream p]

def buildInput : InputKind → GraphInput
  | .embd width =>
    if p.ubatch.token then .embd (some [p.ubatch.nTokens]) none else .embd none (some [width, p.ubatch.nTokens])
  | .features width => .embd none (some [width, p.ubatch.nTokens])
  | .dflash width =>
    if p.ubatch.embd then .embd none (some [width, p.ubatch.nTokens]) else .embd (some [p.ubatch.nTokens]) none
  | .unlisted width => .unlisted [width, p.ubatch.nTokens]
  | .pos => .pos [p.ubatch.nTokens * p.hparams.nPosPerEmbd]
  | .attnScale => .other [[1, 1, p.ubatch.nTokens]]
  | .outIds => .outIds p.nOutputs [p.nOutputs]
  | .mean => .other [[p.ubatch.nTokens, p.ubatch.nSeqsUnq]]
  | .cls => .other [[p.ubatch.nSeqsUnq]]
  | .crossEmbd width => .other [[width, p.mctx.nEnc]]
  | .posBucketEnc => .other [[p.ubatch.nTokens, p.ubatch.nTokens]]
  | .posBucketDec => .other [[p.mctx.nKv, p.ubatch.nTokens]]
  | .attnNoCache => .other [[p.ubatch.nTokens, pad p.ubatch.nTokens kqMaskPad, 1, 1]]
  | .attnKv => .attnKv (kIdxs p) (vIdxs vTrans p) (kqMask p p.mctx.nKv)
  | .attnKvIswa => .attnKvIswa (kIdxs p) (vIdxs vTrans p) (kqMask p p.mctx.nKv)
      (kIdxs p) (vIdxs vTrans p) (kqMask p p.mctx.nKvSwa)
  | .attnCross => .other [[p.mctx.nEnc, pad p.ubatch.nTokens kqMaskPad, 1, 1]]
  | .rs => .other [[p.mctx.nRs]]
  | .memHybrid => .other [kIdxs p, vIdxs vTrans p, kqMask p p.mctx.nKv, [p.mctx.nRs]]

end Inputs

/-- An input that does not say anything else refuses (`llm_graph_input_i::can_reuse`). -/
def GraphInput.canReuse (q : GraphParams) : GraphInput → Bool
  | .embd tokens features =>
    (match tokens with
      | none => !q.ubatch.token
      | some t => t.ne 0 == q.ubatch.nTokens) &&
    (match features with
      | none => !q.ubatch.embd
      -- the first dimension of this tensor is the width, and not the number of tokens
      | some t => t.ne 0 == q.ubatch.nTokens)
  | .pos t => t.ne 0 == q.ubatch.nTokens
  | .outIds n _ => n == q.nOutputs
  | .attnKv kIdxs _ kqMask =>
    kIdxs.ne 0 == q.ubatch.nTokens && kqMask.ne 0 == q.mctx.nKv && kqMask.ne 1 == pad q.ubatch.nTokens kqMaskPad
  | .attnKvIswa kIdxs _ kqMask kIdxsSwa _ kqMaskSwa =>
    kIdxs.ne 0 == q.ubatch.nTokens && kIdxsSwa.ne 0 == q.ubatch.nTokens &&
    kqMask.ne 0 == q.mctx.nKv && kqMask.ne 1 == pad q.ubatch.nTokens kqMaskPad &&
    kqMaskSwa.ne 0 == q.mctx.nKvSwa && kqMaskSwa.ne 1 == pad q.ubatch.nTokens kqMaskPad
  | .other _ => false
  | .unlisted _ => true

/-! ## Building a graph -/

/-- What the constructor of an architecture's `llm_graph_context` does: the inputs it asks for, the layers that have experts,
how it routes them, and whether it calls `capture_eagle3` before each layer. -/
structure Builder where
  inputs : List InputKind
  isMoe : Nat → Bool
  routing : Routing
  captures : Bool

/-- `llm_build_qwen3moe` -/
def Builder.qwen3moe (h : HParams) : Builder where
  inputs := [.embd h.nEmbd, .pos, .attnKv, .outIds]
  isMoe := fun _ => true
  routing := .draftLayers
  captures := true

/-- `llm_build_qwen3next` -/
def Builder.qwen3next (h : HParams) (isMoe : Nat → Bool) : Builder where
  inputs := [.embd h.nEmbd, .memHybrid, .pos, .outIds]
  isMoe := isMoe
  routing := .draftAll
  captures := false

/-- `llm_build_eagle3_encode` and `llm_build_eagle3_decode` -/
def Builder.eagle3 (h : HParams) (targetHiddenSize : Nat) : GraphType → Builder
  | .encoder => ⟨[.features (3 * targetHiddenSize)], fun _ => false, .context, false⟩
  | _ => ⟨[.embd h.nEmbd, .unlisted h.nEmbd, .pos, .attnKv, .outIds], fun _ => false, .context, false⟩

/-- `llm_build_dflash_encode` and `llm_build_dflash_decode` -/
def Builder.dflash (h : HParams) (nTargetLayers : Nat) (useIswa : Bool) : GraphType → Builder
  | .encoder => ⟨[.features (nTargetLayers * h.nEmbd)], fun _ => false, .context, false⟩
  | _ => ⟨[.pos, if useIswa then .attnKvIswa else .attnKv, .dflash h.nEmbd], fun _ => false, .context, false⟩

/-- What is fixed for a context: the model with the builders of its architecture, the parameters only the constructor sets,
the layers of `eagle3.extract_layer_indices`, and the addresses of its members. -/
structure Setup where
  arch : Nat
  hparams : HParams
  builder : GraphType → Builder
  kvUnified : Bool
  eagle3ExtractEnabled : Bool
  poolingType : PoolingType
  extractLayerIndices : List Int
  vTrans : Bool
  cvec : Nat
  loras : Nat
  cross : Nat
  eagle3 : Nat

/-- What the setters of a context change, and the number of outputs of the ubatch. -/
structure Settings where
  embeddings : Bool := false
  causalAttn : Bool := true
  warmup : Bool := false
  nOutputs : Nat := 0
  sharedTokenEmbd : Option Nat := none
  isDraftContext : Bool := false
  draftSkipAttnLayers : List Int := []
  draftSkipMlpLayers : List Int := []
  draftExpertTopk : Int := -1
  moeTopkLogK : Int := -1
  draftLayerExpertTopk : List Int := []
  moeExpertTopk : Int := -1
  moeReuseEnabled : Bool := false
  moeReuseRuntime : Bool := false

/-- `llama_context::graph_params` -/
def graphParams (c : Setup) (s : Settings) (ubatch : Ubatch) (mctx : Views) (gtype : GraphType) : GraphParams where
  arch := c.arch
  hparams := c.hparams
  cparams := ⟨s.embeddings, s.causalAttn, s.warmup, c.kvUnified, c.eagle3ExtractEnabled, c.poolingType⟩
  ubatch := ubatch
  gtype := gtype
  cvec := c.cvec
  loras := c.loras
  mctx := mctx
  cross := c.cross
  eagle3 := c.eagle3
  nOutputs := s.nOutputs
  sharedTokenEmbd := s.sharedTokenEmbd
  isDraftContext := s.isDraftContext
  draftSkipAttnLayers := s.draftSkipAttnLayers
  draftSkipMlpLayers := s.draftSkipMlpLayers
  draftExpertTopk := s.draftExpertTopk
  moeTopkLogK := s.moeTopkLogK
  draftLayerExpertTopk := s.draftLayerExpertTopk
  moeExpertTopk := s.moeExpertTopk
  moeReuseEnabled := s.moeReuseEnabled
  moeReuseRuntime := s.moeReuseRuntime

/-- `build_pooling` -/
def poolingInputs (p : GraphParams) : List InputKind :=
  if p.cparams.embeddings then
    match p.cparams.poolingType with
    | .none => []
    | .mean => [.mean]
    | .cls | .last | .rank => [.cls]
  else []

/-- A layer as it is built: whether its attention and its feed-forward part are there, and its experts. -/
structure Layer where
  attn : Bool
  mlp : Bool
  moe : Option MoeFfn
  deriving DecidableEq

def buildLayer (b : Builder) (p : GraphParams) (il : Nat) : Layer :=
  let skips := decide (b.routing = .draftLayers) && p.isDraftContext
  let mlp := !(skips && decide ((il : Int) ∈ p.draftSkipMlpLayers))
  -- before the last feed-forward part only the columns of the outputs are kept
  let nTokens := if il + 1 = p.hparams.nLayer ∧ .outIds ∈ b.inputs then p.nOutputs else p.ubatch.nTokens
  { attn := !(skips && decide ((il : Int) ∈ p.draftSkipAttnLayers))
    mlp
    moe := if mlp && b.isMoe il then some (buildMoeFfn p nTokens (b.routing.topk p il)) else none }

/-- What the parameters decide about a graph. `captured` are the layers that `capture_eagle3` marks. -/
structure Topology where
  nExpertUsed : Int
  layers : List Layer
  captured : List Nat
  inputs : List GraphInput
  deriving DecidableEq

def topology (c : Setup) (p : GraphParams) : Topology :=
  let b := c.builder p.gtype
  { nExpertUsed := effectiveNExpertUsed p
    layers := (List.range p.hparams.nLayer).map (buildLayer b p)
    captured := if b.captures && p.cparams.eagle3ExtractEnabled then
        (List.range p.hparams.nLayer).filter fun il => decide ((il : Int) ∈ c.extractLayerIndices)
      else []
    inputs := (b.inputs ++ poolingInputs p).map (buildInput c.vTrans p) }

/-- `llm_graph_result`: the parameters it was built with and the graph. -/
structure GraphResult where
  params : GraphParams
  graph : Topology

def buildGraph (c : Setup) (p : GraphParams) : GraphResult := ⟨p, topology c p⟩

/-! ## The comparison -/

/-- `llm_graph_params::allow_reuse` -/
def GraphParams.allowReuse (p other : GraphParams) : Bool :=
  (p.ubatch.equalSeqs == other.ubatch.equalSeqs &&
    p.ubatch.nTokens == other.ubatch.nTokens &&
    p.ubatch.nSeqTokens == other.ubatch.nSeqTokens &&
    p.ubatch.nSeqs == other.ubatch.nSeqs &&
    p.ubatch.nSeqsUnq == other.ubatch.nSeqsUnq &&
    ((!p.ubatch.token && !other.ubatch.token) || (!p.ubatch.embd && !other.ubatch.embd))) &&
  (!p.ubatch.equalSeqs || (p.ubatch.data &&
    (List.range p.ubatch.nSeqsUnq).all fun s => p.ubatch.seqIdUnq s == other.ubatch.seqIdUnq s)) &&
  (p.cparams.embeddings == other.cparams.embeddings &&
    p.cparams.causalAttn == other.cparams.causalAttn &&
    p.arch == other.arch &&
    p.gtype == other.gtype &&
    p.cvec == other.cvec &&
    p.loras == other.loras &&
    p.cross == other.cross &&
    p.eagle3 == other.eagle3 &&
    p.nOutputs == other.nOutputs &&
    p.sharedTokenEmbd == other.sharedTokenEmbd &&
    p.isDraftContext == other.isDraftContext &&
    p.draftSkipAttnLayers == other.draftSkipAttnLayers &&
    p.draftSkipMlpLayers == other.draftSkipMlpLayers &&
    p.draftExpertTopk == other.draftExpertTopk &&
    p.moeTopkLogK == other.moeTopkLogK &&
    p.draftLayerExpertTopk == other.draftLayerExpertTopk &&
    p.moeExpertTopk == other.moeExpertTopk &&
    p.moeReuseEnabled == other.moeReuseEnabled &&
    p.moeReuseRuntime == other.moeReuseRuntime)

/-- `llm_graph_result::can_reuse` -/
def GraphResult.canReuse (r : GraphResult) (q : GraphParams) : Bool :=
  r.params.allowReuse q && r.graph.inputs.all (GraphInput.canReuse q)

/-! ## What the comparison ensures -/

/-- What two sets of parameters that may share a graph have in common. -/
structure Matches (p q : GraphParams) : Prop where
  gtype : p.gtype = q.gtype
  embeddings : p.cparams.embeddings = q.cparams.embeddings
  nTokens : p.ubatch.nTokens = q.ubatch.nTokens
  nSeqsUnq : p.ubatch.nSeqsUnq = q.ubatch.nSeqsUnq
  token : p.ubatch.token = q.ubatch.token
  nOutputs : p.nOutputs = q.nOutputs
  isDraftContext : p.isDraftContext = q.isDraftContext
  draftSkipAttnLayers : p.draftSkipAttnLayers = q.draftSkipAttnLayers
  draftSkipMlpLayers : p.draftSkipMlpLayers = q.draftSkipMlpLayers
  draftExpertTopk : p.draftExpertTopk = q.draftExpertTopk
  moeTopkLogK : p.moeTopkLogK = q.moeTopkLogK
  draftLayerExpertTopk : p.draftLayerExpertTopk = q.draftLayerExpertTopk
  moeExpertTopk : p.moeExpertTopk = q.moeExpertTopk
  moeReuseEnabled : p.moeReuseEnabled = q.moeReuseEnabled
  moeReuseRuntime : p.moeReuseRuntime = q.moeReuseRuntime

/-- Both have tokens or both have embeddings, as each has one of them. -/
theorem Ubatch.token_eq {u v : Ubatch} (h : (!u.token && !v.token || !u.embd && !v.embd) = true) :
    u.token = v.token := by
  have hu := u.one
  have hv := v.one
  rcases Bool.or_eq_true _ _ ▸ h with h | h
  · simp only [Bool.and_eq_true, Bool.not_eq_true'] at h
    rw [h.1, h.2]
  · simp only [Bool.and_eq_true, Bool.not_eq_true'] at h
    rw [hu, hv, h.1, h.2]

theorem Ubatch.embd_eq {u v : Ubatch} (h : u.token = v.token) : u.embd = v.embd := by
  have hu := u.one
  have hv := v.one
  rw [hu, hv] at h
  exact Bool.not_inj h

theorem GraphParams.matches_of_allowReuse {p q : GraphParams} (h : p.allowReuse q = true) : Matches p q := by
  simp only [GraphParams.allowReuse, Bool.and_eq_true, beq_iff_eq] at h
  obtain ⟨⟨⟨⟨⟨⟨⟨-, hn⟩, -⟩, -⟩, hu⟩, ht⟩, -⟩, h⟩ := h
  obtain ⟨⟨⟨⟨⟨⟨⟨⟨⟨⟨⟨⟨⟨⟨⟨⟨⟨⟨he, -⟩, -⟩, hg⟩, -⟩, -⟩, -⟩, -⟩, ho⟩, -⟩, hd⟩, ha⟩, hm⟩, hk⟩, hl⟩, hkl⟩, hmk⟩, hr⟩, hrr⟩ := h
  exact ⟨hg, he, hn, hu, Ubatch.token_eq ht, ho, hd, ha, hm, hk, hl, hkl, hmk, hr, hrr⟩

/-- What two sets of parameters of one context have in common. -/
structure SameContext (p q : GraphParams) : Prop where
  hparams : p.hparams = q.hparams
  kvUnified : p.cparams.kvUnified = q.cparams.kvUnified
  eagle3ExtractEnabled : p.cparams.eagle3ExtractEnabled = q.cparams.eagle3ExtractEnabled
  poolingType : p.cparams.poolingType = q.cparams.poolingType

theorem sameContext_graphParams (c : Setup) (s s' : Settings) (u u' : Ubatch) (m m' : Views) (g g' : GraphType) :
    SameContext (graphParams c s u m g) (graphParams c s' u' m' g') := ⟨rfl, rfl, rfl, rfl⟩

section Shared
variable {p q : GraphParams} (hc : SameContext p q) (h : Matches p q)
include hc h

theorem buildMoeFfn_eq (n : Nat) (k : Int) : buildMoeFfn p n k = buildMoeFfn q n k := by
  simp only [buildMoeFfn, hc.hparams, h.moeReuseEnabled, h.moeReuseRuntime, h.moeTopkLogK]

theorem topk_eq (hk : effectiveNExpertUsed p = effectiveNExpertUsed q) (r : Routing) (il : Nat) :
    r.topk p il = r.topk q il := by
  cases r with
  | context => exact hk
  | draftLayers =>
      have hl : layerTopk p il = layerTopk q il := by rw [layerTopk, layerTopk, hc.hparams, h.draftLayerExpertTopk]
      have hd : draftK p il = draftK q il := by
        simp only [draftK, hl, hk, h.isDraftContext, h.draftLayerExpertTopk, h.draftExpertTopk]
      rw [Routing.topk, Routing.topk, currentK, currentK, hd, hk, hc.hparams]
  | draftAll => simp only [Routing.topk, hk, h.isDraftContext, h.draftExpertTopk]

theorem buildLayer_eq (hk : effectiveNExpertUsed p = effectiveNExpertUsed q) (b : Builder) (il : Nat) :
    buildLayer b p il = buildLayer b q il := by
  simp only [buildLayer, hc.hparams, h.isDraftContext, h.draftSkipMlpLayers, h.draftSkipAttnLayers, h.nOutputs, h.nTokens,
    buildMoeFfn_eq hc h, topk_eq hc h hk]

theorem kqMask_eq {n : Nat} : kqMask p n = kqMask q n := by
  simp only [kqMask, nStream, hc.kvUnified, h.nTokens, h.nSeqsUnq]

/-- The shapes of an input that may be reused. The number of cells is what the input itself compares. -/
theorem buildInput_eq (vTrans : Bool) (k : InputKind) (hr : (buildInput vTrans p k).canReuse q = true) :
    buildInput vTrans p k = buildInput vTrans q k := by
  cases k with
  | embd width => simp only [buildInput, h.token, h.nTokens]
  | features width => simp only [buildInput, h.nTokens]
  | dflash width => simp only [buildInput, Ubatch.embd_eq h.token, h.nTokens]
  | unlisted width => simp only [buildInput, h.nTokens]
  | pos => simp only [buildInput, h.nTokens, hc.hparams]
  | outIds => simp only [buildInput, h.nOutputs]
  | attnKv =>
      simp only [buildInput, GraphInput.canReuse, Bool.and_eq_true, beq_iff_eq, kqMask, Shape.ne,
        List.getD_cons_zero] at hr
      have hn : p.mctx.nKv = q.mctx.nKv := hr.1.2
      simp only [buildInput, kIdxs, vIdxs, kqMask_eq hc h, h.nTokens, hc.hparams, hn]
  | attnKvIswa =>
      simp only [buildInput, GraphInput.canReuse, Bool.and_eq_true, beq_iff_eq, kqMask, Shape.ne,
        List.getD_cons_zero] at hr
      have hn : p.mctx.nKv = q.mctx.nKv := hr.1.1.1.2
      have hs : p.mctx.nKvSwa = q.mctx.nKvSwa := hr.1.2
      simp only [buildInput, kIdxs, vIdxs, kqMask_eq hc h, h.nTokens, hc.hparams, hn, hs]
  | attnScale | mean | cls | crossEmbd | posBucketEnc | posBucketDec | attnNoCache | attnCross | rs | memHybrid =>
      exact absurd hr Bool.false_ne_true

theorem inputs_eq (vTrans : Bool) (ks : List InputKind)
    (hr : (ks.map (buildInput vTrans p)).all (GraphInput.canReuse q) = true) :
    ks.map (buildInput vTrans p) = ks.map (buildInput vTrans q) := by
  rw [List.all_map, List.all_eq_true] at hr
  exact List.map_congr_left fun k hk => buildInput_eq hc h vTrans k (hr k hk)

end Shared

/-- What is left after the comparison is the number of experts. -/
theorem topology_eq_of_canReuse {c : Setup} {p q : GraphParams} (hc : SameContext p q)
    (hr : (buildGraph c p).canReuse q = true) (hk : effectiveNExpertUsed p = effectiveNExpertUsed q) :
    topology c p = topology c q := by
  rw [GraphResult.canReuse, Bool.and_eq_true] at hr
  have hm : Matches p q := GraphParams.matches_of_allowReuse hr.1
  have hin := inputs_eq hc hm c.vTrans _ hr.2
  have hl : buildLayer (c.builder p.gtype) p = buildLayer (c.builder q.gtype) q := by
    funext il
    rw [hm.gtype, buildLayer_eq hc hm hk]
  have hp : poolingInputs p = poolingInputs q := by
    simp only [poolingInputs, hm.embeddings, hc.poolingType]
  rw [topology, topology, hin, hl, hk, hp, hm.gtype, hc.hparams, hc.eagle3ExtractEnabled]

/-! ## The number of experts -/

/-- The context routes to every expert without the warm-up as well. -/
def RoutesToAll (p : GraphParams) : Prop :=
  if p.isDraftContext then p.hparams.nExpertUsed = p.hparams.nExpert
  else if 0 < p.moeExpertTopk then 0 < p.hparams.nExpert ∧ (p.hparams.nExpert : Int) ≤ p.moeExpertTopk
  else p.hparams.nExpertUsed = p.hparams.nExpert

instance (p : GraphParams) : Decidable (RoutesToAll p) := by unfold RoutesToAll; infer_instance

theorem effectiveNExpertUsed_of_warmup {p : GraphParams} (h : p.cparams.warmup = true) :
    effectiveNExpertUsed p = p.hparams.nExpert := by
  rw [effectiveNExpertUsed, if_pos h]

theorem effectiveNExpertUsed_eq_iff {p : GraphParams} (h : p.cparams.warmup = false) :
    effectiveNExpertUsed p = p.hparams.nExpert ↔ RoutesToAll p := by
  rw [effectiveNExpertUsed, RoutesToAll, h, if_neg Bool.false_ne_true]
  split
  · omega
  · split <;> omega

theorem effectiveNExpertUsed_eq {p q : GraphParams} (hc : SameContext p q) (hm : Matches p q)
    (hw : p.cparams.warmup = q.cparams.warmup) : effectiveNExpertUsed p = effectiveNExpertUsed q := by
  simp only [effectiveNExpertUsed, hw, hc.hparams, hm.isDraftContext, hm.moeExpertTopk]

theorem routesToAll_iff {p q : GraphParams} (hc : SameContext p q) (hm : Matches p q) : RoutesToAll p ↔ RoutesToAll q := by
  simp only [RoutesToAll, hc.hparams, hm.isDraftContext, hm.moeExpertTopk]

/-- Two contexts that differ in nothing but the warm-up route to as many experts only if this is all of them. -/
theorem effectiveNExpertUsed_congr_iff {p q : GraphParams} (hc : SameContext p q) (hm : Matches p q) :
    effectiveNExpertUsed p = effectiveNExpertUsed q ↔ p.cparams.warmup = q.cparams.warmup ∨ RoutesToAll q := by
  rcases Bool.eq_false_or_eq_true p.cparams.warmup with hp | hp <;>
    rcases Bool.eq_false_or_eq_true q.cparams.warmup with hq | hq
  · exact iff_of_true (effectiveNExpertUsed_eq hc hm (hp.trans hq.symm)) (Or.inl (hp.trans hq.symm))
  · rw [effectiveNExpertUsed_of_warmup hp, hc.hparams, eq_comm, effectiveNExpertUsed_eq_iff hq, hp, hq]
    simp
  · rw [effectiveNExpertUsed_of_warmup hq, ← hc.hparams, effectiveNExpertUsed_eq_iff hp, routesToAll_iff hc hm, hp, hq]
    simp
  · exact iff_of_true (effectiveNExpertUsed_eq hc hm (hp.trans hq.symm)) (Or.inl (hp.trans hq.symm))

theorem graph_eq_iff {c : Setup} {p q : GraphParams} (hc : SameContext p q) (hr : (buildGraph c p).canReuse q = true) :
    topology c p = topology c q ↔ p.cparams.warmup = q.cparams.warmup ∨ RoutesToAll q := by
  have hm : Matches p q := GraphParams.matches_of_allowReuse (Bool.and_eq_true _ _ ▸ hr).1
  rw [← effectiveNExpertUsed_congr_iff hc hm]
  exact ⟨fun h => congrArg Topology.nExpertUsed h, topology_eq_of_canReuse hc hr⟩

/-- **A graph that is reused is the graph of the new parameters** in the number of experts, the routing of every layer, the
captured layers and the shapes of its inputs, exactly if the warm-up is on for both or off for both, or the context routes
to all experts without it. -/
theorem topology_eq_iff (c : Setup) (s s' : Settings) (u u' : Ubatch) (m m' : Views) (g g' : GraphType)
    (hr : (buildGraph c (graphParams c s u m g)).canReuse (graphParams c s' u' m' g') = true) :
    (buildGraph c (graphParams c s u m g)).graph = (buildGraph c (graphParams c s' u' m' g')).graph ↔
      s.warmup = s'.warmup ∨ RoutesToAll (graphParams c s' u' m' g') :=
  graph_eq_iff (sameContext_graphParams c s s' u u' m m' g g') hr

/-- Two layers with 128 experts, of which 8 are used. -/
def twoLayers : Setup where
  arch := 0
  hparams := { nEmbd := 2048, nLayer := 2, nExpert := 128, nExpertUsed := 8 }
  builder := fun _ => .qwen3moe { nEmbd := 2048, nLayer := 2, nExpert := 128, nExpertUsed := 8 }
  kvUnified := true
  eagle3ExtractEnabled := true
  poolingType := .none
  extractLayerIndices := [1]
  vTrans := false
  cvec := 0
  loras := 1
  cross := 2
  eagle3 := 3

/-- Two tokens of sequence 0. -/
def pair : Ubatch where
  equalSeqs := false
  nTokens := 2
  nSeqTokens := 1
  nSeqs := 2
  nSeqsUnq := 1
  token := true
  embd := false
  one := rfl
  data := true
  seqIdUnq := fun _ => 0

theorem topology_eq_iff_pair :
    (buildGraph twoLayers (graphParams twoLayers { nOutputs := 1 } pair { nKv := 256 } .decoder)).canReuse
      (graphParams twoLayers { nOutputs := 1 } pair { nKv := 256 } .decoder) = true ∧
    ((buildGraph twoLayers (graphParams twoLayers { nOutputs := 1 } pair { nKv := 256 } .decoder)).graph =
      (buildGraph twoLayers (graphParams twoLayers { nOutputs := 1 } pair { nKv := 256 } .decoder)).graph ↔
      false = false ∨ RoutesToAll (graphParams twoLayers { nOutputs := 1 } pair { nKv := 256 } .decoder)) :=
  ⟨by decide, topology_eq_iff twoLayers { nOutputs := 1 } { nOutputs := 1 } pair pair { nKv := 256 } { nKv := 256 }
    .decoder .decoder (by decide)⟩

/-- The two tokens of the warm-up, and then two tokens: the second graph is that of the first, which selects 128 experts. -/
theorem canReuse_after_warmup :
    ¬ ∀ (c : Setup) (s s' : Settings) (u u' : Ubatch) (m m' : Views) (g g' : GraphType),
      (buildGraph c (graphParams c s u m g)).canReuse (graphParams c s' u' m' g') = true →
      (buildGraph c (graphParams c s u m g)).graph = (buildGraph c (graphParams c s' u' m' g')).graph := by
  intro h
  have hr : (buildGraph twoLayers (graphParams twoLayers { nOutputs := 1, warmup := true } pair { nKv := 256 }
      .decoder)).canReuse (graphParams twoLayers { nOutputs := 1 } pair { nKv := 256 } .decoder) = true := by decide
  have hn := congrArg Topology.nExpertUsed (h twoLayers _ _ pair pair _ _ .decoder .decoder hr)
  revert hn
  decide

/-! ## A context over a run -/

/-- The setters of a context. -/
inductive Setter
  | embeddings (value : Bool)
  | causalAttn (value : Bool)
  | warmup (value : Bool)
  | sharedTokenEmbd (tensor : Option Nat)
  | draftContext (isDraft : Bool)
  | draftSkipLayers (attn mlp : List Int)
  | draftExpertTopk (topk : Int)
  | moeTopkLogK (topk : Int)
  | draftLayerExpertTopk (topk : List Int)
  | moeExpertTopk (topk : Int)
  | moeReuse (enabled runtimeStrength : Bool)

def Settings.set (s : Settings) : Setter → Settings
  | .embeddings value => { s with embeddings := value }
  | .causalAttn value => { s with causalAttn := value }
  | .warmup value => { s with warmup := value }
  | .sharedTokenEmbd tensor => { s with sharedTokenEmbd := tensor }
  | .draftContext isDraft => { s with isDraftContext := isDraft }
  | .draftSkipLayers attn mlp => { s with draftSkipAttnLayers := attn, draftSkipMlpLayers := mlp }
  | .draftExpertTopk topk => { s with draftExpertTopk := topk }
  | .moeTopkLogK topk => { s with moeTopkLogK := topk }
  | .draftLayerExpertTopk topk => { s with draftLayerExpertTopk := topk }
  | .moeExpertTopk topk => { s with moeExpertTopk := topk }
  | .moeReuse enabled runtimeStrength =>
    { s with moeReuseEnabled := enabled, moeReuseRuntime := enabled && runtimeStrength }

/-- `result` is `gf_res_prev`; after a reset its parameters are those of an empty ubatch, which no ubatch matches. -/
structure State where
  settings : Settings := {}
  result : Option GraphResult := none

/-- `reset` is what a memory update and a reserved graph do to the result. -/
inductive Op
  | set (setter : Setter)
  | reset
  | processUbatch (ubatch : Ubatch) (mctx : Views) (gtype : GraphType) (nOutputs : Nat)

/-- The parameters of a ubatch that is processed in a state. -/
def State.params (c : Setup) (t : State) (u : Ubatch) (m : Views) (g : GraphType) (n : Nat) : GraphParams :=
  graphParams c { t.settings with nOutputs := n } u m g

/-- `process_ubatch`, as far as the choice of the graph goes. -/
def chooseGraph (c : Setup) (result : Option GraphResult) (q : GraphParams) : GraphResult :=
  match result with
  | some r => if r.canReuse q then r else buildGraph c q
  | none => buildGraph c q

def step (c : Setup) : Op → State → Option State
  | .set setter, t => some { t with settings := t.settings.set setter }
  | .reset, t => some { t with result := none }
  | .processUbatch u m g n, t =>
    some { settings := { t.settings with nOutputs := n }, result := some (chooseGraph c t.result (t.params c u m g n)) }

/-- The warm-up has not changed since the graph was built, or makes no difference. -/
def Op.steady (c : Setup) (t : State) : Op → Prop
  | .processUbatch u m g n =>
    ∀ r, t.result = some r → r.params.cparams.warmup = t.settings.warmup ∨ RoutesToAll (t.params c u m g n)
  | _ => True

/-- The result holds the graph of its own parameters, and these come from the context. -/
def Built (c : Setup) (t : State) : Prop :=
  ∀ r, t.result = some r → ∃ s u m g, r = buildGraph c (graphParams c s u m g)

theorem built_chooseGraph {c : Setup} {t : State} (ht : Built c t) (u : Ubatch) (m : Views) (g : GraphType) (n : Nat) :
    ∃ s' u' m' g', chooseGraph c t.result (t.params c u m g n) = buildGraph c (graphParams c s' u' m' g') := by
  unfold chooseGraph
  split
  · rename_i r hr
    split
    · exact ht r hr
    · exact ⟨_, _, _, _, rfl⟩
  · exact ⟨_, _, _, _, rfl⟩

theorem Built.step {c : Setup} {t v : State} {op : Op} (ht : Built c t) (h : step c op t = some v) : Built c v := by
  cases op with
  | set setter =>
      cases h
      exact ht
  | reset =>
      cases h
      intro r hr
      cases hr
  | processUbatch u m g n =>
      cases h
      intro r hr
      cases hr
      exact built_chooseGraph ht u m g n

theorem chooseGraph_graph {c : Setup} {t : State} (ht : Built c t) {u : Ubatch} {m : Views} {g : GraphType} {n : Nat}
    (hok : (Op.processUbatch u m g n).steady c t) :
    (chooseGraph c t.result (t.params c u m g n)).graph = topology c (t.params c u m g n) := by
  unfold chooseGraph
  split
  · rename_i r hr
    split
    · rename_i hreuse
      have hw := hok r hr
      obtain ⟨s', u', m', g', rfl⟩ := ht r hr
      exact (graph_eq_iff (sameContext_graphParams ..) hreuse).mpr hw
    · rfl
  · rfl

end S2Moe.Graph
