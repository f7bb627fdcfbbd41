import S2Moe.Draft.Budget
import S2Moe.Draft.Counters
import S2Moe.Draft.GenDraft
import S2Moe.Simple.NativeDraft

/-!
# How long a draft is

The standard path of `common_speculative_gen_draft` with both kinds of vocabularies and any draft context, beside the native
drafters and the two tree drafters.

* `Backend`, `genDraftOn` : the standard path over a context that is left open;
* `genDraftOn_of_genDraft` : over the KV cache it does what `genDraft` does;
* `Drafter` : a call of any of the drafters; `Drafter.drafted` : how many tokens it drafts on a path;
* `Drafter.Eager` : it drafts a token before it looks at `n_draft`;
* `drafted_le_iff` : `n_draft` is kept, except by an eager drafter that may draft nothing.
-/

namespace S2Moe.Draft
open S2Moe.Kv S2Moe.Lib
open S2Moe.Spec (Token)

/-! ## The standard path over any context -/

/-- The draft context with its sampler. The result of `llama_decode` is not looked at, so that a decode gives a state
again. -/
structure Backend (σ : Type) where
  clear : σ → σ
  seqRm : Int → Int → σ → σ
  seqAdd : Int → Int → Int → σ → σ
  decode : Nat → List Nat → σ → σ
  samplerReset : σ → σ
  /-- The best candidate in iteration `i`, and whether its probability is below `p_min`. -/
  sample : Nat → σ → (Nat × Bool) × σ

/-- The translations that two vocabularies need which are not compatible. -/
structure Translation where
  promptToDft : List Nat → List Nat
  lastToDft : Nat → Nat
  resultToTgt : List Nat → List Nat

/-- `common_speculative`, as far as the standard path writes it. -/
structure Standard (σ : Type) where
  state : σ
  promptDft : List Nat

/-- The arguments of a call, and `llama_n_ctx`. -/
structure Request where
  prompt : List Nat
  idLast : Nat
  nReuse : Int
  nCtx : Nat

section
variable {σ : Type} (b : Backend σ)

def Backend.put (spec : Standard σ) (pos : Nat) (toks : List Nat) : Standard σ :=
  ⟨b.decode pos toks spec.state, spec.promptDft ++ toks⟩

def sampleTokens (nDraft nPast : Nat) : Nat → Nat → Standard σ → List Nat → List Nat × Standard σ
  | 0, _, spec, result => (result, spec)
  | turns + 1, i, spec, result =>
    let r := b.sample i spec.state
    let spec := { spec with state := r.2 }
    let result := result ++ [r.1.1]
    if nDraft ≤ result.length then (result, spec)
    else if r.1.2 then (result, spec)
    else sampleTokens nDraft nPast turns (i + 1) (b.put spec (nPast + i + 1) [r.1.1]) result

def Request.iStart (req : Request) (nDraft : Nat) : Nat := req.prompt.length - (req.nCtx - nDraft)

/-- `(reuse_i, reuse_n)`. -/
def Request.reuse (req : Request) (nDraft : Nat) (promptDft : List Nat) : Nat × Nat :=
  findReuse req.nReuse (req.nCtx - nDraft) req.prompt (req.iStart nDraft) promptDft

/-- From the prompt's batch on. -/
def draftTokens (req : Request) (nDraft reuseN : Nat) (spec : Standard σ) : List Nat × Standard σ :=
  let new := req.prompt.drop (req.iStart nDraft + reuseN)
  let spec := if new = [] then spec else b.put spec reuseN new
  let nPast := spec.promptDft.length
  let spec := b.put spec nPast [req.idLast]
  sampleTokens b nDraft nPast nDraft 0 { spec with state := b.samplerReset spec.state } []

def Backend.reuseShift (spec : Standard σ) (reuseI : Nat) : Standard σ :=
  if 0 < reuseI then ⟨b.seqAdd reuseI (-1) (-reuseI) (b.seqRm 0 reuseI spec.state), spec.promptDft.drop reuseI⟩ else spec

def Backend.reuseCut (spec : Standard σ) (reuseN : Nat) : Standard σ :=
  if reuseN < spec.promptDft.length then ⟨b.seqRm reuseN (-1) spec.state, spec.promptDft.take reuseN⟩ else spec

/-- An old draft that is handed back: the tokens behind `id_last`. -/
def handedBack (req : Request) (nDraft : Nat) (promptDft : List Nat) : Option (List Nat) :=
  let r := req.reuse nDraft promptDft
  if r.2 ≠ 0 ∧ promptDft[r.1 + r.2]? = some req.idLast then some (promptDft.drop (r.1 + r.2 + 1)) else none

/-- The standard path, up to the translation of its result. The first component says whether the result is an old draft. -/
def draftOn (req : Request) (nDraft : Nat) (spec : Standard σ) : Bool × List Nat × Standard σ :=
  let r := req.reuse nDraft spec.promptDft
  if r.2 = 0 then (false, draftTokens b req nDraft 0 ⟨b.clear spec.state, []⟩)
  else
    match handedBack req nDraft spec.promptDft with
    -- a token is pushed before the length is tested
    | some old => (true, old.take (max nDraft 1), spec)
    | none => (false, draftTokens b req nDraft r.2 (b.reuseCut (b.reuseShift spec r.1) r.2))

def Translation.request (v : Translation) (req : Request) : Request :=
  { req with prompt := v.promptToDft req.prompt, idLast := v.lastToDft req.idLast }

/-- `common_speculative_gen_draft` without a native drafter. -/
def genDraftOn (v : Option Translation) (req : Request) (nDraft : Nat) (spec : Standard σ) : List Nat × Standard σ :=
  match v with
  | none => (draftOn b req nDraft spec).2
  | some v =>
    match draftOn b (v.request req) nDraft spec with
    | (true, old, spec) => (old, spec)
    | (false, result, spec) => ((v.resultToTgt result).take nDraft, spec)

end

/-! ## Over the KV cache -/

/-- The draft context as its cache; a refused decode leaves the cache as it is. -/
def cacheBackend (ctx : Ctx) (call : Call) : Backend (Cache Nat) where
  clear := Cache.clear
  seqRm p0 p1 c := c.seqRm 0 p0 p1
  seqAdd p0 p1 shift c := c.seqAdd 0 p0 p1 shift
  decode pos toks c := (c.llamaDecode ctx.nSeqMax ctx.nUbatch (rowsFrom pos toks)).getD c
  samplerReset c := c
  sample i c := (call.sample i c, c)

def Call.request (call : Call) (ctx : Ctx) : Request := ⟨call.prompt, call.idLast, call.nReuse, ctx.nCtx⟩

def Speculative.standard (spec : Speculative) : Standard (Cache Nat) := ⟨spec.cache, spec.promptDft⟩

section Cache
variable {ctx : Ctx} {call : Call}

theorem put_of_decode (call : Call) {spec spec' : Speculative} {pos : Nat} {toks : List Nat}
    (h : spec.decode ctx pos toks = some spec') :
    (cacheBackend ctx call).put spec.standard pos toks = spec'.standard := by
  obtain ⟨c, hc, rfl⟩ := Option.map_eq_some_iff.mp h
  simp only [Backend.put, cacheBackend, Speculative.standard, Speculative.put, hc, Option.getD_some]

theorem sampleTokens_of_sampleLoop (nPast : Nat) : ∀ (turns i : Nat) (spec : Speculative) (result : List Nat)
    {r : List Nat × Speculative}, sampleLoop ctx call nPast turns i spec result = some r →
    sampleTokens (cacheBackend ctx call) call.nDraft nPast turns i spec.standard result = (r.1, r.2.standard)
  | 0, _, _, _, _, h => by
    cases h
    rfl
  | turns + 1, i, spec, result, r, h => by
    rw [sampleLoop] at h
    rw [sampleTokens]
    change (if call.nDraft ≤ (result ++ [(call.sample i spec.cache).1]).length then _
      else if (call.sample i spec.cache).2 = true then _ else _) = _
    split at h
    · rename_i hfull
      cases h
      exact if_pos hfull
    · rename_i hfull
      rw [if_neg hfull]
      split at h
      · rename_i hlow
        cases h
        exact if_pos hlow
      · rename_i hlow
        rw [if_neg hlow]
        split at h
        · cases h
        · rename_i spec' hdec
          have hput := put_of_decode call hdec
          have hrest := sampleTokens_of_sampleLoop nPast turns (i + 1) spec' _ h
          rw [← hput] at hrest
          exact hrest

theorem draftTokens_of_draftFrom {spec : Speculative} {reuseN : Nat} {d : Drafted}
    (h : draftFrom ctx call reuseN spec = some d) :
    draftTokens (cacheBackend ctx call) (call.request ctx) call.nDraft reuseN spec.standard =
      (d.result, d.spec.standard) := by
  rw [draftFrom] at h
  rw [draftTokens]
  split at h
  · cases h
  · rename_i spec₁ hprompt
    split at h
    · cases h
    · rename_i spec₂ hlast
      obtain ⟨r, hloop, rfl⟩ := Option.map_eq_some_iff.mp h
      have hstart : (if (call.request ctx).prompt.drop ((call.request ctx).iStart call.nDraft + reuseN) =
        [] then spec.standard
          else (cacheBackend ctx call).put spec.standard reuseN
            ((call.request ctx).prompt.drop ((call.request ctx).iStart call.nDraft + reuseN))) = spec₁.standard := by
        change (if call.prompt.drop (iStart ctx call + reuseN) = [] then _ else _) = _
        split at hprompt
        · rename_i hnil
          cases hprompt
          exact if_pos hnil
        · rename_i hnil
          rw [if_neg hnil]
          exact put_of_decode call hprompt
      rw [hstart]
      change sampleTokens (cacheBackend ctx call) call.nDraft spec₁.promptDft.length call.nDraft 0
        ((cacheBackend ctx call).put spec₁.standard spec₁.promptDft.length [call.idLast]) [] = _
      rw [put_of_decode call hlast]
      exact sampleTokens_of_sampleLoop _ _ _ _ _ hloop

theorem reuseShift_standard (spec : Speculative) (reuseI : Nat) :
    (cacheBackend ctx call).reuseShift spec.standard reuseI = (spec.reuseShift reuseI).standard := by
  unfold Speculative.reuseShift Backend.reuseShift
  split_ifs <;> rfl

theorem reuseCut_standard (spec : Speculative) (reuseN : Nat) :
    (cacheBackend ctx call).reuseCut spec.standard reuseN = (spec.reuseCut reuseN).standard := by
  unfold Speculative.reuseCut Backend.reuseCut
  have hlen : spec.standard.promptDft.length = spec.promptDft.length := rfl
  rw [hlen]
  split_ifs <;> rfl

/-- **A call whose decodes all succeed**, with one vocabulary. -/
theorem genDraftOn_of_genDraft {spec : Speculative} {d : Drafted} (h : genDraft ctx call spec = some d) :
    genDraftOn (cacheBackend ctx call) none (call.request ctx) call.nDraft spec.standard = (d.result, d.spec.standard) := by
  have hreuse : (call.request ctx).reuse call.nDraft spec.standard.promptDft =
      findReuse call.nReuse (ctx.nCtx - call.nDraft) call.prompt (iStart ctx call) spec.promptDft := rfl
  have hback : handedBack (call.request ctx) call.nDraft spec.standard.promptDft =
      if ((call.request ctx).reuse call.nDraft spec.standard.promptDft).2 ≠ 0 ∧
        spec.promptDft[((call.request ctx).reuse call.nDraft spec.standard.promptDft).1 +
          ((call.request ctx).reuse call.nDraft spec.standard.promptDft).2]? = some call.idLast
      then some (spec.promptDft.drop (((call.request ctx).reuse call.nDraft spec.standard.promptDft).1 +
        ((call.request ctx).reuse call.nDraft spec.standard.promptDft).2 + 1)) else none := rfl
  unfold genDraft at h
  extract_lets r at h
  change _ = r at hreuse
  rw [hreuse] at hback
  unfold genDraftOn draftOn
  rw [hreuse]
  dsimp only
  split at h
  · rename_i hzero
    rw [hzero] at h
    rw [if_pos hzero]
    show draftTokens _ _ _ 0 (spec.put spec.cache.clear []).standard = _
    rw [draftTokens_of_draftFrom h]
  · rename_i hzero
    rw [if_neg hzero]
    split at h
    · rename_i hlast
      cases h
      rw [hback, if_pos ⟨hzero, hlast⟩]
    · rename_i hlast
      rw [hback, if_neg fun hc => hlast hc.2]
      rw [← draftTokens_of_draftFrom h, ← reuseCut_standard, ← reuseShift_standard]

end Cache

/-! ## The lengths -/

section Lengths
variable {σ F : Type}

/-- A turn pushes one token. -/
theorem sampleTokens_length (b : Backend σ) (nDraft nPast : Nat) : ∀ (turns i : Nat) (spec : Standard σ) (result : List Nat),
    (sampleTokens b nDraft nPast turns i spec result).1.length ≤ result.length + turns
  | 0, _, _, _ => le_rfl
  | turns + 1, i, spec, result => by
    rw [sampleTokens]
    split_ifs
    · rw [List.length_append, List.length_singleton]
      omega
    · rw [List.length_append, List.length_singleton]
      omega
    · refine (sampleTokens_length b nDraft nPast turns (i + 1) _ _).trans ?_
      rw [List.length_append, List.length_singleton]
      omega

theorem draftTokens_length (b : Backend σ) (req : Request) (nDraft reuseN : Nat) (spec : Standard σ) :
    (draftTokens b req nDraft reuseN spec).1.length ≤ nDraft := by
  have hlen := sampleTokens_length b nDraft
  rw [draftTokens]
  exact (hlen _ nDraft 0 _ []).trans (by rw [List.length_nil, Nat.zero_add])

/-- Only an old draft can be too long. -/
theorem draftOn_length (b : Backend σ) (req : Request) (nDraft : Nat) (spec : Standard σ) :
    (draftOn b req nDraft spec).2.1.length ≤ nDraft ∨
      ∃ old, handedBack req nDraft spec.promptDft = some old ∧
        draftOn b req nDraft spec = (true, old.take (max nDraft 1), spec) := by
  unfold draftOn
  dsimp only
  split_ifs
  · exact .inl (draftTokens_length b req nDraft _ _)
  · cases hback : handedBack req nDraft spec.promptDft with
    | none => exact .inl (draftTokens_length b req nDraft _ _)
    | some old => exact .inr ⟨old, rfl, rfl⟩

/-- The request in the draft model's vocabulary. -/
def Request.inDft (req : Request) : Option Translation → Request
  | none => req
  | some v => v.request req

theorem handedBack_reuse {req : Request} {nDraft : Nat} {promptDft old : List Nat}
    (h : handedBack req nDraft promptDft = some old) : (req.reuse nDraft promptDft).2 ≠ 0 := by
  rw [handedBack] at h
  split at h
  · rename_i hc
    exact hc.1
  · cases h

theorem draftOn_of_handedBack (b : Backend σ) {req : Request} {nDraft : Nat} {spec : Standard σ} {old : List Nat}
    (h : handedBack req nDraft spec.promptDft = some old) :
    draftOn b req nDraft spec = (true, old.take (max nDraft 1), spec) := by
  unfold draftOn
  dsimp only
  rw [if_neg (handedBack_reuse h), h]

theorem genDraftOn_length_le_iff (b : Backend σ) (v : Option Translation) (req : Request) (nDraft : Nat) (spec : Standard σ) :
    (genDraftOn b v req nDraft spec).1.length ≤ nDraft ↔
      ¬ (nDraft = 0 ∧ ∃ old, handedBack (req.inDft v) nDraft spec.promptDft = some old ∧ old ≠ []) := by
  have hback : ∀ old, handedBack (req.inDft v) nDraft spec.promptDft = some old →
      (genDraftOn b v req nDraft spec).1 = old.take (max nDraft 1) := by
    intro old hold
    have hon := draftOn_of_handedBack b hold
    cases v with
    | none => rw [genDraftOn, show draftOn b req nDraft spec = _ from hon]
    | some v => rw [genDraftOn, show draftOn b (v.request req) nDraft spec = _ from hon]
  constructor
  · rintro hle ⟨rfl, old, hold, hne⟩
    rw [hback old hold, List.length_take] at hle
    have := List.length_pos_of_ne_nil hne
    omega
  · intro hno
    rcases draftOn_length b (req.inDft v) nDraft spec with hle | ⟨old, hold, -⟩
    · cases v with
      | none => exact hle
      | some v =>
        rw [genDraftOn]
        change (match draftOn b (v.request req) nDraft spec with | (true, old, spec) => _ | (false, result, spec) => _ :
          List Nat × Standard σ).1.length ≤ nDraft
        change (draftOn b (v.request req) nDraft spec).2.1.length ≤ nDraft at hle
        split
        · rename_i heq
          rw [heq] at hle
          exact hle
        · exact List.length_take_le _ _
    · rw [hback old hold, List.length_take]
      rcases Nat.eq_zero_or_pos nDraft with hzero | hpos
      · have hnil : old = [] := by
          by_contra hne
          exact hno ⟨hzero, old, hold, hne⟩
        rw [hnil, List.length_nil]
        omega
      · omega

/-! ## The native drafters -/

theorem eagle3Loop_length (ctx : Simple.DraftCtx) (call : Simple.Call) (n : Nat) : ∀ (turns i : Nat) (last : Token)
    (spec : Simple.Speculative F) (result : List Token) {r : List Token × Simple.Speculative F},
    Simple.eagle3Loop ctx call n turns i last spec result = some r →
      result.length ≤ r.1.length ∧ r.1.length ≤ result.length + turns
  | 0, _, _, _, _, _, h => by
    cases h
    exact ⟨le_rfl, le_rfl⟩
  | turns + 1, i, last, spec, result, r, h => by
    rw [Simple.eagle3Loop] at h
    split at h
    · cases h
    · dsimp only at h
      have hlen : ∀ x, (result ++ [x]).length = result.length + 1 :=
        fun x => by rw [List.length_append, List.length_singleton]
      split at h
      · obtain ⟨hge, hle⟩ := eagle3Loop_length ctx call n turns (i + 1) _ _ _ h
        rw [hlen] at hge hle
        omega
      · cases h
        rw [hlen]
        omega

/-- EAGLE3 pushes the first token before it looks at `n_draft`. -/
theorem genEagle3Draft_length {ctx : Simple.DraftCtx} {call : Simple.Call} {features : List F} {prompt : List Token}
    {idLast : Token} {spec : Simple.Speculative F} {r : List Token × Simple.Speculative F}
    (h : Simple.genEagle3Draft ctx call features prompt idLast spec = some r) :
    1 ≤ r.1.length ∧ r.1.length ≤ max 1 call.nDraft.toNat := by
  rw [Simple.genEagle3Draft] at h
  dsimp only at h
  split at h
  · cases h
  · split at h
    · cases h
    · split at h
      · cases h
      · split at h
        · obtain ⟨hge, hle⟩ := eagle3Loop_length _ _ _ _ _ _ _ _ h
          rw [List.length_singleton] at hge hle
          omega
        · cases h
          exact ⟨le_rfl, le_max_left _ _⟩

theorem blockSample_length (call : Simple.Call) (domino : Bool) :
    ∀ (n i : Nat), (Simple.blockSample call domino n i).length ≤ n
  | 0, _ => le_rfl
  | n + 1, i => by
    rw [Simple.blockSample]
    split_ifs
    · rw [List.length_cons]
      exact Nat.succ_le_succ (blockSample_length call domino n (i + 1))
    · exact Nat.succ_le_succ (Nat.zero_le n)

/-- DFlash has at most `n_draft` tokens, which may be none. -/
theorem genDflashDraft_length {ctx : Simple.DraftCtx} {blockSize : Nat} {mask : Token} {domino : Bool} {call : Simple.Call}
    {features : List F} {prompt : List Token} {idLast : Token} {spec : Simple.Speculative F}
    {r : List Token × Simple.Speculative F}
    (h : Simple.genDflashDraft ctx blockSize mask domino call features prompt idLast spec = some r) :
    r.1.length ≤ call.nDraft.toNat := by
  rw [Simple.genDflashDraft] at h
  dsimp only at h
  split at h
  · cases h
  · split at h
    · cases h
    · split at h
      · cases h
      · split at h
        · cases h
          exact Nat.zero_le _
        · obtain ⟨spec', -, rfl⟩ := Option.map_eq_some_iff.mp h
          refine (blockSample_length call domino _ 0).trans ?_
          omega

end Lengths

/-! ## The tree drafters -/

namespace Target
variable {cfg : Config}

/-- No row is behind position `p`. -/
def Drafting.PosLe (t : Drafting) (p : Int) : Prop := ∀ r ∈ t.batchTgt, r.pos ≤ p

theorem Drafting.PosLe.mono {t : Drafting} {p q : Int} (h : t.PosLe p) (hpq : p ≤ q) : t.PosLe q :=
  fun r hr => (h r hr).trans hpq

theorem Drafting.PosLe.of_eq {t t' : Drafting} {p : Int} (h : t.PosLe p) (heq : t'.batchTgt = t.batchTgt) : t'.PosLe p := by
  intro r hr
  rw [heq] at hr
  exact h r hr

theorem Drafting.PosLe.commit {t : Drafting} {p pos : Int} (h : t.PosLe p) (hpos : pos ≤ p) (s : Nat) (id : Token) :
    (t.commit s id pos).PosLe p := by
  intro r hr
  rcases List.mem_append.mp hr with hr | hr
  · exact h r hr
  · rw [List.mem_singleton.mp hr]
    exact hpos

theorem Drafting.PosLe.splitOriginal {t : Drafting} {p : Int} (h : t.PosLe p) (s : Nat) : (t.splitOriginal s).PosLe p := by
  intro r hr
  obtain ⟨r', hr', rfl⟩ := List.mem_map.mp hr
  split_ifs
  · exact h r' hr'
  · exact h r' hr'

theorem Drafting.PosLe.splitsOriginal {c : Candidates} {s : Nat} {p : Int} : ∀ (fs : List Nat) {t : Drafting} (sa : List Nat),
    t.PosLe p → (Target.splitsOriginal cfg c s fs t sa).1.PosLe p
  | [], _, _, h => h
  | f :: fs, t, sa, h => by
    rw [Target.splitsOriginal]
    split_ifs
    · exact Drafting.PosLe.splitsOriginal fs _ (h.splitOriginal s)
    · exact h

theorem Drafting.PosLe.addOriginal {i : Nat} {c : Candidates} : ∀ (sa : List Nat) (k : Nat) {t : Drafting},
    t.PosLe (cfg.nPastTgt + i + 1) → (Target.addOriginal cfg i c sa k t).PosLe (cfg.nPastTgt + i + 1)
  | [], _, _, h => h
  | s :: sa, k, t, h => by
    rw [Target.addOriginal]
    have hpropose : (t.propose c s k).PosLe (cfg.nPastTgt + i + 1) := h
    exact Drafting.PosLe.addOriginal sa (k + 1) (hpropose.commit le_rfl s _)

theorem turnOriginal_posLe {i : Nat} (cands : Nat → Candidates) {t : Drafting} (h : t.PosLe (cfg.nPastTgt + i)) :
    (turnOriginal cfg i cands t).PosLe (cfg.nPastTgt + i + 1) := by
  refine foldl_range_rule (f := draftSeqOriginal cfg i cands) (s := t.startTurn)
    (P := fun _ t => t.PosLe (cfg.nPastTgt + i + 1)) (h.mono (Int.le_add_one le_rfl)) cfg.nSeqDft fun s _ t ht => ?_
  rw [draftSeqOriginal]
  split_ifs
  · exact (ht.splitsOriginal _ _).addOriginal _ _
  · exact ht

theorem draftTreeOriginal_posLe (oracle : Nat → Nat → Candidates) : ∀ (n i : Nat) {t : Drafting}, t.PosLe (cfg.nPastTgt + i) →
    (draftTreeOriginal cfg oracle n i t).PosLe (cfg.nPastTgt + (i + n : Nat))
  | 0, _, _, h => h
  | n + 1, i, t, h => by
    have hturn := turnOriginal_posLe (oracle i) h
    rw [draftTreeOriginal]
    split_ifs
    · exact hturn.mono (by push_cast; omega)
    · have hrest := draftTreeOriginal_posLe oracle n (i + 1)
        (hturn.mono (q := cfg.nPastTgt + (i + 1 : Nat)) (by push_cast; omega))
      rwa [show i + 1 + n = i + (n + 1) by omega] at hrest

theorem addSeq_posLe {n : Nat} {p : Int} : ∀ (idxs : List Nat) {rows : List Row}, (∀ r ∈ rows, r.pos ≤ p) →
    ∀ r ∈ addSeq n idxs rows, r.pos ≤ p
  | [], _, h => h
  | k :: idxs, rows, h => by
    rw [addSeq]
    refine addSeq_posLe idxs fun r hr => ?_
    obtain ⟨j, hj⟩ := List.mem_iff_getElem?.mp hr
    rw [List.getElem?_modify] at hj
    obtain ⟨r', hr', rfl⟩ := Option.map_eq_some_iff.mp hj
    have hpos := h r' (List.mem_of_getElem? hr')
    split_ifs <;> exact hpos

theorem Drafting.PosLe.choose {t : Drafting} {step : Nat} (h : t.PosLe (cfg.nPastTgt + step + 1)) (c : Cand) :
    (t.choose cfg step c).PosLe (cfg.nPastTgt + step + 1) := by
  have hseq : ({ t with batchTgt := addSeq c.seq (t.drafts c.seq).iBatchTgt t.batchTgt } : Drafting).PosLe
      (cfg.nPastTgt + step + 1) := addSeq_posLe _ h
  rw [Drafting.choose]
  split_ifs
  · exact hseq.commit le_rfl _ _
  · exact h.commit le_rfl _ _

theorem selectLoop_posLe {step : Nat} (pass : Nat → Bool) : ∀ (cs : List Cand) {t : Drafting} (nodes : Nat) (sel : List Nat),
    t.PosLe (cfg.nPastTgt + step + 1) → (selectLoop cfg step pass cs t nodes sel).1.PosLe (cfg.nPastTgt + step + 1)
  | [], _, _, _, h => h
  | c :: cs, t, nodes, sel, h => by
    rw [selectLoop]
    split_ifs
    · exact h
    · exact selectLoop_posLe pass cs nodes sel h
    · exact selectLoop_posLe pass cs nodes sel h
    · exact h
    · exact selectLoop_posLe pass cs (nodes + 1) (c.seq :: sel) (h.choose c)

theorem addPrune_batchTgt (step parent : Nat) (c : Candidates) : ∀ (sa : List Nat) (k : Nat) (r : Drafting × List Cand),
    (addPrune step parent c sa k r).1.batchTgt = r.1.batchTgt
  | [], _, _ => rfl
  | _ :: sa, k, (_, _) => addPrune_batchTgt step parent c sa (k + 1) _

theorem turnPrune_posLe {step : Nat} (cands : Nat → Candidates) (sc : Scoring) {p : Pruning}
    (h : p.tree.PosLe (cfg.nPastTgt + step)) : (turnPrune cfg step cands sc p).2.tree.PosLe (cfg.nPastTgt + step + 1) := by
  have hprop : ((List.range cfg.nSeqDft).foldl (draftSeqPrune cfg step cands) (p.tree.startTurn, [])).1.batchTgt =
      p.tree.batchTgt := by
    refine foldl_range_rule (f := draftSeqPrune cfg step cands) (s := (p.tree.startTurn, []))
      (P := fun _ r => r.1.batchTgt = p.tree.batchTgt) rfl cfg.nSeqDft fun s _ r hr => ?_
    rw [draftSeqPrune]
    dsimp only
    split_ifs
    · exact hr
    · rw [addPrune_batchTgt, splitsPrune_batchTgt]
      exact hr
    · exact hr
  have hle := h.mono (Int.le_add_one le_rfl)
  rw [turnPrune]
  dsimp only
  split_ifs
  · exact hle.of_eq hprop
  · exact (selectLoop_posLe sc.pass _ _ _ (hle.of_eq hprop)).of_eq (foldl_takeBack_batchTgt _ _)

theorem draftTreePrune_posLe (oracle : Nat → Nat → Candidates) (sc : Nat → Scoring) : ∀ (n step : Nat) {p : Pruning},
    p.tree.PosLe (cfg.nPastTgt + step) → (draftTreePrune cfg oracle sc n step p).tree.PosLe (cfg.nPastTgt + (step + n : Nat))
  | 0, _, _, h => h
  | n + 1, step, p, h => by
    have hturn := turnPrune_posLe (oracle step) (sc step) h
    rw [draftTreePrune]
    split
    · split
      · rename_i p' heq
        rw [heq] at hturn
        have hrest := draftTreePrune_posLe oracle sc n (step + 1)
          (hturn.mono (q := cfg.nPastTgt + (step + 1 : Nat)) (by push_cast; omega))
        rwa [show step + 1 + n = step + (n + 1) by omega] at hrest
      · rename_i p' heq
        rw [heq] at hturn
        exact hturn.mono (by push_cast; omega)
    · exact h.mono (by push_cast; omega)

/-- The depth of the rows below the first token. -/
def treeDepth (nPastTgt : Int) (rows : List Row) : Nat := (rows.map fun r => (r.pos - nPastTgt).toNat).foldr max 0

theorem treeDepth_le {nPastTgt : Int} {n : Nat} : ∀ {rows : List Row}, (∀ r ∈ rows, r.pos ≤ nPastTgt + n) →
    treeDepth nPastTgt rows ≤ n
  | [], _ => Nat.zero_le _
  | r :: rows, h => by
    obtain ⟨hr, hrows⟩ := List.forall_mem_cons.mp h
    have hdepth : (r.pos - nPastTgt).toNat ≤ n := by omega
    exact max_le hdepth (treeDepth_le hrows)

/-- The tree of a round has at most `n_draft` levels. -/
theorem draftTree_depth (cfg : Config) (prune : Bool) (oracle : Nat → Nat → Candidates) (sc : Nat → Scoring) (tok : Token)
    (drafts : Nat → SeqDraft) :
    treeDepth cfg.nPastTgt (draftTree cfg prune oracle sc (startRound cfg tok drafts)).1.batchTgt ≤ cfg.nDraft := by
  have hstart : (startRound cfg tok drafts).PosLe (cfg.nPastTgt + (0 : Nat)) := by
    intro r hr
    rw [List.mem_singleton.mp hr]
    exact Int.le_add_of_nonneg_right le_rfl
  apply treeDepth_le
  rw [draftTree]
  split_ifs
  · have := draftTreePrune_posLe oracle sc cfg.nDraft 0 (p := startPruning (startRound cfg tok drafts)) hstart
    rwa [Nat.zero_add] at this
  · have := draftTreeOriginal_posLe oracle cfg.nDraft 0 hstart
    rwa [Nat.zero_add] at this

end Target

/-! ## All drafters -/

section Drafters
variable {σ F : Type}

/-- A drafter with its state and what it is asked, but for `n_draft`. -/
inductive Drafter (σ F : Type) where
  | standard (b : Backend σ) (v : Option Translation) (req : Request) (spec : Standard σ)
  | native (kind : Simple.Kind) (ctx : Simple.DraftCtx) (sample : Nat → Token × Bool) (features : List F)
    (prompt : List Token)
      (idLast : Token) (spec : Simple.Speculative F)
  | tree (p : Target.Settings) (nPastTgt : Int) (oracle : Nat → Nat → Target.Candidates) (sc : Nat → Target.Scoring)
      (tok : Token) (drafts : Nat → Target.SeqDraft)

/-- How many tokens are drafted, on a path of the tree where there is one. A native drafter can fail an assertion. -/
def Drafter.drafted (nDraft : Nat) : Drafter σ F → Option Nat
  | .standard b v req spec => some (genDraftOn b v req nDraft spec).1.length
  | .native kind ctx sample features prompt idLast spec =>
    (Simple.genDraft ctx kind ⟨nDraft, sample⟩ features prompt idLast spec).map fun r => r.1.length
  | .tree p nPastTgt oracle sc tok drafts =>
    some (Target.treeDepth nPastTgt (Target.draftTree (p.config nDraft nPastTgt) p.prune oracle sc
      (Target.startRound (p.config nDraft nPastTgt) tok drafts)).1.batchTgt)

/-- The first token is pushed in front of any test: by EAGLE3, and where the standard path hands back an old draft. -/
def Drafter.Eager (nDraft : Nat) : Drafter σ F → Prop
  | .standard _ v req spec => ∃ old, handedBack (req.inDft v) nDraft spec.promptDft = some old ∧ old ≠ []
  | .native .eagle3 .. => True
  | .native (.dflash ..) .. => False
  | .tree .. => False

/-- **The length of a draft.** It is at most `n_draft`, except where an eager drafter is asked for no token. -/
theorem drafted_le_iff (d : Drafter σ F) {nDraft n : Nat} (h : d.drafted nDraft = some n) :
    n ≤ nDraft ↔ ¬ (nDraft = 0 ∧ d.Eager nDraft) := by
  cases d with
  | standard b v req spec =>
    cases h
    exact genDraftOn_length_le_iff b v req nDraft spec
  | native kind ctx sample features prompt idLast spec =>
    obtain ⟨r, hrun, rfl⟩ := Option.map_eq_some_iff.mp h
    cases kind with
    | eagle3 =>
      obtain ⟨hge, hle⟩ := genEagle3Draft_length hrun
      rw [Int.toNat_natCast] at hle
      show r.1.length ≤ nDraft ↔ ¬ (nDraft = 0 ∧ True)
      rw [and_true]
      omega
    | dflash blockSize mask domino =>
      have hle := genDflashDraft_length hrun
      exact iff_of_true hle fun hc => hc.2
  | tree p nPastTgt oracle sc tok drafts =>
    cases h
    exact iff_of_true (Target.draftTree_depth (p.config nDraft nPastTgt) p.prune oracle sc tok drafts) fun hc => hc.2

/-- A context that is not asked anything. -/
def idle : Backend Unit where
  clear _ := ()
  seqRm _ _ _ := ()
  seqAdd _ _ _ _ := ()
  decode _ _ _ := ()
  samplerReset _ := ()
  sample _ _ := ((0, false), ())

/-- The last draft was `[7, 8]` behind the prompt `[5]`, and the target sampled 7. -/
def unusedDraft : Drafter Unit Unit := .standard idle none ⟨[5], 7, 0, 16⟩ ⟨(), [5, 7, 8]⟩

theorem drafted_le_iff_unusedDraft : unusedDraft.drafted 1 = some 1 ∧ (1 ≤ 1 ↔ ¬ (1 = 0 ∧ unusedDraft.Eager 1)) :=
  ⟨by decide, drafted_le_iff unusedDraft (by decide)⟩

/-- Asked for no token, it hands back one. -/
theorem drafted_unusedDraft_zero : ¬ ∀ (d : Drafter Unit Unit) (nDraft n : Nat), d.drafted nDraft = some n → n ≤ nDraft := by
  intro hall
  have hone : unusedDraft.drafted 0 = some 1 := by decide
  exact absurd (hall unusedDraft 0 1 hone) (by decide)

end Drafters

end S2Moe.Draft
