import Mathlib
import S2Moe.Grammar.Mask
import S2Moe.Sampling.RingBuffer

/-!
# `common_sampler`

The chain of samplers is a parameter: what it makes of the candidates and of its own state, and which of them it selects. The
logits are of any kind.

* `GrammarSampler.accept` : a token is read by the grammar, which may wait for a trigger first;
* `Sampler.sample` : the grammar before the chain, or behind it on the one token that was selected, and before it only when
that token does not fit;
* `Sampler.next` : a token is sampled and accepted;
* `sampleAndAcceptN` : tokens are sampled along a draft up to the first that differs;
* `Chain.Sound` : what is asked of a chain;
* `greedy`, `greedy_sound` : the chain that selects the first of the largest logits.
-/

namespace S2Moe.Sampling
open S2Moe.Grammar

abbrev Token := Nat

/-- `trigger_tokens` and `trigger_patterns`. A pattern matches the whole buffer or nothing. Its groups have a position and a
length, the whole match comes first. -/
structure Triggers where
  tokens : List Token := []
  patterns : List (Text → Option (List (Nat × Nat))) := []

/-- The first group that is not empty, or the whole match. -/
def constrainedStart (groups : List (Nat × Nat)) : Nat :=
  ((groups.tail.find? fun group => decide (0 < group.2)).getD (groups.headD (0, 0))).1

/-- Where the constrained part of the buffer starts, by the first pattern that matches. -/
def Triggers.start? (triggers : Triggers) (buffer : Text) : Option Nat :=
  triggers.patterns.findSome? fun regexMatch => (regexMatch buffer).map constrainedStart

/-- A chain of samplers with a state of its own. `apply` returns the candidates it leaves and the index in `selected`. -/
structure Chain (L C : Type) where
  apply : C → List (TokenData L) → C × List (TokenData L) × Option Nat
  accept : C → Token → C

/-- What a sampler is set up with. `one` is the logit of the token that is tested alone. -/
structure Setup (L C : Type) where
  negInf : L
  one : L
  one_ne : one ≠ negInf
  vocab : Vocab
  triggers : Triggers
  chain : Chain L C

inductive Fault where
  | grammar (e : Fail)
  | fatal                   -- an end of generation where no stack is empty
  | thrown (piece : Text)   -- "Unexpected empty grammar stack after accepting piece: "
  | noToken                 -- "no selected token during sampling"
  | prev (e : Error)
  | rows                    -- "idxs.size() must be draft.size() + 1"
deriving DecidableEq

/-- The fields of `llama_grammar` beside its triggers. -/
structure GrammarSampler where
  state : GrammarState
  triggerBuffer : Text

/-- `common_sampler`; without a grammar there is none to apply. -/
structure Sampler (C : Type) where
  grmr : Option GrammarSampler
  chain : C
  prev : RingBuffer Token

section Model
variable {L C : Type} [DecidableEq L] (σ : Setup L C) (fuel : Nat)

/-- `llama_grammar_accept_str` -/
def GrammarSampler.acceptStr (g : GrammarSampler) (piece : Text) : Except Fault GrammarSampler :=
  match Grammar.acceptStr fuel g.state piece with
  | .error e => .error (.grammar e)
  | .ok none => .error (.thrown piece)
  | .ok (some state) => .ok { g with state := state }

/-- A trigger was found. -/
def GrammarSampler.triggered (g : GrammarSampler) : GrammarSampler := ⟨{ g.state with awaitingTrigger := false }, []⟩

/-- `llama_grammar_accept_impl` -/
def GrammarSampler.accept (g : GrammarSampler) (token : Token) : Except Fault GrammarSampler :=
  let piece := σ.vocab.tokenToPiece token
  if g.state.awaitingTrigger then
    if token ∈ σ.triggers.tokens then g.triggered.acceptStr fuel piece
    else
      let buffer := g.triggerBuffer ++ piece
      match σ.triggers.start? buffer with
      | some start => g.triggered.acceptStr fuel (buffer.drop start)
      | none => .ok { g with triggerBuffer := buffer }
  else if σ.vocab.isEog token then
    if g.state.grammar.stackSet.any List.isEmpty then .ok g else .error .fatal
  else g.acceptStr fuel piece

/-- `llama_sampler_apply (grmr, ..)` -/
def applyGrammar (grmr : Option GrammarSampler) (curP : List (TokenData L)) : Except Fault (List (TokenData L)) :=
  match grmr with
  | none => .ok curP
  | some g => (applyImpl σ.negInf σ.vocab fuel g.state curP).mapError .grammar

/-- `llama_sampler_accept (grmr, ..)` -/
def acceptGrammar (grmr : Option GrammarSampler) (token : Token) : Except Fault (Option GrammarSampler) :=
  match grmr with
  | none => .ok none
  | some g => some <$> g.accept σ fuel token

/-- `set_logits` -/
def setLogits (logits : List L) : List (TokenData L) := logits.mapIdx fun id logit => ⟨id, logit⟩

/-- `llama_sampler_apply (chain, ..)`, and the token that is selected. -/
def Sampler.select (s : Sampler C) (curP : List (TokenData L)) : Except Fault (Token × Sampler C) :=
  let r := σ.chain.apply s.chain curP
  match r.2.2.bind fun selected => r.2.1[selected]? with
  | some data => .ok (data.id, { s with chain := r.1 })
  | none => .error .noToken

/-- The grammar comes first. -/
def Sampler.sampleMasked (s : Sampler C) (logits : List L) : Except Fault (Token × Sampler C) :=
  applyGrammar σ fuel s.grmr (setLogits logits) >>= s.select σ

/-- Whether the grammar leaves the one token. -/
def isValid (grmr : Option GrammarSampler) (id : Token) : Except Fault Bool :=
  (fun single => single.any fun data : TokenData L => data.logit ≠ σ.negInf) <$> applyGrammar σ fuel grmr [⟨id, σ.one⟩]

/-- `common_sampler_sample` -/
def Sampler.sample (s : Sampler C) (logits : List L) (grammarFirst : Bool) : Except Fault (Token × Sampler C) :=
  if grammarFirst then s.sampleMasked σ fuel logits
  else do
    let r ← s.select σ (setLogits logits)
    if ← isValid σ fuel r.2.grmr r.1 then .ok r
    -- the chain has been applied once
    else r.2.sampleMasked σ fuel logits

/-- `common_sampler_accept` -/
def Sampler.accept (s : Sampler C) (token : Token) (acceptsGrammar : Bool) : Except Fault (Sampler C) := do
  let grmr ← if acceptsGrammar then acceptGrammar σ fuel s.grmr token else .ok s.grmr
  let prev ← (s.prev.pushBack token).mapError .prev
  .ok ⟨grmr, σ.chain.accept s.chain token, prev⟩

/-- A token is sampled and accepted. -/
def Sampler.next (s : Sampler C) (logits : List L) (grammarFirst : Bool) : Except Fault (Token × Sampler C) := do
  let r ← s.sample σ fuel logits grammarFirst
  let s ← r.2.accept σ fuel r.1 true
  .ok (r.1, s)

/-- The loop over the draft, with the rows that are left, and the token behind it. -/
def sampleLoop (grammarFirst : Bool) : List Token → List (List L) → Sampler C → List Token →
    Except Fault (List Token × Sampler C)
  | _, [], _, _ => .error .rows
  | [], logits :: _, s, result => do
    let r ← s.next σ fuel logits grammarFirst
    .ok (result ++ [r.1], r.2)
  | d :: draft, logits :: rows, s, result => do
    let r ← s.next σ fuel logits grammarFirst
    if d ≠ r.1 then .ok (result ++ [r.1], r.2) else sampleLoop grammarFirst draft rows r.2 (result ++ [r.1])

/-- `common_sampler_sample_and_accept_n`, with the rows of the indices. -/
def sampleAndAcceptN (s : Sampler C) (rows : List (List L)) (draft : List Token) (grammarFirst : Bool) :
    Except Fault (List Token × Sampler C) :=
  if rows.length ≠ draft.length + 1 then .error .rows else sampleLoop σ fuel grammarFirst draft rows s []

end Model

/-- The body of the loop of `llama_sampler_greedy_apply`. -/
def greedyStep {L : Type} [LinearOrder L] (curP : List (TokenData L)) (selected i : Nat) : Nat :=
  match curP[i]?, curP[selected]? with
  | some data, some best => if best.logit < data.logit then i else selected
  | _, _ => selected

/-- `llama_sampler_greedy_apply` -/
def greedySelect {L : Type} [LinearOrder L] (curP : List (TokenData L)) : Nat :=
  (List.range' 1 (curP.length - 1)).foldl (greedyStep curP) 0

/-- A chain of the greedy sampler alone. -/
def greedy (L : Type) [LinearOrder L] : Chain L Unit where
  apply := fun _ curP => ((), curP, some (greedySelect curP))
  accept := fun _ _ => ()

/-- **The chain selects one of the candidates**, and none with a logit of minus infinity where there is another. -/
structure Chain.Sound {L C : Type} (chain : Chain L C) (negInf : L) : Prop where
  selects : ∀ c curP, (∃ data ∈ curP, data.logit ≠ negInf) → ∃ selected data, (chain.apply c curP).2.2 = some selected ∧
    (chain.apply c curP).2.1[selected]? = some data ∧ ∃ from_ ∈ curP, from_.id = data.id ∧ from_.logit ≠ negInf

section Greedy
variable {L : Type} [LinearOrder L] {curP : List (TokenData L)} {negInf : L}

variable (curP) in
/-- The first of the largest logits among the first `n`. -/
structure FirstLargest (n selected : Nat) : Prop where
  lt : selected < n
  largest : ∀ i < n, ∀ data best, curP[i]? = some data → curP[selected]? = some best → data.logit ≤ best.logit
  first : ∀ i < selected, ∀ data best, curP[i]? = some data → curP[selected]? = some best → data.logit < best.logit

theorem FirstLargest.step {n selected : Nat} (h : FirstLargest curP n selected) (hn : n < curP.length) :
    FirstLargest curP (n + 1) (greedyStep curP selected n) := by
  obtain ⟨data, hdata⟩ : ∃ data, curP[n]? = some data := ⟨_, List.getElem?_eq_getElem hn⟩
  obtain ⟨best, hbest⟩ : ∃ best, curP[selected]? = some best := ⟨_, List.getElem?_eq_getElem (h.lt.trans hn)⟩
  have hstep : greedyStep curP selected n = if best.logit < data.logit then n else selected := by
    rw [greedyStep, hdata, hbest]
  rw [hstep]
  by_cases hlt : best.logit < data.logit
  · have hall : ∀ i < n, ∀ x, curP[i]? = some x → x.logit < data.logit := fun i hi x hx =>
      (h.largest i hi x best hx hbest).trans_lt hlt
    rw [if_pos hlt]
    refine ⟨Nat.lt_succ_self n, fun i hi x y hx hy => ?_, fun i hi x y hx hy => ?_⟩
    · cases hdata.symm.trans hy
      rcases Nat.lt_succ_iff_lt_or_eq.mp hi with hi | rfl
      · exact (hall i hi x hx).le
      · cases hdata.symm.trans hx
        exact le_rfl
    · cases hdata.symm.trans hy
      exact hall i hi x hx
  · rw [if_neg hlt]
    refine ⟨h.lt.trans (Nat.lt_succ_self n), fun i hi x y hx hy => ?_, h.first⟩
    rcases Nat.lt_succ_iff_lt_or_eq.mp hi with hi | rfl
    · exact h.largest i hi x y hx hy
    · cases hdata.symm.trans hx
      cases hbest.symm.trans hy
      exact not_lt.mp hlt

/-- **The greedy sampler selects the first of the largest logits.** -/
theorem greedySelect_spec (hne : curP ≠ []) : FirstLargest curP curP.length (greedySelect curP) := by
  have hpos := List.length_pos_of_ne_nil hne
  have hloop : ∀ m, m < curP.length → FirstLargest curP (m + 1) ((List.range' 1 m).foldl (greedyStep curP) 0) := by
    intro m
    induction m with
    | zero =>
        refine fun _ => ⟨Nat.zero_lt_one, fun i hi x y hx hy => ?_, fun i hi => absurd hi (Nat.not_lt_zero i)⟩
        obtain rfl := Nat.lt_one_iff.mp hi
        cases hx.symm.trans hy
        exact le_rfl
    | succ m ih =>
        intro hm
        rw [List.range'_concat, List.foldl_append, Nat.one_mul, Nat.add_comm 1 m]
        exact (ih (Nat.lt_of_succ_lt hm)).step hm
  have hall := hloop (curP.length - 1) (Nat.sub_lt hpos Nat.zero_lt_one)
  rwa [Nat.sub_add_cancel hpos] at hall

theorem FirstLargest.unique {j k : Nat} (h : FirstLargest curP curP.length j) (h' : FirstLargest curP curP.length k) :
    j = k := by
  have hle : ∀ {j k : Nat}, FirstLargest curP curP.length j → FirstLargest curP curP.length k → ¬ j < k := by
    intro j k h h' hlt
    have hj := List.getElem?_eq_getElem h.lt
    have hk := List.getElem?_eq_getElem h'.lt
    exact absurd (h'.first j hlt _ _ hj hk) (not_lt.mpr (h.largest k h'.lt _ _ hk hj))
  exact Nat.le_antisymm (not_lt.mp (hle h' h)) (not_lt.mp (hle h h'))

/-- It is sound where minus infinity is the least logit. -/
theorem greedy_sound (hbot : ∀ x, negInf ≤ x) : (greedy L).Sound negInf := by
  refine ⟨fun _ curP hfinite => ?_⟩
  obtain ⟨data, hdata, hlogit⟩ := hfinite
  have hspec := greedySelect_spec (List.ne_nil_of_mem hdata)
  have hbest := List.getElem?_eq_getElem hspec.lt
  obtain ⟨i, hi, rfl⟩ := List.mem_iff_getElem.mp hdata
  refine ⟨greedySelect curP, _, rfl, hbest, _, List.getElem_mem hspec.lt, rfl, fun heq => hlogit ?_⟩
  have hle := hspec.largest i hi _ _ (List.getElem?_eq_getElem hi) hbest
  exact le_antisymm (heq ▸ hle) (hbot _)

end Greedy

end S2Moe.Sampling
