import Mathlib
import S2Moe.Sampling.Constrained

/-!
# The grammar behind the chain

The chain is applied to all candidates, and the grammar looks at the one that it selects.

* `Chain.Stable` : a chain without a state, whose choice does not depend on the candidates that are masked beside it;
* `greedy_stable` : the greedy sampler is one;
* `generate_optimistic` : then every run samples what it would with the grammar first.
-/

namespace S2Moe.Sampling
open S2Moe.Grammar S2Moe.Lib

section Stable
variable {L C : Type} {σ : Setup L C} {s : Sampler C}

/-- The token that a chain selects. -/
def Chain.choice (chain : Chain L C) (c : C) (curP : List (TokenData L)) : Option Token :=
  ((chain.apply c curP).2.2.bind fun selected => (chain.apply c curP).2.1[selected]?).map TokenData.id

open scoped Classical in
/-- **A chain without a state of its own that selects the same token when others are masked.** -/
structure Chain.Stable (chain : Chain L C) (negInf : L) : Prop where
  state : ∀ c curP, (chain.apply c curP).1 = c
  selects : ∀ c curP, curP ≠ [] → (chain.choice c curP).isSome
  keeps : ∀ c curP (left : Token → Prop) id, chain.choice c curP = some id → left id →
    chain.choice c (curP.map fun data => if left data.id then data else { data with logit := negInf }) = some id

theorem greedy_stable {L : Type} [LinearOrder L] {negInf : L} (hbot : ∀ x, negInf ≤ x) : (greedy L).Stable negInf := by
  classical
  have hchoice : ∀ c curP, (greedy L).choice c curP = curP[greedySelect curP]?.map TokenData.id := fun _ _ => rfl
  refine ⟨fun _ _ => rfl, fun c curP hne => ?_, fun c curP left id hid hleft => ?_⟩
  · rw [hchoice, List.getElem?_eq_getElem (greedySelect_spec hne).lt]
    rfl
  · rw [hchoice] at hid ⊢
    obtain ⟨best, hbest, rfl⟩ := Option.map_eq_some_iff.mp hid
    have hlt := (List.getElem?_eq_some_iff.mp hbest).1
    have hspec := greedySelect_spec (List.ne_nil_of_length_pos (Nat.zero_lt_of_lt hlt))
    -- the masked logits are not larger, and the one that was selected is the same
    have hmasked : ∀ (i : Nat) (data : TokenData L), (curP.map fun data => if left data.id then data else { data with logit := negInf })[i]? =
        some data → ∃ x : TokenData L, curP[i]? = some x ∧ data.logit ≤ x.logit := by
      intro i data h
      rw [List.getElem?_map] at h
      obtain ⟨x, hx, rfl⟩ := Option.map_eq_some_iff.mp h
      refine ⟨x, hx, ?_⟩
      by_cases hl : left x.id
      · rw [if_pos hl]
      · rw [if_neg hl]
        exact hbot _
    have hsame : (curP.map fun data => if left data.id then data else { data with logit := negInf })[greedySelect curP]? =
        some best := by
      rw [List.getElem?_map, hbest, Option.map_some, if_pos hleft]
    have hfirst : FirstLargest (curP.map fun data => if left data.id then data else { data with logit := negInf })
        (curP.map fun data => if left data.id then data else { data with logit := negInf }).length (greedySelect curP) := by
      refine ⟨by rw [List.length_map]; exact hlt, fun i hi data y hdata hy => ?_, fun i hi data y hdata hy => ?_⟩
      · rw [List.length_map] at hi
        obtain ⟨x, hx, hle⟩ := hmasked i data hdata
        cases hsame.symm.trans hy
        exact hle.trans (hspec.largest i hi x best hx hbest)
      · obtain ⟨x, hx, hle⟩ := hmasked i data hdata
        cases hsame.symm.trans hy
        exact hle.trans_lt (hspec.first i hi x best hx hbest)
    have hne : (curP.map fun data => if left data.id then data else { data with logit := negInf }) ≠ [] :=
      List.ne_nil_of_length_pos (Nat.zero_lt_of_lt hfirst.lt)
    rw [← hfirst.unique (greedySelect_spec hne), hsame]
    rfl

theorem Chain.Stable.select (h : σ.chain.Stable σ.negInf) (curP : List (TokenData L)) : s.select σ curP =
    (σ.chain.choice s.chain curP).elim (.error .noToken) fun id => .ok (id, s) := by
  rw [Sampler.select, Chain.choice]
  have hstate := h.state s.chain curP
  cases hsel : (σ.chain.apply s.chain curP).2.2.bind fun selected => (σ.chain.apply s.chain curP).2.1[selected]? with
  | none => rfl
  | some data =>
      rw [hstate]
      rfl

/-- **One token is the same** whether the grammar comes first or last. -/
theorem sampled_stable (h : σ.chain.Stable σ.negInf) (logits : List L) : sampled σ s logits false = sampled σ s logits true := by
  classical
  show (s.select σ (setLogits logits) >>= fun r => if Leaves σ s.grmr r.1 then .ok r
    else r.2.select σ ((setLogits logits).map (maskOf σ s.grmr))) = s.select σ ((setLogits logits).map (maskOf σ s.grmr))
  rw [h.select (setLogits logits)]
  cases hchoice : σ.chain.choice s.chain (setLogits logits) with
  | none =>
      have hnil : setLogits logits = [] := by
        by_contra hne
        have hsome := h.selects s.chain _ hne
        rw [hchoice] at hsome
        cases hsome
      rw [hnil] at hchoice ⊢
      rw [List.map_nil, h.select, hchoice]
      rfl
  | some id =>
      show (if Leaves σ s.grmr id then Except.ok (id, s) else _) = _
      by_cases hleaves : Leaves σ s.grmr id
      · have hkeeps := h.keeps s.chain _ (Leaves σ s.grmr) id hchoice hleaves
        have hmask : σ.chain.choice s.chain ((setLogits logits).map (maskOf σ s.grmr)) = some id := hkeeps
        rw [if_pos hleaves, h.select, hmask]
        rfl
      · rw [if_neg hleaves]

end Stable

section Runs
variable {L C : Type} [DecidableEq L] {σ : Setup L C} {start : LlamaGrammar} {phase : Phase} {toks : List Token} {cap : Nat}
  {s : Sampler C}

theorem Inv.next_agree (h : Inv start phase toks cap s) (hstable : σ.chain.Stable σ.negInf) (logits : List L)
    (grammarFirst : Bool) :
    Agree (fun fuel => s.next σ fuel logits grammarFirst) (fun fuel => s.next σ fuel logits true) := by
  have hsample := fun first => sample_settles (σ := σ) h.readyWhenActive logits first
  have hsame : sampled σ s logits grammarFirst = sampled σ s logits true := by
    cases grammarFirst with
    | true => rfl
    | false => exact sampled_stable hstable logits
  have hfirst := hsample grammarFirst
  rw [hsame] at hfirst
  exact (Agree.of_settles hfirst (hsample true)).bind hfirst fun _ _ => .refl _

theorem Inv.sampleLoop_agree (hstart : Ready start) (hprod : (cfg start.rules).Productive)
    (hstable : σ.chain.Stable σ.negInf) (grammarFirst : Bool) : ∀ (rows : List (List L)) {phase : Phase}
      {draft toks result : List Token} {s : Sampler C}, Inv start phase toks cap s →
      Agree (fun fuel => Sampling.sampleLoop σ fuel grammarFirst draft rows s result)
        (fun fuel => Sampling.sampleLoop σ fuel true draft rows s result) := by
  intro rows
  induction rows with
  | nil =>
      intro phase draft toks result s _
      cases draft with
      | nil => exact .refl _
      | cons d draft => exact .refl _
  | cons logits rows ih =>
      intro phase draft toks result s hinv
      obtain ⟨r, hsettles, hr⟩ := hinv.next (σ := σ) hstart hprod logits grammarFirst
      have hagree := hinv.next_agree hstable logits grammarFirst
      cases draft with
      | nil => exact hagree.bind hsettles fun _ _ => .refl _
      | cons d draft =>
          refine hagree.bind hsettles fun x hx => ?_
          by_cases hd : d ≠ x.1
          · simp only [if_pos hd]
            exact .refl _
          · simp only [if_neg hd]
            exact ih (hr x.1 x.2 hx).2

theorem Inv.round_agree (hstart : Ready start) (hprod : (cfg start.rules).Productive) (hstable : σ.chain.Stable σ.negInf)
    {x : List Token × Sampler C} (h : Inv start phase toks cap x.2) (round : Round L) :
    Agree (fun fuel => Round.run σ fuel x round)
      (fun fuel => Round.run σ fuel x { round with grammarFirst := true }) := by
  by_cases hrows : round.rows.length ≠ round.draft.length + 1
  · simp only [Round.run, sampleAndAcceptN, if_pos hrows]
    exact .refl _
  · simp only [Round.run, sampleAndAcceptN, if_neg hrows]
    exact (h.sampleLoop_agree hstart hprod hstable round.grammarFirst round.rows).map _

theorem generate_agree (hstart : Ready start) (hprod : (cfg start.rules).Productive) (hstable : σ.chain.Stable σ.negInf)
    (phase : Phase) : ∀ (rounds : List (Round L)) {x : List Token × Sampler C}, Inv start (phaseAfter σ phase x.1) x.1 cap x.2 →
      AllAccepted σ (startWords start) phase x.1 →
      Agree (fun fuel => rounds.foldlM (Round.run σ fuel) x)
        (fun fuel => (rounds.map fun round => { round with grammarFirst := true }).foldlM (Round.run σ fuel) x) := by
  intro rounds
  induction rounds with
  | nil => exact fun _ _ => .refl _
  | cons round rounds ih =>
      intro x hinv haccepted
      obtain ⟨r, hsettles, hr⟩ := Inv.round (σ := σ) hstart hprod hinv haccepted round
      simp only [List.map_cons, List.foldlM_cons]
      exact (hinv.round_agree hstart hprod hstable round).bind hsettles fun y hy => ih (hr y hy).1 (hr y hy).2

end Runs

end S2Moe.Sampling
