import Mathlib.Data.List.GetD
import Mathlib.Data.Rat.Defs
import Mathlib.Tactic

/-!
# Stochastic tree verification of `llama-speculative`

One round tests the drafted sequences against the target, position by position. At a position it picks active sequences
at random, accepts the first one whose token passes the ratio test and otherwise moves the target distribution to the
residual; when no sequence is left it samples from that.

* `Candidate`, `probOf` : a token with its probability, and the lookup loops of the source;
* `acceptTest`, `reject` : the two branches of the ratio test;
* `verifyPosition` : the loop `while (active_seqs.size() > 0)`;
* `verifyRound` : the loop over the positions, with the list of acceptances it makes;
* `OnPrefix` : each accepted sequence starts with the tokens accepted before it in the round;
* `Agree` : two sequences agree wherever both can still be accepted;
* `verifyRound_onPrefix_iff` : a set of drafts is always accepted on its prefix exactly when its sequences agree.
-/

namespace S2Moe.Spec

abbrev Token := Nat

/-- `llama_token_data`, without the logit. -/
structure Candidate where
  id : Token
  p : Rat
deriving DecidableEq, Repr

/-- `seq_draft`, as far as verification reads it. -/
structure SeqDraft where
  active : Bool
  tokens : List Token
  iBatchTgt : List Nat
deriving DecidableEq, Repr

/-- `drafts[s].tokens`. -/
def tokensOf (drafts : List SeqDraft) (s : Nat) : List Token := ((drafts.map SeqDraft.tokens)[s]?).getD []

/-- The lookup loop: `old` is kept when the token is not among the candidates. -/
def probOf (cands : List Candidate) (token : Token) (old : Rat) : Rat :=
  ((cands.find? (fun c => c.id == token)).map Candidate.p).getD old

/-- `r <= p_tgt / p_dft` in floating point: a positive number over zero is infinite, zero over zero compares false. -/
def acceptTest {K : Type} [Field K] [LinearOrder K] (r pTgt pDft : K) : Bool :=
  if pDft = 0 then decide (0 < pTgt) else decide (r ≤ pTgt / pDft)

def sortById (cands : List Candidate) : List Candidate := cands.mergeSort (fun a b => decide (a.id ≤ b.id))

def sortByProb (cands : List Candidate) : List Candidate := cands.mergeSort (fun a b => decide (b.p ≤ a.p))

/-- The two lists are walked in step, each in the order of its own ids. -/
def subtract : List Candidate → List Candidate → List Candidate
  | [], _ => []
  | t :: ts, [] => { t with p := max 0 t.p } :: subtract ts []
  | t :: ts, d :: ds => { t with p := max 0 (t.p - d.p) } :: subtract ts ds

def sumProbs (cands : List Candidate) : Rat := (cands.map Candidate.p).sum

/-- The residual distribution of a rejection. -/
def residual (tgt dft : List Candidate) : List Candidate :=
  let diff := subtract (sortById tgt) (sortById dft)
  sortByProb (diff.map fun c => { c with p := c.p / sumProbs diff })

/-- What one pass of the inner loop draws. -/
structure Draw where
  pick : Nat
  r : Rat
  r_mem : 0 ≤ r ∧ r ≤ 1

structure Verification where
  drafts : List SeqDraft
  /-- `drafts[s].dists[i]`. -/
  dists : Nat → Nat → List Candidate
  /-- `active_seqs`, a `std::set` in its order. -/
  activeSeqs : List Nat
  distTgt : List Candidate := []
  pTgt : Rat := 0
  pDft : Rat := 0
  /-- Passes of the inner loop so far. -/
  drawn : Nat := 0

namespace Verification

def tokens (v : Verification) (s : Nat) : List Token := tokensOf v.drafts s

def deactivate (v : Verification) (s : Nat) : Verification :=
  { v with drafts := v.drafts.modify s (fun d => { d with active := false }) }

/-- `active_seqs.erase(s)`. -/
def erase (v : Verification) (s : Nat) : Verification := { v with activeSeqs := v.activeSeqs.filter (· != s) }

/-- The two lookups before the test. The variables keep their value from the last sequence at this position. -/
def lookup (v : Verification) (s i : Nat) : Verification :=
  let token := (v.tokens s).getD i 0
  { v with pTgt := probOf v.distTgt token v.pTgt, pDft := probOf (v.dists s i) token v.pDft }

/-- The loop that synchronizes the sequences with the rejected token. It deactivates them, but erases `s` once more and
not them. -/
def synchronize (v : Verification) (s i : Nat) : Verification :=
  { v with drafts := v.drafts.mapIdx fun k d =>
      if k ≠ s ∧ d.active ∧ d.tokens[i]? = (v.tokens s)[i]? then { d with active := false } else d }

/-- The target distribution becomes the residual; the draft's candidates stay sorted by id. -/
def moveToResidual (v : Verification) (s i : Nat) : Verification :=
  { v with
    distTgt := residual v.distTgt (v.dists s i)
    dists := fun s' i' => if s' = s ∧ i' = i then sortById (v.dists s i) else v.dists s' i' }

/-- The rejection branch and the code behind it. -/
def reject (v : Verification) (s i : Nat) : Verification :=
  (((((v.deactivate s).moveToResidual s i)).erase s).synchronize s i).erase s

end Verification

/-- `while (active_seqs.size() > 0)` at position `i`: the sequence accepted, if any. The branch `if (accept)` of the
source is never reached, as an acceptance leaves the loop. -/
def verifyPosition (draws : Nat → Draw) (i : Nat) : Nat → Verification → Option Nat × Verification
  | 0, v => (none, v)
  | fuel + 1, v =>
    if v.activeSeqs = [] then (none, v)
    else
      let draw := draws v.drawn
      let s := v.activeSeqs.getD (draw.pick % v.activeSeqs.length) 0
      let v := { v with drawn := v.drawn + 1 }
      if (v.tokens s).length ≤ i then verifyPosition draws i fuel ((v.deactivate s).erase s)
      else
        let v := v.lookup s i
        if acceptTest draw.r v.pTgt v.pDft then (some s, v)
        else verifyPosition draws i fuel (v.reject s i)

/-- One acceptance: the sequence, the position and the token. -/
structure Acceptance where
  seq : Nat
  index : Nat
  token : Token
deriving DecidableEq, Repr

structure RoundResult where
  accepted : List Acceptance
  sKeep : Nat
  final : Verification

/-- The loop over the positions. `target` gives the candidates of a row after some accepted tokens; the row read is that
of the sequence accepted last. The loop ends when a position accepts nothing; `none` if the passes given run out. -/
def verifyRound (target : List Token → Nat → List Candidate) (draws : Nat → Draw) :
    Nat → Nat → Nat → List Acceptance → Verification → Option RoundResult
  | 0, _, _, _, _ => none
  | fuel + 1, i, sKeep, acc, v =>
    let row := (((v.drafts[sKeep]?).map SeqDraft.iBatchTgt).getD []).getD i 0
    let v := { v with distTgt := target (acc.map Acceptance.token) row, pTgt := 0, pDft := 0 }
    match verifyPosition draws i v.activeSeqs.length v with
    | (some s, v) => verifyRound target draws fuel (i + 1) s (acc ++ [⟨s, i, (v.tokens s).getD i 0⟩]) v
    | (none, v) => some ⟨acc, sKeep, v⟩

/-- `active_seqs` at the start of a round. -/
def activeSeqs (drafts : List SeqDraft) : List Nat :=
  (List.range drafts.length).filter fun s => ((drafts[s]?).map SeqDraft.active).getD false

/-- A pass for every position of the longest sequence, and one more. -/
def roundFuel (drafts : List SeqDraft) : Nat := (drafts.map fun d => d.tokens.length).foldr max 0 + 1

/-- One round of verification. -/
def verify (target : List Token → Nat → List Candidate) (dists : Nat → Nat → List Candidate) (draws : Nat → Draw)
    (drafts : List SeqDraft) : Option RoundResult :=
  verifyRound target draws (roundFuel drafts) 0 0 [] { drafts := drafts, dists := dists, activeSeqs := activeSeqs drafts }

/-! ## What a position can do -/

/-- `w` has the tokens of `v`, and no sequence became active. -/
structure Narrowed (v w : Verification) : Prop where
  tokens : w.drafts.map SeqDraft.tokens = v.drafts.map SeqDraft.tokens
  active : w.activeSeqs ⊆ v.activeSeqs

theorem Narrowed.refl (v : Verification) : Narrowed v v := ⟨rfl, fun _ h => h⟩

theorem Narrowed.trans {u v w : Verification} (h : Narrowed u v) (k : Narrowed v w) : Narrowed u w :=
  ⟨k.tokens.trans h.tokens, fun _ hx => h.active (k.active hx)⟩

theorem Narrowed.tokens_eq {v w : Verification} (h : Narrowed v w) (s : Nat) : w.tokens s = v.tokens s := by
  unfold Verification.tokens tokensOf
  rw [h.tokens]

theorem map_tokens_modify : ∀ (drafts : List SeqDraft) (s : Nat),
    (drafts.modify s (fun d => { d with active := false })).map SeqDraft.tokens = drafts.map SeqDraft.tokens
  | [], s => by simp
  | d :: ds, 0 => by simp
  | d :: ds, s + 1 => by
    rw [List.modify_succ_cons, List.map_cons, map_tokens_modify ds s, List.map_cons]

theorem Narrowed.deactivate (v : Verification) (s : Nat) : Narrowed v (v.deactivate s) :=
  ⟨map_tokens_modify v.drafts s, fun _ h => h⟩

theorem Narrowed.erase (v : Verification) (s : Nat) : Narrowed v (v.erase s) :=
  ⟨rfl, fun _ h => (List.mem_filter.mp h).1⟩

theorem Narrowed.synchronize (v : Verification) (s i : Nat) : Narrowed v (v.synchronize s i) := by
  refine ⟨?_, fun _ h => h⟩
  unfold Verification.synchronize
  apply List.ext_getElem?
  intro k
  simp only [List.getElem?_map, List.getElem?_mapIdx]
  cases v.drafts[k]? with
  | none => rfl
  | some d =>
      simp only [Option.map_some, Option.some.injEq]
      split <;> rfl

theorem Narrowed.reject (v : Verification) (s i : Nat) : Narrowed v (v.reject s i) := by
  have hmove : ∀ w : Verification, Narrowed w (w.moveToResidual s i) := fun w => ⟨rfl, fun _ h => h⟩
  exact (((Narrowed.deactivate v s).trans (hmove _)).trans (.erase _ s)).trans
    ((Narrowed.synchronize _ s i).trans (.erase _ s))

/-- A position narrows the drafts; what it accepts is an active sequence that is long enough. -/
theorem verifyPosition_spec (draws : Nat → Draw) (i : Nat) : ∀ (fuel : Nat) (v : Verification),
    Narrowed v (verifyPosition draws i fuel v).2 ∧
      ∀ s, (verifyPosition draws i fuel v).1 = some s → s ∈ v.activeSeqs ∧ i < (v.tokens s).length
  | 0, v => ⟨.refl v, fun s h => by cases h⟩
  | fuel + 1, v => by
    rw [verifyPosition]
    split
    · exact ⟨.refl v, fun s h => by cases h⟩
    · rename_i hne
      have hlen : 0 < v.activeSeqs.length := List.length_pos_of_ne_nil hne
      dsimp only
      generalize hs : v.activeSeqs.getD ((draws v.drawn).pick % v.activeSeqs.length) 0 = s
      have hmem : s ∈ v.activeSeqs := by
        rw [List.getD_eq_getElem _ _ (Nat.mod_lt _ hlen)] at hs
        rw [← hs]
        exact List.getElem_mem _
      let v₁ : Verification := { v with drawn := v.drawn + 1 }
      have h₁ : Narrowed v v₁ := ⟨rfl, fun _ h => h⟩
      have hrec : ∀ w, Narrowed v w → Narrowed v (verifyPosition draws i fuel w).2 ∧
          ∀ t, (verifyPosition draws i fuel w).1 = some t → t ∈ v.activeSeqs ∧ i < (v.tokens t).length := by
        intro w hw
        obtain ⟨hn, ha⟩ := verifyPosition_spec draws i fuel w
        refine ⟨hw.trans hn, fun t ht => ?_⟩
        obtain ⟨hmem', hlt⟩ := ha t ht
        exact ⟨hw.active hmem', hw.tokens_eq t ▸ hlt⟩
      split
      · exact hrec _ (h₁.trans ((Narrowed.deactivate v₁ s).trans (.erase _ s)))
      · rename_i hlt
        have h₂ : Narrowed v (v₁.lookup s i) := ⟨rfl, fun _ h => h⟩
        split
        · refine ⟨h₂, fun t ht => ?_⟩
          cases ht
          exact ⟨hmem, Nat.lt_of_not_le hlt⟩
        · exact hrec _ (h₂.trans (.reject _ s i))

/-! ## What a round can do -/

section Round
variable (target : List Token → Nat → List Candidate) (draws : Nat → Draw)

/-- The invariant rule of a round: what every possible acceptance preserves holds of the acceptances made. The loop
ends by itself when it has a pass for every position. -/
theorem verifyRound_rule (v₀ : Verification) (I : Nat → List Acceptance → Prop)
    (hstep : ∀ i acc s, I i acc → s ∈ v₀.activeSeqs → i < (v₀.tokens s).length →
      I (i + 1) (acc ++ [⟨s, i, (v₀.tokens s).getD i 0⟩])) :
    ∀ (fuel i sKeep : Nat) (acc : List Acceptance) (v : Verification), 0 < fuel →
      (∀ s, (v₀.tokens s).length < i + fuel) → Narrowed v₀ v → I i acc →
      ∃ r n, verifyRound target draws fuel i sKeep acc v = some r ∧ I n r.accepted
  | 0, _, _, _, _, hpos, _, _, _ => by omega
  | fuel + 1, i, sKeep, acc, v, _, hlen, hv, hI => by
    rw [verifyRound]
    dsimp only
    generalize hw : ({ v with
      distTgt := target (acc.map Acceptance.token) ((((v.drafts[sKeep]?).map SeqDraft.iBatchTgt).getD []).getD i 0)
      pTgt := 0
      pDft := 0 } : Verification) = w
    have hnw : Narrowed v₀ w := hv.trans (hw ▸ ⟨rfl, fun _ h => h⟩)
    obtain ⟨hn, ha⟩ := verifyPosition_spec draws i v.activeSeqs.length w
    cases hpos : verifyPosition draws i v.activeSeqs.length w with
    | mk o x =>
        rw [hpos] at hn ha
        cases o with
        | none => exact ⟨_, i, rfl, hI⟩
        | some s =>
            obtain ⟨hmem, hlt⟩ := ha s rfl
            have hx : Narrowed v₀ x := hnw.trans hn
            rw [hnw.tokens_eq] at hlt
            have := hlen s
            dsimp only
            rw [hx.tokens_eq]
            exact verifyRound_rule v₀ I hstep fuel (i + 1) s _ x (by omega) (fun t => by have := hlen t; omega) hx
              (hstep i acc s hI (hnw.active hmem) hlt)

theorem le_foldr_max : ∀ (xs : List Nat), ∀ x ∈ xs, x ≤ xs.foldr max 0
  | y :: ys, x, hx => by
    rw [List.foldr_cons]
    rcases List.mem_cons.mp hx with rfl | hx
    · exact le_max_left _ _
    · exact (le_foldr_max ys x hx).trans (le_max_right _ _)

theorem length_tokensOf_lt (drafts : List SeqDraft) (s : Nat) : (tokensOf drafts s).length < roundFuel drafts := by
  unfold tokensOf roundFuel
  cases h : (drafts.map SeqDraft.tokens)[s]? with
  | none => exact Nat.succ_pos _
  | some ts =>
      apply Nat.lt_succ_of_le
      apply le_foldr_max
      have hmem := List.mem_of_getElem? h
      obtain ⟨d, hd, rfl⟩ := List.mem_map.mp hmem
      exact List.mem_map.mpr ⟨d, hd, rfl⟩

/-- The rule for a whole round. -/
theorem verify_rule (dists : Nat → Nat → List Candidate) (drafts : List SeqDraft) (I : Nat → List Acceptance → Prop)
    (hinit : I 0 [])
    (hstep : ∀ i acc s, I i acc → s ∈ activeSeqs drafts → i < (tokensOf drafts s).length →
      I (i + 1) (acc ++ [⟨s, i, (tokensOf drafts s).getD i 0⟩])) :
    ∃ r n, verify target dists draws drafts = some r ∧ I n r.accepted :=
  verifyRound_rule target draws { drafts := drafts, dists := dists, activeSeqs := activeSeqs drafts } I hstep
    (roundFuel drafts) 0 0 [] _ (Nat.succ_pos _) (fun s => by rw [Nat.zero_add]; exact length_tokensOf_lt drafts s)
    (.refl _) hinit

end Round

/-! ## Acceptance on the prefix -/

/-- Each accepted sequence starts with the tokens accepted before it. -/
def OnPrefix (drafts : List SeqDraft) (accepted : List Acceptance) : Prop :=
  ∀ k e, accepted[k]? = some e → (tokensOf drafts e.seq).take e.index = (accepted.take k).map Acceptance.token

/-- Where one active sequence has run out or could be left for another that goes on, the two are the same so far. -/
def Agree (drafts : List SeqDraft) : Prop :=
  ∀ s ∈ activeSeqs drafts, ∀ t ∈ activeSeqs drafts, ∀ j, j ≤ (tokensOf drafts s).length →
    j < (tokensOf drafts t).length → (tokensOf drafts t).take j = (tokensOf drafts s).take j

/-- The invariant of a round over agreeing drafts: what is accepted so far is the start of the sequence accepted last. -/
def Following (drafts : List SeqDraft) (i : Nat) (acc : List Acceptance) : Prop :=
  acc.length = i ∧ OnPrefix drafts acc ∧
    (i = 0 ∨ ∃ s ∈ activeSeqs drafts, i ≤ (tokensOf drafts s).length ∧
      acc.map Acceptance.token = (tokensOf drafts s).take i)

theorem Following.step {drafts : List SeqDraft} (h : Agree drafts) (i : Nat) (acc : List Acceptance) (s : Nat)
    (hf : Following drafts i acc) (hs : s ∈ activeSeqs drafts) (hlt : i < (tokensOf drafts s).length) :
    Following drafts (i + 1) (acc ++ [⟨s, i, (tokensOf drafts s).getD i 0⟩]) := by
  obtain ⟨hlen, hpre, hlast⟩ := hf
  have htok : acc.map Acceptance.token = (tokensOf drafts s).take i := by
    rcases hlast with rfl | ⟨t, ht, hle, heq⟩
    · rw [List.length_eq_zero_iff.mp hlen]
      rfl
    · rw [heq, h t ht s hs i hle hlt]
  refine ⟨by rw [List.length_append, hlen]; rfl, ?_, .inr ⟨s, hs, hlt, ?_⟩⟩
  · intro k e he
    rcases Nat.lt_or_ge k acc.length with hk | hk
    · rw [List.getElem?_append_left hk] at he
      rw [List.take_append_of_le_length hk.le]
      exact hpre k e he
    · rw [List.getElem?_append_right hk] at he
      obtain ⟨hk', rfl⟩ : k - acc.length = 0 ∧ e = ⟨s, i, (tokensOf drafts s).getD i 0⟩ := by
        cases hd : k - acc.length with
        | zero =>
            rw [hd] at he
            exact ⟨rfl, by simpa using he.symm⟩
        | succ n =>
            rw [hd] at he
            simp at he
      rw [show k = acc.length by omega, List.take_left, htok]
  · rw [List.map_append, htok, List.map_singleton, List.getD_eq_getElem _ _ hlt]
    exact List.take_concat_get' _ _ hlt

/-! ## Two sequences that do not agree -/

/-- A probability distribution over distinct tokens. -/
structure IsDist (cands : List Candidate) : Prop where
  nonneg : ∀ c ∈ cands, 0 ≤ c.p
  sum : sumProbs cands = 1
  nodup : (cands.map Candidate.id).Nodup

def pointMass (x : Token) : List Candidate := [⟨x, 1⟩]

theorem isDist_pointMass (x : Token) : IsDist (pointMass x) := by
  refine ⟨?_, ?_, ?_⟩ <;> simp [pointMass, sumProbs]

/-- The target wants the tokens of `s` up to `j` and that of `t` at `j`. -/
def switchTarget (drafts : List SeqDraft) (s t j : Nat) (acc : List Token) (_ : Nat) : List Candidate :=
  pointMass ((tokensOf drafts (if acc.length < j then s else t)).getD acc.length 0)

/-- Each draft was certain of its token. -/
def sureDists (drafts : List SeqDraft) (s i : Nat) : List Candidate := pointMass ((tokensOf drafts s).getD i 0)

/-- The draws pick `s` up to pass `j`, then `t`, and always pass the test. -/
def switchDraws (drafts : List SeqDraft) (s t j : Nat) (n : Nat) : Draw :=
  ⟨(activeSeqs drafts).idxOf (if n < j then s else t), 0, le_rfl, zero_le_one⟩

section Switch
variable {drafts : List SeqDraft} {s t j : Nat}

/-- At each position up to `j` the sequence picked is accepted, and nothing else changes. -/
theorem verifyPosition_switch (hs : s ∈ activeSeqs drafts) (ht : t ∈ activeSeqs drafts)
    (hsl : j ≤ (tokensOf drafts s).length) (htl : j < (tokensOf drafts t).length) {i : Nat} (hi : i ≤ j)
    {v : Verification} (hdrafts : v.drafts = drafts) (hdists : v.dists = sureDists drafts)
    (hactive : v.activeSeqs = activeSeqs drafts) (hdrawn : v.drawn = i)
    (htgt : v.distTgt = pointMass ((tokensOf drafts (if i < j then s else t)).getD i 0)) :
    ∃ w, verifyPosition (switchDraws drafts s t j) i v.activeSeqs.length v = (some (if i < j then s else t), w) ∧
      w.drafts = drafts ∧ w.dists = sureDists drafts ∧ w.activeSeqs = activeSeqs drafts ∧ w.drawn = i + 1 := by
  generalize hu : (if i < j then s else t) = u at htgt ⊢
  have humem : u ∈ activeSeqs drafts := by
    rw [← hu]
    split <;> assumption
  have hulen : i < (tokensOf drafts u).length := by
    rw [← hu]
    split <;> omega
  have hidx : (activeSeqs drafts).idxOf u < (activeSeqs drafts).length := List.idxOf_lt_length_of_mem humem
  have hne : activeSeqs drafts ≠ [] := List.ne_nil_of_mem humem
  obtain ⟨n, hn⟩ : ∃ n, (activeSeqs drafts).length = n + 1 := ⟨(activeSeqs drafts).length - 1, by omega⟩
  have hpick : (activeSeqs drafts).getD ((switchDraws drafts s t j i).pick % (activeSeqs drafts).length) 0 = u := by
    rw [switchDraws, hu]
    dsimp only
    rw [Nat.mod_eq_of_lt hidx, List.getD_eq_getElem _ _ hidx, List.getElem_idxOf hidx]
  obtain ⟨vdrafts, vdists, vactive, vtgt, pTgt, pDft, vdrawn⟩ := v
  dsimp only at hdrafts hdists hactive hdrawn htgt
  subst vdrafts vdists vactive vtgt vdrawn
  refine ⟨(⟨drafts, sureDists drafts, activeSeqs drafts, pointMass ((tokensOf drafts u).getD i 0), pTgt, pDft,
    i + 1⟩ : Verification).lookup u i, ?_, rfl, rfl, rfl, rfl⟩
  dsimp only
  rw [hn, verifyPosition]
  dsimp only
  rw [if_neg hne, hpick, if_neg, if_pos]
  · simp [Verification.lookup, Verification.tokens, probOf, pointMass, sureDists, switchDraws, acceptTest]
  · exact Nat.not_le_of_lt hulen

/-- Acceptances are only added. -/
theorem verifyRound_accepted (target : List Token → Nat → List Candidate) (draws : Nat → Draw) :
    ∀ (fuel i sKeep : Nat) (acc : List Acceptance) (v : Verification) (r : RoundResult),
      verifyRound target draws fuel i sKeep acc v = some r → acc <+: r.accepted
  | 0, _, _, _, _, _, h => by cases h
  | fuel + 1, i, sKeep, acc, v, r, h => by
    rw [verifyRound] at h
    dsimp only at h
    split at h
    · exact (List.prefix_append _ _).trans (verifyRound_accepted target draws fuel _ _ _ _ r h)
    · cases h
      exact List.prefix_rfl

/-- The run of these draws accepts `s` up to `j` and then `t`. -/
theorem verifyRound_switch (hs : s ∈ activeSeqs drafts) (ht : t ∈ activeSeqs drafts)
    (hsl : j ≤ (tokensOf drafts s).length) (htl : j < (tokensOf drafts t).length) :
    ∀ (fuel i sKeep : Nat) (acc : List Acceptance) (v : Verification) (r : RoundResult), i ≤ j → acc.length = i →
      acc.map Acceptance.token = (tokensOf drafts s).take i → v.drafts = drafts → v.dists = sureDists drafts →
      v.activeSeqs = activeSeqs drafts → v.drawn = i →
      verifyRound (switchTarget drafts s t j) (switchDraws drafts s t j) fuel i sKeep acc v = some r →
      ∃ e, r.accepted[j]? = some e ∧ e.seq = t ∧ e.index = j ∧
        (r.accepted.take j).map Acceptance.token = (tokensOf drafts s).take j
  | 0, _, _, _, _, _, _, _, _, _, _, _, _, h => by cases h
  | fuel + 1, i, sKeep, acc, v, r, hi, hlen, htok, h₁, h₂, h₃, h₄, h => by
    rw [verifyRound] at h
    dsimp only at h
    generalize hrow : (((v.drafts[sKeep]?).map SeqDraft.iBatchTgt).getD []).getD i 0 = row at h
    obtain ⟨w, hpos, w₁, w₂, w₃, w₄⟩ := verifyPosition_switch hs ht hsl htl hi
      (v := { v with distTgt := switchTarget drafts s t j (acc.map Acceptance.token) row, pTgt := 0, pDft := 0 })
      h₁ h₂ h₃ h₄ (by simp only [switchTarget, List.length_map, hlen])
    rw [hpos] at h
    dsimp only at h
    rw [Verification.tokens, w₁] at h
    rcases Nat.lt_or_ge i j with hlt | hge
    · rw [if_pos hlt] at h
      refine verifyRound_switch hs ht hsl htl fuel (i + 1) s _ w r hlt (by simp [hlen]) ?_ w₁ w₂ w₃ w₄ h
      rw [List.map_append, htok, List.map_singleton, List.getD_eq_getElem _ _ (by omega)]
      exact List.take_concat_get' _ _ (by omega)
    · obtain rfl : i = j := by omega
      rw [if_neg (Nat.lt_irrefl i)] at h
      obtain ⟨post, hpost⟩ := verifyRound_accepted _ _ _ _ _ _ _ _ h
      refine ⟨⟨t, i, (tokensOf drafts t).getD i 0⟩, ?_, rfl, rfl, ?_⟩
      · rw [← hpost, ← hlen]
        simp
      · rw [← hpost, ← htok, ← hlen, List.append_assoc, List.take_left]

/-- If a round that switches from `s` to `t` at `j` accepts on the prefix, then `t` starts like `s`. -/
theorem take_eq_of_switch (drafts : List SeqDraft) (s t j : Nat) (hs : s ∈ activeSeqs drafts)
    (ht : t ∈ activeSeqs drafts) (hsl : j ≤ (tokensOf drafts s).length) (htl : j < (tokensOf drafts t).length)
    (h : ∃ r, verify (switchTarget drafts s t j) (sureDists drafts) (switchDraws drafts s t j) drafts = some r ∧
      OnPrefix drafts r.accepted) : (tokensOf drafts t).take j = (tokensOf drafts s).take j := by
  obtain ⟨r, hr, hpre⟩ := h
  obtain ⟨e, he, hseq, hidx, htok⟩ := verifyRound_switch hs ht hsl htl _ 0 0 [] _ r (Nat.zero_le j) rfl
    (by rw [List.take_zero]; rfl) rfl rfl rfl rfl hr
  have := hpre j e he
  rwa [hseq, hidx, htok] at this

end Switch

/-- **Drafts are accepted on their prefix, whatever the distributions and the draws, exactly when the active sequences
agree.** An acceptance keeps every other active sequence in play, also those with another token there, so a later
position can accept one of them. -/
theorem verifyRound_onPrefix_iff (drafts : List SeqDraft) :
    (∀ (target : List Token → Nat → List Candidate) (dists : Nat → Nat → List Candidate) (draws : Nat → Draw),
        (∀ acc row, IsDist (target acc row)) → (∀ s i, IsDist (dists s i)) →
        ∃ r, verify target dists draws drafts = some r ∧ OnPrefix drafts r.accepted) ↔ Agree drafts := by
  constructor
  · intro h s hs t ht j hsl htl
    exact take_eq_of_switch drafts s t j hs ht hsl htl
      (h _ _ _ (fun _ _ => isDist_pointMass _) (fun _ _ => isDist_pointMass _))
  · intro h target dists draws _ _
    obtain ⟨r, n, hr, -, hpre, -⟩ := verify_rule target draws dists drafts (Following drafts)
      ⟨rfl, fun k e he => by simp at he, .inl rfl⟩ (Following.step h)
    exact ⟨r, hr, hpre⟩

/-- Two branches with different first tokens. -/
def forkedDrafts : List SeqDraft := [⟨true, [1, 2], [0, 1, 3]⟩, ⟨true, [3, 4], [0, 2, 4]⟩]

/-- The first branch is accepted for one position, then the second one takes over. -/
theorem verify_forkedDrafts_not_onPrefix :
    ¬ ∀ (target : List Token → Nat → List Candidate) (dists : Nat → Nat → List Candidate) (draws : Nat → Draw),
        (∀ acc row, IsDist (target acc row)) → (∀ s i, IsDist (dists s i)) →
        ∃ r, verify target dists draws forkedDrafts = some r ∧ OnPrefix forkedDrafts r.accepted := by
  intro h
  have hbad := take_eq_of_switch forkedDrafts 0 1 1 (by decide) (by decide) (by decide) (by decide)
    (h _ _ _ (fun _ _ => isDist_pointMass _) (fun _ _ => isDist_pointMass _))
  exact absurd hbad (by decide)

end S2Moe.Spec
