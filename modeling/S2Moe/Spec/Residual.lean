import Mathlib.MeasureTheory.Measure.Lebesgue.Basic
import S2Moe.Spec.Verify

/-!
# The law of one verified position

One drafted sequence, one position: the draft proposed its most probable token, the target's distribution is `P`. The
law of the emitted token is over the uniform draw of the ratio test and the draw from the residual.

* `verifyPosition_single` : what the code does there, as one test;
* `acceptMass` : the measure of the draws that pass it; `emitProb` : the law of the emitted token;
* `massOf` : the weight of a token in a list of candidates, invariant under sorting;
* `Exact` : the condition on the two distributions under which the residual repairs what the test does;
* `emitProb_eq_iff` : the emitted token has law `P` exactly then.
-/

namespace S2Moe.Spec
open MeasureTheory

/-- `cur_p->data[0].id`: the token that a drafter proposes for a sequence it does not split. -/
def draftToken (Q : List Candidate) : Token := (Q.head?.map Candidate.id).getD 0

/-- One active sequence with one token, the target's candidates being `P` and the draft's `Q`. -/
def singleDraft (P Q : List Candidate) : Verification where
  drafts := [⟨true, [draftToken Q], [0, 1]⟩]
  dists := fun _ _ => Q
  activeSeqs := [0]
  distTgt := P

/-- At that position the code makes one test; a failure leaves the residual and nothing active. -/
theorem verifyPosition_single (P Q : List Candidate) (draw : Draw) :
    (verifyPosition (fun _ => draw) 0 1 (singleDraft P Q)).1 =
        (if acceptTest draw.r (probOf P (draftToken Q) 0) (probOf Q (draftToken Q) 0) then some 0 else none) ∧
      (acceptTest draw.r (probOf P (draftToken Q) 0) (probOf Q (draftToken Q) 0) = false →
        (verifyPosition (fun _ => draw) 0 1 (singleDraft P Q)).2.distTgt = residual P Q) := by
  have hstep : verifyPosition (fun _ => draw) 0 1 (singleDraft P Q) =
      if acceptTest draw.r (probOf P (draftToken Q) 0) (probOf Q (draftToken Q) 0)
      then (some 0, ({ singleDraft P Q with drawn := 1 } : Verification).lookup 0 0)
      else (none, (({ singleDraft P Q with drawn := 1 } : Verification).lookup 0 0).reject 0 0) := by
    rw [verifyPosition, if_neg (by simp [singleDraft])]
    have hpick : (singleDraft P Q).activeSeqs.getD (draw.pick % (singleDraft P Q).activeSeqs.length) 0 = 0 := by
      simp [singleDraft, Nat.mod_one]
    dsimp only
    rw [hpick, if_neg (by simp [singleDraft, Verification.tokens, tokensOf])]
    rfl
  rw [hstep]
  split
  · rename_i h
    refine ⟨rfl, fun hf => ?_⟩
    rw [h] at hf
    cases hf
  · exact ⟨rfl, fun _ => rfl⟩

/-! ## The law -/

/-- The weight of a token. -/
def massOf (cands : List Candidate) (x : Token) : Rat := ((cands.filter (fun c => c.id == x)).map Candidate.p).sum

/-- `std::discrete_distribution` over the weights of `cands`. Weights that sum to zero, which the source divides by, give
no token any probability. -/
def discreteProb (cands : List Candidate) (x : Token) : Rat := massOf cands x / sumProbs cands

/-- The probability that a uniform draw passes the ratio test. -/
noncomputable def acceptMass (pTgt pDft : Rat) : ℝ :=
  (volume {r : ℝ | r ∈ Set.Icc 0 1 ∧ acceptTest r (pTgt : ℝ) (pDft : ℝ) = true}).toReal

/-- The probability that the position emits `x`. -/
noncomputable def emitProb (P Q : List Candidate) (x : Token) : ℝ :=
  let a := acceptMass (probOf P (draftToken Q) 0) (probOf Q (draftToken Q) 0)
  a * (if x = draftToken Q then 1 else 0) + (1 - a) * discreteProb (residual P Q) x

theorem acceptMass_eq {pTgt pDft : Rat} (hT : 0 ≤ pTgt) (hD : 0 < pDft) :
    acceptMass pTgt pDft = ((min 1 (pTgt / pDft) : Rat) : ℝ) := by
  have hD' : (pDft : ℝ) ≠ 0 := by exact_mod_cast hD.ne'
  have hset : {r : ℝ | r ∈ Set.Icc 0 1 ∧ acceptTest r (pTgt : ℝ) (pDft : ℝ) = true} =
      Set.Icc 0 (min 1 ((pTgt : ℝ) / pDft)) := by
    ext r
    simp only [acceptTest, hD', if_false, Set.mem_ofPred_eq, Set.mem_Icc, decide_eq_true_eq, le_min_iff, and_assoc]
  have hnonneg : 0 ≤ (min 1 ((pTgt : ℝ) / pDft)) := by
    have : (0 : ℝ) ≤ pTgt / pDft := div_nonneg (by exact_mod_cast hT) (by exact_mod_cast hD.le)
    exact le_min zero_le_one this
  unfold acceptMass
  rw [hset, Real.volume_Icc, sub_zero, ENNReal.toReal_ofReal hnonneg]
  push_cast
  rfl

/-! ## Candidate lists as weights -/

theorem massOf_perm {l l' : List Candidate} (h : l.Perm l') (x : Token) : massOf l x = massOf l' x :=
  ((h.filter _).map _).sum_eq

theorem sumProbs_perm {l l' : List Candidate} (h : l.Perm l') : sumProbs l = sumProbs l' := (h.map _).sum_eq

theorem massOf_cons (c : Candidate) (l : List Candidate) (x : Token) :
    massOf (c :: l) x = (if c.id = x then c.p else 0) + massOf l x := by
  unfold massOf
  rw [List.filter_cons]
  by_cases h : c.id = x
  · simp [h]
  · simp [h]

theorem sumProbs_cons (c : Candidate) (l : List Candidate) : sumProbs (c :: l) = c.p + sumProbs l := rfl

theorem massOf_of_not_mem {x : Token} : ∀ {l : List Candidate}, x ∉ l.map Candidate.id → massOf l x = 0
  | [], _ => rfl
  | c :: l, h => by
    rw [List.map_cons, List.mem_cons, not_or] at h
    rw [massOf_cons, if_neg (Ne.symm h.1), massOf_of_not_mem h.2, add_zero]

/-- With distinct tokens the lookup of the source finds the weight. -/
theorem probOf_eq_massOf : ∀ {l : List Candidate}, (l.map Candidate.id).Nodup → ∀ x, probOf l x 0 = massOf l x
  | [], _, _ => rfl
  | c :: l, h, x => by
    rw [List.map_cons, List.nodup_cons] at h
    rw [massOf_cons]
    by_cases hx : c.id = x
    · rw [if_pos hx, massOf_of_not_mem (hx ▸ h.1), add_zero]
      simp [probOf, hx]
    · rw [if_neg hx, zero_add, ← probOf_eq_massOf h.2 x]
      simp [probOf, hx]

theorem massOf_nonneg {l : List Candidate} (h : ∀ c ∈ l, 0 ≤ c.p) (x : Token) : 0 ≤ massOf l x := by
  apply List.sum_nonneg
  intro y hy
  obtain ⟨c, hc, rfl⟩ := List.mem_map.mp hy
  exact h c (List.mem_filter.mp hc).1

theorem massOf_map_div (l : List Candidate) (S : Rat) (x : Token) :
    massOf (l.map fun c => { c with p := c.p / S }) x = massOf l x / S := by
  induction l with
  | nil => simp [massOf]
  | cons c l ih =>
      rw [List.map_cons, massOf_cons, ih, massOf_cons, add_div]
      split <;> simp

theorem sumProbs_map_div (l : List Candidate) (S : Rat) :
    sumProbs (l.map fun c => { c with p := c.p / S }) = sumProbs l / S := by
  induction l with
  | nil => simp [sumProbs]
  | cons c l ih => rw [List.map_cons, sumProbs_cons, ih, sumProbs_cons, add_div]

/-- Two lists over the same distinct tokens: the sum is determined by the weights. -/
theorem sumProbs_eq_of_massOf {t : Token} {c : Rat} : ∀ {l l' : List Candidate}, l.map Candidate.id = l'.map Candidate.id →
    (l.map Candidate.id).Nodup → (∀ x, massOf l x = if x = t then 0 else c * massOf l' x) →
    sumProbs l = c * (sumProbs l' - massOf l' t)
  | [], [], _, _, _ => by simp [sumProbs, massOf]
  | e :: l, e' :: l', hids, hnd, h => by
    rw [List.map_cons, List.map_cons, List.cons.injEq] at hids
    rw [List.map_cons, List.nodup_cons] at hnd
    have hzero : massOf l e.id = 0 := massOf_of_not_mem hnd.1
    have hzero' : massOf l' e.id = 0 := massOf_of_not_mem (hids.2 ▸ hnd.1)
    have hhead : e.p = if e.id = t then 0 else c * e'.p := by
      have := h e.id
      rwa [massOf_cons, massOf_cons, if_pos rfl, if_pos hids.1.symm, hzero, hzero', add_zero, add_zero] at this
    have htail : ∀ x, massOf l x = if x = t then 0 else c * massOf l' x := by
      intro x
      by_cases hx : e.id = x
      · rw [← hx, hzero, hzero']
        simp
      · have hx' : ¬ e'.id = x := hids.1 ▸ hx
        have := h x
        rwa [massOf_cons, massOf_cons, if_neg hx, if_neg hx', zero_add, zero_add] at this
    rw [sumProbs_cons, sumProbs_cons, sumProbs_eq_of_massOf hids.2 hnd.2 htail, massOf_cons, ← hids.1, hhead]
    split <;> ring

theorem map_id_subtract : ∀ (a b : List Candidate), (subtract a b).map Candidate.id = a.map Candidate.id
  | [], _ => by rw [subtract]
  | t :: ts, [] => by rw [subtract, List.map_cons, map_id_subtract ts [], List.map_cons]
  | t :: ts, d :: ds => by rw [subtract, List.map_cons, map_id_subtract ts ds, List.map_cons]

theorem subtract_nonneg : ∀ (a b : List Candidate), ∀ c ∈ subtract a b, 0 ≤ c.p
  | [], _, c, hc => by
    rw [subtract] at hc
    cases hc
  | t :: ts, [], c, hc => by
    rw [subtract] at hc
    rcases List.mem_cons.mp hc with rfl | hc
    · exact le_max_left _ _
    · exact subtract_nonneg ts [] c hc
  | t :: ts, d :: ds, c, hc => by
    rw [subtract] at hc
    rcases List.mem_cons.mp hc with rfl | hc
    · exact le_max_left _ _
    · exact subtract_nonneg ts ds c hc

/-- The differences that a rejection computes: both lists in the order of their ids, entry by entry, cut off at zero. -/
def differences (P Q : List Candidate) : List Candidate := subtract (sortById P) (sortById Q)

theorem discreteProb_residual (P Q : List Candidate) (x : Token) :
    discreteProb (residual P Q) x = massOf (differences P Q) x / sumProbs (differences P Q) := by
  have hperm : (residual P Q).Perm ((differences P Q).map fun c => { c with p := c.p / sumProbs (differences P Q) }) :=
    List.mergeSort_perm _ _
  unfold discreteProb
  rw [massOf_perm hperm, sumProbs_perm hperm, massOf_map_div, sumProbs_map_div]
  by_cases hS : sumProbs (differences P Q) = 0
  · simp [hS]
  · rw [div_self hS, div_one]

/-! ## When the law is the target's -/

/-- Either the target is certain of the proposed token; or it gives it less than the draft, the ratio test accepts it
with its own probability, and the differences vanish at it and are proportional to the target elsewhere. -/
def Exact (P Q : List Candidate) : Prop :=
  let t := draftToken Q
  massOf P t = 1 ∨
    (massOf P t < massOf Q t ∧ (massOf P t = 0 ∨ massOf Q t = 1) ∧
      ∃ c > 0, ∀ x, massOf (differences P Q) x = if x = t then 0 else c * massOf P x)

theorem massOf_le_sumProbs {l : List Candidate} (h : ∀ c ∈ l, 0 ≤ c.p) (x : Token) : massOf l x ≤ sumProbs l := by
  induction l with
  | nil => exact le_rfl
  | cons c l ih =>
      have h0 := h c List.mem_cons_self
      have := ih (fun e he => h e (List.mem_cons_of_mem _ he))
      rw [massOf_cons, sumProbs_cons]
      split
      · linarith
      · linarith

/-- A token with all the weight leaves none for another. -/
theorem massOf_add_le {l : List Candidate} (h : ∀ c ∈ l, 0 ≤ c.p) {x y : Token} (hxy : x ≠ y) :
    massOf l x + massOf l y ≤ sumProbs l := by
  induction l with
  | nil => simp [massOf, sumProbs]
  | cons c l ih =>
      have h0 := h c List.mem_cons_self
      have := ih (fun e he => h e (List.mem_cons_of_mem _ he))
      rw [massOf_cons, massOf_cons, sumProbs_cons]
      by_cases hx : c.id = x
      · rw [if_pos hx, if_neg (fun hy => hxy (hx.symm.trans hy))]
        linarith
      · rw [if_neg hx]
        split
        · linarith
        · linarith

/-- Without weight elsewhere, the sum is the weight of one token. -/
theorem sumProbs_eq_massOf {l : List Candidate} (h : ∀ c ∈ l, 0 ≤ c.p) {t : Token} (hz : ∀ x, x ≠ t → massOf l x = 0) :
    sumProbs l = massOf l t := by
  induction l with
  | nil => rfl
  | cons c l ih =>
      have hl : ∀ e ∈ l, 0 ≤ e.p := fun e he => h e (List.mem_cons_of_mem _ he)
      have h0 := h c List.mem_cons_self
      have hsplit : ∀ x, x ≠ t → massOf l x = 0 ∧ (c.id = x → c.p = 0) := by
        intro x hx
        have hsum := hz x hx
        have hnn := massOf_nonneg hl x
        rw [massOf_cons] at hsum
        by_cases hid : c.id = x
        · rw [if_pos hid] at hsum
          exact ⟨by linarith, fun _ => by linarith⟩
        · rw [if_neg hid, zero_add] at hsum
          exact ⟨hsum, fun h => absurd h hid⟩
      rw [sumProbs_cons, massOf_cons, ih hl (fun x hx => (hsplit x hx).1)]
      by_cases hid : c.id = t
      · rw [if_pos hid]
      · rw [if_neg hid, (hsplit c.id hid).2 rfl]

section Law
variable {P Q : List Candidate}

theorem map_id_sortById (l : List Candidate) : ((sortById l).map Candidate.id).Perm (l.map Candidate.id) :=
  (List.mergeSort_perm l _).map _

theorem IsDist.massOf_le_one (hP : IsDist P) (x : Token) : massOf P x ≤ 1 := by
  rw [← hP.sum]
  exact massOf_le_sumProbs hP.nonneg x

/-- The draft gives its own token a positive probability, as it is its most probable one. -/
theorem massOf_draftToken_pos (hQ : IsDist Q) (htop : ∀ c ∈ Q, c.p ≤ massOf Q (draftToken Q)) :
    0 < massOf Q (draftToken Q) := by
  by_contra hle
  have hzero : ∀ y ∈ Q.map Candidate.p, y = 0 := by
    intro y hy
    obtain ⟨c, hc, rfl⟩ := List.mem_map.mp hy
    exact le_antisymm ((htop c hc).trans (not_lt.mp hle)) (hQ.nonneg c hc)
  have hsum := hQ.sum
  unfold sumProbs at hsum
  rw [List.sum_eq_zero hzero] at hsum
  exact zero_ne_one hsum

/-- The sum of the differences, when they are as `Exact` wants them. -/
theorem sumProbs_differences (hP : IsDist P) {t : Token} {c : Rat}
    (h : ∀ x, massOf (differences P Q) x = if x = t then 0 else c * massOf P x) :
    sumProbs (differences P Q) = c * (1 - massOf P t) := by
  have hperm : (sortById P).Perm P := List.mergeSort_perm P _
  have hids : (differences P Q).map Candidate.id = (sortById P).map Candidate.id := map_id_subtract _ _
  have hnd : ((differences P Q).map Candidate.id).Nodup := by
    rw [hids, (map_id_sortById P).nodup_iff]
    exact hP.nodup
  rw [sumProbs_eq_of_massOf (t := t) (c := c) hids hnd (fun x => by rw [h x, massOf_perm hperm]),
    sumProbs_perm hperm, massOf_perm hperm, hP.sum]

/-- The law, in rational numbers. -/
theorem emitProb_eq (hP : IsDist P) (hQ : IsDist Q) (htop : ∀ c ∈ Q, c.p ≤ massOf Q (draftToken Q)) (x : Token) :
    emitProb P Q x = (((min 1 (massOf P (draftToken Q) / massOf Q (draftToken Q))) *
        (if x = draftToken Q then 1 else 0) +
      (1 - min 1 (massOf P (draftToken Q) / massOf Q (draftToken Q))) *
        (massOf (differences P Q) x / sumProbs (differences P Q)) : Rat) : ℝ) := by
  unfold emitProb
  rw [probOf_eq_massOf hP.nodup, probOf_eq_massOf hQ.nodup,
    acceptMass_eq (massOf_nonneg hP.nonneg _) (massOf_draftToken_pos hQ htop), discreteProb_residual]
  push_cast
  split <;> simp

/-- The target gives the token at least what the draft gives it: it is always accepted. -/
theorem emitProb_eq_iff_of_le (hP : IsDist P) (hQ : IsDist Q) (htop : ∀ c ∈ Q, c.p ≤ massOf Q (draftToken Q))
    (hle : massOf Q (draftToken Q) ≤ massOf P (draftToken Q)) :
    (∀ x, emitProb P Q x = (massOf P x : ℝ)) ↔ massOf P (draftToken Q) = 1 := by
  have hq := massOf_draftToken_pos hQ htop
  have hmin : min 1 (massOf P (draftToken Q) / massOf Q (draftToken Q)) = 1 := min_eq_left ((one_le_div hq).mpr hle)
  have hlaw : ∀ x, emitProb P Q x = ((if x = draftToken Q then 1 else 0 : Rat) : ℝ) := by
    intro x
    rw [emitProb_eq hP hQ htop, hmin, sub_self, zero_mul, add_zero, one_mul]
  constructor
  · intro h
    have := (hlaw (draftToken Q)).symm.trans (h (draftToken Q))
    rw [if_pos rfl] at this
    exact_mod_cast this.symm
  · intro h x
    rw [hlaw]
    refine congrArg (fun y : Rat => (y : ℝ)) ?_
    by_cases hx : x = draftToken Q
    · rw [if_pos hx, hx, h]
    · have hadd := massOf_add_le hP.nonneg hx
      have hnn := massOf_nonneg hP.nonneg x
      rw [hP.sum, h] at hadd
      rw [if_neg hx]
      linarith

/-- The target gives the token less: it is accepted with the ratio, and the residual must make up for the rest. -/
theorem emitProb_eq_iff_of_lt (hP : IsDist P) (hQ : IsDist Q) (htop : ∀ c ∈ Q, c.p ≤ massOf Q (draftToken Q))
    (hlt : massOf P (draftToken Q) < massOf Q (draftToken Q)) :
    (∀ x, emitProb P Q x = (massOf P x : ℝ)) ↔
      (massOf P (draftToken Q) = 0 ∨ massOf Q (draftToken Q) = 1) ∧
        ∃ c > 0, ∀ x, massOf (differences P Q) x = if x = draftToken Q then 0 else c * massOf P x := by
  have hq := massOf_draftToken_pos hQ htop
  have hq1 := hQ.massOf_le_one (draftToken Q)
  have hp0 := massOf_nonneg hP.nonneg (draftToken Q)
  generalize ht : draftToken Q = t at hlt hq hq1 hp0 ⊢
  generalize hS : sumProbs (differences P Q) = S
  have hratio : massOf P t / massOf Q t < 1 := (div_lt_one hq).mpr hlt
  have hlaw : ∀ x, emitProb P Q x = (massOf P x : ℝ) ↔
      massOf P t / massOf Q t * (if x = t then 1 else 0) +
        (1 - massOf P t / massOf Q t) * (massOf (differences P Q) x / S) = massOf P x := by
    intro x
    rw [emitProb_eq hP hQ htop, ht, min_eq_right hratio.le, hS]
    norm_cast
  simp only [hlaw]
  have hdnn : ∀ x, 0 ≤ massOf (differences P Q) x := massOf_nonneg (subtract_nonneg _ _)
  have hSnn : 0 ≤ S := by
    rw [← hS]
    exact List.sum_nonneg (fun y hy => by
      obtain ⟨c, hc, rfl⟩ := List.mem_map.mp hy
      exact subtract_nonneg _ _ c hc)
  constructor
  · intro h
    -- at the token itself the ratio alone is already as large as it may be
    have hpa : massOf P t ≤ massOf P t / massOf Q t := by
      rw [le_div_iff₀ hq]
      exact mul_le_of_le_one_right hp0 hq1
    have ht := h t
    rw [if_pos rfl, mul_one] at ht
    have hrest : 0 ≤ massOf (differences P Q) t / S := div_nonneg (hdnn t) hSnn
    have hzero : (1 - massOf P t / massOf Q t) * (massOf (differences P Q) t / S) = 0 := by
      have : 0 ≤ (1 - massOf P t / massOf Q t) * (massOf (differences P Q) t / S) :=
        mul_nonneg (by linarith) hrest
      linarith
    have heq : massOf P t / massOf Q t = massOf P t := by linarith
    have hSpos : 0 < S := by
      rcases hSnn.lt_or_eq with h' | h'
      · exact h'
      · have hnone : ∀ x, x ≠ t → massOf P x = 0 := by
          intro x hx
          have := h x
          rw [if_neg hx, ← h', div_zero, mul_zero, mul_zero, add_zero] at this
          exact this.symm
        have hsum := sumProbs_eq_massOf hP.nonneg hnone
        rw [hP.sum] at hsum
        linarith
    have hgap : 0 < 1 - massOf P t / massOf Q t := by linarith
    refine ⟨?_, S / (1 - massOf P t / massOf Q t), div_pos hSpos hgap, ?_⟩
    · rw [div_eq_iff hq.ne'] at heq
      rcases eq_or_ne (massOf P t) 0 with h0 | h0
      · exact .inl h0
      · exact .inr (mul_left_cancel₀ h0 (by linarith))
    · intro x
      by_cases hx : x = t
      · rw [if_pos hx, hx]
        rcases mul_eq_zero.mp hzero with h' | h'
        · linarith
        · rcases div_eq_zero_iff.mp h' with h'' | h''
          · exact h''
          · linarith
      · have := h x
        rw [if_neg hx, mul_zero, zero_add] at this
        rw [if_neg hx, ← this, ← mul_assoc, div_mul_cancel₀ _ hgap.ne', mul_div_cancel₀ _ hSpos.ne']
  · rintro ⟨hpq, c, hc, hd⟩ x
    have hSeq : S = c * (1 - massOf P t) := by
      rw [← hS]
      exact sumProbs_differences hP hd
    have heq : massOf P t / massOf Q t = massOf P t := by
      rcases hpq with h0 | h1
      · rw [h0, zero_div]
      · rw [h1, div_one]
    have hgap : 1 - massOf P t ≠ 0 := by linarith
    rw [heq, hd x, hSeq]
    by_cases hx : x = t
    · rw [if_pos hx, if_pos hx, hx]
      ring
    · rw [if_neg hx, if_neg hx, mul_zero, zero_add, mul_div_mul_left _ _ hc.ne', mul_div_cancel₀ _ hgap]

/-- **A position emits the target's law** exactly when the two distributions are `Exact`. The drafter does not sample its
token but takes the most probable one, so for most distributions the ratio test accepts it too often. -/
theorem emitProb_eq_iff (hP : IsDist P) (hQ : IsDist Q) (htop : ∀ c ∈ Q, c.p ≤ massOf Q (draftToken Q)) :
    (∀ x, emitProb P Q x = (massOf P x : ℝ)) ↔ Exact P Q := by
  unfold Exact
  rcases lt_or_ge (massOf P (draftToken Q)) (massOf Q (draftToken Q)) with hlt | hge
  · rw [emitProb_eq_iff_of_lt hP hQ htop hlt]
    have hne : massOf P (draftToken Q) ≠ 1 := by
      have := hQ.massOf_le_one (draftToken Q)
      linarith
    simp [hlt, hne]
  · rw [emitProb_eq_iff_of_le hP hQ htop hge]
    simp [not_lt.mpr hge]

end Law

/-- A draft that is certain of its token, against a target that is not. -/
theorem emitProb_eq_iff_pointMass :
    draftToken (pointMass 0) = 0 ∧
      ∀ x, emitProb [⟨0, 1 / 2⟩, ⟨1, 1 / 2⟩] (pointMass 0) x = (massOf [⟨0, 1 / 2⟩, ⟨1, 1 / 2⟩] x : ℝ) := by
  have hP : IsDist [⟨0, 1 / 2⟩, ⟨1, 1 / 2⟩] := by
    refine ⟨?_, ?_, ?_⟩ <;> norm_num [sumProbs]
  have hdiff : differences [⟨0, 1 / 2⟩, ⟨1, 1 / 2⟩] (pointMass 0) = [⟨0, 0⟩, ⟨1, 1 / 2⟩] := by
    norm_num [differences, sortById, pointMass, subtract, List.mergeSort, List.merge]
  refine ⟨rfl, ?_⟩
  refine (emitProb_eq_iff hP (isDist_pointMass 0) (by simp [pointMass, massOf, draftToken])).mpr
    (.inr ⟨?_, .inr ?_, 1, one_pos, ?_⟩)
  · norm_num [pointMass, massOf, draftToken]
  · norm_num [pointMass, massOf, draftToken]
  · intro x
    have htoken : draftToken (pointMass 0) = 0 := rfl
    rw [hdiff, htoken, one_mul, massOf_cons, massOf_cons, massOf_cons, massOf_cons]
    by_cases h0 : x = 0
    · simp [h0, massOf]
    · simp [h0, Ne.symm h0]

/-- The token proposed is emitted with probability 3/4 instead of 1/2. -/
theorem emitProb_not_target :
    ¬ ∀ P Q : List Candidate, IsDist P → IsDist Q → (∀ c ∈ Q, c.p ≤ massOf Q (draftToken Q)) →
      ∀ x, emitProb P Q x = (massOf P x : ℝ) := by
  intro h
  have hP : IsDist [⟨0, 1 / 2⟩, ⟨1, 1 / 2⟩] := by
    refine ⟨?_, ?_, ?_⟩ <;> norm_num [sumProbs]
  have hQ : IsDist [⟨0, 2 / 3⟩, ⟨1, 1 / 3⟩] := by
    refine ⟨?_, ?_, ?_⟩ <;> norm_num [sumProbs]
  have htop : ∀ c ∈ [(⟨0, 2 / 3⟩ : Candidate), ⟨1, 1 / 3⟩], c.p ≤
      massOf [⟨0, 2 / 3⟩, ⟨1, 1 / 3⟩] (draftToken [⟨0, 2 / 3⟩, ⟨1, 1 / 3⟩]) := by
    norm_num [massOf, draftToken]
  have hlt : massOf [⟨0, 1 / 2⟩, ⟨1, 1 / 2⟩] (draftToken [⟨0, 2 / 3⟩, ⟨1, 1 / 3⟩]) <
      massOf [⟨0, 2 / 3⟩, ⟨1, 1 / 3⟩] (draftToken [⟨0, 2 / 3⟩, ⟨1, 1 / 3⟩]) := by
    norm_num [massOf, draftToken]
  obtain ⟨hbad, -⟩ := (emitProb_eq_iff_of_lt hP hQ htop hlt).mp (h _ _ hP hQ htop)
  norm_num [massOf, draftToken] at hbad

end S2Moe.Spec
