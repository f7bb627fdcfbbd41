import S2Moe.Spec.Passes
import S2Moe.Spec.Residual

/-!
# The update of a rejection, and the probabilities it is decided on

A rejection subtracts the draft's probabilities from the target's. It pairs the two lists by rank, after it has sorted each by
its ids. The probabilities of the ratio test are looked up in variables that live as long as the position.

* `InStep I J` : the ids of the two lists, sorted, are the same as far as both lists go;
* `ResidualRight I J` : the update is right for all distributions over these ids;
* `residualRight_iff` : only for lists in step it is;
* `LookupsRight` : every test at a position is made with the probabilities of its own token;
* `update_iff` : when both hold.
-/

namespace S2Moe.Spec

def idsOf (cands : List Candidate) : List Token := cands.map Candidate.id

def sortIds (ids : List Token) : List Token := ids.mergeSort (fun a b => decide (a ≤ b))

def InStep (I J : List Token) : Prop := sortIds I <+: sortIds J ∨ sortIds J <+: sortIds I

instance (I J : List Token) : Decidable (InStep I J) := inferInstanceAs (Decidable (_ ∨ _))

/-- The sum of what the target gives more than the draft, over the target's tokens. -/
def residualSum (T D : List Candidate) : Rat := ∑ x ∈ (idsOf T).toFinset, max 0 (massOf T x - massOf D x)

/-- Whenever the target gives some token less than the draft, as it does with a rejected one, its new probabilities are the
positive parts of the differences, divided by their sum. -/
def ResidualRight (I J : List Token) : Prop :=
  ∀ T D, IsDist T → IsDist D → idsOf T = I → idsOf D = J → (∃ x, massOf T x < massOf D x) →
    0 < residualSum T D ∧ ∀ x ∈ I, massOf (residual T D) x = max 0 (massOf T x - massOf D x) / residualSum T D

/-! ## Weights over sets of tokens -/

theorem sum_massOf_le {l : List Candidate} (h : ∀ c ∈ l, 0 ≤ c.p) (s : Finset Token) :
    ∑ x ∈ s, massOf l x ≤ sumProbs l := by
  induction l with
  | nil => simp [massOf, sumProbs]
  | cons c l ih =>
      have hc := h c List.mem_cons_self
      have hl := ih fun e he => h e (List.mem_cons_of_mem _ he)
      simp only [massOf_cons, Finset.sum_add_distrib, Finset.sum_ite_eq, sumProbs_cons]
      split <;> linarith

theorem sum_massOf_eq {l : List Candidate} {s : Finset Token} (h : ∀ x ∈ idsOf l, x ∈ s) :
    ∑ x ∈ s, massOf l x = sumProbs l := by
  induction l with
  | nil => simp [massOf, sumProbs]
  | cons c l ih =>
      have hl := ih fun x hx => h x (List.mem_cons_of_mem _ hx)
      have hc : c.id ∈ s := h c.id List.mem_cons_self
      simp only [massOf_cons, Finset.sum_add_distrib, Finset.sum_ite_eq, if_pos hc, sumProbs_cons, hl]

/-- Two distributions that differ: where one gives less, the other gives less elsewhere. -/
theorem residualSum_pos {T D : List Candidate} (hT : IsDist T) (hD : IsDist D) (h : ∃ x, massOf T x < massOf D x) :
    0 < residualSum T D := by
  obtain ⟨x, hx⟩ := h
  have hnonneg : 0 ≤ residualSum T D := Finset.sum_nonneg fun y _ => le_max_left _ _
  refine lt_of_le_of_ne hnonneg fun hzero => ?_
  have hle : ∀ y ∈ (idsOf T).toFinset, massOf T y ≤ massOf D y := by
    intro y hy
    have hterm := (Finset.sum_eq_zero_iff_of_nonneg fun y _ => le_max_left (0 : Rat) (massOf T y - massOf D y)).mp
      hzero.symm y hy
    have := le_max_right 0 (massOf T y - massOf D y)
    linarith
  have hall : ∀ y ∈ insert x (idsOf T).toFinset, massOf T y ≤ massOf D y := by
    intro y hy
    obtain rfl | hy := Finset.mem_insert.mp hy
    · exact hx.le
    · exact hle y hy
  have hlt : ∑ y ∈ insert x (idsOf T).toFinset, massOf T y < ∑ y ∈ insert x (idsOf T).toFinset, massOf D y :=
    Finset.sum_lt_sum hall ⟨x, Finset.mem_insert_self _ _, hx⟩
  have hTsum : ∑ y ∈ insert x (idsOf T).toFinset, massOf T y = 1 := by
    rw [sum_massOf_eq, hT.sum]
    intro y hy
    exact Finset.mem_insert_of_mem (List.mem_toFinset.mpr hy)
  have hDsum := sum_massOf_le hD.nonneg (insert x (idsOf T).toFinset)
  rw [hD.sum] at hDsum
  linarith

/-! ## Lists in step -/

theorem idsOf_subtract (a b : List Candidate) : idsOf (subtract a b) = idsOf a := map_id_subtract a b

/-- In step, the subtraction by rank is the subtraction by token. -/
theorem massOf_subtract : ∀ (a b : List Candidate), idsOf a <+: idsOf b ∨ idsOf b <+: idsOf a → (idsOf a).Nodup →
    (idsOf b).Nodup → (∀ c ∈ a, 0 ≤ c.p) → ∀ x ∈ idsOf a, massOf (subtract a b) x = max 0 (massOf a x - massOf b x)
  | [], _, _, _, _, _, x, hx => absurd hx List.not_mem_nil
  | t :: ts, [], _, ha, hb, hnn, x, hx => by
    have ha' := List.nodup_cons.mp ha
    have ht : 0 ≤ t.p := hnn t List.mem_cons_self
    rw [subtract, massOf_cons, massOf_cons, show massOf [] x = 0 from rfl, sub_zero]
    by_cases hxt : t.id = x
    · rw [if_pos hxt, if_pos hxt, massOf_of_not_mem (show x ∉ ts.map Candidate.id from hxt ▸ ha'.1),
        massOf_of_not_mem (show x ∉ (subtract ts []).map Candidate.id by rw [map_id_subtract]; exact hxt ▸ ha'.1),
        add_zero, add_zero]
    · have hx' : x ∈ idsOf ts := by
        obtain rfl | hx := List.mem_cons.mp hx
        · exact absurd rfl hxt
        · exact hx
      rw [if_neg hxt, if_neg hxt, zero_add, zero_add, massOf_subtract ts [] (.inr (List.nil_prefix)) ha'.2 List.nodup_nil
        (fun c hc => hnn c (List.mem_cons_of_mem _ hc)) x hx', show massOf [] x = 0 from rfl, sub_zero]
  | t :: ts, d :: ds, h, ha, hb, hnn, x, hx => by
    have ha' := List.nodup_cons.mp ha
    have hb' := List.nodup_cons.mp hb
    obtain ⟨hid, htail⟩ : t.id = d.id ∧ (idsOf ts <+: idsOf ds ∨ idsOf ds <+: idsOf ts) := by
      rcases h with h | h
      · obtain ⟨h1, h2⟩ := List.cons_prefix_cons.mp h
        exact ⟨h1, .inl h2⟩
      · obtain ⟨h1, h2⟩ := List.cons_prefix_cons.mp h
        exact ⟨h1.symm, .inr h2⟩
    rw [subtract, massOf_cons, massOf_cons, massOf_cons, ← hid]
    by_cases hxt : t.id = x
    · rw [if_pos hxt, if_pos hxt, if_pos hxt, massOf_of_not_mem (show x ∉ ts.map Candidate.id from hxt ▸ ha'.1),
        massOf_of_not_mem (show x ∉ (subtract ts ds).map Candidate.id by rw [map_id_subtract]; exact hxt ▸ ha'.1),
        massOf_of_not_mem (show x ∉ ds.map Candidate.id from hxt ▸ hid ▸ hb'.1), add_zero, add_zero, add_zero]
    · have hx' : x ∈ idsOf ts := by
        obtain rfl | hx := List.mem_cons.mp hx
        · exact absurd rfl hxt
        · exact hx
      rw [if_neg hxt, if_neg hxt, if_neg hxt, zero_add, zero_add, zero_add]
      exact massOf_subtract ts ds htail ha'.2 hb'.2 (fun c hc => hnn c (List.mem_cons_of_mem _ hc)) x hx'

theorem pairwise_sortIds (ids : List Token) : (sortIds ids).Pairwise (· ≤ ·) := by
  have h : (sortIds ids).Pairwise fun a b => decide (a ≤ b) = true := List.pairwise_mergeSort
    (fun a b c hab hbc => by simp only [decide_eq_true_eq] at *; exact le_trans hab hbc)
    (fun a b => by simp only [Bool.or_eq_true, decide_eq_true_eq]; exact le_total a b) ids
  exact h.imp fun h => of_decide_eq_true h

theorem sortIds_perm (ids : List Token) : (sortIds ids).Perm ids := List.mergeSort_perm ids _

theorem sortIds_congr {I J : List Token} (h : I.Perm J) : sortIds I = sortIds J :=
  List.Perm.eq_of_pairwise (fun _ _ _ _ hab hba => le_antisymm hab hba) (pairwise_sortIds I) (pairwise_sortIds J)
    ((sortIds_perm I).trans (h.trans (sortIds_perm J).symm))

theorem idsOf_sortById (cands : List Candidate) : idsOf (sortById cands) = sortIds (idsOf cands) := by
  refine List.Perm.eq_of_pairwise (fun _ _ _ _ hab hba => le_antisymm hab hba) ?_ (pairwise_sortIds _)
    ((map_id_sortById cands).trans (sortIds_perm _).symm)
  have h : (sortById cands).Pairwise fun a b => decide (a.id ≤ b.id) = true := List.pairwise_mergeSort
    (fun a b c hab hbc => by simp only [decide_eq_true_eq] at *; exact le_trans hab hbc)
    (fun a b => by simp only [Bool.or_eq_true, decide_eq_true_eq]; exact le_total a.id b.id) cands
  exact List.pairwise_map.mpr (h.imp fun h => of_decide_eq_true h)

theorem InStep.congr {I I' J J' : List Token} (hI : I.Perm I') (hJ : J.Perm J') (h : InStep I J) : InStep I' J' := by
  rw [InStep, sortIds_congr hI, sortIds_congr hJ] at h
  exact h

section Right
variable {T D : List Candidate}

theorem massOf_differences (hT : IsDist T) (hD : IsDist D) (h : InStep (idsOf T) (idsOf D)) {x : Token}
    (hx : x ∈ idsOf T) : massOf (differences T D) x = max 0 (massOf T x - massOf D x) := by
  have hperm : (sortById T).Perm T := List.mergeSort_perm T _
  have hperm' : (sortById D).Perm D := List.mergeSort_perm D _
  rw [InStep, ← idsOf_sortById, ← idsOf_sortById] at h
  rw [differences, massOf_subtract _ _ h, massOf_perm hperm, massOf_perm hperm']
  · exact (hperm.map Candidate.id).nodup_iff.mpr hT.nodup
  · exact (hperm'.map Candidate.id).nodup_iff.mpr hD.nodup
  · exact fun c hc => hT.nonneg c (hperm.mem_iff.mp hc)
  · exact (hperm.map Candidate.id).mem_iff.mpr hx

theorem idsOf_differences (T D : List Candidate) : (idsOf (differences T D)).Perm (idsOf T) := by
  rw [differences, idsOf_subtract]
  exact map_id_sortById T

theorem sumProbs_differences_eq (hT : IsDist T) (hD : IsDist D) (h : InStep (idsOf T) (idsOf D)) :
    sumProbs (differences T D) = residualSum T D := by
  have hsub : ∀ x ∈ idsOf (differences T D), x ∈ (idsOf T).toFinset :=
    fun x hx => List.mem_toFinset.mpr ((idsOf_differences T D).mem_iff.mp hx)
  rw [← sum_massOf_eq hsub, residualSum]
  exact Finset.sum_congr rfl fun x hx => massOf_differences hT hD h (List.mem_toFinset.mp hx)

theorem residual_perm (T D : List Candidate) :
    (residual T D).Perm ((differences T D).map fun c => { c with p := c.p / sumProbs (differences T D) }) :=
  List.mergeSort_perm _ _

theorem idsOf_residual (T D : List Candidate) : (idsOf (residual T D)).Perm (idsOf T) := by
  refine ((residual_perm T D).map Candidate.id).trans ?_
  rw [List.map_map]
  exact idsOf_differences T D

theorem massOf_residual (T D : List Candidate) (x : Token) :
    massOf (residual T D) x = massOf (differences T D) x / sumProbs (differences T D) := by
  rw [massOf_perm (residual_perm T D), massOf_map_div]

theorem massOf_residual_eq (hT : IsDist T) (hD : IsDist D) (h : InStep (idsOf T) (idsOf D)) {x : Token}
    (hx : x ∈ idsOf T) : massOf (residual T D) x = max 0 (massOf T x - massOf D x) / residualSum T D := by
  rw [massOf_residual, massOf_differences hT hD h hx, sumProbs_differences_eq hT hD h]

/-- The update of a rejection is a distribution again. -/
theorem IsDist.residual (hT : IsDist T) (hD : IsDist D) (h : InStep (idsOf T) (idsOf D))
    (hlt : ∃ x, massOf T x < massOf D x) : IsDist (residual T D) := by
  have hpos := residualSum_pos hT hD hlt
  rw [← sumProbs_differences_eq hT hD h] at hpos
  refine ⟨fun c hc => ?_, ?_, (idsOf_residual T D).nodup_iff.mpr hT.nodup⟩
  · obtain ⟨e, he, rfl⟩ := List.mem_map.mp ((residual_perm T D).mem_iff.mp hc)
    exact div_nonneg (subtract_nonneg _ _ e he) hpos.le
  · rw [sumProbs_perm (residual_perm T D), sumProbs_map_div, div_self hpos.ne']

end Right

/-! ## Lists out of step -/

/-- All the weight on one token. -/
def certain (ids : List Token) (a : Token) : List Candidate := ids.map fun x => ⟨x, if x = a then 1 else 0⟩

/-- Half of the weight on each of two tokens. -/
def halves (ids : List Token) (a b : Token) : List Candidate :=
  ids.map fun x => ⟨x, if x = a ∨ x = b then 1 / 2 else 0⟩

theorem massOf_map {w : Token → Rat} : ∀ {ids : List Token}, ids.Nodup → ∀ x,
    massOf (ids.map fun x => ⟨x, w x⟩) x = if x ∈ ids then w x else 0
  | [], _, x => by simp [massOf]
  | y :: ids, h, x => by
    rw [List.nodup_cons] at h
    rw [List.map_cons, massOf_cons, massOf_map h.2 x]
    by_cases hx : y = x
    · subst hx
      simp [h.1]
    · simp [hx, Ne.symm hx]

theorem idsOf_map (w : Token → Rat) (ids : List Token) : idsOf (ids.map fun x => ⟨x, w x⟩) = ids := by
  rw [idsOf, List.map_map]
  exact List.map_id ids

theorem sumProbs_map {w : Token → Rat} {ids : List Token} (h : ids.Nodup) :
    sumProbs (ids.map fun x => ⟨x, w x⟩) = ∑ x ∈ ids.toFinset, w x := by
  rw [List.sum_toFinset w h, sumProbs, List.map_map]
  rfl

theorem isDist_map {w : Token → Rat} {ids : List Token} (h : ids.Nodup) (hw : ∀ x, 0 ≤ w x)
    (hsum : ∑ x ∈ ids.toFinset, w x = 1) : IsDist (ids.map fun x => ⟨x, w x⟩) := by
  have hids : (idsOf (ids.map fun x => ⟨x, w x⟩)).Nodup := by rwa [idsOf_map]
  refine ⟨fun c hc => ?_, by rw [sumProbs_map h, hsum], hids⟩
  obtain ⟨x, -, rfl⟩ := List.mem_map.mp hc
  exact hw x

theorem isDist_certain {ids : List Token} (h : ids.Nodup) {a : Token} (ha : a ∈ ids) : IsDist (certain ids a) := by
  refine isDist_map h (fun x => ?_) ?_
  · split <;> norm_num
  · rw [Finset.sum_ite_eq', if_pos (List.mem_toFinset.mpr ha)]

theorem isDist_halves {ids : List Token} (h : ids.Nodup) {a b : Token} (ha : a ∈ ids) (hb : b ∈ ids) (hab : a ≠ b) :
    IsDist (halves ids a b) := by
  refine isDist_map h (fun x => ?_) ?_
  · split <;> norm_num
  · have hsplit : ∀ x : Token, (if x = a ∨ x = b then (1 / 2 : Rat) else 0) =
        (if x = a then 1 / 2 else 0) + (if x = b then 1 / 2 else 0) := by
      intro x
      by_cases hxa : x = a
      · subst hxa
        simp [hab]
      · simp [hxa]
    simp only [hsplit, Finset.sum_add_distrib, Finset.sum_ite_eq', List.mem_toFinset, ha, hb, if_true]
    norm_num

/-- Two lists of which neither starts with the other differ at some rank. -/
theorem exists_rank_ne : ∀ (L M : List Token), ¬ (L <+: M ∨ M <+: L) →
    ∃ (k : Nat) (a b : Token), L[k]? = some a ∧ M[k]? = some b ∧ a ≠ b
  | [], M, h => absurd (.inl List.nil_prefix) h
  | L, [], h => absurd (.inr List.nil_prefix) h
  | a :: L, b :: M, h => by
    by_cases hab : a = b
    · subst hab
      obtain ⟨k, c, d, hc, hd, hne⟩ := exists_rank_ne L M fun hc => h (by
        simpa only [List.cons_prefix_cons, true_and] using hc)
      exact ⟨k + 1, c, d, hc, hd, hne⟩
    · exact ⟨0, a, b, rfl, rfl, hab⟩

/-- What the subtraction by rank leaves at a rank. -/
theorem massOf_subtract_rank {f g : Token → Rat} : ∀ {L M : List Token} {k : Nat} {a b : Token}, L.Nodup → L[k]? = some a →
    M[k]? = some b →
    massOf (subtract (L.map fun x => ⟨x, f x⟩) (M.map fun x => ⟨x, g x⟩)) a = max 0 (f a - g b)
  | [], _, _, _, _, _, h, _ => by simp at h
  | _ :: _, [], _, _, _, _, _, h => by simp at h
  | x :: L, y :: M, 0, a, b, hL, ha, hb => by
    rw [List.nodup_cons] at hL
    obtain rfl : x = a := by simpa using ha
    obtain rfl : y = b := by simpa using hb
    rw [List.map_cons, List.map_cons, subtract, massOf_cons, if_pos rfl, massOf_of_not_mem, add_zero]
    rw [map_id_subtract]
    exact fun hc => hL.1 ((idsOf_map f L) ▸ hc)
  | x :: L, y :: M, k + 1, a, b, hL, ha, hb => by
    rw [List.nodup_cons] at hL
    have ha' : L[k]? = some a := ha
    have hne : x ≠ a := fun hc => hL.1 (hc ▸ List.mem_of_getElem? ha')
    rw [List.map_cons, List.map_cons, subtract, massOf_cons, if_neg hne, zero_add]
    exact massOf_subtract_rank hL.2 ha' hb

/-- Sorting by id keeps the weights at their tokens. -/
theorem sortById_map (w : Token → Rat) (ids : List Token) :
    sortById (ids.map fun x => ⟨x, w x⟩) = (sortIds ids).map fun x => ⟨x, w x⟩ := by
  have hw : ∀ (l : List Candidate), (∀ c ∈ l, c.p = w c.id) → l = (idsOf l).map fun x => ⟨x, w x⟩ := by
    intro l hl
    rw [idsOf, List.map_map]
    conv_lhs => rw [← List.map_id l]
    refine List.map_congr_left fun c hc => ?_
    rw [id, Function.comp_apply, ← hl c hc]
  rw [hw (sortById _), idsOf_sortById, idsOf_map]
  intro c hc
  obtain ⟨x, -, rfl⟩ := List.mem_map.mp ((List.mergeSort_perm _ _).mem_iff.mp hc)
  rfl

/-- A target that is certain of one token and a draft that is certain of another, at the same rank: nothing is left. -/
theorem ResidualRight.inStep {I J : List Token} (hI : I.Nodup) (hJ : J.Nodup) (h : ResidualRight I J) : InStep I J := by
  by_contra hstep
  obtain ⟨k, a, b, ha, hb, hab⟩ := exists_rank_ne _ _ hstep
  have haI : a ∈ I := (sortIds_perm I).mem_iff.mp (List.mem_of_getElem? ha)
  have hbJ : b ∈ J := (sortIds_perm J).mem_iff.mp (List.mem_of_getElem? hb)
  have hTa : massOf (certain I a) a = 1 := by rw [certain, massOf_map hI, if_pos haI, if_pos rfl]
  have hDa : massOf (certain J b) a = 0 := by
    rw [certain, massOf_map hJ, if_neg hab]
    exact ite_self 0
  have hTb : massOf (certain I a) b = 0 := by
    rw [certain, massOf_map hI, if_neg (Ne.symm hab)]
    exact ite_self 0
  have hDb : massOf (certain J b) b = 1 := by rw [certain, massOf_map hJ, if_pos hbJ, if_pos rfl]
  obtain ⟨hpos, hright⟩ := h (certain I a) (certain J b) (isDist_certain hI haI) (isDist_certain hJ hbJ)
    (idsOf_map _ I) (idsOf_map _ J) ⟨b, by rw [hTb, hDb]; exact zero_lt_one⟩
  have hzero : massOf (differences (certain I a) (certain J b)) a = 0 := by
    rw [differences, certain, certain, sortById_map, sortById_map,
      massOf_subtract_rank ((sortIds_perm I).nodup_iff.mpr hI) ha hb, if_pos rfl, if_pos rfl, sub_self, max_self]
  have hval := hright a haI
  rw [massOf_residual, hzero, zero_div, hTa, hDa, sub_zero, max_eq_right zero_le_one] at hval
  exact absurd hval (by positivity)

theorem residualRight_iff {I J : List Token} (hI : I.Nodup) (hJ : J.Nodup) : ResidualRight I J ↔ InStep I J := by
  refine ⟨ResidualRight.inStep hI hJ, ?_⟩
  rintro h T D hT hD rfl rfl hlt
  exact ⟨residualSum_pos hT hD hlt, fun x hx => massOf_residual_eq hT hD h hx⟩

/-! ## The probabilities of a test -/

/-- The drafted token of sequence `s` at position `i`. -/
def tokenAt (drafts : List SeqDraft) (i s : Nat) : Token := (tokensOf drafts s).getD i 0

/-- The sequence is in play and has a token at position `i`. -/
def Testable (drafts : List SeqDraft) (active : List Nat) (i s : Nat) : Prop := s ∈ active ∧ i < (tokensOf drafts s).length

/-- At every test of the position, over all distributions with these ids that give each drafted token a positive draft
probability, the two probabilities are those of the tested token in the two lists. -/
def LookupsRight (drafts : List SeqDraft) (active : List Nat) (i : Nat) (I : List Token) (J : Nat → List Token) : Prop :=
  ∀ (T : List Candidate) (dists : Nat → Nat → List Candidate) (draws : Nat → Draw), IsDist T → idsOf T = I →
    (∀ s, Testable drafts active i s →
      IsDist (dists s i) ∧ idsOf (dists s i) = J s ∧ 0 < massOf (dists s i) (tokenAt drafts i s)) →
    ∀ p ∈ passes draws i active.length { drafts := drafts, dists := dists, activeSeqs := active, distTgt := T },
      p.tested = true → p.before.pTgt = massOf p.before.distTgt (p.token i) ∧
        p.before.pDft = massOf (p.before.dists p.seq i) (p.token i)

/-- A token outside the target's list is not tested behind one inside it that can be rejected. -/
def InsideFirst (drafts : List SeqDraft) (active : List Nat) (i : Nat) (I : List Token) : Prop :=
  ∀ s t, Testable drafts active i s → Testable drafts active i t → s ≠ t → tokenAt drafts i t ∈ I →
    tokenAt drafts i s ∈ I ∨ I = [tokenAt drafts i t]

/-- A lookup that finds its token does not depend on what was in the variable. -/
theorem probOf_of_mem : ∀ {l : List Candidate}, (idsOf l).Nodup → ∀ {x : Token}, x ∈ idsOf l → ∀ old,
    probOf l x old = massOf l x
  | [], _, _, hx, _ => absurd hx List.not_mem_nil
  | c :: l, h, x, hx, old => by
    have h' := List.nodup_cons.mp h
    rw [massOf_cons]
    by_cases hc : c.id = x
    · rw [if_pos hc, massOf_of_not_mem (show x ∉ l.map Candidate.id from hc ▸ h'.1), add_zero]
      simp [probOf, hc]
    · have hx' : x ∈ idsOf l := by
        obtain rfl | hx := List.mem_cons.mp hx
        · exact absurd rfl hc
        · exact hx
      rw [if_neg hc, zero_add, ← probOf_of_mem h'.2 hx' old]
      simp [probOf, hc]

theorem probOf_of_notMem {l : List Candidate} {x : Token} (h : x ∉ idsOf l) (old : Rat) : probOf l x old = old := by
  have hnone : l.find? (fun c => c.id == x) = none := by
    rw [List.find?_eq_none]
    intro c hc hx
    exact h (List.mem_map.mpr ⟨c, hc, by simpa using hx⟩)
  rw [probOf, hnone]
  rfl

theorem mem_of_massOf_pos {l : List Candidate} {x : Token} (h : 0 < massOf l x) : x ∈ idsOf l := by
  by_contra hx
  rw [massOf_of_not_mem hx] at h
  exact lt_irrefl 0 h

/-- A rejected token has less of the target than of the draft. -/
theorem lt_of_not_acceptTest {draw : Draw} {p q : Rat} (hq : 0 < q) (h : acceptTest draw.r p q = false) : p < q := by
  rw [acceptTest, if_neg hq.ne', decide_eq_false_iff_not, not_le] at h
  have hlt : p / q < 1 := h.trans_le draw.r_mem.2
  rwa [div_lt_one hq] at hlt

/-- The invariant of a position: the lists stay distributions over their ids, and a variable that has kept a value has it
from a token of the target's list. -/
structure Looking (drafts : List SeqDraft) (active : List Nat) (i : Nat) (I : List Token) (J : Nat → List Token)
    (v : Verification) : Prop where
  tokens : v.drafts.map SeqDraft.tokens = drafts.map SeqDraft.tokens
  subset : v.activeSeqs ⊆ active
  target : IsDist v.distTgt ∧ (idsOf v.distTgt).Perm I
  draft : ∀ s, Testable drafts active i s →
    IsDist (v.dists s i) ∧ (idsOf (v.dists s i)).Perm (J s) ∧ 0 < massOf (v.dists s i) (tokenAt drafts i s)
  kept : v.pTgt = 0 ∨ ∃ t, Testable drafts active i t ∧ t ∉ v.activeSeqs ∧ tokenAt drafts i t ∈ I ∧ I ≠ [tokenAt drafts i t]

section Looking
variable {drafts : List SeqDraft} {active : List Nat} {i s : Nat} {I : List Token} {J : Nat → List Token} {v : Verification}

theorem Looking.tokens_eq (h : Looking drafts active i I J v) (t : Nat) : v.tokens t = tokensOf drafts t := by
  unfold Verification.tokens tokensOf
  rw [h.tokens]

theorem Looking.testable (h : Looking drafts active i I J v) (hs : s ∈ v.activeSeqs) (hlen : i < (v.tokens s).length) :
    Testable drafts active i s := ⟨h.subset hs, h.tokens_eq s ▸ hlen⟩

/-- The test of a sequence is made with the probabilities of its token. -/
theorem Looking.lookup (h : Looking drafts active i I J v) (hin : InsideFirst drafts active i I) (hs : s ∈ v.activeSeqs)
    (hlen : i < (v.tokens s).length) :
    (v.facing s i).pTgt = massOf v.distTgt (tokenAt drafts i s) ∧
      (v.facing s i).pDft = massOf (v.dists s i) (tokenAt drafts i s) := by
  have hs' := h.testable hs hlen
  obtain ⟨hd, -, hpos⟩ := h.draft s hs'
  have htok : (v.tokens s).getD i 0 = tokenAt drafts i s := by rw [h.tokens_eq, tokenAt]
  have hp : (v.facing s i).pTgt = probOf v.distTgt ((v.tokens s).getD i 0) v.pTgt := rfl
  have hq : (v.facing s i).pDft = probOf (v.dists s i) ((v.tokens s).getD i 0) v.pDft := rfl
  rw [hp, hq, htok, probOf_of_mem hd.nodup (mem_of_massOf_pos hpos)]
  refine ⟨?_, rfl⟩
  by_cases hmem : tokenAt drafts i s ∈ idsOf v.distTgt
  · exact probOf_of_mem h.target.1.nodup hmem _
  · rw [probOf_of_notMem hmem, massOf_of_not_mem hmem]
    rcases h.kept with hzero | ⟨t, ht, hgone, htI, hone⟩
    · exact hzero
    · have hst : s ≠ t := fun hc => hgone (hc ▸ hs)
      rcases hin s t hs' ht hst htI with hsI | hc
      · exact absurd (h.target.2.mem_iff.mpr hsI) hmem
      · exact absurd hc hone

/-- The only token of the target's list has all its weight. -/
theorem Looking.massOf_eq_one (h : Looking drafts active i I J v) {x : Token} (hI : I = [x]) : massOf v.distTgt x = 1 := by
  have hids : ∀ y ∈ idsOf v.distTgt, y ∈ ({x} : Finset Token) := by
    intro y hy
    have hy' := h.target.2.mem_iff.mp hy
    rw [hI] at hy'
    simpa using hy'
  have hsum := sum_massOf_eq hids
  rwa [Finset.sum_singleton, h.target.1.sum] at hsum

theorem Looking.pass (hin : InsideFirst drafts active i I) (hstep : ∀ s, Testable drafts active i s → InStep I (J s))
    (h : Looking drafts active i I J v) {p : Pass} (hp : PassFrom i v p) (ha : p.accepted = false) :
    Looking drafts active i I J p.after := by
  have hsub : p.after.activeSeqs ⊆ v.activeSeqs := hp.narrowed.active
  cases hp with
  | accepted s draw hs hlen hacc => cases ha
  | dropped s hs hlen =>
      refine ⟨(Narrowed.dropped v s).tokens.trans h.tokens, fun t ht => h.subset (hsub ht), h.target, h.draft, ?_⟩
      rcases h.kept with hzero | ⟨t, ht, hgone, hrest⟩
      · exact .inl hzero
      · exact .inr ⟨t, ht, fun hc => hgone (hsub hc), hrest⟩
  | rejected s draw hs hlen hacc =>
      have hs' := h.testable hs hlen
      obtain ⟨hpT, hpD⟩ := h.lookup hin hs hlen
      obtain ⟨hd, hdids, hdpos⟩ := h.draft s hs'
      have hlt : massOf v.distTgt (tokenAt drafts i s) < massOf (v.dists s i) (tokenAt drafts i s) := by
        rw [hpT, hpD] at hacc
        exact lt_of_not_acceptTest hdpos hacc
      have hinstep : InStep (idsOf v.distTgt) (idsOf (v.dists s i)) := (hstep s hs').congr h.target.2.symm hdids.symm
      refine ⟨((Narrowed.facing v s i).trans (.reject _ s i)).tokens.trans h.tokens, fun t ht => h.subset (hsub ht),
        ⟨h.target.1.residual hd hinstep ⟨_, hlt⟩, (idsOf_residual _ _).trans h.target.2⟩, fun t ht => ?_, ?_⟩
      · -- the candidates of `s` are sorted by id
        obtain ⟨htd, htids, htpos⟩ := h.draft t ht
        have hdists : ((v.facing s i).reject s i).dists t i = if t = s then sortById (v.dists s i) else v.dists t i := by
          show (if t = s ∧ i = i then sortById (v.dists s i) else v.dists t i) = _
          simp only [and_true]
        rw [hdists]
        split
        · rename_i hts
          subst hts
          have hperm : (sortById (v.dists t i)).Perm (v.dists t i) := List.mergeSort_perm _ _
          refine ⟨⟨fun c hc => htd.nonneg c (hperm.mem_iff.mp hc), by rw [sumProbs_perm hperm, htd.sum],
            (hperm.map Candidate.id).nodup_iff.mpr htd.nodup⟩, (hperm.map Candidate.id).trans htids, ?_⟩
          rw [massOf_perm hperm]
          exact htpos
        · exact ⟨htd, htids, htpos⟩
      · have hkept : ((v.facing s i).reject s i).pTgt = massOf v.distTgt (tokenAt drafts i s) := hpT
        rw [hkept]
        by_cases hmem : tokenAt drafts i s ∈ I
        · right
          refine ⟨s, hs', ?_, hmem, fun hone => ?_⟩
          · rw [Verification.activeSeqs_reject]
            simp
          · have hle := hd.massOf_le_one (tokenAt drafts i s)
            rw [h.massOf_eq_one hone] at hlt
            linarith
        · left
          exact massOf_of_not_mem fun hc => hmem (h.target.2.mem_iff.mp hc)

end Looking

/-! ## A kept probability -/

/-- The draws pick `t` and then `s`, and fail every test that can fail. -/
def thenDraws (active : List Nat) (t s : Nat) (n : Nat) : Draw :=
  ⟨if n = 0 then active.idxOf t else (active.filter (· != t)).idxOf s, 1, zero_le_one, le_rfl⟩

theorem Verification.picked_idxOf {v : Verification} {x : Nat} (hx : x ∈ v.activeSeqs) {draw : Draw}
    (hpick : draw.pick = v.activeSeqs.idxOf x) : v.picked draw = x := by
  have hidx : v.activeSeqs.idxOf x < v.activeSeqs.length := List.idxOf_lt_length_of_mem hx
  rw [Verification.picked, hpick, Nat.mod_eq_of_lt hidx, List.getD_eq_getElem _ _ hidx, List.getElem_idxOf hidx]

/-- The first two passes, when the first one rejects. -/
theorem second_pass_mem {draws : Nat → Draw} {i t s : Nat} {v : Verification} (fuel : Nat) (ht : t ∈ v.activeSeqs)
    (hpt : (draws v.drawn).pick = v.activeSeqs.idxOf t) (htlen : i < (v.tokens t).length)
    (hrej : acceptTest (draws v.drawn).r (v.facing t i).pTgt (v.facing t i).pDft = false)
    (hs : s ∈ v.activeSeqs) (hst : s ≠ t) (hps : (draws (v.drawn + 1)).pick = (v.activeSeqs.filter (· != t)).idxOf s)
    (hslen : i < (v.tokens s).length) :
    ∃ p ∈ passes draws i (fuel + 2) v, p.tested = true ∧ p.seq = s ∧
      p.before = ((v.facing t i).reject t i).facing s i := by
  have hactive : ((v.facing t i).reject t i).activeSeqs = v.activeSeqs.filter (· != t) :=
    Verification.activeSeqs_reject _ t i
  have hs' : s ∈ ((v.facing t i).reject t i).activeSeqs := by
    rw [hactive, List.mem_filter]
    exact ⟨hs, by simpa using hst⟩
  have hpick : ((v.facing t i).reject t i).picked (draws ((v.facing t i).reject t i).drawn) = s := by
    refine Verification.picked_idxOf hs' ?_
    rw [hactive]
    exact hps
  have htok : ((v.facing t i).reject t i).tokens s = v.tokens s :=
    ((Narrowed.facing v t i).trans (.reject _ t i)).tokens_eq s
  have hfirst : passes draws i (fuel + 2) v = ⟨t, true, false, v.facing t i, (v.facing t i).reject t i⟩ ::
      passes draws i (fuel + 1) ((v.facing t i).reject t i) := by
    rw [passes, if_neg (List.ne_nil_of_mem ht)]
    dsimp only
    rw [Verification.picked_idxOf ht hpt, if_neg (Nat.not_le_of_lt htlen), hrej, if_neg Bool.false_ne_true]
  rw [hfirst, passes, if_neg (List.ne_nil_of_mem hs')]
  dsimp only
  rw [hpick, htok, if_neg (Nat.not_le_of_lt hslen)]
  split
  · exact ⟨_, List.mem_cons_of_mem _ (List.mem_singleton_self _), rfl, rfl, rfl⟩
  · exact ⟨_, List.mem_cons_of_mem _ List.mem_cons_self, rfl, rfl, rfl⟩

section Kept
variable {drafts : List SeqDraft} {active : List Nat} {i : Nat} {I : List Token} {J : Nat → List Token}

theorem LookupsRight.insideFirst (hI : I.Nodup)
    (hJ : ∀ s, Testable drafts active i s → (J s).Nodup ∧ tokenAt drafts i s ∈ J s)
    (h : LookupsRight drafts active i I J) : InsideFirst drafts active i I := by
  intro s t hs ht hst htI
  by_contra hno
  rw [not_or] at hno
  obtain ⟨y, hy, hyt⟩ : ∃ y ∈ I, y ≠ tokenAt drafts i t := by
    by_contra hall
    apply hno.2
    refine List.perm_singleton.mp ((List.perm_ext_iff_of_nodup hI (List.nodup_singleton _)).mpr fun y => ?_)
    rw [List.mem_singleton]
    refine ⟨fun hy => ?_, fun hy => hy ▸ htI⟩
    by_contra hne
    exact hall ⟨y, hy, hne⟩
  -- the target gives half of its weight to the token of `t`, and every draft is certain
  let T := halves I (tokenAt drafts i t) y
  let dists : Nat → Nat → List Candidate := fun u _ => certain (J u) (tokenAt drafts i u)
  let v : Verification := { drafts := drafts, dists := dists, activeSeqs := active, distTgt := T }
  have hT : IsDist T := isDist_halves hI htI hy (Ne.symm hyt)
  have hmass : ∀ u, Testable drafts active i u → massOf (dists u i) (tokenAt drafts i u) = 1 := by
    intro u hu
    obtain ⟨hnd, hmem⟩ := hJ u hu
    rw [show dists u i = certain (J u) (tokenAt drafts i u) from rfl, certain, massOf_map hnd, if_pos hmem, if_pos rfl]
  have hTt : massOf T (tokenAt drafts i t) = 1 / 2 := by
    rw [show T = halves I (tokenAt drafts i t) y from rfl, halves, massOf_map hI, if_pos htI, if_pos (Or.inl rfl)]
  have hpT : (v.facing t i).pTgt = 1 / 2 :=
    (probOf_of_mem hT.nodup ((idsOf_map _ I).symm ▸ htI) 0).trans hTt
  have hpD : (v.facing t i).pDft = 1 := by
    have hd : IsDist (dists t i) := isDist_certain (hJ t ht).1 (hJ t ht).2
    exact (probOf_of_mem hd.nodup ((idsOf_map _ (J t)).symm ▸ (hJ t ht).2) 0).trans (hmass t ht)
  have hrej : acceptTest (thenDraws active t s v.drawn).r (v.facing t i).pTgt (v.facing t i).pDft = false := by
    rw [hpT, hpD, acceptTest, if_neg one_ne_zero, decide_eq_false_iff_not]
    norm_num [thenDraws]
  obtain ⟨n, hn⟩ : ∃ n, active.length = n + 2 := by
    have h2 : 2 ≤ active.length := by
      have hsub : [s, t].Subperm active := by
        refine List.subperm_of_subset (by simpa using hst) fun x hx => ?_
        rcases List.mem_pair.mp hx with rfl | rfl
        · exact hs.1
        · exact ht.1
      exact hsub.length_le
    exact ⟨active.length - 2, by omega⟩
  obtain ⟨p, hp, htest, hseq, hbefore⟩ := second_pass_mem (v := v) n ht.1 rfl ht.2 hrej hs.1 hst rfl hs.2
  have hsI : tokenAt drafts i s ∉ idsOf ((v.facing t i).reject t i).distTgt := by
    intro hc
    have hperm : (idsOf ((v.facing t i).reject t i).distTgt).Perm (idsOf T) := idsOf_residual _ _
    exact hno.1 ((idsOf_map _ I) ▸ hperm.mem_iff.mp hc)
  have htok : p.token i = tokenAt drafts i s := by
    rw [Pass.token, hseq, hbefore]
    exact congrArg (fun l => l.getD i 0) (((Narrowed.facing v t i).trans (.reject _ t i)).tokens_eq s)
  have hright := (h T dists (thenDraws active t s) hT (idsOf_map _ I) (fun u hu => ⟨isDist_certain (hJ u hu).1 (hJ u hu).2,
    idsOf_map _ (J u), by rw [hmass u hu]; exact zero_lt_one⟩) p (hn ▸ hp) htest).1
  have hval : p.before.pTgt = 1 / 2 := by
    rw [hbefore, ← hpT]
    have htok' : (((v.facing t i).reject t i).tokens s).getD i 0 = tokenAt drafts i s :=
      congrArg (fun l => l.getD i 0) (((Narrowed.facing v t i).trans (.reject _ t i)).tokens_eq s)
    exact probOf_of_notMem (fun hc => hsI (htok' ▸ hc)) _
  have hzero : massOf p.before.distTgt (p.token i) = 0 := by
    rw [htok, hbefore]
    exact massOf_of_not_mem hsI
  rw [hval, hzero] at hright
  norm_num at hright

/-- Over lists in step, with no token outside the target's list behind one inside it, every lookup is right. -/
theorem lookupsRight_of_insideFirst (hstep : ∀ s, Testable drafts active i s → InStep I (J s))
    (hin : InsideFirst drafts active i I) : LookupsRight drafts active i I J := by
  intro T dists draws hT hids hdists p hp htest
  have hstart : Looking drafts active i I J { drafts := drafts, dists := dists, activeSeqs := active, distTgt := T } := by
    refine ⟨rfl, fun _ h => h, ⟨hT, hids ▸ .refl _⟩, fun s hs => ?_, .inl rfl⟩
    obtain ⟨hd, hdids, hpos⟩ := hdists s hs
    exact ⟨hd, hdids ▸ .refl _, hpos⟩
  obtain ⟨u, hu, hfrom⟩ := passes_rule draws (fun u p hu hp ha => hu.pass hin hstep hp ha) active.length _ hstart p hp
  cases hfrom with
  | dropped s hs hlen => cases htest
  | accepted s draw hs hlen hacc | rejected s draw hs hlen hacc =>
      have htok : ((u.facing s i).tokens s).getD i 0 = tokenAt drafts i s :=
        congrArg (fun l => l.getD i 0) (hu.tokens_eq s)
      have hlook := hu.lookup hin hs hlen
      rw [Pass.token, htok]
      exact hlook

end Kept

/-- **The updates and the tests of a position are right for all distributions over given ids, exactly if the draft's ids are
in step with the target's, and no sequence whose token the target's list does not have competes with one whose token it has.**
(A target list of one token is never rejected at it.) -/
theorem update_iff (drafts : List SeqDraft) (active : List Nat) (i : Nat) (I : List Token) (J : Nat → List Token)
    (hI : I.Nodup) (hJ : ∀ s, Testable drafts active i s → (J s).Nodup ∧ tokenAt drafts i s ∈ J s) :
    ((∀ s, Testable drafts active i s → ResidualRight I (J s)) ∧ LookupsRight drafts active i I J) ↔
      (∀ s, Testable drafts active i s → InStep I (J s)) ∧ InsideFirst drafts active i I := by
  constructor
  · rintro ⟨hres, hlook⟩
    exact ⟨fun s hs => (residualRight_iff hI (hJ s hs).1).mp (hres s hs), hlook.insideFirst hI hJ⟩
  · rintro ⟨hstep, hin⟩
    exact ⟨fun s hs => (residualRight_iff hI (hJ s hs).1).mpr (hstep s hs), lookupsRight_of_insideFirst hstep hin⟩

instance (drafts : List SeqDraft) (active : List Nat) (i s : Nat) : Decidable (Testable drafts active i s) :=
  inferInstanceAs (Decidable (_ ∧ _))

/-- One sequence of one token. -/
def oneDraft : List SeqDraft := [⟨true, [7], [0, 1]⟩]

theorem testable_oneDraft {s : Nat} (h : Testable oneDraft [0] 0 s) : s = 0 := by simpa using h.1

theorem update_iff_oneDraft :
    ([7, 9].Nodup ∧ ∀ s, Testable oneDraft [0] 0 s → [7].Nodup ∧ tokenAt oneDraft 0 s ∈ [7]) ∧
    (((∀ s, Testable oneDraft [0] 0 s → ResidualRight [7, 9] [7]) ∧ LookupsRight oneDraft [0] 0 [7, 9] (fun _ => [7])) ↔
      (∀ s, Testable oneDraft [0] 0 s → InStep [7, 9] [7]) ∧ InsideFirst oneDraft [0] 0 [7, 9]) :=
  ⟨⟨by decide, fun s hs => by rw [testable_oneDraft hs]; decide⟩,
    update_iff oneDraft [0] 0 [7, 9] (fun _ => [7]) (by decide) fun s hs => by rw [testable_oneDraft hs]; decide⟩

/-- The target is certain of token 5, the draft of token 3, and each list has one entry: what is left of the target's
probability 1 is nothing, although the draft does not have the token. -/
theorem residual_not_right :
    ¬ ∀ T D, IsDist T → IsDist D → (∃ x, massOf T x < massOf D x) →
      0 < residualSum T D ∧ ∀ x ∈ idsOf T, massOf (residual T D) x = max 0 (massOf T x - massOf D x) / residualSum T D := by
  intro h
  have hright : ResidualRight [5] [3] := by
    intro T D hT hD hI _ hlt
    rw [← hI]
    exact h T D hT hD hlt
  exact absurd (hright.inStep (by decide) (by decide)) (by simp [InStep, sortIds])

end S2Moe.Spec
