import Mathlib.Analysis.SpecialFunctions.Exp
import Mathlib.Analysis.SpecialFunctions.Sigmoid
import Mathlib.Data.List.Sort

/-!
# The selection of the experts

`build_moe_ffn` selects the experts of a token and gives each its weight. The weights are gating values; the selection
adds a bias, and adds it to the logits.

* `MoeFfn` : what the graph is built from;
* `selectionScores`, `selected`, `weights` : the nodes; the order comes from an `Argsort` that breaks ties as it likes;
* `IsLargest` : the largest values, with any tie rule;
* `MeetsGating` : the selected experts have the largest biased gating values, and weights of their own;
* `OrderCompatible` : the bias changes no order that the gating function sees;
* `meetsGating_iff` : the condition under which the selection is right for every row.
-/

namespace S2Moe.Router

inductive GatingFunc where
  | softmax | sigmoid | softmaxWeight

/-- The arguments of `build_moe_ffn` and what it reads of the model. `nExpert` are the columns of the logits. The chunks
of GroveMoE have `nGroupExperts` experts, and no bias; otherwise it is 1. `reuse` is the two-pass op, unless reuse is off.
-/
structure MoeFfn (K : Type) where
  nExpert : Nat
  nExpertUsed : Nat
  gateInpB : Option (Nat → K)
  expProbsB : Option (Nat → K)
  gatingOp : GatingFunc
  normW : Bool
  scaleW : Bool
  wScale : K
  llama4 : Bool
  nGroupExperts : Nat
  reuse : Option ((Nat → Nat → K) → Nat → Nat → K)
  used_le : nExpertUsed ≤ nExpert
  group_pos : 0 < nGroupExperts
  group_bias : nGroupExperts ≠ 1 → expProbsB = none

section Nodes
variable {K : Type} [Field K] [LinearOrder K] (expo sigm : K → K) (c : MoeFfn K)

/-- `ggml_add` of a vector, if there is one. -/
def addVec (row : Nat → K) : Option (Nat → K) → Nat → K
  | none => row
  | some b => fun e => row e + b e

def logitsBase (l : Nat → Nat → K) (token : Nat) : Nat → K := addVec (l token) c.gateInpB

def logitsSel (l : Nat → Nat → K) : Nat → Nat → K :=
  match c.reuse with
  | none => logitsBase c l
  | some f => f (logitsBase c l)

def maxOf (xs : List K) : K := xs.foldl max (xs.headD 0)

/-- `ggml_soft_max`, at an entry `x` of the row. -/
def softMax (xs : List K) (x : K) : K := expo (x - maxOf xs) / (xs.map fun y => expo (y - maxOf xs)).sum

/-- `probs`, of a row of logits. -/
def gating (row : Nat → K) (e : Nat) : K :=
  match c.gatingOp with
  | .softmax => softMax expo ((List.range c.nExpert).map row) (row e)
  | .sigmoid => sigm (row e)
  | .softmaxWeight => row e

def probs (l : Nat → Nat → K) (token : Nat) : Nat → K := gating expo sigm c (logitsBase c l token)

def selectionScores (l : Nat → Nat → K) (token : Nat) : Nat → K :=
  if c.llama4 then logitsSel c l token else addVec (logitsSel c l token) c.expProbsB

/-- `ggml_top_k` of the sorted experts, and the chunks that they are in. -/
def selected (order : List Nat) : List Nat := (order.take c.nExpertUsed).map (· / c.nGroupExperts)

/-- The weights of the selected experts. -/
def weights (l : Nat → Nat → K) (token : Nat) (sel : List Nat) : List K :=
  let w := sel.map (probs expo sigm c l token)
  let w := match c.gatingOp with
    | .softmaxWeight => w.map (softMax expo w)
    | _ => w
  let w := if c.normW then w.map (· / w.sum) else w
  if c.scaleW then w.map (· * c.wScale) else w

/-- What `ggml_argsort` promises: the indices from the largest value down, whatever it does with ties. -/
structure Argsort (s : Nat → K) (n : Nat) (order : List Nat) : Prop where
  perm : order.Perm (List.range n)
  sorted : order.Pairwise fun x y => s y ≤ s x

/-- `k` different indices whose values are the largest. -/
structure IsLargest (t : Nat → K) (n k : Nat) (sel : List Nat) : Prop where
  length : sel.length = k
  nodup : sel.Nodup
  lt : ∀ x ∈ sel, x < n
  ge : ∀ x ∈ sel, ∀ y < n, y ∉ sel → t y ≤ t x

/-- The gating values with the bias. -/
def biasedGating (l : Nat → Nat → K) (token : Nat) : Nat → K := addVec (probs expo sigm c l token) c.expProbsB

/-- For every row: without reuse the selected experts are the ones with the largest biased gating values; each has its own
gating value as its weight, normalised over the selected ones and scaled if asked for; and reuse changes no gating value
and no weight of an expert that is selected. -/
def MeetsGating : Prop :=
  ∀ (l : Nat → Nat → K) (token : Nat) (order : List Nat), Argsort (selectionScores c l token) c.nExpert order →
    (c.reuse = none → IsLargest (biasedGating expo sigm c l token) c.nExpert c.nExpertUsed (selected c order)) ∧
    (weights expo sigm c l token (selected c order) = (selected c order).map fun e =>
      probs expo sigm c l token e / (if c.normW then ((selected c order).map (probs expo sigm c l token)).sum else 1) *
        if c.scaleW then c.wScale else 1) ∧
    probs expo sigm c l token = probs expo sigm { c with reuse := none } l token ∧
    ∀ sel, weights expo sigm c l token sel = weights expo sigm { c with reuse := none } l token sel

/-- The bias changes no order that the gating values have: it is the same for all experts, or at least no pair of logits
that it orders gets gating values in the other order. -/
def OrderCompatible : Prop :=
  match c.expProbsB, c.gatingOp with
  | none, _ => True
  | some b, .softmax => ∀ x < c.nExpert, ∀ y < c.nExpert, b x = b y
  | some b, _ => ∀ x < c.nExpert, ∀ y < c.nExpert, x ≠ y → ∀ u v, v + b y ≤ u + b x → sigm v + b y ≤ sigm u + b x

/-- The selection is right on every row: reuse takes it over, or there is nothing to choose, or the experts are no chunks
and the bias is compatible. -/
def BiasHarmless : Prop :=
  c.reuse.isSome ∨ c.nExpertUsed = 0 ∨
    (c.nGroupExperts = 1 ∨ c.nExpert ≤ 1) ∧ (c.nExpertUsed = c.nExpert ∨ OrderCompatible sigm c)

end Nodes

/-! ## The weights -/

section Weights
variable {K : Type} [Field K] [LinearOrder K] {expo sigm : K → K} {c : MoeFfn K}

theorem weights_eq (hg : c.gatingOp ≠ .softmaxWeight) (l : Nat → Nat → K) (token : Nat) (sel : List Nat) :
    weights expo sigm c l token sel = sel.map fun e =>
      probs expo sigm c l token e / (if c.normW then (sel.map (probs expo sigm c l token)).sum else 1) *
        if c.scaleW then c.wScale else 1 := by
  have hw : (match c.gatingOp with
      | .softmaxWeight => (sel.map (probs expo sigm c l token)).map (softMax expo (sel.map (probs expo sigm c l token)))
      | _ => sel.map (probs expo sigm c l token)) = sel.map (probs expo sigm c l token) := by
    cases hop : c.gatingOp with
    | softmaxWeight => exact absurd hop hg
    | softmax => rfl
    | sigmoid => rfl
  rw [weights, hw]
  cases c.normW <;> cases c.scaleW <;> simp [Function.comp_def]

theorem weights_without_reuse (l : Nat → Nat → K) (token : Nat) (sel : List Nat) :
    weights expo sigm c l token sel = weights expo sigm { c with reuse := none } l token sel := rfl

end Weights

/-! ## A compatible bias -/

section Right
variable {sigm : ℝ → ℝ} {c : MoeFfn ℝ}

/-- The first `k` of the sorted indices are the largest. -/
theorem isLargest_take {s t : Nat → ℝ} {n k : Nat} {order : List Nat} (h : Argsort s n order) (hk : k ≤ n)
    (hord : ∀ x < n, ∀ y < n, x ≠ y → k < n → s y ≤ s x → t y ≤ t x) : IsLargest t n k (order.take k) := by
  have hlen : order.length = n := by rw [h.perm.length_eq, List.length_range]
  have hnd : order.Nodup := h.perm.nodup_iff.mpr List.nodup_range
  have hmem : ∀ x, x ∈ order ↔ x < n := fun x => by rw [h.perm.mem_iff, List.mem_range]
  refine ⟨by rw [List.length_take, hlen]; omega, hnd.sublist (List.take_sublist _ _),
    fun x hx => (hmem x).mp (List.mem_of_mem_take hx), fun x hx y hy hyno => ?_⟩
  have hsplit := h.sorted
  rw [← List.take_append_drop k order, List.pairwise_append] at hsplit
  have hydrop : y ∈ order.drop k := by
    have hyin := (hmem y).mpr hy
    rw [← List.take_append_drop k order, List.mem_append] at hyin
    exact hyin.resolve_left hyno
  have hkn : k < n := by
    have hpos := List.length_pos_of_mem hydrop
    rw [List.length_drop, hlen] at hpos
    omega
  exact hord x ((hmem x).mp (List.mem_of_mem_take hx)) y hy (fun heq => hyno (heq ▸ hx)) hkn (hsplit.2.2 x hx y hydrop)

theorem sum_exp_pos (xs : List ℝ) (m : ℝ) (hne : xs ≠ []) : 0 < (xs.map fun y => Real.exp (y - m)).sum := by
  apply List.sum_pos
  · intro z hz
    obtain ⟨y, -, rfl⟩ := List.mem_map.mp hz
    exact Real.exp_pos _
  · exact fun h => hne (List.map_eq_nil_iff.mp h)

/-- The gating functions keep the order of the logits of a row. -/
theorem gating_mono (hσ : StrictMono sigm) {row : Nat → ℝ} {x y : Nat} (h : row y ≤ row x) :
    gating Real.exp sigm c row y ≤ gating Real.exp sigm c row x := by
  rw [gating, gating]
  cases c.gatingOp with
  | softmax =>
    simp only [softMax]
    rcases eq_or_ne ((List.range c.nExpert).map row) [] with hnil | hne
    · rw [hnil]
      simp
    · exact div_le_div_of_nonneg_right (Real.exp_le_exp.mpr (by linarith)) (sum_exp_pos _ _ hne).le
  | sigmoid => exact hσ.monotone h
  | softmaxWeight => exact h

theorem gating_strictMono (hσ : StrictMono sigm) {row : Nat → ℝ} {x y : Nat} (hn : 0 < c.nExpert) (h : row y < row x) :
    gating Real.exp sigm c row y < gating Real.exp sigm c row x := by
  rw [gating, gating]
  cases c.gatingOp with
  | softmax =>
    have hne : (List.range c.nExpert).map row ≠ [] := by
      rw [ne_eq, List.map_eq_nil_iff, List.range_eq_nil]
      omega
    exact div_lt_div_of_pos_right (Real.exp_lt_exp.mpr (by linarith)) (sum_exp_pos _ _ hne)
  | sigmoid => exact hσ h
  | softmaxWeight => exact h

/-- Under a compatible bias the biased logits and the biased gating values have the same order. -/
theorem biasedGating_le (hσ : StrictMono sigm) (h4 : c.llama4 = false) (hg : c.gatingOp ≠ .softmaxWeight)
    (hcomp : OrderCompatible sigm c) (hreuse : c.reuse = none) {l : Nat → Nat → ℝ} {token x y : Nat} (hx : x < c.nExpert)
    (hy : y < c.nExpert) (hne : x ≠ y) (h : selectionScores c l token y ≤ selectionScores c l token x) :
    biasedGating Real.exp sigm c l token y ≤ biasedGating Real.exp sigm c l token x := by
  rw [selectionScores, h4, logitsSel, hreuse] at h
  simp only [Bool.false_eq_true, if_false] at h
  rw [biasedGating, probs]
  cases hb : c.expProbsB with
  | none =>
    rw [hb] at h
    exact gating_mono hσ h
  | some b =>
    rw [hb, addVec] at h
    rw [OrderCompatible, hb] at hcomp
    simp only [addVec]
    cases hop : c.gatingOp with
    | softmax =>
      rw [hop] at hcomp
      have hconst := hcomp x hx y hy
      have hrow : logitsBase c l token y ≤ logitsBase c l token x := by linarith
      have hgate := gating_mono (c := c) hσ hrow
      linarith
    | sigmoid =>
      rw [hop] at hcomp
      simp only [gating, hop]
      exact hcomp x hx y hy hne _ _ h
    | softmaxWeight => exact absurd hop hg

theorem selected_eq_take {order : List Nat} {s : Nat → ℝ} (h : Argsort s c.nExpert order)
    (hgroup : c.nGroupExperts = 1 ∨ c.nExpert ≤ 1) :
    selected c order = order.take c.nExpertUsed := by
  rw [selected]
  refine (List.map_congr_left fun e he => ?_).trans (List.map_id _)
  rcases hgroup with h1 | hn
  · rw [h1, Nat.div_one, id]
  · have hlt := List.mem_range.mp (h.perm.mem_iff.mp (List.mem_of_mem_take he))
    rw [show e = 0 by omega, Nat.zero_div, id]

theorem BiasHarmless.meets (hσ : StrictMono sigm) (h4 : c.llama4 = false) (hg : c.gatingOp ≠ .softmaxWeight)
    (h : BiasHarmless sigm c) : MeetsGating Real.exp sigm c := by
  intro l token order hsort
  refine ⟨fun hreuse => ?_, weights_eq hg l token _, rfl, weights_without_reuse l token⟩
  rcases h with h | hzero | ⟨hgroup, hall⟩
  · rw [hreuse] at h
    cases h
  · rw [selected, hzero, List.take_zero]
    exact ⟨rfl, List.nodup_nil, (fun _ h => absurd h List.not_mem_nil), (fun _ h => absurd h List.not_mem_nil)⟩
  · rw [selected_eq_take hsort hgroup]
    refine isLargest_take hsort c.used_le fun x hx y hy hne hlt hle => ?_
    rcases hall with heq | hcomp
    · omega
    · exact biasedGating_le hσ h4 hg hcomp hreuse hx hy hne hle

/-! ## An incompatible bias -/

/-- Any two experts with ordered scores can be the last selected one and the first one that is not. -/
theorem exists_row (b : Nat → ℝ) {n k x y : Nat} (hk : 0 < k) (hkn : k < n) (hx : x < n) (hy : y < n) (hne : x ≠ y) {u v : ℝ}
    (huv : v + b y ≤ u + b x) : ∃ (row : Nat → ℝ) (order : List Nat), Argsort (fun e => row e + b e) n order ∧ row x = u ∧
      row y = v ∧ x ∈ order.take k ∧ y ∉ order.take k := by
  set rest := (List.range n).filter fun e => e ≠ x ∧ e ≠ y with hrest
  have hmem : ∀ e, e ∈ rest ↔ e < n ∧ e ≠ x ∧ e ≠ y := fun e => by
    rw [hrest, List.mem_filter, List.mem_range, decide_eq_true_eq]
  have hndrest : rest.Nodup := List.nodup_range.filter _
  have hperm : (x :: y :: rest).Perm (List.range n) := by
    rw [List.perm_ext_iff_of_nodup ?_ List.nodup_range]
    · intro e
      rw [List.mem_cons, List.mem_cons, hmem, List.mem_range]
      constructor
      · rintro (rfl | rfl | h)
        · exact hx
        · exact hy
        · exact h.1
      · intro he
        by_cases h1 : e = x
        · exact .inl h1
        · by_cases h2 : e = y
          · exact .inr (.inl h2)
          · exact .inr (.inr ⟨he, h1, h2⟩)
    · refine List.nodup_cons.mpr ⟨?_, List.nodup_cons.mpr ⟨fun h => ((hmem y).mp h).2.2 rfl, hndrest⟩⟩
      rw [List.mem_cons, not_or]
      exact ⟨hne, fun h => ((hmem x).mp h).2.1 rfl⟩
  have hlen : rest.length + 2 = n := by
    have := hperm.length_eq
    rwa [List.length_range, List.length_cons, List.length_cons] at this
  set front := rest.take (k - 1) with hfront
  set back := rest.drop (k - 1) with hback
  have hfl : front.length = k - 1 := by
    rw [hfront, List.length_take]
    omega
  have hfmem : ∀ e ∈ front, e ≠ x ∧ e ≠ y := fun e he => ((hmem e).mp (List.mem_of_mem_take he)).2
  have hbmem : ∀ e ∈ back, e ≠ x ∧ e ≠ y ∧ e ∉ front := fun e he => by
    have hnd := hndrest
    rw [← List.take_append_drop (k - 1) rest, List.nodup_append'] at hnd
    exact ⟨((hmem e).mp (List.mem_of_mem_drop he)).2.1, ((hmem e).mp (List.mem_of_mem_drop he)).2.2, fun hf => hnd.2.2 hf he⟩
  -- the front ties with `x`, and the back with `y`
  set row : Nat → ℝ := fun e => if e = x then u else if e = y then v else if e ∈ front then u + b x - b e else v +
    b y - b e with hrow
  have hrx : row x = u := if_pos rfl
  have hry : row y = v := by rw [hrow]; simp only [if_neg hne.symm, if_true]
  have hrf : ∀ e ∈ front, row e + b e = u + b x := fun e he => by
    rw [hrow]
    simp only [if_neg (hfmem e he).1, if_neg (hfmem e he).2, if_pos he]
    ring
  have hrb : ∀ e ∈ back, row e + b e = v + b y := fun e he => by
    rw [hrow]
    simp only [if_neg (hbmem e he).1, if_neg (hbmem e he).2.1, if_neg (hbmem e he).2.2]
    ring
  have htake : (front ++ x :: y :: back).take k = front ++ [x] := by
    rw [List.take_append, hfl, List.take_of_length_le (by omega), show k - (k - 1) = 1 by omega]
    rfl
  refine ⟨row, front ++ x :: y :: back, ⟨?_, ?_⟩, hrx, hry, ?_, ?_⟩
  · refine List.Perm.trans ?_ hperm
    have hmid : (front ++ x :: y :: back).Perm (x :: y :: (front ++ back)) :=
      List.perm_middle.trans (List.perm_middle.cons x)
    rwa [hfront, hback, List.take_append_drop] at hmid
  · have htop : ∀ e ∈ front, row e + b e = u + b x := hrf
    rw [List.pairwise_append, List.pairwise_cons, List.pairwise_cons]
    refine ⟨List.pairwise_of_forall_mem_list fun p hp q hq => by rw [hrf p hp, hrf q hq], ⟨fun q hq => ?_, fun q hq => ?_,
      List.pairwise_of_forall_mem_list fun p hp q hq => by rw [hrb p hp, hrb q hq]⟩, fun p hp q hq => ?_⟩
    · rw [hrx]
      rcases List.mem_cons.mp hq with rfl | hq
      · rw [hry]
        exact huv
      · rw [hrb q hq]
        exact huv
    · rw [hry, hrb q hq]
    · rw [htop p hp]
      rcases List.mem_cons.mp hq with rfl | hq
      · rw [hrx]
      · rcases List.mem_cons.mp hq with rfl | hq
        · rw [hry]
          exact huv
        · rw [hrb q hq]
          exact huv
  · rw [htake]
    simp
  · rw [htake, List.mem_append, List.mem_singleton, not_or]
    exact ⟨fun h => (hfmem y h).2 rfl, hne.symm⟩

/-- The logits whose base is a given row. -/
def logitsOf (c : MoeFfn ℝ) (row : Nat → ℝ) : Nat → Nat → ℝ := fun _ e => row e - (c.gateInpB.getD fun _ => 0) e

theorem logitsBase_logitsOf (row : Nat → ℝ) (token : Nat) : logitsBase c (logitsOf c row) token = row := by
  funext e
  rw [logitsBase]
  cases hb : c.gateInpB with
  | none => simp [addVec, logitsOf, hb]
  | some b => simp [addVec, logitsOf, hb]

/-- What is promised of any two experts with ordered scores. -/
theorem MeetsGating.pair (h : MeetsGating Real.exp sigm c) (h4 : c.llama4 = false) (hreuse : c.reuse = none)
    (hgroup : c.nGroupExperts = 1 ∨ c.nExpert ≤ 1) (hk : 0 < c.nExpertUsed) (hkn : c.nExpertUsed < c.nExpert) {b : Nat → ℝ}
    (hb : c.expProbsB = some b) {x y : Nat} (hx : x < c.nExpert) (hy : y < c.nExpert) (hne : x ≠ y) {u v : ℝ}
    (huv : v + b y ≤ u + b x) : ∃ row : Nat → ℝ, row x = u ∧ row y = v ∧
      gating Real.exp sigm c row y + b y ≤ gating Real.exp sigm c row x + b x := by
  obtain ⟨row, order, hsort, hrx, hry, hxin, hyno⟩ := exists_row b hk hkn hx hy hne huv
  refine ⟨row, hrx, hry, ?_⟩
  have hscores : selectionScores c (logitsOf c row) 0 = fun e => row e + b e := by
    rw [selectionScores, h4, logitsSel, hreuse, hb]
    simp only [Bool.false_eq_true, if_false, logitsBase_logitsOf]
    rfl
  have hlargest := (h (logitsOf c row) 0 order (hscores ▸ hsort)).1 hreuse
  rw [selected_eq_take hsort hgroup] at hlargest
  have hge := hlargest.ge x hxin y hy hyno
  rw [biasedGating, hb, probs, logitsBase_logitsOf] at hge
  exact hge

/-- Two probabilities of a softmax are closer to each other than their logits. -/
theorem softMax_sub_lt {row : Nat → ℝ} {n x y : Nat} (hx : x < n) (h : row y < row x) :
    softMax Real.exp ((List.range n).map row) (row x) - softMax Real.exp ((List.range n).map row) (row y) <
      row x - row y := by
  set xs := (List.range n).map row with hxs
  set m := maxOf xs with hm
  set z := (xs.map fun w => Real.exp (w - m)).sum with hz
  have hmem : row x ∈ xs := List.mem_map_of_mem (List.mem_range.mpr hx)
  have hzpos : 0 < z := sum_exp_pos xs m (List.ne_nil_of_mem hmem)
  have hle : Real.exp (row x - m) ≤ z := by
    refine List.single_le_sum (fun w hw => ?_) _ (List.mem_map_of_mem (f := fun w => Real.exp (w - m)) hmem)
    obtain ⟨w, -, rfl⟩ := List.mem_map.mp hw
    exact (Real.exp_pos _).le
  have hsplit : Real.exp (row y - m) = Real.exp (row x - m) * Real.exp (-(row x - row y)) := by
    rw [← Real.exp_add]
    congr 1
    ring
  have hlt : 1 - Real.exp (-(row x - row y)) < row x - row y := by
    have := Real.add_one_lt_exp (x := -(row x - row y)) (by linarith)
    linarith
  have hnonneg : 0 ≤ 1 - Real.exp (-(row x - row y)) := by
    have : Real.exp (-(row x - row y)) ≤ 1 := Real.exp_le_one_iff.mpr (by linarith)
    linarith
  calc softMax Real.exp xs (row x) - softMax Real.exp xs (row y)
      = Real.exp (row x - m) / z * (1 - Real.exp (-(row x - row y))) := by
        rw [softMax, softMax, ← hm, ← hz, hsplit]
        ring
    _ ≤ 1 * (1 - Real.exp (-(row x - row y))) :=
        mul_le_mul_of_nonneg_right ((div_le_one hzpos).mpr hle) hnonneg
    _ < row x - row y := by rw [one_mul]; exact hlt

theorem MeetsGating.orderCompatible (h : MeetsGating Real.exp sigm c) (h4 : c.llama4 = false)
    (hg : c.gatingOp ≠ .softmaxWeight)
    (hreuse : c.reuse = none) (hgroup : c.nGroupExperts = 1 ∨ c.nExpert ≤ 1) (hk : 0 < c.nExpertUsed)
    (hkn : c.nExpertUsed < c.nExpert) : OrderCompatible sigm c := by
  rw [OrderCompatible]
  cases hb : c.expProbsB with
  | none => trivial
  | some b =>
    cases hop : c.gatingOp with
    | softmax =>
      have hno : ∀ x < c.nExpert, ∀ y < c.nExpert, ¬ b x < b y := by
        intro x hx y hy hlt
        -- logits that make up for the difference of the biases
        obtain ⟨row, hrx, hry, hle⟩ := h.pair h4 hreuse hgroup hk hkn hb hx hy (fun heq => absurd hlt (heq ▸ lt_irrefl _))
          (u := b y - b x) (v := 0) (by linarith)
        simp only [gating, hop] at hle
        have hclose := softMax_sub_lt (y := y) hx (show row y < row x by rw [hrx, hry]; linarith)
        rw [hrx, hry] at hclose hle
        linarith
      exact fun x hx y hy => le_antisymm (not_lt.mp (hno y hy x hx)) (not_lt.mp (hno x hx y hy))
    | sigmoid =>
      intro x hx y hy hne u v huv
      obtain ⟨row, hrx, hry, hle⟩ := h.pair h4 hreuse hgroup hk hkn hb hx hy hne huv
      simp only [gating, hop] at hle
      rwa [hrx, hry] at hle
    | softmaxWeight => exact absurd hop hg

/-- The chunks of more than one expert: the last expert is never among them. -/
theorem MeetsGating.group (h : MeetsGating Real.exp sigm c) (hσ : StrictMono sigm) (h4 : c.llama4 = false)
    (hreuse : c.reuse = none) (hk : 0 < c.nExpertUsed) : c.nGroupExperts = 1 ∨ c.nExpert ≤ 1 := by
  by_contra hno
  rw [not_or, not_le] at hno
  have hb := c.group_bias hno.1
  have hg2 : 2 ≤ c.nGroupExperts := by
    have := c.group_pos
    omega
  set row : Nat → ℝ := fun e => e with hrow
  have hscores : selectionScores c (logitsOf c row) 0 = row := by
    rw [selectionScores, h4, logitsSel, hreuse, hb]
    simp only [Bool.false_eq_true, if_false, logitsBase_logitsOf, addVec]
  have hsort : Argsort (selectionScores c (logitsOf c row) 0) c.nExpert (List.range c.nExpert).reverse := by
    refine ⟨List.reverse_perm _, ?_⟩
    rw [List.pairwise_reverse, hscores]
    exact List.pairwise_lt_range.imp fun hlt => Nat.cast_le.mpr hlt.le
  have hlargest := (h _ 0 _ hsort).1 hreuse
  have hchunk : ∀ e ∈ selected c (List.range c.nExpert).reverse, e < c.nExpert - 1 := by
    intro e he
    obtain ⟨d, hd, rfl⟩ := List.mem_map.mp he
    have hdlt := List.mem_range.mp (List.mem_reverse.mp (List.mem_of_mem_take hd))
    have hhalf : d / c.nGroupExperts ≤ d / 2 := Nat.div_le_div_left hg2 (by omega)
    omega
  obtain ⟨e, he⟩ := List.exists_mem_of_length_pos (hlargest.length ▸ hk)
  have hge := hlargest.ge e he (c.nExpert - 1) (by omega) fun hin => absurd (hchunk _ hin) (lt_irrefl _)
  rw [biasedGating, hb, addVec, probs, logitsBase_logitsOf] at hge
  have hlt : row e < row (c.nExpert - 1) := Nat.cast_lt.mpr (hchunk e he)
  have hgate : gating Real.exp sigm c row e < gating Real.exp sigm c row (c.nExpert - 1) :=
    gating_strictMono hσ (by omega) hlt
  linarith

/-- **The selection.** It takes the experts with the largest biased gating values on every row if and only if reuse is on,
or there is nothing to choose, or the experts are no chunks and the bias changes no order that the gating function sees.
The weights are right in any case. -/
theorem meetsGating_iff (hσ : StrictMono sigm) (h4 : c.llama4 = false) (hg : c.gatingOp ≠ .softmaxWeight) :
    MeetsGating Real.exp sigm c ↔ BiasHarmless sigm c := by
  refine ⟨fun h => ?_, fun h => h.meets hσ h4 hg⟩
  by_cases hreuse : c.reuse = none
  · rcases Nat.eq_zero_or_pos c.nExpertUsed with hz | hk
    · exact .inr (.inl hz)
    · have hgroup := h.group hσ h4 hreuse hk
      rcases Nat.lt_or_ge c.nExpertUsed c.nExpert with hkn | hkn
      · exact .inr (.inr ⟨hgroup, .inr (h.orderCompatible h4 hg hreuse hgroup hk hkn)⟩)
      · exact .inr (.inr ⟨hgroup, .inl (le_antisymm c.used_le hkn)⟩)
  · exact .inl (Option.isSome_iff_ne_none.mpr hreuse)

/-- For a bounded gating function only a bias that is the same for all experts is compatible. -/
theorem orderCompatible_iff_of_bounded (hσ : StrictMono sigm) {lo hi : ℝ} (hlo : ∀ u, lo ≤ sigm u) (hhi : ∀ u, sigm u ≤ hi)
    {b : Nat → ℝ} (hb : c.expProbsB = some b) (hop : c.gatingOp = .sigmoid) :
    OrderCompatible sigm c ↔ ∀ x < c.nExpert, ∀ y < c.nExpert, b x = b y := by
  rw [OrderCompatible, hb, hop]
  constructor
  · intro h
    have hno : ∀ x < c.nExpert, ∀ y < c.nExpert, ¬ b x < b y := by
      intro x hx y hy hlt
      have hstep : ∀ v, sigm v + (b y - b x) ≤ sigm (v + (b y - b x)) := by
        intro v
        have := h x hx y hy (fun heq => absurd hlt (heq ▸ lt_irrefl _)) (v + (b y - b x)) v (by linarith)
        linarith
      -- each step of the size of the difference gains as much
      have hrun : ∀ m : Nat, sigm 0 + m * (b y - b x) ≤ sigm (m * (b y - b x)) := by
        intro m
        induction m with
        | zero => simp
        | succ m ih =>
          have hs := hstep (m * (b y - b x))
          push_cast
          rw [show ((m : ℝ) + 1) * (b y - b x) = m * (b y - b x) + (b y - b x) by ring]
          linarith
      obtain ⟨m, hm⟩ := exists_nat_gt ((hi - lo) / (b y - b x))
      have hbig : hi - lo < m * (b y - b x) := (div_lt_iff₀ (by linarith)).mp hm
      have h1 := hrun m
      have h2 := hlo 0
      have h3 := hhi (m * (b y - b x))
      linarith
    exact fun x hx y hy => le_antisymm (not_lt.mp (hno y hy x hx)) (not_lt.mp (hno x hx y hy))
  · intro h x hx y hy _ u v huv
    have hconst := h x hx y hy
    have hmono := hσ.monotone (show v ≤ u by linarith)
    linarith

end Right

/-! ### Two experts -/

/-- One of two experts is selected, by the sigmoid, and the second one has a bias. -/
noncomputable def biasedPair : MoeFfn ℝ where
  nExpert := 2
  nExpertUsed := 1
  gateInpB := none
  expProbsB := some fun e => if e = 1 then 3 / 2 else 0
  gatingOp := .sigmoid
  normW := true
  scaleW := false
  wScale := 1
  llama4 := false
  nGroupExperts := 1
  reuse := none
  used_le := by decide
  group_pos := Nat.zero_lt_one
  group_bias h := absurd rfl h

theorem meetsGating_iff_biasedPair : MeetsGating Real.exp Real.sigmoid biasedPair ↔ BiasHarmless Real.sigmoid biasedPair :=
  meetsGating_iff Real.sigmoid_strictMono rfl (by simp [biasedPair])

/-- The logits 2 and 0 with the biases 0 and 3/2: the first expert is selected, and the second one has the larger biased
gating value. -/
theorem not_meetsGating_biasedPair : ¬ MeetsGating Real.exp Real.sigmoid biasedPair := by
  intro h
  set l : Nat → Nat → ℝ := fun _ e => if e = 0 then 2 else 0 with hl
  have hsort : Argsort (selectionScores biasedPair l 0) 2 [0, 1] := by
    refine ⟨List.Perm.refl _, List.pairwise_pair.mpr ?_⟩
    norm_num [selectionScores, logitsSel, logitsBase, addVec, biasedPair, hl]
  have hlargest := (h l 0 [0, 1] hsort).1 rfl
  have hge := hlargest.ge 0 (by simp [selected, biasedPair]) 1 (by norm_num [biasedPair]) (by simp [selected, biasedPair])
  have h0 : biasedGating Real.exp Real.sigmoid biasedPair l 0 0 = Real.sigmoid 2 := by
    simp [biasedGating, probs, gating, addVec, logitsBase, biasedPair, hl]
  have h1 : biasedGating Real.exp Real.sigmoid biasedPair l 0 1 = Real.sigmoid 0 + 3 / 2 := by
    simp [biasedGating, probs, gating, addVec, logitsBase, biasedPair, hl]
  rw [h0, h1] at hge
  have hpos := Real.sigmoid_pos 0
  have hlt := Real.sigmoid_lt_one 2
  linarith

end S2Moe.Router
