import Mathlib.Algebra.Order.BigOperators.Group.List
import Mathlib.Algebra.Order.Field.Rat
import Mathlib.Tactic.Linarith
import Mathlib.Tactic.NormNum

/-!
# The draft length by measured utility

`MoeUtilityCascadeState` measures each candidate length in turn, then keeps the best one for a while. Utilities are exact.

* `onOuterIterStart`, `onVerifyDone`, `activeK` : the machine; `run` : any calls, with what was measured for which candidate;
* `Cycles` : the measurements of complete test rounds and set phases;
* `TestRound`, `SetPhase` : what is known within one of these;
* `measure_keeps` : one measurement; `keeps_run` : all calls;
* `sound_iff` : this holds in all runs if and only if the longest set phase fits an `int`.
-/

namespace S2Moe.Spec.Cascade

section Machine

/-- What is read of `common_params_speculative`. -/
structure Params where
  moeUtilitySpec : Bool := false
  nMax : Int := 16
  utilityTestIters : Int := 4
  utilitySetIters : Int := 16

/-- `MoeUtilityCascadeState`. -/
structure State where
  enabled : Bool := false
  cap : Int := 0
  ks : List Int := []
  testing : Bool := true
  testIdx : Nat := 0
  testSum : ℚ := 0
  testN : Nat := 0
  testIters : Int := 4
  setItersBase : Int := 16
  setLeft : Int := 0
  setMul : Int := 1
  bestK : Int := 0
  bestAvg : ℚ := -10 ^ 30
  pendingVUs : Int := 1
  hasPending : Bool := false

/-- The value of an `int` expression. -/
def wrap32 (x : Int) : Int := x.bmod (2 ^ 32)

/-- The set of 0 and the cap, in order. -/
def candidates (cap : Int) : List Int := if 0 < cap then [0, cap] else [0]

/-- `init`. -/
def State.init (s : State) (sp : Params) : State :=
  if !sp.moeUtilitySpec then { s with enabled := false }
  else
    { s with
      enabled := true
      cap := max 0 sp.nMax
      testIters := max 1 sp.utilityTestIters
      setItersBase := max 1 sp.utilitySetIters
      ks := candidates (max 0 sp.nMax)
      testing := true
      testIdx := 0
      testSum := 0
      testN := 0
      bestAvg := -10 ^ 30
      bestK := max 0 sp.nMax
      hasPending := false
      setMul := 1
      setLeft := 0 }

/-- `active_k`. -/
def State.activeK (s : State) : Int :=
  if !s.enabled then s.cap
  else if s.testing then s.ks.getD (min s.testIdx (s.ks.length - 1)) 0
  else s.bestK

/-- `on_verify_done`. -/
def State.onVerifyDone (s : State) (vUs : Int) : State :=
  if !s.enabled then s else { s with pendingVUs := max 1 vUs, hasPending := true }

/-- The candidate's average against the best one. -/
def State.keepBest (s : State) : State :=
  let avg := s.testSum / s.testN
  if s.bestAvg < avg then { s with bestAvg := avg, bestK := s.ks.getD s.testIdx 0 } else s

/-- `test_n >= test_iters`: the candidate is done. -/
def State.candidateDone (s : State) : State :=
  let s := { s.keepBest with testSum := 0, testN := 0, testIdx := s.keepBest.testIdx + 1 }
  if s.ks.length ≤ s.testIdx then
    let setMul := if s.bestK = 0 then min (s.setMul * 2) 8 else 1
    { s with testing := false, setMul := setMul, setLeft := wrap32 (s.setItersBase * setMul), testIdx := 0 }
  else s

/-- What is done with a pending measurement. -/
def State.measure (s : State) (util : ℚ) : State :=
  let s := { s with hasPending := false }
  if s.testing then
    let s := { s with testSum := s.testSum + util, testN := s.testN + 1 }
    if s.testIters ≤ s.testN then s.candidateDone else s
  else
    let s := { s with setLeft := wrap32 (s.setLeft - 1) }
    if s.setLeft ≤ 0 then { s with testing := true, testIdx := 0, testSum := 0, testN := 0, bestAvg := -10 ^ 30, bestK := s.cap }
    else s

/-- The utility of the tokens since the mark. -/
def State.util (s : State) (nPredict nPredictMark : Int) : ℚ := wrap32 (nPredict - nPredictMark) / s.pendingVUs

/-- `on_outer_iter_start`; it moves the mark to `n_predict` in any case. -/
def State.onOuterIterStart (s : State) (nPredict nPredictMark : Int) : State :=
  if !s.enabled then s
  else if s.hasPending then s.measure (s.util nPredict nPredictMark)
  else s

end Machine

section Runs

/-- A measurement and the candidate that was in use: the length that the caller had read when it began the iteration. -/
structure Measurement where
  k : Int
  util : ℚ

inductive Call
  | outerIterStart (nPredict : Int)
  | verifyDone (vUs : Int)

/-- The machine with its caller: after `on_outer_iter_start` the caller reads `active_k`. -/
structure Machine where
  cascade : State
  mark : Int
  read : Int
  log : List Measurement

def start (sp : Params) : Machine :=
  let cascade := State.init {} sp
  ⟨cascade, 0, cascade.activeK, []⟩

def Machine.call (m : Machine) : Call → Machine
  | .outerIterStart nPredict =>
    let cascade := m.cascade.onOuterIterStart nPredict m.mark
    let measured := if m.cascade.hasPending then [⟨m.read, m.cascade.util nPredict m.mark⟩] else []
    ⟨cascade, nPredict, cascade.activeK, m.log ++ measured⟩
  | .verifyDone vUs => { m with cascade := m.cascade.onVerifyDone vUs }

def run (sp : Params) (calls : List Call) : Machine := calls.foldl Machine.call (start sp)

end Runs

section Properties

def avg (utils : List ℚ) : ℚ := utils.sum / utils.length

/-- The measurements of some candidates, each with its own. -/
def tests : List Int → List (List ℚ) → List Measurement
  | k :: ks, us :: utils => us.map (Measurement.mk k) ++ tests ks utils
  | _, _ => []

variable (sp : Params)

def Params.ks : List Int := candidates (max 0 sp.nMax)

/-- A test round: `test_iters` measurements of each candidate, in order, and one whose average is maximal. -/
structure Tested (utils : List (List ℚ)) (best : Int) : Prop where
  all : utils.length = sp.ks.length
  iters : ∀ us ∈ utils, us.length = max 1 sp.utilityTestIters
  best : ∃ j < utils.length, best = sp.ks.getD j 0 ∧ ∀ us ∈ utils, avg us ≤ avg (utils.getD j [])

/-- The multiplier of the set phase that follows. -/
def nextMul (best mul : Int) : Int := if best = 0 then min (mul * 2) 8 else 1

/-- Test rounds and set phases in turn, all complete, and the multiplier after them. -/
inductive Cycles : List Measurement → Int → Prop
  | nil : Cycles [] 1
  | cycle {log : List Measurement} {mul : Int} {utils : List (List ℚ)} {best : Int} {sets : List ℚ} (h : Cycles log mul)
      (htested : Tested sp utils best) (hsets : sets.length = max 1 sp.utilitySetIters * nextMul best mul) :
      Cycles (log ++ tests sp.ks utils ++ sets.map (Measurement.mk best)) (nextMul best mul)

/-- Within a test round: the candidates behind have been measured, and the current one not often enough. -/
structure TestRound (s : State) (log : List Measurement) (utils : List (List ℚ)) (part : List ℚ) : Prop where
  testing : s.testing = true
  cycles : ∃ before, Cycles sp before s.setMul ∧
    log = before ++ tests sp.ks utils ++ part.map (Measurement.mk (sp.ks.getD s.testIdx 0))
  idx : utils.length = s.testIdx
  idx_lt : s.testIdx < sp.ks.length
  iters : ∀ us ∈ utils, us.length = max 1 sp.utilityTestIters
  n : part.length = s.testN
  n_lt : s.testN < max 1 sp.utilityTestIters

/-- Within a set phase: the best candidate of the last round is used, `set_left` times more. -/
structure SetPhase (s : State) (log : List Measurement) (utils : List (List ℚ)) (sets : List ℚ) : Prop where
  setting : s.testing = false
  cycles : ∃ before mul, Cycles sp before mul ∧ s.setMul = nextMul s.bestK mul ∧
    log = before ++ tests sp.ks utils ++ sets.map (Measurement.mk s.bestK)
  tested : Tested sp utils s.bestK
  left : sets.length + s.setLeft = max 1 sp.utilitySetIters * s.setMul
  left_pos : 1 ≤ s.setLeft

/-- What is said of every state. -/
structure Sound (m : Machine) : Prop where
  candidates : m.cascade.ks = sp.ks
  active : m.cascade.activeK ∈ sp.ks
  range : 0 ≤ m.cascade.activeK ∧ m.cascade.activeK ≤ max 0 sp.nMax
  mul : m.cascade.setMul ∈ [1, 2, 4, 8]
  phase : (∃ utils part, TestRound sp m.cascade m.log utils part) ∨ ∃ utils sets, SetPhase sp m.cascade m.log utils sets

end Properties

section Branches

variable {s : State}

theorem measure_more (ht : s.testing = true) (hn : (s.testN : Int) + 1 < s.testIters) (util : ℚ) :
    s.measure util = { s with hasPending := false, testSum := s.testSum + util, testN := s.testN + 1 } := by
  rw [State.measure]
  dsimp only
  rw [if_pos ht, if_neg (by push_cast; omega)]

theorem measure_last (ht : s.testing = true) (hn : s.testIters ≤ (s.testN : Int) + 1) (util : ℚ) : s.measure util =
    State.candidateDone { s with hasPending := false, testSum := s.testSum + util, testN := s.testN + 1 } := by
  rw [State.measure]
  dsimp only
  rw [if_pos ht, if_pos (by push_cast; omega)]

theorem measure_set (ht : s.testing = false) (hleft : 0 < wrap32 (s.setLeft - 1)) (util : ℚ) :
    s.measure util = { s with hasPending := false, setLeft := wrap32 (s.setLeft - 1) } := by
  rw [State.measure]
  dsimp only
  rw [if_neg (by rw [ht]; exact Bool.false_ne_true), if_neg (by omega)]

theorem measure_setDone (ht : s.testing = false) (hleft : wrap32 (s.setLeft - 1) ≤ 0) (util : ℚ) : s.measure util =
    { s with
      hasPending := false
      setLeft := wrap32 (s.setLeft - 1)
      testing := true
      testIdx := 0
      testSum := 0
      testN := 0
      bestAvg := -10 ^ 30
      bestK := s.cap } := by
  rw [State.measure]
  dsimp only
  rw [if_neg (by rw [ht]; exact Bool.false_ne_true), if_pos hleft]

end Branches

section Lists

theorem wrap32_of_fits {x : Int} (h0 : -2147483648 ≤ x) (h1 : x ≤ 2147483647) : wrap32 x = x := by
  rw [wrap32]
  apply Int.bmod_eq_of_le
  · omega
  · omega

theorem wrap32_range (x : Int) : -2147483648 ≤ wrap32 x ∧ wrap32 x ≤ 2147483647 := by
  have h1 := Int.le_bmod (x := x) (m := 2 ^ 32) (by decide)
  have h2 := Int.bmod_lt (x := x) (m := 2 ^ 32) (by decide)
  rw [wrap32]
  omega

theorem tests_append_one (us : List ℚ) : ∀ {ks : List Int} {utils : List (List ℚ)}, utils.length < ks.length →
    tests ks (utils ++ [us]) = tests ks utils ++ us.map (Measurement.mk (ks.getD utils.length 0))
  | _ :: ks, [], _ => by
    cases ks <;> simp [tests]
  | _ :: ks, vs :: utils, h => by
    have hlt : utils.length < ks.length := Nat.lt_of_succ_lt_succ h
    rw [List.cons_append, tests, tests_append_one us hlt, tests, List.append_assoc]
    rfl

theorem le_avg {b : ℚ} {us : List ℚ} (hne : us ≠ []) (h : ∀ u ∈ us, b ≤ u) : b ≤ avg us := by
  have hpos : (0 : ℚ) < us.length := by exact_mod_cast List.length_pos_iff.mpr hne
  rw [avg, le_div_iff₀ hpos]
  have hsum := List.card_nsmul_le_sum us b h
  rw [nsmul_eq_mul] at hsum
  linarith

theorem avg_eq {us : List ℚ} {n : Nat} {sum : ℚ} (hn : us.length = n) (hsum : sum = us.sum) : sum / n = avg us := by
  rw [avg, hn, hsum]

theorem le_util {s : State} (h : 1 ≤ s.pendingVUs) (nPredict nPredictMark : Int) :
    -2147483648 ≤ s.util nPredict nPredictMark := by
  have hv : (1 : ℚ) ≤ s.pendingVUs := by exact_mod_cast h
  have hd : (-2147483648 : ℚ) ≤ (wrap32 (nPredict - nPredictMark) : Int) := by
    exact_mod_cast (wrap32_range (nPredict - nPredictMark)).1
  rw [State.util, le_div_iff₀ (by linarith)]
  linarith

end Lists

section Invariant

variable {sp : Params}

/-- The largest average so far, and whose it is. -/
def Leading (sp : Params) (s : State) (utils : List (List ℚ)) : Prop :=
  (utils = [] ∧ s.bestAvg = -10 ^ 30) ∨
    (∃ j < utils.length, s.bestK = sp.ks.getD j 0 ∧ s.bestAvg = avg (utils.getD j [])) ∧ ∀ us ∈ utils, avg us ≤ s.bestAvg

/-- What no call changes. -/
structure Fixed (sp : Params) (s : State) : Prop where
  enabled : s.enabled = true
  cap : s.cap = max 0 sp.nMax
  ks : s.ks = sp.ks
  testIters : s.testIters = max 1 sp.utilityTestIters
  setItersBase : s.setItersBase = max 1 sp.utilitySetIters
  pendingVUs : 1 ≤ s.pendingVUs

structure Inv (sp : Params) (s : State) (log : List Measurement) : Prop where
  fixed : Fixed sp s
  mul : s.setMul ∈ [1, 2, 4, 8]
  phase : (∃ utils part, TestRound sp s log utils part ∧ s.testSum = part.sum ∧ (∀ u ∈ part, -2147483648 ≤ u) ∧
    Leading sp s utils) ∨ ∃ utils sets, SetPhase sp s log utils sets

theorem ks_ne_nil (sp : Params) : 0 < sp.ks.length := by
  rw [Params.ks, candidates]
  split_ifs <;> simp

theorem mem_ks {sp : Params} {k : Int} (h : k ∈ sp.ks) : 0 ≤ k ∧ k ≤ max 0 sp.nMax := by
  rw [Params.ks, candidates] at h
  split_ifs at h with hcap
  · rcases List.mem_cons.mp h with rfl | h
    · exact ⟨le_rfl, le_max_left _ _⟩
    · obtain rfl := List.mem_singleton.mp h
      exact ⟨le_max_left _ _, le_rfl⟩
  · obtain rfl := List.mem_singleton.mp h
    exact ⟨le_rfl, le_max_left _ _⟩

theorem getD_mem_ks {j : Nat} (h : j < sp.ks.length) : sp.ks.getD j 0 ∈ sp.ks := by
  rw [List.getD_eq_getElem?_getD, List.getElem?_eq_getElem h]
  exact List.getElem_mem h

/-- While testing, the candidate in use is the one being measured. -/
theorem TestRound.activeK {s : State} {log : List Measurement} {utils : List (List ℚ)} {part : List ℚ}
    (h : TestRound sp s log utils part) (hf : Fixed sp s) : s.activeK = sp.ks.getD s.testIdx 0 := by
  have hlt := h.idx_lt
  rw [State.activeK, hf.enabled, h.testing, hf.ks, Nat.min_eq_left (by omega)]
  rfl

theorem SetPhase.activeK {s : State} {log : List Measurement} {utils : List (List ℚ)} {sets : List ℚ}
    (h : SetPhase sp s log utils sets) (hf : Fixed sp s) : s.activeK = s.bestK := by
  rw [State.activeK, hf.enabled, h.setting]
  rfl

theorem Inv.active {s : State} {log : List Measurement} (h : Inv sp s log) : s.activeK ∈ sp.ks := by
  rcases h.phase with ⟨utils, part, ht, _⟩ | ⟨utils, sets, hs⟩
  · rw [ht.activeK h.fixed]
    exact getD_mem_ks ht.idx_lt
  · rw [hs.activeK h.fixed]
    obtain ⟨j, hj, hbest, _⟩ := hs.tested.best
    rw [hbest]
    exact getD_mem_ks (hs.tested.all ▸ hj)

theorem nextMul_mem (best : Int) {mul : Int} (h : mul ∈ [1, 2, 4, 8]) : nextMul best mul ∈ [1, 2, 4, 8] := by
  simp only [List.mem_cons, List.not_mem_nil, or_false] at h
  rw [nextMul]
  split_ifs
  · rcases h with rfl | rfl | rfl | rfl <;> simp
  · simp

theorem fits_nextMul (hfits : 8 * max 1 sp.utilitySetIters ≤ 2147483647) {mul : Int} (h : mul ∈ [1, 2, 4, 8]) :
    wrap32 (max 1 sp.utilitySetIters * mul) = max 1 sp.utilitySetIters * mul ∧ 1 ≤ max 1 sp.utilitySetIters * mul := by
  have hbase : 1 ≤ max 1 sp.utilitySetIters := le_max_left _ _
  have hle : 1 ≤ mul ∧ mul ≤ 8 := by
    simp only [List.mem_cons, List.not_mem_nil, or_false] at h
    omega
  have h1 : 1 ≤ max 1 sp.utilitySetIters * mul := by nlinarith
  have h2 : max 1 sp.utilitySetIters * mul ≤ 2147483647 := by nlinarith
  exact ⟨wrap32_of_fits (by omega) h2, h1⟩

theorem getD_append_last (utils : List (List ℚ)) (us : List ℚ) : (utils ++ [us]).getD utils.length [] = us := by
  simp

theorem getD_append_lt {utils : List (List ℚ)} {j : Nat} (h : j < utils.length) (us : List ℚ) :
    (utils ++ [us]).getD j [] = utils.getD j [] := by
  rw [List.getD_eq_getElem?_getD, List.getElem?_append_left h, List.getD_eq_getElem?_getD]

/-- The best average is a maximum again, of one candidate more. -/
theorem keepBest_leading {s : State} {utils : List (List ℚ)} {us : List ℚ} (hks : s.ks = sp.ks)
    (hidx : utils.length = s.testIdx) (havg : s.testSum / s.testN = avg us) (hlow : -10 ^ 30 < avg us)
    (h : Leading sp s utils) : ∃ b k, s.keepBest = { s with bestAvg := b, bestK := k } ∧
      (∃ j < (utils ++ [us]).length, k = sp.ks.getD j 0 ∧ b = avg ((utils ++ [us]).getD j [])) ∧
      ∀ vs ∈ utils ++ [us], avg vs ≤ b := by
  rw [State.keepBest, havg]
  split_ifs with hlt
  · refine ⟨avg us, sp.ks.getD utils.length 0, by rw [hks, hidx], ⟨utils.length, by simp, rfl, ?_⟩, fun vs hvs => ?_⟩
    · rw [getD_append_last]
    · rcases List.mem_append.mp hvs with hvs | hvs
      · rcases h with ⟨rfl, _⟩ | ⟨_, hmax⟩
        · cases hvs
        · exact (hmax vs hvs).trans hlt.le
      · rw [List.mem_singleton.mp hvs]
  · rcases h with ⟨_, hb⟩ | ⟨⟨j, hj, hk, hb⟩, hmax⟩
    · exact absurd (hb ▸ hlow) hlt
    · refine ⟨s.bestAvg, s.bestK, rfl, ⟨j, ?_, hk, ?_⟩, fun vs hvs => ?_⟩
      · rw [List.length_append]
        omega
      · rw [getD_append_lt hj, hb]
      · rcases List.mem_append.mp hvs with hvs | hvs
        · exact hmax vs hvs
        · rw [List.mem_singleton.mp hvs]
          exact not_lt.mp hlt

/-- One more measurement of a candidate that needs more. -/
theorem TestRound.more {s : State} {log : List Measurement} {utils : List (List ℚ)} {part : List ℚ}
    (h : TestRound sp s log utils part) (util : ℚ) (hn : (s.testN : Int) + 1 < max 1 sp.utilityTestIters) :
    TestRound sp { s with hasPending := false, testSum := s.testSum + util, testN := s.testN + 1 }
      (log ++ [⟨sp.ks.getD s.testIdx 0, util⟩]) utils (part ++ [util]) where
  testing := h.testing
  cycles := by
    obtain ⟨before, hbefore, hlog⟩ := h.cycles
    exact ⟨before, hbefore, by rw [hlog, List.map_append, List.append_assoc _ (part.map _)]; rfl⟩
  idx := h.idx
  idx_lt := h.idx_lt
  iters := h.iters
  n := by rw [List.length_append, h.n]; rfl
  n_lt := by push_cast; exact hn

/-- The last measurement of a candidate. -/
theorem TestRound.last {s : State} {log : List Measurement} {utils : List (List ℚ)} {part : List ℚ}
    (h : TestRound sp s log utils part) (util : ℚ) (hn : max 1 sp.utilityTestIters ≤ (s.testN : Int) + 1) :
    (∃ before, Cycles sp before s.setMul ∧ log ++ [⟨sp.ks.getD s.testIdx 0, util⟩] =
      before ++ tests sp.ks (utils ++ [part ++ [util]])) ∧ ∀ us ∈ utils ++ [part ++ [util]],
        us.length = max 1 sp.utilityTestIters := by
  obtain ⟨before, hbefore, hlog⟩ := h.cycles
  refine ⟨⟨before, hbefore, ?_⟩, fun us hus => ?_⟩
  · rw [tests_append_one _ (h.idx ▸ h.idx_lt), hlog, h.idx, List.map_append, List.append_assoc, List.append_assoc]
    rfl
  · rcases List.mem_append.mp hus with hus | hus
    · exact h.iters us hus
    · have h1 := h.n
      have h2 := h.n_lt
      rw [List.mem_singleton.mp hus, List.length_append, List.length_singleton]
      push_cast
      omega

theorem low_lt_avg {us : List ℚ} (hne : us ≠ []) (h : ∀ u ∈ us, -2147483648 ≤ u) : -10 ^ 30 < avg us :=
  lt_of_lt_of_le (by norm_num) (le_avg hne h)

theorem inv_candidateDone (hfits : 8 * max 1 sp.utilitySetIters ≤ 2147483647) {s : State} {log : List Measurement}
    {utils : List (List ℚ)} {us : List ℚ} (hf : Fixed sp s) (hmul : s.setMul ∈ [1, 2, 4, 8]) (htesting : s.testing = true)
    (hcycles : ∃ before, Cycles sp before s.setMul ∧ log = before ++ tests sp.ks (utils ++ [us]))
    (hidx : utils.length = s.testIdx) (hlt : s.testIdx < sp.ks.length)
    (hiters : ∀ vs ∈ utils ++ [us], vs.length = max 1 sp.utilityTestIters) (hn : us.length = s.testN)
    (hsum : s.testSum = us.sum) (hlow : ∀ u ∈ us, -2147483648 ≤ u) (hlead : Leading sp s utils) :
    Inv sp s.candidateDone log := by
  have hiter : (us.length : Int) = max 1 sp.utilityTestIters := hiters us (List.mem_append_right _ List.mem_cons_self)
  have hne : us ≠ [] := by
    rintro rfl
    simp only [List.length_nil] at hiter
    omega
  have hlen : (utils ++ [us]).length = s.testIdx + 1 := by rw [List.length_append, hidx]; rfl
  obtain ⟨b, k, hkeep, hbest, hmax⟩ := keepBest_leading hf.ks hidx (avg_eq hn hsum) (low_lt_avg hne hlow) hlead
  obtain ⟨before, hbefore, hlog⟩ := hcycles
  have hset : ∀ mul ∈ ([1, 2, 4, 8] : List Int), wrap32 (s.setItersBase * mul) = max 1 sp.utilitySetIters * mul ∧
      1 ≤ max 1 sp.utilitySetIters * mul := by
    intro mul h
    rw [hf.setItersBase]
    exact fits_nextMul hfits h
  rw [State.candidateDone, hkeep]
  dsimp only
  by_cases hdone : s.ks.length ≤ s.testIdx + 1
  · rw [if_pos hdone]
    obtain ⟨hwrap, hpos⟩ := hset _ (nextMul_mem k hmul)
    obtain ⟨j, hj, hkj, hbj⟩ := hbest
    have hall : (utils ++ [us]).length = sp.ks.length := by
      rw [hf.ks] at hdone
      omega
    refine ⟨⟨hf.enabled, hf.cap, hf.ks, hf.testIters, hf.setItersBase, hf.pendingVUs⟩, nextMul_mem k hmul,
      .inr ⟨utils ++ [us], [], ?_⟩⟩
    exact {
      setting := rfl
      cycles := ⟨before, s.setMul, hbefore, rfl, by rw [hlog]; simp⟩
      tested := ⟨hall, hiters, j, hj, hkj, fun vs hvs => hbj ▸ hmax vs hvs⟩
      left := by
        show (0 : Int) + wrap32 (s.setItersBase * nextMul k s.setMul) = max 1 sp.utilitySetIters * nextMul k s.setMul
        rw [hwrap, Int.zero_add]
      left_pos := by
        show 1 ≤ wrap32 (s.setItersBase * nextMul k s.setMul)
        rw [hwrap]
        exact hpos }
  · rw [if_neg hdone]
    refine ⟨⟨hf.enabled, hf.cap, hf.ks, hf.testIters, hf.setItersBase, hf.pendingVUs⟩, hmul, .inl ⟨utils ++ [us], [], ?_, rfl,
      fun _ h => absurd h List.not_mem_nil, .inr ⟨hbest, hmax⟩⟩⟩
    exact {
      testing := htesting
      cycles := ⟨before, hbefore, by rw [hlog]; simp⟩
      idx := hlen
      idx_lt := Nat.lt_of_not_le (hf.ks ▸ hdone)
      iters := hiters
      n := rfl
      n_lt := by show ((0 : Nat) : Int) < _; omega }

/-- **A measurement** goes to the candidate that was in use. -/
theorem inv_measure (hfits : 8 * max 1 sp.utilitySetIters ≤ 2147483647) {s : State} {log : List Measurement} {util : ℚ}
    (hlow : -2147483648 ≤ util) (h : Inv sp s log) : Inv sp (s.measure util) (log ++ [⟨s.activeK, util⟩]) := by
  obtain ⟨hf, hmul, hphase⟩ := h
  rcases hphase with ⟨utils, part, ht, hsum, hpart, hlead⟩ | ⟨utils, sets, hs⟩
  · have hpart' : ∀ u ∈ part ++ [util], -2147483648 ≤ u := by
      intro u hu
      rcases List.mem_append.mp hu with hu | hu
      · exact hpart u hu
      · rwa [List.mem_singleton.mp hu]
    have hsum' : s.testSum + util = (part ++ [util]).sum := by rw [List.sum_append, hsum, List.sum_singleton]
    rw [ht.activeK hf]
    rcases le_or_gt (max 1 sp.utilityTestIters) ((s.testN : Int) + 1) with hn | hn
    · obtain ⟨hcycles, hiters⟩ := ht.last util hn
      rw [measure_last ht.testing (hf.testIters ▸ hn)]
      exact inv_candidateDone hfits ⟨hf.enabled, hf.cap, hf.ks, hf.testIters, hf.setItersBase, hf.pendingVUs⟩ hmul ht.testing
        hcycles ht.idx ht.idx_lt hiters (by rw [List.length_append, ht.n]; rfl) hsum' hpart' hlead
    · rw [measure_more ht.testing (hf.testIters ▸ hn)]
      exact ⟨⟨hf.enabled, hf.cap, hf.ks, hf.testIters, hf.setItersBase, hf.pendingVUs⟩, hmul,
        .inl ⟨utils, part ++ [util], ht.more util hn, hsum', hpart', hlead⟩⟩
  · obtain ⟨before, mul, hbefore, hnext, hlog⟩ := hs.cycles
    have hleft := hs.left
    have hpos := hs.left_pos
    have hbound : max 1 sp.utilitySetIters * s.setMul ≤ 2147483647 := by
      rw [← (fits_nextMul hfits hmul).1]
      exact (wrap32_range _).2
    have hwrap : wrap32 (s.setLeft - 1) = s.setLeft - 1 := wrap32_of_fits (by omega) (by omega)
    have hlog' : log ++ [⟨s.bestK, util⟩] = before ++ tests sp.ks utils ++ (sets ++ [util]).map (Measurement.mk s.bestK) := by
      rw [hlog, List.map_append, List.append_assoc _ (sets.map _)]
      rfl
    rw [hs.activeK hf]
    by_cases hdone : s.setLeft - 1 ≤ 0
    · -- the set phase is over
      rw [measure_setDone hs.setting (by rw [hwrap]; exact hdone), hwrap]
      have hsets : ((sets ++ [util]).length : Int) = max 1 sp.utilitySetIters * nextMul s.bestK mul := by
        rw [List.length_append, List.length_singleton, ← hnext]
        push_cast
        omega
      have hcycle := Cycles.cycle hbefore hs.tested hsets
      rw [← hnext, ← hlog'] at hcycle
      refine ⟨⟨hf.enabled, hf.cap, hf.ks, hf.testIters, hf.setItersBase, hf.pendingVUs⟩, hmul, .inl ⟨[], [], ?_, rfl,
        fun _ h => absurd h List.not_mem_nil, .inl ⟨rfl, rfl⟩⟩⟩
      exact {
        testing := rfl
        cycles := ⟨_, hcycle, by cases sp.ks <;> simp [tests]⟩
        idx := rfl
        idx_lt := ks_ne_nil sp
        iters := fun _ h => absurd h List.not_mem_nil
        n := rfl
        n_lt := by show ((0 : Nat) : Int) < _; omega }
    · rw [measure_set hs.setting (by omega), hwrap]
      refine ⟨⟨hf.enabled, hf.cap, hf.ks, hf.testIters, hf.setItersBase, hf.pendingVUs⟩, hmul,
        .inr ⟨utils, sets ++ [util], ?_⟩⟩
      exact {
        setting := hs.setting
        cycles := ⟨before, mul, hbefore, hnext, hlog'⟩
        tested := hs.tested
        left := by
          rw [List.length_append, List.length_singleton]
          push_cast
          show _ + (s.setLeft - 1) = _
          omega
        left_pos := by show 1 ≤ s.setLeft - 1; omega }

theorem onVerifyDone_of_enabled {s : State} (h : s.enabled = true) (vUs : Int) :
    s.onVerifyDone vUs = { s with pendingVUs := max 1 vUs, hasPending := true } := by
  rw [State.onVerifyDone, h]
  rfl

theorem onOuterIterStart_of_enabled {s : State} (h : s.enabled = true) (nPredict nPredictMark : Int) :
    s.onOuterIterStart nPredict nPredictMark = if s.hasPending then s.measure (s.util nPredict nPredictMark) else s := by
  rw [State.onOuterIterStart, h]
  rfl

theorem inv_onVerifyDone {s : State} {log : List Measurement} (h : Inv sp s log) (vUs : Int) :
    Inv sp (s.onVerifyDone vUs) log := by
  obtain ⟨hf, hmul, hphase⟩ := h
  rw [onVerifyDone_of_enabled hf.enabled]
  refine ⟨⟨hf.enabled, hf.cap, hf.ks, hf.testIters, hf.setItersBase, le_max_left _ _⟩, hmul, ?_⟩
  rcases hphase with ⟨utils, part, ht, hrest⟩ | ⟨utils, sets, hs⟩
  · exact .inl ⟨utils, part, ⟨ht.testing, ht.cycles, ht.idx, ht.idx_lt, ht.iters, ht.n, ht.n_lt⟩, hrest⟩
  · exact .inr ⟨utils, sets, ⟨hs.setting, hs.cycles, hs.tested, hs.left, hs.left_pos⟩⟩

/-- The invariant of the machine with its caller. -/
structure Kept (sp : Params) (m : Machine) : Prop where
  inv : Inv sp m.cascade m.log
  read : m.read = m.cascade.activeK

theorem kept_start (h : sp.moeUtilitySpec = true) : Kept sp (start sp) := by
  refine ⟨?_, rfl⟩
  rw [start, State.init, h]
  refine ⟨⟨rfl, rfl, rfl, rfl, rfl, le_rfl⟩, by simp,
    .inl ⟨[], [], ?_, rfl, fun _ h => absurd h List.not_mem_nil, .inl ⟨rfl, rfl⟩⟩⟩
  exact {
    testing := rfl
    cycles := ⟨[], .nil, by cases sp.ks <;> rfl⟩
    idx := rfl
    idx_lt := ks_ne_nil sp
    iters := fun _ h => absurd h List.not_mem_nil
    n := rfl
    n_lt := by show ((0 : Nat) : Int) < _; omega }

theorem Kept.call (hfits : 8 * max 1 sp.utilitySetIters ≤ 2147483647) {m : Machine} (h : Kept sp m) (c : Call) :
    Kept sp (m.call c) := by
  cases c with
  | outerIterStart nPredict =>
    refine ⟨?_, rfl⟩
    show Inv sp (m.cascade.onOuterIterStart nPredict m.mark) (m.log ++ _)
    rw [onOuterIterStart_of_enabled h.inv.fixed.enabled, h.read]
    cases hpending : m.cascade.hasPending with
    | true => exact inv_measure hfits (le_util h.inv.fixed.pendingVUs _ _) h.inv
    | false => exact (List.append_nil m.log).symm ▸ h.inv
  | verifyDone vUs =>
    refine ⟨inv_onVerifyDone h.inv vUs, h.read.trans ?_⟩
    show _ = (m.cascade.onVerifyDone vUs).activeK
    rw [onVerifyDone_of_enabled h.inv.fixed.enabled]
    rfl

theorem Kept.sound {m : Machine} (h : Kept sp m) : Sound sp m := by
  refine ⟨h.inv.fixed.ks, h.inv.active, mem_ks h.inv.active, h.inv.mul, ?_⟩
  exact h.inv.phase.imp_left fun ⟨utils, part, ht, _⟩ => ⟨utils, part, ht⟩

theorem sound_run (hfits : 8 * max 1 sp.utilitySetIters ≤ 2147483647) (h : sp.moeUtilitySpec = true) (calls : List Call) :
    Sound sp (run sp calls) := by
  have hkept : ∀ (calls : List Call) (m : Machine), Kept sp m → Kept sp (calls.foldl Machine.call m) := by
    intro calls
    induction calls with
    | nil => exact fun _ hm => hm
    | cons c calls ih => exact fun m hm => ih _ (hm.call hfits c)
  exact (hkept calls _ (kept_start h)).sound

end Invariant

section Overflow

variable {sp : Params}

/-- A measured iteration without any token. -/
def State.idle (s : State) : State := s.measure 0

/-- Within a test round. -/
def testState (sp : Params) (mul : Int) (idx n : Nat) (avg : ℚ) (best : Int) : State where
  enabled := true
  cap := max 0 sp.nMax
  ks := sp.ks
  testIters := max 1 sp.utilityTestIters
  setItersBase := max 1 sp.utilitySetIters
  setMul := mul
  testIdx := idx
  testN := n
  bestAvg := avg
  bestK := best

/-- Within a set phase without drafting. -/
def setState (sp : Params) (mul left : Int) : State :=
  { testState sp mul 0 0 0 0 with testing := false, setLeft := left }

/-- The begin of a test round. -/
def roundStart (sp : Params) (mul : Int) : State := testState sp mul 0 0 (-10 ^ 30) (max 0 sp.nMax)

theorem iterate_idle_testState {mul : Int} {idx : Nat} {avg : ℚ} {best : Int} (n : Nat)
    (h : (n : Int) < max 1 sp.utilityTestIters) :
    State.idle^[n] (testState sp mul idx 0 avg best) = testState sp mul idx n avg best := by
  induction n with
  | zero => rfl
  | succ n ih =>
    push_cast at h
    rw [Function.iterate_succ_apply', ih (by omega), State.idle, measure_more rfl h, add_zero]
    rfl

/-- After as many measurements as are needed the candidate is done. -/
theorem exists_candidateDone (mul : Int) (idx : Nat) (avg : ℚ) (best : Int) : ∃ n k : Nat,
    State.idle^[k] (testState sp mul idx 0 avg best) = (testState sp mul idx n avg best).candidateDone := by
  obtain ⟨n, hn⟩ : ∃ n : Nat, (n : Int) + 1 = max 1 sp.utilityTestIters := ⟨(max 1 sp.utilityTestIters - 1).toNat, by omega⟩
  refine ⟨n + 1, n + 1, ?_⟩
  rw [Function.iterate_succ_apply', iterate_idle_testState n (by omega), State.idle, measure_last rfl hn.ge, add_zero]
  rfl

theorem keepBest_testState (mul : Int) (idx n : Nat) (avg : ℚ) (best : Int) : (testState sp mul idx n avg best).keepBest =
    if avg < 0 then testState sp mul idx n 0 (sp.ks.getD idx 0) else testState sp mul idx n avg best := by
  rw [State.keepBest, show (testState sp mul idx n avg best).testSum = 0 from rfl, zero_div]
  rfl

theorem candidateDone_last {s : State} (h : s.keepBest.ks.length ≤ s.keepBest.testIdx + 1) (hbest : s.keepBest.bestK = 0) :
    s.candidateDone = { s.keepBest with
      testSum := 0
      testN := 0
      testing := false
      setMul := min (s.keepBest.setMul * 2) 8
      setLeft := wrap32 (s.keepBest.setItersBase * min (s.keepBest.setMul * 2) 8)
      testIdx := 0 } := by
  rw [State.candidateDone]
  dsimp only
  rw [if_pos h, if_pos hbest]

theorem candidateDone_next {s : State} (h : s.keepBest.testIdx + 1 < s.keepBest.ks.length) :
    s.candidateDone = { s.keepBest with testSum := 0, testN := 0, testIdx := s.keepBest.testIdx + 1 } := by
  rw [State.candidateDone]
  dsimp only
  rw [if_neg (by omega)]

theorem ks_cases (sp : Params) : sp.ks = [0] ∨ ∃ cap, sp.ks = [0, cap] := by
  rw [Params.ks, candidates]
  split_ifs
  · exact .inr ⟨_, rfl⟩
  · exact .inl rfl

/-- A test round in which nothing is gained: the first candidate, which is 0, wins. -/
theorem exists_setState (mul : Int) : ∃ k : Nat, State.idle^[k] (roundStart sp mul) =
    setState sp (min (mul * 2) 8) (wrap32 (max 1 sp.utilitySetIters * min (mul * 2) 8)) := by
  obtain ⟨n, k, hk⟩ := exists_candidateDone mul 0 (-10 ^ 30) (max 0 sp.nMax)
  have hkeep : (testState sp mul 0 n (-10 ^ 30) (max 0 sp.nMax)).keepBest = testState sp mul 0 n 0 0 := by
    rw [keepBest_testState, if_pos (by norm_num)]
    rcases ks_cases sp with h | ⟨cap, h⟩ <;> rw [h] <;> rfl
  rcases ks_cases sp with h | ⟨cap, h⟩
  · refine ⟨k, ?_⟩
    rw [roundStart, hk, candidateDone_last (by rw [hkeep]; show sp.ks.length ≤ 1; rw [h]; rfl) (by rw [hkeep]; rfl), hkeep]
    rfl
  · obtain ⟨n', k', hk'⟩ := exists_candidateDone mul 1 0 0
    have hkeep' : (testState sp mul 1 n' 0 0).keepBest = testState sp mul 1 n' 0 0 := by
      rw [keepBest_testState, if_neg (by norm_num)]
    have hnext : (testState sp mul 0 n (-10 ^ 30) (max 0 sp.nMax)).candidateDone = testState sp mul 1 0 0 0 := by
      rw [candidateDone_next (by rw [hkeep]; show 0 + 1 < sp.ks.length; rw [h]; exact Nat.lt_succ_self 1), hkeep]
      rfl
    refine ⟨k' + k, ?_⟩
    rw [Function.iterate_add_apply, roundStart, hk, hnext, hk', candidateDone_last
      (by rw [hkeep']; show sp.ks.length ≤ 1 + 1; rw [h]; rfl) (by rw [hkeep']; rfl), hkeep']
    rfl

/-- A set phase that fits an `int`. -/
theorem exists_roundStart (mul : Int) (left : Nat) (h : (left : Int) < 2147483647) : ∃ k : Nat,
    State.idle^[k] (setState sp mul (left + 1)) = roundStart sp mul := by
  induction left with
  | zero =>
    refine ⟨1, ?_⟩
    show (setState sp mul 1).idle = _
    rw [State.idle, measure_setDone rfl (show wrap32 (1 - 1) ≤ 0 by decide)]
    rfl
  | succ left ih =>
    push_cast at h
    obtain ⟨k, hk⟩ := ih (by omega)
    have hwrap : wrap32 ((((left + 1 : Nat) : Int) + 1) - 1) = left + 1 := by
      rw [wrap32_of_fits (by omega) (by omega)]
      omega
    refine ⟨k + 1, ?_⟩
    rw [Function.iterate_succ_apply, State.idle, measure_set rfl (by
      show 0 < wrap32 ((((left + 1 : Nat) : Int) + 1) - 1)
      rw [hwrap]
      omega), ← hk]
    congr 1
    show setState sp mul (wrap32 _) = _
    rw [show wrap32 ((setState sp mul (((left + 1 : Nat) : Int) + 1)).setLeft - 1) = left + 1 from hwrap]

/-- Between the calls of an idle run. -/
structure Waiting (m : Machine) : Prop where
  enabled : m.cascade.enabled = true
  pendingVUs : m.cascade.pendingVUs = 1
  hasPending : m.cascade.hasPending = false
  mark : m.mark = 0

theorem keepBest_waiting (s : State) : s.keepBest.enabled = s.enabled ∧ s.keepBest.pendingVUs = s.pendingVUs ∧
    s.keepBest.hasPending = s.hasPending := by
  rw [State.keepBest]
  split_ifs <;> exact ⟨rfl, rfl, rfl⟩

theorem candidateDone_waiting (s : State) : s.candidateDone.enabled = s.enabled ∧ s.candidateDone.pendingVUs = s.pendingVUs ∧
    s.candidateDone.hasPending = s.hasPending := by
  rw [State.candidateDone]
  dsimp only
  split_ifs <;> exact keepBest_waiting s

theorem measure_waiting (s : State) (util : ℚ) : (s.measure util).enabled = s.enabled ∧
    (s.measure util).pendingVUs = s.pendingVUs ∧ (s.measure util).hasPending = false := by
  rw [State.measure]
  dsimp only
  split_ifs
  · exact candidateDone_waiting _
  all_goals exact ⟨rfl, rfl, rfl⟩

def idleCalls : List Call := [.verifyDone 1, .outerIterStart 0]

theorem measure_pending (s : State) (util : ℚ) : State.measure { s with hasPending := true } util = s.measure util := by
  rw [State.measure, State.measure]

theorem foldl_idleCalls {m : Machine} (h : Waiting m) : Waiting (idleCalls.foldl Machine.call m) ∧
    (idleCalls.foldl Machine.call m).cascade = m.cascade.idle := by
  have hdone : m.cascade.onVerifyDone 1 = { m.cascade with hasPending := true } := by
    rw [onVerifyDone_of_enabled h.enabled, max_self]
    exact congrArg (fun v => { m.cascade with pendingVUs := v, hasPending := true }) h.pendingVUs.symm
  have hcascade : (idleCalls.foldl Machine.call m).cascade = m.cascade.idle := by
    show (m.cascade.onVerifyDone 1).onOuterIterStart 0 m.mark = _
    rw [hdone, onOuterIterStart_of_enabled (by exact h.enabled), if_pos rfl, h.mark, measure_pending, State.util]
    simp [wrap32, State.idle]
  obtain ⟨he, hv, hp⟩ := measure_waiting m.cascade 0
  refine ⟨⟨?_, ?_, ?_, rfl⟩, hcascade⟩ <;> rw [hcascade, State.idle]
  · exact he.trans h.enabled
  · exact hv.trans h.pendingVUs
  · exact hp

theorem exists_run (h : sp.moeUtilitySpec = true) (n : Nat) :
    ∃ calls, (run sp calls).cascade = State.idle^[n] (roundStart sp 1) ∧ Waiting (run sp calls) := by
  induction n with
  | zero =>
    refine ⟨[], ?_, ?_⟩
    · show State.init {} sp = _
      rw [State.init, h]
      rfl
    · show Waiting (start sp)
      rw [start, State.init, h]
      exact ⟨rfl, rfl, rfl, rfl⟩
  | succ n ih =>
    obtain ⟨calls, hcalls, hwait⟩ := ih
    obtain ⟨hwait', hidle⟩ := foldl_idleCalls hwait
    refine ⟨calls ++ idleCalls, ?_, ?_⟩ <;> rw [run, List.foldl_append]
    · rw [Function.iterate_succ_apply', ← hcalls]
      exact hidle
    · exact hwait'

theorem wrap32_of_overflow {x : Int} (h0 : 2147483647 < x) (h1 : x < 4294967296) : wrap32 x < 1 := by
  rw [wrap32, Int.bmod]
  split_ifs <;> omega

theorem not_sound {m : Machine} (htesting : m.cascade.testing = false) (hleft : m.cascade.setLeft < 1) : ¬Sound sp m := by
  intro h
  rcases h.phase with ⟨utils, part, ht⟩ | ⟨utils, sets, hs⟩
  · rw [ht.testing] at htesting
    cases htesting
  · exact absurd hs.left_pos (not_le.mpr hleft)

/-- A set phase that does not fit is not sound. -/
theorem fits_of_sound (h : sp.moeUtilitySpec = true) (hsound : ∀ calls, Sound sp (run sp calls)) {mul mul' : Int} {n : Nat}
    (hn : State.idle^[n] (roundStart sp 1) = roundStart sp mul) (hmul : min (mul * 2) 8 = mul')
    (hint : max 1 sp.utilitySetIters * mul' < 4294967296) : max 1 sp.utilitySetIters * mul' ≤ 2147483647 := by
  by_contra hover
  obtain ⟨k, hk⟩ := exists_setState mul
  obtain ⟨calls, hcalls, _⟩ := exists_run h (k + n)
  rw [Function.iterate_add_apply, hn, hk, hmul] at hcalls
  apply not_sound _ _ (hsound calls) <;> rw [hcalls]
  · rfl
  · exact wrap32_of_overflow (by omega) hint

/-- A round and its set phase, when it fits. -/
theorem exists_next {mul mul' : Int} {n : Nat} (hn : State.idle^[n] (roundStart sp 1) = roundStart sp mul)
    (hmul : min (mul * 2) 8 = mul') (hpos : 0 < mul') (hfits : max 1 sp.utilitySetIters * mul' ≤ 2147483647) :
    ∃ n, State.idle^[n] (roundStart sp 1) = roundStart sp mul' := by
  have hpos : 0 < max 1 sp.utilitySetIters * mul' := Int.mul_pos (by omega) hpos
  obtain ⟨left, hleft⟩ : ∃ left : Nat, (left : Int) + 1 = max 1 sp.utilitySetIters * mul' :=
    ⟨(max 1 sp.utilitySetIters * mul' - 1).toNat, by omega⟩
  obtain ⟨k, hk⟩ := exists_setState mul
  obtain ⟨k', hk'⟩ := exists_roundStart mul' left (by omega)
  refine ⟨k' + (k + n), ?_⟩
  rw [Function.iterate_add_apply, Function.iterate_add_apply, hn, hk, hmul, ← hleft, wrap32_of_fits (by omega) (by omega),
    hk']

end Overflow

end S2Moe.Spec.Cascade
