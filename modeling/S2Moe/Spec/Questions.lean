import Mathlib.Data.List.Basic
import Mathlib.Data.Rat.Defs
import Mathlib.Tactic

/-!
# The question loop of `llama-speculative`

One process answers a whole dataset. Each question that gets past its prompt creates a sampler for the target from
`params.sampling` and then one for each draft sequence, for which it overwrites the temperature in `params` itself.

* `Line.reaches` : the line's question gets as far as the samplers;
* `setup` : what the samplers of one question are made from, and what is left in `params` behind it;
* `questionLoop` : the loop over the lines, with `--n-questions`;
* `questionLoop_getElem?` : the record of a line, from the temperature that the lines before it left;
* `question_independent_iff` : when a question is set up as in a process of its own.
-/

namespace S2Moe.Spec

/-- `common_params_sampling`: the temperature, and the fields that the loop never writes. -/
structure Sampling (R : Type) where
  temp : Rat
  rest : R
deriving DecidableEq

/-- What the loop reads of the command line and of the contexts. -/
structure Process (R : Type) where
  sampling : Sampling R
  /-- `params.n_parallel`. -/
  nSeqDft : Nat
  /-- `params.n_questions_limit`. -/
  nQuestionsLimit : Int
  /-- `llama_n_ctx(ctx_tgt)`. -/
  nCtx : Int
  shareKv : Bool

/-- One line of the dataset, and how its prompt fares. -/
structure Line where
  /-- `json_line.empty()`. -/
  blank : Bool := false
  /-- One of the keys `question`, `turns`, `prompt` has a value. -/
  hasQuestion : Bool := true
  /-- `inp.size()`. -/
  nInput : Nat
  targetDecodes : Bool := true
  draftDecodes : Bool := true
deriving DecidableEq

/-- No `continue` is taken before the samplers are made. -/
def Line.reaches {R : Type} (p : Process R) (l : Line) : Bool :=
  !l.blank && l.hasQuestion && decide (l.nInput ≤ p.nCtx - 4) && l.targetDecodes && (p.shareKv || l.draftDecodes)

/-- The sampling parameters of the target sampler, and the verification mode. -/
structure Setup (R : Type) where
  target : Sampling R
  stochastic : Bool
deriving DecidableEq

section Loop
variable {R : Type} (p : Process R)

/-- The loop that makes the draft samplers; each pass sets `params.sampling.temp` before it reads `params.sampling`. -/
def draftSamplers (sampling : Sampling R) : Sampling R :=
  (List.range p.nSeqDft).foldl (fun sampling _ => { sampling with temp := 1 }) sampling

/-- The setup of one question, given the `params.sampling` it finds; verification tests the temperature after the draft
samplers were made. -/
def setup (sampling : Sampling R) : Setup R := ⟨sampling, decide (0 < (draftSamplers p sampling).temp)⟩

/-- The records of the lines that are read; a line that does not reach its samplers has none. -/
def questionLoop : List Line → Sampling R → Int → List (Option (Setup R))
  | [], _, _ => []
  | l :: ls, sampling, processed =>
    if l.blank then none :: questionLoop ls sampling processed
    else if 0 < p.nQuestionsLimit ∧ p.nQuestionsLimit ≤ processed then []
    else if l.reaches p then some (setup p sampling) :: questionLoop ls (draftSamplers p sampling) (processed + 1)
    else none :: questionLoop ls sampling processed

/-- A process over a dataset. -/
def process (ls : List Line) : List (Option (Setup R)) := questionLoop p ls p.sampling 0

theorem draftSamplers_zero (h : p.nSeqDft = 0) (sampling : Sampling R) : draftSamplers p sampling = sampling := by
  unfold draftSamplers
  rw [h]
  rfl

theorem draftSamplers_pos (h : p.nSeqDft ≠ 0) (sampling : Sampling R) :
    draftSamplers p sampling = { sampling with temp := 1 } := by
  have hfold : ∀ (xs : List Nat) (s : Sampling R), s = { sampling with temp := s.temp } → xs ≠ [] →
      xs.foldl (fun (s : Sampling R) _ => { s with temp := 1 }) s = { sampling with temp := 1 } := by
    intro xs
    induction xs with
    | nil =>
        intro _ _ h
        exact absurd rfl h
    | cons x xs ih =>
        intro s hs _
        rw [List.foldl_cons]
        cases xs with
        | nil =>
            rw [hs]
            rfl
        | cons y ys =>
            apply ih
            · rw [hs]
            · exact List.cons_ne_nil y ys
  exact hfold _ sampling rfl (by simpa using h)

/-- The parameters that a line finds when it starts from `sampling` behind the lines `ls`. -/
def left (ls : List Line) (sampling : Sampling R) : Sampling R :=
  if ls.any (·.reaches p) then draftSamplers p sampling else sampling

theorem draftSamplers_idem (sampling : Sampling R) :
    draftSamplers p (draftSamplers p sampling) = draftSamplers p sampling := by
  by_cases h : p.nSeqDft = 0
  · rw [draftSamplers_zero p h]
  · rw [draftSamplers_pos p h, draftSamplers_pos p h]

theorem left_cons (l : Line) (ls : List Line) (sampling : Sampling R) :
    left p (l :: ls) sampling = left p ls (if l.reaches p then draftSamplers p sampling else sampling) := by
  unfold left
  rw [List.any_cons]
  cases l.reaches p <;> cases ls.any (·.reaches p) <;> simp [draftSamplers_idem]

/-- One pass, when the limit does not end the loop. -/
theorem questionLoop_cons (l : Line) (ls : List Line) (sampling : Sampling R) (processed : Int) :
    questionLoop p (l :: ls) sampling processed = [] ∨
      ∃ processed', questionLoop p (l :: ls) sampling processed =
        (if l.reaches p then some (setup p sampling) else none) ::
          questionLoop p ls (if l.reaches p then draftSamplers p sampling else sampling) processed' := by
  rw [questionLoop]
  by_cases hblank : l.blank = true
  · have hreach : l.reaches p = false := by simp [Line.reaches, hblank]
    rw [if_pos hblank, hreach]
    exact .inr ⟨processed, rfl⟩
  rw [if_neg hblank]
  by_cases hlimit : 0 < p.nQuestionsLimit ∧ p.nQuestionsLimit ≤ processed
  · exact .inl (if_pos hlimit)
  · rw [if_neg hlimit]
    cases l.reaches p with
    | true => exact .inr ⟨processed + 1, rfl⟩
    | false => exact .inr ⟨processed, rfl⟩

/-- The record of a line that is read. -/
theorem questionLoop_getElem? : ∀ (ls : List Line) (sampling : Sampling R) (processed : Int) (k : Nat) (l : Line),
    ls[k]? = some l → k < (questionLoop p ls sampling processed).length →
      (questionLoop p ls sampling processed)[k]? =
        some (if l.reaches p then some (setup p (left p (ls.take k) sampling)) else none)
  | [], _, _, k, l, hl, _ => by simp at hl
  | x :: ls, sampling, processed, k, l, hl, hk => by
    rcases questionLoop_cons p x ls sampling processed with hnil | ⟨processed', hcons⟩
    · rw [hnil] at hk
      simp at hk
    rw [hcons] at hk ⊢
    cases k with
    | zero =>
        simp only [List.getElem?_cons_zero, Option.some.injEq] at hl
        rw [hl]
        rfl
    | succ k =>
        simp only [List.getElem?_cons_succ, List.take_succ_cons, List.length_cons] at hl hk ⊢
        rw [left_cons]
        exact questionLoop_getElem? ls _ processed' k l hl (by omega)

/-- A process over one line always reads it. -/
theorem process_singleton (l : Line) : process p [l] = [if l.reaches p then some (setup p p.sampling) else none] := by
  unfold process questionLoop
  by_cases hblank : l.blank = true
  · have hreach : l.reaches p = false := by simp [Line.reaches, hblank]
    rw [if_pos hblank, hreach]
    rfl
  · rw [if_neg hblank, if_neg (by omega)]
    cases l.reaches p <;> rfl

/-- **A question is set up as in a process of its own** exactly when it makes no sampler at all, when no question before
it made one, or when making draft samplers changes nothing: the temperature asked for is 1, or nothing is drafted. -/
theorem question_independent_iff (ls : List Line) (k : Nat) (l : Line) (hl : ls[k]? = some l)
    (hread : k < (process p ls).length) :
    (process p ls)[k]? = (process p [l])[0]? ↔
      l.reaches p = false ∨ (∀ x ∈ ls.take k, x.reaches p = false) ∨ p.sampling.temp = 1 ∨ p.nSeqDft = 0 := by
  have hrun := questionLoop_getElem? p ls p.sampling 0 k l hl hread
  rw [process_singleton, process, hrun]
  cases hreach : l.reaches p with
  | false => simp
  | true =>
      simp only [if_true, List.getElem?_cons_zero, Option.some.injEq, Bool.true_eq_false, false_or]
      unfold left
      cases hany : (ls.take k).any (·.reaches p) with
      | false =>
          have hnone : ∀ x ∈ ls.take k, x.reaches p = false := by
            intro x hx
            have := List.any_eq_false.mp hany x hx
            simpa using this
          simp only [Bool.false_eq_true, if_false, true_iff]
          exact .inl hnone
      | true =>
          obtain ⟨x, hx, hxr⟩ := List.any_eq_true.mp hany
          have hnot : ¬ ∀ x ∈ ls.take k, x.reaches p = false := by
            intro h
            rw [h x hx] at hxr
            cases hxr
          simp only [if_true, hnot, false_or]
          by_cases hzero : p.nSeqDft = 0
          · rw [draftSamplers_zero p hzero]
            simp [hzero]
          · have hset : ∀ s : Sampling R, setup p s = ⟨s, true⟩ := by
              intro s
              unfold setup
              rw [draftSamplers_pos p hzero]
              rfl
            rw [hset, hset, draftSamplers_pos p hzero]
            constructor
            · intro h
              have htemp := congrArg (fun s => s.target.temp) h
              exact .inl htemp.symm
            · intro h
              rcases h with h | h
              · cases hs : p.sampling with
                | mk temp rest =>
                    rw [hs] at h
                    simp only at h
                    rw [h]
              · exact absurd h hzero

end Loop

/-- Greedy sampling asked for, one draft sequence, prompts that fit. -/
def greedyProcess : Process Unit := ⟨⟨0, ()⟩, 1, -1, 512, false⟩

theorem question_independent_iff_greedyProcess :
    (process greedyProcess [⟨true, true, 0, true, true⟩, ⟨false, true, 9, true, true⟩])[1]? =
      (process greedyProcess [⟨false, true, 9, true, true⟩])[0]? :=
  (question_independent_iff greedyProcess [⟨true, true, 0, true, true⟩, ⟨false, true, 9, true, true⟩] 1
    ⟨false, true, 9, true, true⟩ rfl (by decide)).mpr (.inr (.inl (by decide)))

/-- The second of two equal questions gets temperature 1 although 0 was asked for. -/
theorem question_not_independent :
    ¬ ∀ (ls : List Line) (k : Nat) (l : Line), ls[k]? = some l → k < (process greedyProcess ls).length →
      (process greedyProcess ls)[k]? = (process greedyProcess [l])[0]? := by
  intro h
  have := h [⟨false, true, 9, true, true⟩, ⟨false, true, 9, true, true⟩] 1 ⟨false, true, 9, true, true⟩ rfl (by decide)
  revert this
  decide

end S2Moe.Spec
