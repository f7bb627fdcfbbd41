import S2Moe.Lib.Grammar
import Mathlib.Data.List.Chain

/-!
# Grammar rules

A rule is one flat array: the alternates of the rule in turn, each a row of references and character classes. A class may take
several elements: its first character, and ranges and further characters that modify it.

* `Element`, `Rule`, `Pos` : the arrays and the pointers into them;
* `matchChar` : a code point against the class that starts at a pointer;
* `alternates`, `cfg` : what an array means;
* `WellFormed` : one end, in the last place, and nothing modifies an element that is no character;
* `matchChar_eq` : in a well formed array the class is matched as it is meant, and the pointer moves behind it.
-/

namespace S2Moe.Grammar
open S2Moe.Lib

/-- `llama_gretype`. -/
inductive Gretype where
  | endRule | alt | ruleRef | char | charNot | charRngUpper | charAlt | charAny
deriving DecidableEq

/-- `llama_grammar_element` : the value is a code point or the id of a rule. -/
structure Element where
  type : Gretype
  value : UInt32
deriving DecidableEq

/-- `llama_grammar_rule`. -/
abbrev Rule := List Element

/-- `llama_grammar_rules`. -/
abbrev Rules := List Rule

/-- A `const llama_grammar_element *` : a rule and an index into it. -/
structure Pos where
  rule : Nat
  idx : Nat
deriving DecidableEq

def Pos.next (p : Pos) (n : Nat) : Pos := { p with idx := p.idx + n }

/-- What the pointer can read: the rule from there on. -/
def Rules.suffixAt (rules : Rules) (p : Pos) : List Element := (rules.getD p.rule []).drop p.idx

/-- `llama_grammar_is_end_of_sequence`. -/
def isEndOfSequence (e : Element) : Bool :=
  match e.type with
  | .endRule => true
  | .alt => true
  | _ => false

/-- What the model cannot go on from. -/
inductive Fail where
  | fuel | abort | assert | outOfRange
deriving DecidableEq

/-- The loop of `llama_grammar_match_char` : what has been found and how many elements have been passed. -/
def matchLoop (chr : UInt32) : List Element → Bool → Nat → Bool × Nat
  | e :: u :: rest, found, n =>
    if u.type = .charRngUpper then
      -- inclusive range, e.g. [a-z]
      let found := found || (decide (e.value ≤ chr) && decide (chr ≤ u.value))
      match rest with
      | [] => (found, n + 2)
      | a :: rest => if a.type = .charAlt then matchLoop chr (a :: rest) found (n + 2) else (found, n + 2)
    else
      -- any character matches ".", else exact char match, e.g. [a] or "a"
      let found := if e.type = .charAny then true else found || e.value == chr
      if u.type = .charAlt then matchLoop chr (u :: rest) found (n + 1) else (found, n + 1)
  | _, found, n => (found, n)

/-- `llama_grammar_match_char`. -/
def matchChar (pos : List Element) (chr : UInt32) : Except Fail (Bool × Nat) :=
  match pos with
  | [] => .error .assert
  | e :: _ =>
    let isPositiveChar := e.type = .char || e.type = .charAny
    if isPositiveChar || e.type = .charNot then
      let r := matchLoop chr pos false 0
      .ok (r.1 == isPositiveChar, r.2)
    else .error .assert

section Meaning

structure Range where
  lo : UInt32
  hi : UInt32
deriving DecidableEq

/-- A character class: `.`, or `[...]` and `[^...]`; a single character is a range of one. -/
inductive CharClass where
  | any
  | chars (positive : Bool) (ranges : List Range)
deriving DecidableEq

abbrev Symbol := Sym Nat CharClass

def CharClass.Hit : CharClass → UInt32 → Prop
  | .any, _ => True
  | .chars positive ranges, c => (∃ r ∈ ranges, r.lo ≤ c ∧ c ≤ r.hi) ↔ positive = true

/-- The ranges of the class whose first element this is. -/
def classRanges : List Element → List Range
  | [] => []
  | [e] => [⟨e.value, e.value⟩]
  | e :: u :: rest =>
    if u.type = .charRngUpper then
      ⟨e.value, u.value⟩ ::
        match rest with
        | [] => []
        | a :: rest => if a.type = .charAlt then classRanges (a :: rest) else []
    else ⟨e.value, e.value⟩ :: if u.type = .charAlt then classRanges (u :: rest) else []

/-- A symbol in front of the first alternate. -/
def push (s : Symbol) : List (List Symbol) → List (List Symbol)
  | [] => [[s]]
  | alt :: alts => (s :: alt) :: alts

/-- The alternates of a rule, or what is left of them behind a pointer. -/
def alternates : List Element → List (List Symbol)
  | [] => [[]]
  | e :: es =>
    match e.type with
    | .endRule => [[]]
    | .alt => [] :: alternates es
    | .ruleRef => push (.ref e.value.toNat) (alternates es)
    | .char => push (.cls (.chars true (classRanges (e :: es)))) (alternates es)
    | .charNot => push (.cls (.chars false (classRanges (e :: es)))) (alternates es)
    | .charAny => push (.cls .any) (alternates es)
    -- these belong to the class before them
    | .charRngUpper => alternates es
    | .charAlt => alternates es

/-- The symbols up to the end of the sequence. -/
def sequence (es : List Element) : List Symbol := (alternates es).headD []

/-- The context-free grammar of a rule set. -/
def cfg (rules : Rules) : Cfg Nat CharClass UInt32 where
  alts n :=
    match rules[n]? with
    | some rule => alternates rule
    | none => []
  hit := CharClass.Hit

theorem alternates_eq (es : List Element) : alternates es = sequence es :: (alternates es).tail := by
  have hne : alternates es ≠ [] := by
    induction es with
    | nil => simp [alternates]
    | cons e es ih =>
        cases h : alternates es with
        | nil => exact absurd h ih
        | cons a as => cases ht : e.type <;> simp [alternates, ht, push, h]
  cases h : alternates es with
  | nil => exact absurd h hne
  | cons a as => simp [sequence, h]

theorem sequence_endOfSequence {e : Element} (es : List Element) (he : isEndOfSequence e = true) :
    sequence (e :: es) = [] := by
  unfold isEndOfSequence at he
  cases ht : e.type <;> simp_all [sequence, alternates]

theorem sequence_push {e : Element} {es : List Element} {s : Symbol}
    (h : alternates (e :: es) = push s (alternates es)) : sequence (e :: es) = s :: sequence es := by
  rw [sequence, h, alternates_eq es]
  rfl

theorem sequence_ruleRef {e : Element} (es : List Element) (he : e.type = .ruleRef) :
    sequence (e :: es) = .ref e.value.toNat :: sequence es := sequence_push (by simp [alternates, he])

theorem sequence_char {e : Element} (es : List Element) (he : e.type = .char) :
    sequence (e :: es) = .cls (.chars true (classRanges (e :: es))) :: sequence es :=
  sequence_push (by simp [alternates, he])

theorem sequence_charNot {e : Element} (es : List Element) (he : e.type = .charNot) :
    sequence (e :: es) = .cls (.chars false (classRanges (e :: es))) :: sequence es :=
  sequence_push (by simp [alternates, he])

theorem sequence_charAny {e : Element} (es : List Element) (he : e.type = .charAny) :
    sequence (e :: es) = .cls .any :: sequence es := sequence_push (by simp [alternates, he])

theorem sequence_modifier {e : Element} (es : List Element) (he : e.type = .charRngUpper ∨ e.type = .charAlt) :
    sequence (e :: es) = sequence es := by
  rcases he with he | he <;> simp [sequence, alternates, he]

end Meaning

section WellFormed

/-- What may stand next to each other: an upper bound modifies a character, a further character a character or a range. -/
def Adj (e u : Element) : Prop :=
  (u.type = .charRngUpper → e.type = .char ∨ e.type = .charNot ∨ e.type = .charAlt) ∧
    (u.type = .charAlt → e.type = .char ∨ e.type = .charNot ∨ e.type = .charAlt ∨ e.type = .charRngUpper)

/-- The array ends where its first `LLAMA_GRETYPE_END` is. -/
def Ends : List Element → Prop
  | [] => False
  | [e] => e = ⟨.endRule, 0⟩
  | e :: u :: es => e.type ≠ .endRule ∧ Ends (u :: es)

/-- An array from the start of a sequence or of one of its symbols on. -/
structure WellFormed (es : List Element) : Prop where
  ends : Ends es
  chain : List.IsChain Adj (⟨.alt, 0⟩ :: es)

theorem Ends.exists_cons {e : Element} {es : List Element} (h : Ends (e :: es)) (he : e.type ≠ .endRule) :
    ∃ u es', es = u :: es' ∧ Ends es := by
  cases es with
  | nil => exact absurd (congrArg Element.type h) he
  | cons u es' => exact ⟨u, es', rfl, h.2⟩

theorem WellFormed.exists_cons {es : List Element} (h : WellFormed es) : ∃ e es', es = e :: es' := by
  cases es with
  | nil => exact h.ends.elim
  | cons e es' => exact ⟨e, es', rfl⟩

/-- A well formed array starts with no modifier. -/
theorem WellFormed.head {e : Element} {es : List Element} (h : WellFormed (e :: es)) :
    e.type ≠ .charRngUpper ∧ e.type ≠ .charAlt := by
  have hadj : Adj ⟨.alt, 0⟩ e := (List.isChain_cons_cons.mp h.chain).1
  constructor
  · intro he
    simpa using hadj.1 he
  · intro he
    simpa using hadj.2 he

/-- Behind an element that nothing can modify. -/
theorem wellFormed_of_chain {e : Element} {es : List Element} (hends : Ends es) (hchain : List.IsChain Adj (e :: es))
    (he : ∀ u es', es = u :: es' → u.type ≠ .charRngUpper ∧ u.type ≠ .charAlt) : WellFormed es := by
  refine ⟨hends, ?_⟩
  cases es with
  | nil => exact hends.elim
  | cons u es' =>
      obtain ⟨h1, h2⟩ := he u es' rfl
      exact List.isChain_cons_cons.mpr ⟨⟨fun h => absurd h h1, fun h => absurd h h2⟩,
        (List.isChain_cons_cons.mp hchain).2⟩

theorem WellFormed.tail {e : Element} {es : List Element} (h : WellFormed (e :: es))
    (he : e.type = .ruleRef ∨ e.type = .alt) : WellFormed es := by
  have hne : e.type ≠ .endRule := by rcases he with he | he <;> simp [he]
  obtain ⟨u, es', rfl, hends⟩ := h.ends.exists_cons hne
  have hchain := (List.isChain_cons_cons.mp h.chain).2
  refine wellFormed_of_chain hends hchain fun v es'' heq => ?_
  cases heq
  have hadj := (List.isChain_cons_cons.mp hchain).1
  constructor
  · intro hv
    rcases he with he | he <;> simpa [he] using hadj.1 hv
  · intro hv
    rcases he with he | he <;> simpa [he] using hadj.2 hv

end WellFormed

section Matching

/-- A range of one is an exact match. -/
theorem single_range (v c : UInt32) : (decide (v ≤ c) && decide (c ≤ v)) = (v == c) := by
  rw [Bool.eq_iff_iff]
  simp only [Bool.and_eq_true, decide_eq_true_eq, beq_iff_eq]
  constructor
  · rintro ⟨h1, h2⟩
    exact UInt32.le_antisymm h1 h2
  · rintro rfl
    exact ⟨UInt32.le_refl _, UInt32.le_refl _⟩

theorem classRanges_single {e u : Element} (rest : List Element) (hu : u.type ≠ .charRngUpper) :
    classRanges (e :: u :: rest) = ⟨e.value, e.value⟩ :: if u.type = .charAlt then classRanges (u :: rest) else [] := by
  cases rest <;> simp [classRanges, hu]

/-- The loop passes exactly the elements of the class. -/
theorem matchLoop_eq (c : UInt32) : ∀ (e : Element) (es : List Element) (found : Bool) (n : Nat), Ends (e :: es) →
    List.IsChain Adj (e :: es) → e.type = .char ∨ e.type = .charNot ∨ e.type = .charAlt →
    ∃ m, matchLoop c (e :: es) found n =
        (found || (classRanges (e :: es)).any (fun r => decide (r.lo ≤ c) && decide (c ≤ r.hi)), n + m) ∧
      WellFormed ((e :: es).drop m) ∧ sequence ((e :: es).drop m) = sequence es := by
  intro e es found n hends hchain he
  have hne : e.type ≠ .endRule := by rcases he with he | he | he <;> simp [he]
  have hany : e.type ≠ .charAny := by rcases he with he | he | he <;> simp [he]
  obtain ⟨u, rest, rfl, hends'⟩ := hends.exists_cons hne
  have hchain' := (List.isChain_cons_cons.mp hchain).2
  by_cases hu : u.type = .charRngUpper
  · obtain ⟨a, rest, rfl, hends''⟩ := hends'.exists_cons (by simp [hu])
    have hchain'' := List.isChain_cons_cons.mp hchain'
    have hseq : sequence (u :: a :: rest) = sequence (a :: rest) := sequence_modifier _ (.inl hu)
    by_cases ha : a.type = .charAlt
    · obtain ⟨m, hloop, hwf, hdrop⟩ := matchLoop_eq c a rest
        (found || (decide (e.value ≤ c) && decide (c ≤ u.value))) (n + 2) hends'' hchain''.2 (.inr (.inr ha))
      refine ⟨m + 2, ?_, hwf, ?_⟩
      · rw [matchLoop, if_pos hu]
        simp only [ha, if_true, hloop, classRanges, hu, List.any_cons, Bool.or_assoc]
        rw [Nat.add_assoc, Nat.add_comm 2 m]
      · rw [hseq, sequence_modifier _ (.inr ha)]
        exact hdrop
    · refine ⟨2, ?_, ?_, hseq.symm⟩
      · rw [matchLoop, if_pos hu]
        simp [ha, classRanges, hu]
      · refine wellFormed_of_chain hends'' hchain' fun v es' heq => ?_
        cases heq
        refine ⟨fun hv => ?_, ha⟩
        simpa [hu] using hchain''.1.1 hv
  · by_cases hu' : u.type = .charAlt
    · obtain ⟨m, hloop, hwf, hdrop⟩ := matchLoop_eq c u rest (found || e.value == c) (n + 1) hends' hchain'
        (.inr (.inr hu'))
      refine ⟨m + 1, ?_, hwf, ?_⟩
      · rw [matchLoop, if_neg hu, if_neg hany]
        simp only [hu', if_true, hloop, classRanges_single rest hu, List.any_cons, Bool.or_assoc, single_range]
        rw [Nat.add_assoc, Nat.add_comm 1 m]
      · rw [sequence_modifier _ (.inr hu')]
        exact hdrop
    · refine ⟨1, ?_, wellFormed_of_chain hends' hchain fun v es' heq => ?_, rfl⟩
      · rw [matchLoop, if_neg hu, if_neg hany]
        simp [hu', classRanges_single rest hu, single_range]
      · cases heq
        exact ⟨hu, hu'⟩
termination_by _ es => es.length
decreasing_by all_goals simp_all; try omega

/-- **In a well formed array `llama_grammar_match_char` decides the class and moves behind it.** -/
theorem matchChar_eq {e : Element} {es : List Element} (hw : WellFormed (e :: es))
    (he : e.type = .char ∨ e.type = .charNot ∨ e.type = .charAny) (c : UInt32) :
    ∃ k b m, matchChar (e :: es) c = .ok (b, m) ∧ (b = true ↔ k.Hit c) ∧ WellFormed ((e :: es).drop m) ∧
      sequence (e :: es) = .cls k :: sequence ((e :: es).drop m) := by
  have hchain := (List.isChain_cons_cons.mp hw.chain).2
  rcases he with he | he | he
  · obtain ⟨m, hloop, hwf, hdrop⟩ := matchLoop_eq c e es false 0 hw.ends hchain (.inl he)
    refine ⟨_, (classRanges (e :: es)).any (fun r => decide (r.lo ≤ c) && decide (c ≤ r.hi)), m,
      by simp [matchChar, he, hloop], ?_, hwf, by rw [hdrop]; exact sequence_char es he⟩
    simp [CharClass.Hit]
  · obtain ⟨m, hloop, hwf, hdrop⟩ := matchLoop_eq c e es false 0 hw.ends hchain (.inr (.inl he))
    refine ⟨_, !(classRanges (e :: es)).any (fun r => decide (r.lo ≤ c) && decide (c ≤ r.hi)), m,
      by simp [matchChar, he, hloop], ?_, hwf, by rw [hdrop]; exact sequence_charNot es he⟩
    simp [CharClass.Hit]
  · obtain ⟨u, rest, rfl, hends⟩ := hw.ends.exists_cons (by simp [he])
    have hadj := (List.isChain_cons_cons.mp hchain).1
    have hu : u.type ≠ .charRngUpper := fun hu => by simpa [he] using hadj.1 hu
    have hu' : u.type ≠ .charAlt := fun hu => by simpa [he] using hadj.2 hu
    refine ⟨.any, true, 1, by simp [matchChar, he, matchLoop, hu, hu'], by simp [CharClass.Hit], ?_,
      sequence_charAny _ he⟩
    exact wellFormed_of_chain hends hchain fun v es' heq => by
      cases heq
      exact ⟨hu, hu'⟩

end Matching

end S2Moe.Grammar
