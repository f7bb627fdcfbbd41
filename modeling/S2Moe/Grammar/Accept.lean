import S2Moe.Grammar.LeftRecursion
import S2Moe.Grammar.Parsed

/-!
# Grammar acceptance

* `initImpl` : a grammar from its text: read, checked for left recursion, with a stack for each alternate of the root;
* `initImpl_words` : at the start the stacks have the words of the root;
* `accept_exact` : what the stacks say after some code points.

A class may match no code point, such as `[z-a]`. A stack that waits for one is there although nothing can follow, even where
every rule has a word through another alternate.
-/

namespace S2Moe.Grammar
open S2Moe.Lib

/-- The copy of a rule, up to its end. -/
def copyRule (rule : Rule) : Rule := rule.takeWhile (fun e => e.type ≠ .endRule) ++ [⟨.endRule, 0⟩]

/-- The loop over the alternates of the start rule. -/
def initialStacks (fuel : Nat) (rules : Rules) (startRuleIndex : Nat) : Except Fail Stacks :=
  ((alternateStarts (rules.getD startRuleIndex [])).map fun i => pushUnlessEnd rules ⟨startRuleIndex, i⟩ []).foldlM
    (fun stackSet stack => advanceStack rules fuel stack stackSet) []

/-- `llama_grammar_init_impl` on rules. -/
def initRules (fuel : Nat) (rules : Rules) (startRuleIndex : Nat) : Except Fail (Option LlamaGrammar) := do
  let vecRules := rules.map copyRule
  if ← detectAny vecRules (List.range vecRules.length) (.initial vecRules.length) then .ok none
  else
    let stackSet ← initialStacks fuel vecRules startRuleIndex
    .ok (some ⟨vecRules, stackSet⟩)

/-- `"root"`. -/
def rootName : Text := ['r', 'o', 'o', 't'].map Char.toUInt8

/-- `llama_grammar_init_impl` on a text. -/
def initImpl (fuel : Nat) (grammarStr grammarRoot : Text) : Except Fail (Option LlamaGrammar) :=
  match parse grammarStr with
  | .error _ => .ok none
  | .ok parser =>
    if parser.rules.isEmpty then .ok none
    else if (parser.symbolIds.lookup rootName).isNone then .ok none
    else
      match parser.symbolIds.lookup grammarRoot with
      | none => .error .outOfRange
      | some startRuleIndex => initRules fuel parser.rules startRuleIndex.toNat

section Init
variable {rules : Rules}

theorem copyRule_eq : ∀ {rule : Rule}, Ends rule → copyRule rule = rule
  | [], h => h.elim
  | [e], h => by
    obtain rfl : e = ⟨.endRule, 0⟩ := h
    rfl
  | e :: u :: es, h => by
    have ih := copyRule_eq h.2
    rw [copyRule] at ih ⊢
    rw [List.takeWhile_cons_of_pos (by simpa using h.1), List.cons_append, ih]

theorem map_copyRule (hw : WfRules rules) : rules.map copyRule = rules :=
  (List.map_congr_left fun rule hrule => copyRule_eq (hw.wf rule hrule).ends).trans (List.map_id _)

theorem wellFounded_leftRef (hleft : (cfg rules).NoLeftRecursion) :
    WellFounded fun m n => (cfg rules).LeftRef n m := by
  apply hleft.wellFounded
  apply (Set.finite_lt_nat rules.length).subset
  intro n hn
  show n < rules.length
  by_contra hge
  exact hn (alts_none (List.getElem?_eq_none (by omega)))

/-- **At the start the stacks have the words of the start rule.** -/
theorem initRules_words (hw : WfRules rules) (hleft : (cfg rules).NoLeftRecursion) {n : Nat} (hn : n < rules.length) :
    ∃ bound stackSet, (∀ fuel ≥ bound, initRules fuel rules n = .ok (some ⟨rules, stackSet⟩)) ∧ Topped rules stackSet ∧
      words rules stackSet = (cfg rules).ruleLang n := by
  have hrule : rules[n]? = some rules[n] := List.getElem?_eq_getElem hn
  have hrwf := hw.wf _ (List.getElem_mem hn)
  have hall : ∀ s ∈ (alternateStarts rules[n]).map fun i => pushUnlessEnd rules ⟨n, i⟩ [],
      Adds rules (fun fuel => advanceStack rules fuel s) ((cfg rules).lang (form rules s)) := by
    intro s hs
    obtain ⟨i, hi, rfl⟩ := List.mem_map.mp hs
    exact advanceStack_adds hw (Cfg.acc_step (wellFounded_leftRef hleft) _)
      (form_alternateStart hrule hrwf hi (by simp)).2
  obtain ⟨bound, hfold⟩ := foldlM_adds _ hall
  obtain ⟨stackSet, hadd, hrun⟩ := hfold [] Topped.empty
  refine ⟨bound, stackSet, fun fuel hfuel => ?_, hadd.topped, ?_⟩
  · have hstacks : initialStacks fuel rules n = .ok stackSet := by
      rw [initialStacks, List.getD_eq_getElem?_getD, hrule]
      exact hrun fuel hfuel
    rw [initRules, map_copyRule hw, detectAny_initial hw.wf hleft, hstacks]
    rfl
  · ext w
    rw [hadd.words_iff, Cfg.ruleLang_eq]
    constructor
    · rintro (⟨stack, hmem, _⟩ | hmem)
      · cases hmem
      · exact (words_alternateStarts hrule hrwf (by simp) w).mp hmem
    · intro hmem
      exact .inr ((words_alternateStarts hrule hrwf (by simp) w).mpr hmem)

end Init

/-- **Acceptance is exact.** For a text that is read, with a rule for the chosen root and without left recursion, and all
code points `w`: with enough fuel the run ends without the abort or the assertion, the empty stack is there just when `w`
is a word of the root, some stack is there whenever `w` can be continued to one, and only then if every alternate has a
word; and the stacks are distinct, with a class on top. -/
theorem accept_exact {grammarStr grammarRoot : Text} {parser : Parser} {root : UInt32}
    (hparse : parse grammarStr = .ok parser)
    (hname : (parser.symbolIds.lookup rootName).isSome) (hroot : parser.symbolIds.lookup grammarRoot = some root)
    (hdef : root.toNat < parser.rules.length) (hleft : (cfg parser.rules).NoLeftRecursion) (w : List UInt32) :
    ∃ bound start stackSet,
      (∀ fuel ≥ bound, initImpl fuel grammarStr grammarRoot = .ok (some start) ∧
        acceptAll fuel start w = .ok ⟨parser.rules, stackSet⟩) ∧
      ([] ∈ stackSet ↔ w ∈ (cfg parser.rules).ruleLang root.toNat) ∧
      ((∃ v, w ++ v ∈ (cfg parser.rules).ruleLang root.toNat) → stackSet ≠ []) ∧
      ((cfg parser.rules).Productive → stackSet ≠ [] → ∃ v, w ++ v ∈ (cfg parser.rules).ruleLang root.toNat) ∧
      stackSet.Nodup ∧ ∀ stack ∈ stackSet, ∀ p ∈ stack.head?, ClassOnTop parser.rules p := by
  have hw := parse_wf hparse
  obtain ⟨bound, start, hinit, htop, hwords⟩ := initRules_words hw hleft hdef
  obtain ⟨bound', stackSet, hacc, htop', hwords'⟩ :=
    acceptAll_words w (g := ⟨parser.rules, start⟩) hw (wellFounded_leftRef hleft) htop
  have hlang : ∀ v, v ∈ words parser.rules stackSet ↔ w ++ v ∈ (cfg parser.rules).ruleLang root.toNat := by
    intro v
    rw [hwords', Language.mem_leftQuotient]
    show w ++ v ∈ words parser.rules start ↔ _
    rw [hwords]
  refine ⟨max bound bound', ⟨parser.rules, start⟩, stackSet, fun fuel hfuel => ⟨?_, ?_⟩, ?_, ?_, ?_, htop'.nodup, htop'.top⟩
  · rw [initImpl, hparse]
    have hne : parser.rules.isEmpty = false := by
      cases h : parser.rules with
      | nil => rw [h] at hdef; cases hdef
      | cons => rfl
    simp only [hne, Bool.false_eq_true, if_false, Option.isNone_iff_eq_none, Option.isSome_iff_ne_none.mp hname, hroot]
    exact hinit fuel (le_trans (le_max_left _ _) hfuel)
  · exact hacc fuel (le_trans (le_max_right _ _) hfuel)
  · rw [← htop'.nil_mem_words, hlang, List.append_nil]
  · rintro ⟨v, hv⟩ rfl
    obtain ⟨stack, hmem, _⟩ := (hlang v).mpr hv
    cases hmem
  · intro hprod hne
    obtain ⟨v, hv⟩ := Topped.words_empty hw hprod hne
    exact ⟨v, (hlang v).mp hv⟩

/-- `root ::= "a" root | "b"`. -/
def listText : Text :=
  ['r', 'o', 'o', 't', ' ', ':', ':', '=', ' ', '"', 'a', '"', ' ', 'r', 'o', 'o', 't', ' ', '|', ' ', '"', 'b', '"'].map
    Char.toUInt8

def listRules : Rules := [[⟨.char, 97⟩, ⟨.ruleRef, 0⟩, ⟨.alt, 0⟩, ⟨.char, 98⟩, ⟨.endRule, 0⟩]]

/-- `root ::= "b" [z-a] | "a"`. -/
def emptyClassText : Text :=
  ['r', 'o', 'o', 't', ' ', ':', ':', '=', ' ', '"', 'b', '"', ' ', '[', 'z', '-', 'a', ']', ' ', '|', ' ', '"', 'a', '"'].map
    Char.toUInt8

def emptyClassRules : Rules :=
  [[⟨.char, 98⟩, ⟨.char, 122⟩, ⟨.charRngUpper, 97⟩, ⟨.alt, 0⟩, ⟨.char, 97⟩, ⟨.endRule, 0⟩]]

theorem noLeftRecursion_of_not_leftRef {rules : Rules} (h : ∀ n m, ¬ (cfg rules).LeftRef n m) :
    (cfg rules).NoLeftRecursion := by
  intro n hn
  obtain ⟨m, hm, _⟩ := Relation.TransGen.head'_iff.mp hn
  exact h n m hm

/-- No alternate begins with a reference. -/
theorem listRules_noLeftRecursion : (cfg listRules).NoLeftRecursion := by
  refine noLeftRecursion_of_not_leftRef fun n m ⟨pre, post, hmem, hpre⟩ => ?_
  cases n with
  | succ n => cases hmem
  | zero =>
      have halts : (cfg listRules).alts 0 =
          [[.cls (.chars true [⟨97, 97⟩]), .ref 0], [.cls (.chars true [⟨98, 98⟩])]] := rfl
      rw [halts] at hmem
      cases pre with
      | nil => simp at hmem
      | cons s pre =>
          cases s with
          | cls k => exact Cfg.nil_notMem_lang_cls hpre
          | ref n => simp at hmem

theorem emptyClassRules_alts : (cfg emptyClassRules).alts 0 =
    [[.cls (.chars true [⟨98, 98⟩]), .cls (.chars true [⟨122, 97⟩])], [.cls (.chars true [⟨97, 97⟩])]] := rfl

theorem emptyClassRules_noLeftRecursion : (cfg emptyClassRules).NoLeftRecursion := by
  refine noLeftRecursion_of_not_leftRef fun n m ⟨pre, post, hmem, hpre⟩ => ?_
  cases n with
  | succ n => cases hmem
  | zero =>
      rw [emptyClassRules_alts] at hmem
      cases pre with
      | nil => simp at hmem
      | cons s pre =>
          cases s with
          | cls k => exact Cfg.nil_notMem_lang_cls hpre
          | ref n => simp at hmem

/-- After `aab` the list is complete. -/
theorem accept_exact_list : ∃ bound start stackSet,
    (∀ fuel ≥ bound, initImpl fuel listText rootName = .ok (some start) ∧
      acceptAll fuel start [97, 97, 98] = .ok ⟨listRules, stackSet⟩) ∧
    ([] ∈ stackSet ↔ [97, 97, 98] ∈ (cfg listRules).ruleLang 0) ∧
    ((∃ v, [97, 97, 98] ++ v ∈ (cfg listRules).ruleLang 0) → stackSet ≠ []) ∧
    ((cfg listRules).Productive → stackSet ≠ [] → ∃ v, [97, 97, 98] ++ v ∈ (cfg listRules).ruleLang 0) ∧
    stackSet.Nodup ∧ ∀ stack ∈ stackSet, ∀ p ∈ stack.head?, ClassOnTop listRules p :=
  @accept_exact listText rootName ⟨[(rootName, 0)], listRules⟩ 0 rfl rfl rfl (by decide) listRules_noLeftRecursion
    [97, 97, 98]

/-- **Every rule has a word and a stack is left, but nothing can follow**: `b` is accepted, and then no code point is in
`[z-a]`. -/
theorem emptyClass_nothingFollows : ∃ parser root start stackSet,
    parse emptyClassText = .ok parser ∧ parser.symbolIds.lookup rootName = some root ∧
      (cfg parser.rules).NoLeftRecursion ∧
      (∀ n < parser.rules.length, ∃ v, v ∈ (cfg parser.rules).ruleLang n) ∧
      initImpl 10 emptyClassText rootName = .ok (some start) ∧
      acceptAll 10 start [98] = .ok ⟨parser.rules, stackSet⟩ ∧ stackSet ≠ [] ∧
      ¬ ∃ v, [98] ++ v ∈ (cfg parser.rules).ruleLang root.toNat := by
  refine ⟨⟨[(rootName, 0)], emptyClassRules⟩, 0, ⟨emptyClassRules, [[⟨0, 0⟩], [⟨0, 4⟩]]⟩, [[⟨0, 1⟩]], rfl, rfl,
    emptyClassRules_noLeftRecursion, ?_, rfl, rfl, by simp, ?_⟩
  · intro n hn
    obtain rfl : n = 0 := by
      have : emptyClassRules.length = 1 := rfl
      simp only [this] at hn
      omega
    refine ⟨[97], [.cls (.chars true [⟨97, 97⟩])], ?_, Cfg.lang_cls.mpr ⟨?_, .nil⟩⟩
    · rw [emptyClassRules_alts]
      simp
    · show CharClass.Hit (.chars true [⟨97, 97⟩]) 97
      simp [CharClass.Hit]
  · rintro ⟨v, alt, hmem, hv⟩
    rw [show (0 : UInt32).toNat = 0 from rfl, emptyClassRules_alts] at hmem
    rcases List.mem_cons.mp hmem with rfl | hmem
    · obtain ⟨_, hv⟩ := Cfg.lang_cls.mp hv
      cases v with
      | nil => exact Cfg.nil_notMem_lang_cls hv
      | cons c v =>
          obtain ⟨hc, _⟩ := Cfg.lang_cls.mp hv
          obtain ⟨r, hr, hlo, hhi⟩ := hc.mpr rfl
          rw [List.mem_singleton.mp hr] at hlo hhi
          exact absurd (UInt32.le_trans hlo hhi) (by decide)
    · rw [List.mem_singleton.mp hmem] at hv
      obtain ⟨hc, _⟩ := Cfg.lang_cls.mp hv
      obtain ⟨r, hr, hlo, hhi⟩ := hc.mpr rfl
      rw [List.mem_singleton.mp hr] at hlo hhi
      exact absurd hhi (by decide)

end S2Moe.Grammar
