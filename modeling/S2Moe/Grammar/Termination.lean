import S2Moe.Grammar.Accept

/-!
# What the check for left recursion is for

A call of `llama_grammar_advance_stack` replaces the reference on top by the alternates of its rule, so it returns on every
stack just when no rule comes first in what it becomes itself.

* `Terminates` : the calls return;
* `terminates_iff` : they do just where there is no left recursion;
* `HiddenLeftRecursion` : every left recursion passes a rule that becomes empty only through other rules;
* `check_terminates_iff` : that is what the check misses; `hiddenText_not_terminates` : a text with three rules.
-/

namespace S2Moe.Grammar
open S2Moe.Lib

/-- `llama_grammar_advance_stack` returns on every stack over the rules. -/
def Terminates (rules : Rules) : Prop :=
  ∀ stack, (∀ p ∈ stack, Placed rules p) → ∀ stackSet, Topped rules stackSet →
    ∃ fuel stackSet', advanceStack rules fuel stack stackSet = .ok stackSet'

/-- There is a left recursion, but none that passes only references to rules with an alternate without elements. -/
def HiddenLeftRecursion (rules : Rules) : Prop :=
  (∃ n, Relation.TransGen (cfg rules).LeftRef n n) ∧ ∀ n, ¬ Relation.TransGen (FirstRef rules) n n

section Returning
variable {rules : Rules}

/-- A loop that ends well has made each of its calls. -/
theorem foldlM_ok {ι : Type*} {body : Stacks → ι → Except Fail Stacks} : ∀ (xs : List ι) {stackSet last : Stacks},
    xs.foldlM body stackSet = .ok last → ∀ x ∈ xs, ∃ before after, body before x = .ok after
  | [], _, _, _, _, hx => nomatch hx
  | y :: ys, stackSet, last, h, x, hx => by
    rw [List.foldlM_cons] at h
    obtain ⟨mid, hmid, hrest⟩ := bind_eq_ok h
    rcases List.mem_cons.mp hx with rfl | hx
    · exact ⟨stackSet, mid, hmid⟩
    · exact foldlM_ok ys hrest x hx

/-- The steps from a reference end when those from the stacks of its alternates do. -/
theorem acc_ref {rule : Rule} {n : Nat} {rest : Stack} (hrule : rules[n]? = some rule) (hwf : WellFormed rule)
    (hrest : ∀ q ∈ rest, Placed rules q)
    (h : ∀ i ∈ alternateStarts rule, Acc (fun g f => (cfg rules).Step f g) (form rules (pushUnlessEnd rules ⟨n, i⟩ rest))) :
    Acc (fun g f => (cfg rules).Step f g) (.ref n :: form rules rest) := by
  refine ⟨_, fun g hg => ?_⟩
  cases hg with
  | mk _ hmem =>
      rw [alts_eq hrule] at hmem
      obtain ⟨i, hi, rfl⟩ := List.mem_map.mp hmem
      rw [← (form_alternateStart hrule hwf hi hrest).1]
      exact h i hi

/-- **A call that returns** has followed steps that end. -/
theorem acc_of_advanceStack (hw : WfRules rules) : ∀ (fuel : Nat) {stack : Stack} {stackSet stackSet' : Stacks},
    (∀ p ∈ stack, Placed rules p) → advanceStack rules fuel stack stackSet = .ok stackSet' →
      Acc (fun g f => (cfg rules).Step f g) (form rules stack) := by
  intro fuel
  induction fuel with
  | zero =>
      intro stack stackSet stackSet' _ hrun
      cases stack with
      | nil => exact Cfg.Ready.nil.acc
      | cons pos rest => cases hrun
  | succ fuel ih =>
      intro stack stackSet stackSet' hplaced hrun
      cases stack with
      | nil => exact Cfg.Ready.nil.acc
      | cons pos rest =>
          rcases advanceStack_cases hw hplaced with ⟨htop, _⟩ | ⟨n, rule, rest', hrule, hrwf, hplaced', hform, hstep⟩
          · obtain ⟨k, _, _, _, _, _, hform⟩ := @form_of_classOnTop rules pos rest (hplaced pos List.mem_cons_self) htop 0
            rw [hform]
            exact (Cfg.Ready.cls k _).acc
          · rw [hstep] at hrun
            rw [hform]
            apply acc_ref hrule hrwf hplaced'
            intro i hi
            obtain ⟨before, after, hcall⟩ := foldlM_ok _ hrun _ (List.mem_map.mpr ⟨i, hi, rfl⟩)
            exact ih (form_alternateStart hrule hrwf hi hplaced').2 hcall

/-- A rule that comes first in what it becomes has a start from which the call does not return. -/
theorem exists_start_not_returning (hw : WfRules rules) {n : Nat} (hcycle : Relation.TransGen (cfg rules).LeftRef n n) :
    ∃ rule, rules[n]? = some rule ∧ ∃ i ∈ alternateStarts rule, (∀ p ∈ pushUnlessEnd rules ⟨n, i⟩ [], Placed rules p) ∧
      ∀ fuel stackSet stackSet', advanceStack rules fuel (pushUnlessEnd rules ⟨n, i⟩ []) stackSet ≠ .ok stackSet' := by
  cases hrule : rules[n]? with
  | none =>
      obtain ⟨m, ⟨pre, post, hmem, _⟩, _⟩ := Relation.TransGen.head'_iff.mp hcycle
      rw [alts_none hrule] at hmem
      cases hmem
  | some rule =>
      have hwf := hw.wf rule (List.mem_of_getElem? hrule)
      by_contra hno
      apply Cfg.not_acc_step hcycle (form rules [])
      apply acc_ref hrule hwf (by simp)
      intro i hi
      have hplaced := (@form_alternateStart rules rule n i [] hrule hwf hi (by simp)).2
      by_contra hacc
      exact hno ⟨rule, rfl, i, hi, hplaced, fun fuel _ _ hrun => hacc (acc_of_advanceStack hw fuel hplaced hrun)⟩

/-- **The calls return on every stack just where there is no left recursion.** -/
theorem terminates_iff (hw : WfRules rules) : Terminates rules ↔ (cfg rules).NoLeftRecursion := by
  constructor
  · intro h n hcycle
    obtain ⟨rule, _, i, _, hplaced, hnot⟩ := exists_start_not_returning hw hcycle
    obtain ⟨fuel, stackSet', hrun⟩ := h _ hplaced [] Topped.empty
    exact hnot fuel [] stackSet' hrun
  · intro hleft stack hplaced stackSet htop
    obtain ⟨bound, hadds⟩ := advanceStack_adds hw (Cfg.acc_step (wellFounded_leftRef hleft) _) hplaced
    obtain ⟨stackSet', _, hrun⟩ := hadds stackSet htop
    exact ⟨bound, stackSet', hrun bound le_rfl⟩

end Returning

section Hidden
variable {rules : Rules}

/-- Rules that become empty only by an alternate of their own hide no left recursion. -/
theorem not_hidden_of_hasEmptyAlternate
    (h : ∀ n, (cfg rules).Derives [.ref n] [] → hasEmptyAlternate true (rules.getD n []) = true) :
    ¬ HiddenLeftRecursion rules := by
  rintro ⟨⟨n, hcycle⟩, hnot⟩
  apply hnot n
  apply hcycle.lift id
  rintro k m ⟨pre, post, hmem, hpre⟩
  refine ⟨_, hmem, pre, post, rfl, ?_⟩
  clear hmem
  induction pre with
  | nil => simp
  | cons s pre ih =>
      obtain ⟨u, v, huv, hu, hv⟩ := Cfg.Derives.split (f := [s]) (g := pre) hpre
      obtain ⟨rfl, rfl⟩ := List.append_eq_nil_iff.mp huv.symm
      intro t ht
      rcases List.mem_cons.mp ht with rfl | ht
      · cases t with
        | cls k => exact absurd hu Cfg.nil_notMem_lang_cls
        | ref k => exact ⟨k, rfl, h k hu⟩
      · exact ih hv t ht

/-- **What the check is worth**: where it passes the calls return, unless every left recursion is hidden; and they return
just where there is none. -/
theorem check_terminates_iff (hw : WfRules rules) :
    (Terminates rules ↔ (cfg rules).NoLeftRecursion) ∧
      ((detectAny rules (List.range rules.length) (.initial rules.length) = .ok false → Terminates rules) ↔
        ¬ HiddenLeftRecursion rules) := by
  refine ⟨terminates_iff hw, ?_⟩
  rw [terminates_iff hw, detectAny_iff hw.wf]
  constructor
  · rintro h ⟨⟨n, hcycle⟩, hnot⟩
    exact h hnot n hcycle
  · intro h hnot n hcycle
    exact h ⟨⟨n, hcycle⟩, hnot⟩

/-- `root ::= "a" root | "b"` keeps what the check promises. -/
theorem check_terminates_iff_list : (Terminates listRules ↔ (cfg listRules).NoLeftRecursion) ∧
    ((detectAny listRules (List.range listRules.length) (.initial listRules.length) = .ok false → Terminates listRules) ↔
      ¬ HiddenLeftRecursion listRules) :=
  @check_terminates_iff listRules (@parse_wf ⟨[(rootName, 0)], listRules⟩ listText rfl)

end Hidden

/-- `root ::= a root | "x"`, `a ::= b`, `b ::= | "y"`, a line each. -/
def hiddenText : Text :=
  ['r', 'o', 'o', 't', ' ', ':', ':', '=', ' ', 'a', ' ', 'r', 'o', 'o', 't', ' ', '|', ' ', '"', 'x', '"', '\n',
    'a', ' ', ':', ':', '=', ' ', 'b', '\n', 'b', ' ', ':', ':', '=', ' ', '|', ' ', '"', 'y', '"'].map Char.toUInt8

def hiddenRules : Rules :=
  [[⟨.ruleRef, 1⟩, ⟨.ruleRef, 0⟩, ⟨.alt, 0⟩, ⟨.char, 120⟩, ⟨.endRule, 0⟩], [⟨.ruleRef, 2⟩, ⟨.endRule, 0⟩],
    [⟨.alt, 0⟩, ⟨.char, 121⟩, ⟨.endRule, 0⟩]]

theorem parse_hiddenText : parse hiddenText = .ok ⟨[(rootName, 0), (['a'.toUInt8], 1), (['b'.toUInt8], 2)], hiddenRules⟩ :=
  rfl

/-- `a` is empty through `b`, so `root` comes first in `root`. -/
theorem hiddenRules_leftRef : (cfg hiddenRules).LeftRef 0 0 := by
  have hb : (cfg hiddenRules).Derives [.ref 2] [] :=
    Cfg.lang_ref.mpr ⟨[], List.mem_cons_self, .nil⟩
  have ha : (cfg hiddenRules).Derives [.ref 1] [] :=
    Cfg.lang_ref.mpr ⟨[.ref 2], List.mem_cons_self, by rw [List.append_nil]; exact hb⟩
  exact ⟨[.ref 1], [], List.mem_cons_self, ha⟩

/-- **The check passes and the grammar is never ready.** -/
theorem hiddenText_not_terminates : ∃ parser, parse hiddenText = .ok parser ∧ WfRules parser.rules ∧
    detectAny parser.rules (List.range parser.rules.length) (.initial parser.rules.length) = .ok false ∧
    ¬ Terminates parser.rules ∧ ∃ n, Relation.TransGen (cfg parser.rules).LeftRef n n := by
  have hw : WfRules hiddenRules := parse_wf parse_hiddenText
  refine ⟨_, parse_hiddenText, hw, by decide +kernel, fun h => ?_, 0, .single hiddenRules_leftRef⟩
  exact (terminates_iff hw).mp h 0 (.single hiddenRules_leftRef)

end S2Moe.Grammar
