import S2Moe.Grammar.Rules

/-!
# Pushdown stacks

A grammar being matched is a set of stacks of pointers into the rules, each on top of what follows when the rule it points
into is done. Between two code points every stack that is not empty has a character class on top.

* `advanceStack` : a stack until classes are on top; `accept`, `acceptAll` : reading code points;
* `form`, `words` : the symbols a stack stands for, and the words some stack of the set has;
* `Topped` : what holds of the sets between two code points;
* `advanceStack_adds` : without left recursion a stack is advanced in finitely many calls, and the set has its words and
those that it had before;
* `acceptAll_words` : after `w` the set has the words that had `w` in front.
-/

namespace S2Moe.Grammar
open S2Moe.Lib

/-- `llama_grammar_stack`, the top first. -/
abbrev Stack := List Pos

/-- `llama_grammar_stacks`. -/
abbrev Stacks := List Stack

/-- A pointer is pushed unless the sequence is over there. -/
def pushUnlessEnd (rules : Rules) (p : Pos) (stack : Stack) : Stack :=
  match rules.suffixAt p with
  | [] => stack
  | e :: _ => if isEndOfSequence e then stack else p :: stack

/-- A stack is added if it is not a duplicate. -/
def addStack (stack : Stack) (newStacks : Stacks) : Stacks :=
  if stack ∈ newStacks then newStacks else newStacks ++ [stack]

/-- The scan to the end of each alternate: where the next ones start. -/
def scanAlternates : List Element → Nat → List Nat
  | [], _ => []
  | e :: es, i =>
    if e.type = .alt then (i + 1) :: scanAlternates es (i + 1)
    else if e.type = .endRule then []
    else scanAlternates es (i + 1)

/-- The values of `subpos` in the loop over the alternates of a rule. -/
def alternateStarts (rule : Rule) : List Nat := 0 :: scanAlternates rule 0

/-- `llama_grammar_advance_stack`. -/
def advanceStack (rules : Rules) : Nat → Stack → Stacks → Except Fail Stacks
  | _, [], newStacks => .ok (addStack [] newStacks)
  | 0, _ :: _, _ => .error .fuel
  | fuel + 1, pos :: rest, newStacks =>
    match rules.suffixAt pos with
    | [] => .error .abort
    | e :: _ =>
      match e.type with
      | .ruleRef =>
        ((alternateStarts (rules.getD e.value.toNat [])).map fun i =>
          pushUnlessEnd rules ⟨e.value.toNat, i⟩ (pushUnlessEnd rules (pos.next 1) rest)).foldlM
            (fun newStacks stack => advanceStack rules fuel stack newStacks) newStacks
      | .char => .ok (addStack (pos :: rest) newStacks)
      | .charNot => .ok (addStack (pos :: rest) newStacks)
      | .charAny => .ok (addStack (pos :: rest) newStacks)
      -- a stack should never be left on these
      | _ => .error .abort

/-- The fields of `llama_grammar` that the matching uses. -/
structure LlamaGrammar where
  rules : Rules
  stackSet : Stacks

/-- The body of the loop of `llama_grammar_accept`. -/
def acceptStack (fuel : Nat) (rules : Rules) (chr : UInt32) (stacksNew : Stacks) : Stack → Except Fail Stacks
  | [] => .ok stacksNew
  | pos :: rest => do
    let (found, n) ← matchChar (rules.suffixAt pos) chr
    if found then advanceStack rules fuel (pushUnlessEnd rules (pos.next n) rest) stacksNew else .ok stacksNew

/-- `llama_grammar_accept`. -/
def accept (fuel : Nat) (grammar : LlamaGrammar) (chr : UInt32) : Except Fail LlamaGrammar := do
  let stacksNew ← grammar.stackSet.foldlM (acceptStack fuel grammar.rules chr) []
  .ok { grammar with stackSet := stacksNew }

/-- The code points in order. -/
def acceptAll (fuel : Nat) (grammar : LlamaGrammar) (w : List UInt32) : Except Fail LlamaGrammar :=
    w.foldlM (accept fuel) grammar

/-- What the parser promises of its rules. -/
structure WfRules (rules : Rules) : Prop where
  wf : ∀ rule ∈ rules, WellFormed rule
  refs : ∀ rule ∈ rules, ∀ e ∈ rule, e.type = .ruleRef → e.value.toNat < rules.length

section Positions
variable {rules : Rules}

theorem suffixAt_next (p : Pos) (n : Nat) : rules.suffixAt (p.next n) = (rules.suffixAt p).drop n := by
  rw [Rules.suffixAt, Rules.suffixAt, List.drop_drop]
  rfl

/-- The pointer reads an element of the rule. -/
theorem mem_of_suffixAt {p : Pos} {e : Element} {es : List Element} (h : rules.suffixAt p = e :: es) :
    ∃ rule, rules[p.rule]? = some rule ∧ rule.drop p.idx = e :: es ∧ e ∈ rule := by
  rw [Rules.suffixAt, List.getD_eq_getElem?_getD] at h
  cases hr : rules[p.rule]? with
  | none => simp [hr] at h
  | some rule =>
      rw [hr] at h
      exact ⟨rule, rfl, h, List.mem_of_mem_drop (i := p.idx) (by rw [show rule.drop p.idx = e :: es from h]; simp)⟩

/-- A pointer at a symbol. -/
structure Placed (rules : Rules) (p : Pos) : Prop where
  wf : WellFormed (rules.suffixAt p)
  symbol : ∃ e es, rules.suffixAt p = e :: es ∧ isEndOfSequence e = false

/-- The symbols that a stack stands for. -/
def form (rules : Rules) (stack : Stack) : List Symbol := stack.flatMap fun p => sequence (rules.suffixAt p)

/-- The words of the stacks of a set. -/
def words (rules : Rules) (stackSet : Stacks) : Language UInt32 :=
  {w | ∃ stack ∈ stackSet, w ∈ (cfg rules).lang (form rules stack)}

theorem mem_words {stackSet : Stacks} {w : List UInt32} :
    w ∈ words rules stackSet ↔ ∃ stack ∈ stackSet, w ∈ (cfg rules).lang (form rules stack) := Iff.rfl

theorem form_pushUnlessEnd {p : Pos} (stack : Stack) (hp : WellFormed (rules.suffixAt p)) :
    form rules (pushUnlessEnd rules p stack) = sequence (rules.suffixAt p) ++ form rules stack := by
  obtain ⟨e, es, hsuf⟩ := hp.exists_cons
  simp only [pushUnlessEnd, hsuf]
  split
  · rename_i he
    rw [sequence_endOfSequence es he]
    rfl
  · rw [← hsuf]
    rfl

theorem placed_pushUnlessEnd {p : Pos} {stack : Stack} (hp : WellFormed (rules.suffixAt p))
    (hs : ∀ q ∈ stack, Placed rules q) : ∀ q ∈ pushUnlessEnd rules p stack, Placed rules q := by
  obtain ⟨e, es, hsuf⟩ := hp.exists_cons
  simp only [pushUnlessEnd, hsuf]
  split
  · exact hs
  · rename_i he
    intro q hq
    rcases List.mem_cons.mp hq with rfl | hq
    · exact ⟨hp, e, es, hsuf, by simpa using he⟩
    · exact hs q hq

end Positions

section Alternates

/-- The starts that the scan finds are those of the alternates. -/
theorem tail_alternates : ∀ (es full : List Element) (i : Nat), full.drop i = es →
    (alternates es).tail = (scanAlternates es i).map fun j => sequence (full.drop j)
  | [], _, _, _ => rfl
  | e :: es, full, i, h => by
    have hnext : full.drop (i + 1) = es := by rw [← List.drop_drop, h]; rfl
    have ih := tail_alternates es full (i + 1) hnext
    have hpush : ∀ s, (push s (alternates es)).tail = (alternates es).tail := by
      intro s
      rw [alternates_eq es]
      rfl
    cases ht : e.type with
    | endRule => simp [alternates, scanAlternates, ht]
    | alt =>
        simp only [alternates, scanAlternates, ht, if_true, List.tail_cons, List.map_cons]
        rw [alternates_eq es, ih, hnext]
    | _ => simpa [alternates, scanAlternates, ht, hpush] using ih

theorem alternates_eq_map (rule : Rule) :
    alternates rule = (alternateStarts rule).map fun i => sequence (rule.drop i) := by
  rw [alternates_eq rule, tail_alternates rule rule 0 rfl]
  rfl

theorem wellFormed_of_mem_scan : ∀ (es full : List Element) (i j : Nat), full.drop i = es → Ends es →
    List.IsChain Adj es → j ∈ scanAlternates es i → WellFormed (full.drop j)
  | [], _, _, _, _, hends, _, _ => hends.elim
  | e :: es, full, i, j, h, hends, hchain, hj => by
    have hnext : full.drop (i + 1) = es := by rw [← List.drop_drop, h]; rfl
    by_cases hend : e.type = .endRule
    · simp [scanAlternates, hend] at hj
    · obtain ⟨u, es', heq, hends'⟩ := hends.exists_cons hend
      rw [heq] at hchain
      have hchain' := List.isChain_cons_cons.mp hchain
      have ih := wellFormed_of_mem_scan es full (i + 1) j hnext hends' (heq ▸ hchain'.2)
      by_cases halt : e.type = .alt
      · rw [scanAlternates, if_pos halt] at hj
        rcases List.mem_cons.mp hj with rfl | hj
        · rw [hnext]
          rw [heq] at hends' ⊢
          refine wellFormed_of_chain hends' hchain fun v es'' heq => ?_
          cases heq
          exact ⟨fun hv => by simpa [halt] using hchain'.1.1 hv, fun hv => by simpa [halt] using hchain'.1.2 hv⟩
        · exact ih hj
      · rw [scanAlternates, if_neg halt, if_neg hend] at hj
        exact ih hj

theorem WellFormed.alternateStart {rule : Rule} (h : WellFormed rule) {i : Nat} (hi : i ∈ alternateStarts rule) :
    WellFormed (rule.drop i) := by
  rcases List.mem_cons.mp hi with rfl | hi
  · exact h
  · obtain ⟨e, es, rfl⟩ := h.exists_cons
    exact wellFormed_of_mem_scan _ _ 0 i rfl h.ends (List.isChain_cons_cons.mp h.chain).2 hi

/-- A symbol behind a pointer is a symbol of an alternate. -/
theorem exists_alternate : ∀ (es : List Element) (i : Nat) (s : Symbol), Ends es → s ∈ sequence (es.drop i) →
    ∃ alt ∈ alternates es, s ∈ alt
  | [], _, _, h, _ => h.elim
  | e :: es, 0, s, _, hs => ⟨sequence (e :: es), by rw [alternates_eq (e :: es)]; simp, hs⟩
  | e :: es, i + 1, s, h, hs => by
    by_cases hend : e.type = .endRule
    · cases es with
      | nil => simp [sequence, alternates] at hs
      | cons u es => exact absurd hend h.1
    · obtain ⟨_, _, _, hends⟩ := h.exists_cons hend
      obtain ⟨alt, hmem, hs⟩ := exists_alternate es i s hends hs
      have hpush : ∀ t, ∃ a ∈ push t (alternates es), s ∈ a := by
        intro t
        rw [alternates_eq es] at hmem ⊢
        rcases List.mem_cons.mp hmem with rfl | hmem
        · exact ⟨t :: _, List.mem_cons_self, List.mem_cons_of_mem _ hs⟩
        · exact ⟨alt, List.mem_cons_of_mem _ hmem, hs⟩
      cases ht : e.type with
      | endRule => exact absurd ht hend
      | alt => exact ⟨alt, by simp [alternates, ht, hmem], hs⟩
      | charRngUpper => exact ⟨alt, by simpa [alternates, ht] using hmem, hs⟩
      | charAlt => exact ⟨alt, by simpa [alternates, ht] using hmem, hs⟩
      | _ => simpa [alternates, ht] using hpush _

end Alternates

section Advancing
variable {rules : Rules}

/-- A class is on top. -/
def ClassOnTop (rules : Rules) (p : Pos) : Prop :=
  ∃ e es, rules.suffixAt p = e :: es ∧ (e.type = .char ∨ e.type = .charNot ∨ e.type = .charAny)

/-- The sets between two code points. -/
structure Topped (rules : Rules) (stackSet : Stacks) : Prop where
  nodup : stackSet.Nodup
  placed : ∀ stack ∈ stackSet, ∀ p ∈ stack, Placed rules p
  top : ∀ stack ∈ stackSet, ∀ p ∈ stack.head?, ClassOnTop rules p

theorem Topped.empty : Topped rules [] := ⟨List.nodup_nil, by simp, by simp⟩

/-- `stackSet'` is between two code points, and has the words of `stackSet` and those of `added`. -/
structure Added (rules : Rules) (added : Language UInt32) (stackSet stackSet' : Stacks) : Prop where
  topped : Topped rules stackSet'
  words_iff : ∀ w, w ∈ words rules stackSet' ↔ w ∈ words rules stackSet ∨ w ∈ added

/-- Enough fuel for every set; the fuel has no other effect. -/
def Adds (rules : Rules) (run : Nat → Stacks → Except Fail Stacks) (added : Language UInt32) : Prop :=
  ∃ bound, ∀ stackSet, Topped rules stackSet →
    ∃ stackSet', Added rules added stackSet stackSet' ∧ ∀ fuel ≥ bound, run fuel stackSet = .ok stackSet'

theorem Topped.addStack {stack : Stack} {stackSet : Stacks} (h : Topped rules stackSet)
    (hplaced : ∀ p ∈ stack, Placed rules p) (htop : ∀ p ∈ stack.head?, ClassOnTop rules p) :
    Added rules ((cfg rules).lang (form rules stack)) stackSet (addStack stack stackSet) := by
  rw [Grammar.addStack]
  split
  · rename_i hmem
    refine ⟨h, fun w => ?_⟩
    constructor
    · exact .inl
    · rintro (hw | hw)
      · exact hw
      · exact ⟨stack, hmem, hw⟩
  · rename_i hmem
    refine ⟨⟨?_, ?_, ?_⟩, fun w => ?_⟩
    · exact List.nodup_append.mpr ⟨h.nodup, List.nodup_singleton _, fun a ha b hb => by
        rintro rfl
        rw [List.mem_singleton.mp hb] at ha
        exact hmem ha⟩
    · intro s hs
      rcases List.mem_append.mp hs with hs | hs
      · exact h.placed s hs
      · rw [List.mem_singleton.mp hs]
        exact hplaced
    · intro s hs
      rcases List.mem_append.mp hs with hs | hs
      · exact h.top s hs
      · rw [List.mem_singleton.mp hs]
        exact htop
    · simp only [mem_words, List.mem_append, List.mem_singleton, or_and_right, exists_or, exists_eq_left]

/-- The calls that a loop makes in turn, each with what it adds. -/
theorem foldlM_adds {ι : Type*} {body : Nat → ι → Stacks → Except Fail Stacks} {added : ι → Language UInt32} :
    ∀ (xs : List ι), (∀ x ∈ xs, Adds rules (fun fuel => body fuel x) (added x)) →
      Adds rules (fun fuel stackSet => xs.foldlM (fun stackSet x => body fuel x stackSet) stackSet)
        {w | ∃ x ∈ xs, w ∈ added x} := by
  intro xs
  induction xs with
  | nil =>
      intro _
      refine ⟨0, fun stackSet h => ⟨stackSet, ⟨h, fun w => ?_⟩, fun _ _ => rfl⟩⟩
      constructor
      · exact .inl
      · rintro (hw | ⟨x, hx, _⟩)
        · exact hw
        · cases hx
  | cons x xs ih =>
      intro hbody
      obtain ⟨bound, hfirst⟩ := hbody x List.mem_cons_self
      obtain ⟨bound', hrest⟩ := ih fun y hy => hbody y (List.mem_cons_of_mem _ hy)
      refine ⟨max bound bound', fun stackSet h => ?_⟩
      obtain ⟨mid, hadd, hmid⟩ := hfirst stackSet h
      obtain ⟨last, hadd', hlast⟩ := hrest mid hadd.topped
      refine ⟨last, ⟨hadd'.topped, fun w => ?_⟩, fun fuel hfuel => ?_⟩
      · rw [hadd'.words_iff, hadd.words_iff, or_assoc]
        apply or_congr Iff.rfl
        show _ ∨ (∃ y ∈ xs, w ∈ added y) ↔ ∃ y ∈ x :: xs, w ∈ added y
        simp
      · have hmid' : body fuel x stackSet = .ok mid := hmid fuel (le_trans (le_max_left _ _) hfuel)
        show List.foldlM _ _ _ = _
        rw [List.foldlM_cons, hmid']
        exact hlast fuel (le_trans (le_max_right _ _) hfuel)

/-- The stacks that the alternates of a rule give. -/
theorem form_alternateStart {rule : Rule} {n i : Nat} {rest : Stack} (hrule : rules[n]? = some rule) (hwf : WellFormed rule)
    (hi : i ∈ alternateStarts rule) (hrest : ∀ q ∈ rest, Placed rules q) :
    form rules (pushUnlessEnd rules ⟨n, i⟩ rest) = sequence (rule.drop i) ++ form rules rest ∧
      ∀ q ∈ pushUnlessEnd rules ⟨n, i⟩ rest, Placed rules q := by
  have hsuf : rules.suffixAt ⟨n, i⟩ = rule.drop i := by
    rw [Rules.suffixAt, List.getD_eq_getElem?_getD, hrule]
    rfl
  have hwf' : WellFormed (rules.suffixAt ⟨n, i⟩) := by
    rw [hsuf]
    exact hwf.alternateStart hi
  rw [form_pushUnlessEnd rest hwf', hsuf]
  exact ⟨rfl, placed_pushUnlessEnd hwf' hrest⟩

theorem alts_eq {rule : Rule} {n : Nat} (hrule : rules[n]? = some rule) :
    (cfg rules).alts n = (alternateStarts rule).map fun i => sequence (rule.drop i) := by
  simp only [cfg, hrule]
  exact alternates_eq_map rule

theorem alts_none {n : Nat} (hrule : rules[n]? = none) : (cfg rules).alts n = [] := by
  simp only [cfg, hrule]

/-- The words of the stacks that the alternates of a rule give. -/
theorem words_alternateStarts {rule : Rule} {n : Nat} {rest : Stack} (hrule : rules[n]? = some rule)
    (hwf : WellFormed rule) (hrest : ∀ q ∈ rest, Placed rules q) (w : List UInt32) :
    w ∈ words rules ((alternateStarts rule).map fun i => pushUnlessEnd rules ⟨n, i⟩ rest) ↔
      w ∈ (cfg rules).lang (.ref n :: form rules rest) := by
  rw [Cfg.lang_ref, alts_eq hrule, mem_words]
  constructor
  · rintro ⟨stack, hstack, hw⟩
    obtain ⟨i, hi, rfl⟩ := List.mem_map.mp hstack
    rw [(form_alternateStart hrule hwf hi hrest).1] at hw
    exact ⟨_, List.mem_map.mpr ⟨i, hi, rfl⟩, hw⟩
  · rintro ⟨alt, halt, hw⟩
    obtain ⟨i, hi, rfl⟩ := List.mem_map.mp halt
    refine ⟨_, List.mem_map.mpr ⟨i, hi, rfl⟩, ?_⟩
    rw [(form_alternateStart hrule hwf hi hrest).1]
    exact hw

theorem WfRules.getElem?_ref (hw : WfRules rules) {p : Pos} {e : Element} {es : List Element}
    (hsuf : rules.suffixAt p = e :: es) (he : e.type = .ruleRef) :
    ∃ rule, rules[e.value.toNat]? = some rule ∧ WellFormed rule := by
  obtain ⟨rule, hrule, _, hmem⟩ := mem_of_suffixAt hsuf
  have hlt := hw.refs rule (List.mem_of_getElem? hrule) e hmem he
  exact ⟨rules[e.value.toNat], List.getElem?_eq_getElem hlt, hw.wf _ (List.getElem_mem hlt)⟩

/-- What a call does with a stack: a class on top ends it, and a reference gives a call for each alternate of its rule. -/
theorem advanceStack_cases (hw : WfRules rules) {pos : Pos} {rest : Stack} (hplaced : ∀ p ∈ pos :: rest, Placed rules p) :
    (ClassOnTop rules pos ∧
      ∀ fuel stackSet, advanceStack rules (fuel + 1) (pos :: rest) stackSet = .ok (addStack (pos :: rest) stackSet)) ∨
    ∃ n rule rest', rules[n]? = some rule ∧ WellFormed rule ∧ (∀ q ∈ rest', Placed rules q) ∧
      form rules (pos :: rest) = .ref n :: form rules rest' ∧
      ∀ fuel stackSet, advanceStack rules (fuel + 1) (pos :: rest) stackSet =
        ((alternateStarts rule).map fun i => pushUnlessEnd rules ⟨n, i⟩ rest').foldlM
          (fun stackSet stack => advanceStack rules fuel stack stackSet) stackSet := by
  obtain ⟨hwf, e, es, hsuf, hend⟩ := hplaced pos List.mem_cons_self
  have hrest : ∀ q ∈ rest, Placed rules q := fun q hq => hplaced q (List.mem_cons_of_mem _ hq)
  rw [hsuf] at hwf
  cases ht : e.type with
  | char => exact .inl ⟨⟨e, es, hsuf, .inl ht⟩, fun _ _ => by simp [advanceStack, hsuf, ht]⟩
  | charNot => exact .inl ⟨⟨e, es, hsuf, .inr (.inl ht)⟩, fun _ _ => by simp [advanceStack, hsuf, ht]⟩
  | charAny => exact .inl ⟨⟨e, es, hsuf, .inr (.inr ht)⟩, fun _ _ => by simp [advanceStack, hsuf, ht]⟩
  | endRule => simp [isEndOfSequence, ht] at hend
  | alt => simp [isEndOfSequence, ht] at hend
  | charRngUpper => exact absurd ht hwf.head.1
  | charAlt => exact absurd ht hwf.head.2
  | ruleRef =>
      right
      obtain ⟨rule, hrule, hrwf⟩ := hw.getElem?_ref hsuf ht
      have hnext : WellFormed (rules.suffixAt (pos.next 1)) := by
        rw [suffixAt_next, hsuf]
        exact hwf.tail (.inl ht)
      refine ⟨e.value.toNat, rule, pushUnlessEnd rules (pos.next 1) rest, hrule, hrwf, placed_pushUnlessEnd hnext hrest, ?_,
        fun fuel stackSet => ?_⟩
      · rw [form_pushUnlessEnd rest hnext, suffixAt_next, hsuf]
        show sequence (rules.suffixAt pos) ++ form rules rest = _
        rw [hsuf, sequence_ruleRef es ht]
        rfl
      · rw [advanceStack, hsuf]
        simp only [ht]
        rw [List.getD_eq_getElem?_getD, hrule]
        rfl

/-- Each alternate is one step of the form. -/
theorem step_alternateStart {rule : Rule} {n i : Nat} {rest : Stack} (hrule : rules[n]? = some rule) (hwf : WellFormed rule)
    (hi : i ∈ alternateStarts rule) (hrest : ∀ q ∈ rest, Placed rules q) :
    (cfg rules).Step (.ref n :: form rules rest) (form rules (pushUnlessEnd rules ⟨n, i⟩ rest)) := by
  rw [(form_alternateStart hrule hwf hi hrest).1]
  refine .mk _ ?_
  rw [alts_eq hrule]
  exact List.mem_map.mpr ⟨i, hi, rfl⟩

/-- **Advancing a stack from which the steps end.** -/
theorem advanceStack_adds (hw : WfRules rules) {stack : Stack}
    (hacc : Acc (fun g f => (cfg rules).Step f g) (form rules stack)) (hplaced : ∀ p ∈ stack, Placed rules p) :
    Adds rules (fun fuel => advanceStack rules fuel stack) ((cfg rules).lang (form rules stack)) := by
  generalize hf : form rules stack = f at hacc
  induction hacc generalizing stack with
  | intro f _ ih =>
    subst hf
    cases stack with
    | nil =>
        refine ⟨0, fun stackSet h => ⟨_, h.addStack hplaced (by simp), fun fuel _ => ?_⟩⟩
        cases fuel <;> rfl
    | cons pos rest =>
        rcases advanceStack_cases hw hplaced with ⟨htop, hrun⟩ | ⟨n, rule, rest', hrule, hrwf, hplaced', hform, hrun⟩
        · refine ⟨1, fun stackSet h => ⟨addStack (pos :: rest) stackSet, h.addStack hplaced fun p hp => ?_,
            fun fuel hfuel => ?_⟩⟩
          · obtain rfl : pos = p := by simpa using hp
            exact htop
          · obtain ⟨k, rfl⟩ := Nat.exists_eq_add_of_le' hfuel
            exact hrun k stackSet
        · have hbody : ∀ s ∈ (alternateStarts rule).map fun i => pushUnlessEnd rules ⟨n, i⟩ rest',
              Adds rules (fun fuel => advanceStack rules fuel s) ((cfg rules).lang (form rules s)) := by
            intro s hs
            obtain ⟨i, hi, rfl⟩ := List.mem_map.mp hs
            refine ih _ ?_ (form_alternateStart hrule hrwf hi hplaced').2 rfl
            rw [hform]
            exact step_alternateStart hrule hrwf hi hplaced'
          obtain ⟨bound, hfold⟩ := foldlM_adds _ hbody
          refine ⟨bound + 1, fun stackSet h => ?_⟩
          obtain ⟨stackSet', hadd, hlast⟩ := hfold stackSet h
          refine ⟨stackSet', ⟨hadd.topped, fun w => ?_⟩, fun fuel hfuel => ?_⟩
          · rw [hadd.words_iff, hform]
            exact or_congr Iff.rfl (words_alternateStarts hrule hrwf hplaced' w)
          · obtain ⟨k, rfl⟩ := Nat.exists_eq_add_of_le' (Nat.le_of_add_left_le hfuel)
            show advanceStack rules (k + 1) (pos :: rest) stackSet = _
            rw [hrun]
            exact hlast k (by omega)

end Advancing

section Accepting
variable {rules : Rules}

/-- A symbol of a stack is a symbol of the rules. -/
theorem used_of_mem_form (hw : WfRules rules) {stack : Stack} {s : Symbol} (hs : s ∈ form rules stack) :
    (cfg rules).Used s := by
  obtain ⟨p, _, hs⟩ := List.mem_flatMap.mp hs
  cases hr : rules[p.rule]? with
  | none =>
      rw [Rules.suffixAt, List.getD_eq_getElem?_getD, hr] at hs
      simp [sequence, alternates] at hs
  | some rule =>
      rw [Rules.suffixAt, List.getD_eq_getElem?_getD, hr] at hs
      obtain ⟨alt, hmem, hs⟩ := exists_alternate rule p.idx s (hw.wf rule (List.mem_of_getElem? hr)).ends hs
      refine ⟨p.rule, alt, ?_, hs⟩
      simp only [cfg, hr]
      exact hmem

/-- A stack with a class on top stands for the class and what follows it. -/
theorem form_of_classOnTop {p : Pos} {rest : Stack} (hp : Placed rules p) (htop : ClassOnTop rules p) (c : UInt32) :
    ∃ k b n, matchChar (rules.suffixAt p) c = .ok (b, n) ∧ (b = true ↔ k.Hit c) ∧
      WellFormed (rules.suffixAt (p.next n)) ∧
      form rules (p :: rest) = .cls k :: (sequence (rules.suffixAt (p.next n)) ++ form rules rest) := by
  obtain ⟨e, es, hsuf, he⟩ := htop
  have hwf := hp.wf
  rw [hsuf] at hwf
  obtain ⟨k, b, n, hmatch, hhit, hwf', hseq⟩ := matchChar_eq hwf he c
  refine ⟨k, b, n, by rw [hsuf]; exact hmatch, hhit, ?_, ?_⟩
  · rw [suffixAt_next, hsuf]
    exact hwf'
  · show sequence (rules.suffixAt p) ++ form rules rest = _
    rw [suffixAt_next, hsuf, hseq]
    rfl

theorem Topped.nil_mem_words {stackSet : Stacks} (h : Topped rules stackSet) :
    [] ∈ words rules stackSet ↔ [] ∈ stackSet := by
  constructor
  · rintro ⟨stack, hmem, hw⟩
    cases stack with
    | nil => exact hmem
    | cons p rest =>
        obtain ⟨k, b, n, _, _, _, hform⟩ := form_of_classOnTop
          (h.placed _ hmem p List.mem_cons_self) (h.top _ hmem p rfl) 0
        rw [hform] at hw
        exact (Cfg.nil_notMem_lang_cls hw).elim
  · intro hmem
    exact ⟨[], hmem, .nil⟩

/-- What `llama_grammar_accept` does with one stack. -/
theorem acceptStack_adds (hw : WfRules rules) (hwf : WellFounded fun m n => (cfg rules).LeftRef n m) (c : UInt32)
    {stack : Stack} (hplaced : ∀ p ∈ stack, Placed rules p) (htop : ∀ p ∈ stack.head?, ClassOnTop rules p) :
    Adds rules (fun fuel stackSet => acceptStack fuel rules c stackSet stack)
      (((cfg rules).lang (form rules stack)).leftQuotient [c]) := by
  cases stack with
  | nil =>
      refine ⟨0, fun stackSet h => ⟨stackSet, ⟨h, fun w => ?_⟩, fun _ _ => rfl⟩⟩
      rw [Language.mem_leftQuotient, show form rules [] = [] from rfl, Cfg.lang_nil]
      simp
  | cons pos rest =>
      have hpos := hplaced pos List.mem_cons_self
      have hrest : ∀ q ∈ rest, Placed rules q := fun q hq => hplaced q (List.mem_cons_of_mem _ hq)
      obtain ⟨k, b, n, hmatch, hhit, hnext, hform⟩ := form_of_classOnTop hpos (htop pos rfl) c
      rw [hform]
      cases b with
      | false =>
          have hno : ¬ k.Hit c := fun hk => Bool.false_ne_true (hhit.mpr hk)
          refine ⟨0, fun stackSet h => ⟨stackSet, ⟨h, fun w => ?_⟩, fun _ _ => ?_⟩⟩
          · rw [Cfg.leftQuotient_lang_cls, show (cfg rules).hit k c ↔ k.Hit c from Iff.rfl]
            simp [hno]
          · show acceptStack _ _ _ _ _ = _
            rw [acceptStack, hmatch]
            rfl
      | true =>
          obtain ⟨bound, hadv⟩ := advanceStack_adds hw
            (Cfg.acc_step hwf (form rules (pushUnlessEnd rules (pos.next n) rest))) (placed_pushUnlessEnd hnext hrest)
          refine ⟨bound, fun stackSet h => ?_⟩
          obtain ⟨stackSet', hadd, hrun⟩ := hadv stackSet h
          refine ⟨stackSet', ⟨hadd.topped, fun w => ?_⟩, fun fuel hfuel => ?_⟩
          · rw [hadd.words_iff, Cfg.leftQuotient_lang_cls, form_pushUnlessEnd rest hnext]
            rw [show (cfg rules).hit k c ↔ k.Hit c from Iff.rfl, ← hhit]
            simp
          · show acceptStack _ _ _ _ _ = _
            rw [acceptStack, hmatch]
            exact hrun fuel hfuel

/-- **Reading a code point.** -/
theorem accept_words {g : LlamaGrammar} (hw : WfRules g.rules)
    (hwf : WellFounded fun m n => (cfg g.rules).LeftRef n m) (h : Topped g.rules g.stackSet) (c : UInt32) :
    ∃ bound stackSet', (∀ fuel ≥ bound, accept fuel g c = .ok ⟨g.rules, stackSet'⟩) ∧ Topped g.rules stackSet' ∧
      words g.rules stackSet' = (words g.rules g.stackSet).leftQuotient [c] := by
  have hall : ∀ stack ∈ g.stackSet, Adds g.rules (fun fuel stackSet => acceptStack fuel g.rules c stackSet stack)
      (((cfg g.rules).lang (form g.rules stack)).leftQuotient [c]) := fun stack hs =>
    acceptStack_adds hw hwf c (h.placed stack hs) (h.top stack hs)
  obtain ⟨bound, hfold⟩ := foldlM_adds g.stackSet hall
  obtain ⟨stackSet', hadd, hrun⟩ := hfold [] Topped.empty
  refine ⟨bound, stackSet', fun fuel hfuel => ?_, hadd.topped, ?_⟩
  · have hrun' : g.stackSet.foldlM (acceptStack fuel g.rules c) [] = .ok stackSet' := hrun fuel hfuel
    rw [accept, hrun']
    rfl
  · ext w
    rw [hadd.words_iff]
    constructor
    · rintro (⟨stack, hmem, _⟩ | hw)
      · cases hmem
      · exact hw
    · exact .inr

/-- **After the code points `w` the stacks have the words that had `w` in front.** -/
theorem acceptAll_words (w : List UInt32) : ∀ {g : LlamaGrammar}, WfRules g.rules →
    (WellFounded fun m n => (cfg g.rules).LeftRef n m) → Topped g.rules g.stackSet →
    ∃ bound stackSet', (∀ fuel ≥ bound, acceptAll fuel g w = .ok ⟨g.rules, stackSet'⟩) ∧ Topped g.rules stackSet' ∧
      words g.rules stackSet' = (words g.rules g.stackSet).leftQuotient w := by
  induction w with
  | nil => exact fun _ _ h => ⟨0, _, fun _ _ => rfl, h, rfl⟩
  | cons c w ih =>
      intro g hw hwf h
      obtain ⟨bound, first, hfirst, htop, hwords⟩ := accept_words hw hwf h c
      obtain ⟨bound', last, hlast, htop', hwords'⟩ := ih (g := ⟨g.rules, first⟩) hw hwf htop
      refine ⟨max bound bound', last, fun fuel hfuel => ?_, htop', ?_⟩
      · rw [acceptAll, List.foldlM_cons, hfirst fuel (le_trans (le_max_left _ _) hfuel)]
        exact hlast fuel (le_trans (le_max_right _ _) hfuel)
      · show words g.rules last = _
        rw [hwords', hwords, ← Language.leftQuotient_append]
        rfl

/-- The set is empty only when no word is left, and the other way round where every alternate has a word. -/
theorem Topped.words_empty (hw : WfRules rules) (hprod : (cfg rules).Productive) {stackSet : Stacks}
    (hne : stackSet ≠ []) : ∃ v, v ∈ words rules stackSet := by
  obtain ⟨stack, hmem⟩ := List.exists_mem_of_ne_nil _ hne
  have hused : ∀ s ∈ form rules stack, (cfg rules).Used s := fun s hs => used_of_mem_form hw hs
  obtain ⟨v, hv⟩ := hprod.exists_mem_lang hused
  exact ⟨v, stack, hmem, hv⟩

end Accepting

end S2Moe.Grammar
