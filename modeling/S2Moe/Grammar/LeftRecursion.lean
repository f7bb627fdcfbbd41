import S2Moe.Grammar.Stacks

/-!
# The check for left recursion

Before a grammar is used its rules are searched depth first along the references that can come first. A rule counts as
possibly empty only when one of its alternates has no elements at all, so that left recursion behind rules that become
empty through other rules is missed.

* `Marks` : the three tables of the search;
* `detectLeftRecursion`, `detectAny` : the search from one rule and from all;
* `FirstRef` : the references that the search follows;
* `detectAny_iff` : it finds nothing exactly where no rule can be reached from itself along these;
* `detectAny_initial` : so it finds nothing where there is no left recursion.
-/

namespace S2Moe.Grammar
open S2Moe.Lib

/-- `rules_visited`, `rules_in_progress` and `rules_may_be_empty`. -/
structure Marks where
  visited : List Bool
  inProgress : List Bool
  mayBeEmpty : List Bool

def Marks.initial (nRules : Nat) : Marks :=
  ⟨.replicate nRules false, .replicate nRules false, .replicate nRules false⟩

/-- The first loop: an alternate without elements. -/
def hasEmptyAlternate : Bool → List Element → Bool
  | _, [] => false
  | atRuleStart, e :: es =>
    if isEndOfSequence e then
      if atRuleStart then true else hasEmptyAlternate true es
    else hasEmptyAlternate false es

/-- The second loop: the references that can come first. -/
def detectRefs (detect : Nat → Marks → Except Fail (Bool × Marks)) :
    List Element → Bool → Marks → Except Fail (Bool × Marks)
  | [], _, marks => .ok (false, marks)
  | e :: es, recurseIntoNonterminal, marks =>
    if e.type = .ruleRef && recurseIntoNonterminal then do
      let (found, marks) ← detect e.value.toNat marks
      if found then .ok (true, marks)
      else detectRefs detect es (marks.mayBeEmpty.getD e.value.toNat false) marks
    else detectRefs detect es (isEndOfSequence e) marks

/-- `llama_grammar_detect_left_recursion`. -/
def detectLeftRecursion (rules : Rules) : Nat → Nat → Marks → Except Fail (Bool × Marks)
  | 0, _, _ => .error .fuel
  | fuel + 1, ruleIndex, marks =>
    if marks.inProgress.getD ruleIndex false then .ok (true, marks)
    else do
      let rule := rules.getD ruleIndex []
      let marks : Marks :=
        { marks with
          inProgress := marks.inProgress.set ruleIndex true
          mayBeEmpty := if hasEmptyAlternate true rule then marks.mayBeEmpty.set ruleIndex true else marks.mayBeEmpty }
      let (found, marks) ← detectRefs (detectLeftRecursion rules fuel) rule true marks
      if found then .ok (true, marks)
      else
        .ok (false,
          { marks with
            inProgress := marks.inProgress.set ruleIndex false
            visited := marks.visited.set ruleIndex true })

/-- The loop over all rules. A call marks its rule, so calls are nested no deeper than there are rules. -/
def detectAny (rules : Rules) : List Nat → Marks → Except Fail Bool
  | [], _ => .ok false
  | i :: is, marks =>
    if marks.visited.getD i false then detectAny rules is marks
    else do
      let (found, marks) ← detectLeftRecursion rules (rules.length + 1) i marks
      if found then .ok true else detectAny rules is marks

section Empty
variable {rules : Rules}

theorem nil_mem_alternates : ∀ (es : List Element) (b : Bool), Ends es → hasEmptyAlternate b es = true →
    (b = true ∧ sequence es = []) ∨ [] ∈ (alternates es).tail
  | [], _, h, _ => h.elim
  | e :: es, b, h, hempty => by
    have hpush : ∀ s, (push s (alternates es)).tail = (alternates es).tail := by
      intro s
      rw [alternates_eq es]
      rfl
    by_cases he : isEndOfSequence e = true
    · cases b with
      | true => exact .inl ⟨rfl, sequence_endOfSequence es he⟩
      | false =>
          rw [hasEmptyAlternate, if_pos he] at hempty
          simp only [Bool.false_eq_true, if_false] at hempty
          by_cases hend : e.type = .endRule
          · cases es with
            | nil => cases hempty
            | cons u es => exact absurd hend h.1
          · obtain ⟨_, _, _, hends⟩ := h.exists_cons hend
            have ht : e.type = .alt := by
              unfold isEndOfSequence at he
              cases ht : e.type <;> simp_all
            right
            rw [show (alternates (e :: es)).tail = alternates es by simp [alternates, ht], alternates_eq es]
            rcases nil_mem_alternates es true hends hempty with ⟨_, hseq⟩ | hmem
            · rw [hseq]
              exact List.mem_cons_self
            · exact List.mem_cons_of_mem _ hmem
    · rw [hasEmptyAlternate, if_neg he] at hempty
      have hend : e.type ≠ .endRule := fun h => he (by simp [isEndOfSequence, h])
      obtain ⟨_, _, _, hends⟩ := h.exists_cons hend
      rcases nil_mem_alternates es false hends hempty with ⟨hb, _⟩ | hmem
      · cases hb
      · right
        cases ht : e.type with
        | endRule => exact absurd ht hend
        | alt => exact absurd (by simp [isEndOfSequence, ht]) he
        | _ => simpa [alternates, ht, hpush] using hmem

/-- A rule with an alternate without elements has the empty word. -/
theorem derives_nil_of_hasEmptyAlternate {rule : Rule} {n : Nat} (hrule : rules[n]? = some rule) (h : Ends rule)
    (hempty : hasEmptyAlternate true rule = true) : (cfg rules).Derives [.ref n] [] := by
  have hmem : [] ∈ (cfg rules).alts n := by
    rw [alts_eq hrule, ← alternates_eq_map, alternates_eq rule]
    rcases nil_mem_alternates rule true h hempty with ⟨_, hseq⟩ | hmem
    · rw [hseq]
      exact List.mem_cons_self
    · exact List.mem_cons_of_mem _ hmem
  exact Cfg.lang_ref.mpr ⟨[], hmem, .nil⟩

end Empty

section First
variable {rules : Rules}

/-- `m` can come first in the alternate as the search sees it: only references to rules with an alternate without elements
stand before it. -/
def First (rules : Rules) (alt : List Symbol) (m : Nat) : Prop :=
  ∃ pre post, alt = pre ++ .ref m :: post ∧ ∀ s ∈ pre, ∃ k, s = .ref k ∧ hasEmptyAlternate true (rules.getD k []) = true

/-- The references that the search follows from a rule. -/
def FirstRef (rules : Rules) (n m : Nat) : Prop := ∃ alt ∈ (cfg rules).alts n, First rules alt m

theorem not_first_nil {m : Nat} : ¬ First rules [] m := by
  rintro ⟨pre, post, heq, _⟩
  cases pre <;> cases heq

theorem not_first_cls {k : CharClass} {alt : List Symbol} {m : Nat} : ¬ First rules (.cls k :: alt) m := by
  rintro ⟨pre, post, heq, hpre⟩
  cases pre with
  | nil => cases heq
  | cons s pre =>
      cases heq
      obtain ⟨_, hs, _⟩ := hpre _ List.mem_cons_self
      cases hs

theorem first_ref {k : Nat} {alt : List Symbol} {m : Nat} :
    First rules (.ref k :: alt) m ↔ m = k ∨ hasEmptyAlternate true (rules.getD k []) = true ∧ First rules alt m := by
  constructor
  · rintro ⟨pre, post, heq, hpre⟩
    cases pre with
    | nil =>
        cases heq
        exact .inl rfl
    | cons s pre =>
        cases heq
        obtain ⟨_, hs, hempty⟩ := hpre _ List.mem_cons_self
        cases hs
        exact .inr ⟨hempty, pre, post, rfl, fun s hs => hpre s (List.mem_cons_of_mem _ hs)⟩
  · rintro (rfl | ⟨hempty, pre, post, rfl, hpre⟩)
    · exact ⟨[], alt, rfl, by simp⟩
    · refine ⟨.ref k :: pre, post, rfl, fun s hs => ?_⟩
      rcases List.mem_cons.mp hs with rfl | hs
      · exact ⟨k, rfl, hempty⟩
      · exact hpre s hs

/-- What the search follows from an element on. -/
def RestRef (rules : Rules) (es : List Element) (recurse : Bool) (m : Nat) : Prop :=
  recurse = true ∧ First rules (sequence es) m ∨ ∃ alt ∈ (alternates es).tail, First rules alt m

theorem restRef_rule {rule : Rule} {n : Nat} (hrule : rules[n]? = some rule) (m : Nat) :
    RestRef rules rule true m ↔ FirstRef rules n m := by
  rw [RestRef, FirstRef, alts_eq hrule, ← alternates_eq_map, alternates_eq rule]
  simp

theorem tail_push (s : Symbol) (es : List Element) : (push s (alternates es)).tail = (alternates es).tail := by
  rw [alternates_eq es]
  rfl

theorem restRef_ruleRef {e : Element} (es : List Element) (he : e.type = .ruleRef) (m : Nat) :
    RestRef rules (e :: es) true m ↔
      m = e.value.toNat ∨ RestRef rules es (hasEmptyAlternate true (rules.getD e.value.toNat [])) m := by
  rw [RestRef, RestRef, sequence_ruleRef es he, first_ref, show alternates (e :: es) = _ from by rw [alternates, he]]
  simp only [tail_push, true_and, or_assoc]

theorem restRef_alt {e : Element} (es : List Element) (he : e.type = .alt) (recurse : Bool) (m : Nat) :
    RestRef rules (e :: es) recurse m ↔ RestRef rules es true m := by
  have hend : isEndOfSequence e = true := by simp [isEndOfSequence, he]
  have halts : (alternates (e :: es)).tail = sequence es :: (alternates es).tail := by
    rw [alternates, he, ← alternates_eq es]
    rfl
  rw [RestRef, RestRef, sequence_endOfSequence es hend, halts]
  simp [not_first_nil]

/-- A class, or a reference behind something that is not empty. -/
theorem restRef_other {e : Element} (es : List Element) (hend : isEndOfSequence e = false) {recurse : Bool}
    (he : recurse = true → e.type = .char ∨ e.type = .charNot ∨ e.type = .charAny) (m : Nat) :
    RestRef rules (e :: es) recurse m ↔ RestRef rules es false m := by
  have htail : (alternates (e :: es)).tail = (alternates es).tail := by
    unfold isEndOfSequence at hend
    cases ht : e.type <;> simp_all [alternates, tail_push]
  have hfirst : ¬ (recurse = true ∧ First rules (sequence (e :: es)) m) := by
    rintro ⟨hr, hfirst⟩
    rcases he hr with ht | ht | ht
    · rw [sequence_char es ht] at hfirst
      exact not_first_cls hfirst
    · rw [sequence_charNot es ht] at hfirst
      exact not_first_cls hfirst
    · rw [sequence_charAny es ht] at hfirst
      exact not_first_cls hfirst
  rw [RestRef, RestRef, htail]
  simp [hfirst]

theorem not_restRef_endRule {e : Element} (he : e.type = .endRule) (recurse : Bool) (m : Nat) :
    ¬ RestRef rules [e] recurse m := by
  have hend : isEndOfSequence e = true := by simp [isEndOfSequence, he]
  rw [RestRef, sequence_endOfSequence [] hend]
  simp [not_first_nil, alternates, he]

theorem wellFormed_of_alt {e : Element} {es : List Element} (he : e.type = .alt) (hends : Ends es)
    (hchain : List.IsChain Adj (e :: es)) : WellFormed es := by
  refine wellFormed_of_chain hends hchain fun u es' heq => ?_
  subst heq
  have hadj := (List.isChain_cons_cons.mp hchain).1
  constructor
  · intro hu
    simpa [he] using hadj.1 hu
  · intro hu
    simpa [he] using hadj.2 hu

end First

section Search
variable {rules : Rules}

/-- What the search keeps of its tables while the rules in progress are `busy`. -/
structure MarksOk (rules : Rules) (busy : List Bool) (marks : Marks) : Prop where
  busy : marks.inProgress = busy
  length : marks.mayBeEmpty.length = rules.length
  exact : ∀ n, marks.mayBeEmpty.getD n false = true → hasEmptyAlternate true (rules.getD n []) = true
  visited : ∀ n, marks.visited.getD n false = true → ¬ Relation.TransGen (FirstRef rules) n n

/-- No mark of an empty rule is taken back. -/
def Marks.Keeps (marks marks' : Marks) : Prop :=
  ∀ n, marks.mayBeEmpty.getD n false = true → marks'.mayBeEmpty.getD n false = true

theorem getD_set_true {l : List Bool} {i n : Nat} (h : (l.set i true).getD n false = true) :
    n = i ∨ l.getD n false = true := by
  by_cases hn : n = i
  · exact .inl hn
  · right
    simpa [List.getD_eq_getElem?_getD, List.getElem?_set, Ne.symm hn] using h

theorem getD_set_of_true {l : List Bool} {i n : Nat} (h : l.getD n false = true) : (l.set i true).getD n false = true := by
  have hn : n < l.length := by
    by_contra hn
    rw [List.getD_eq_getElem?_getD, List.getElem?_eq_none (by omega)] at h
    cases h
  by_cases hi : i = n
  · subst hi
    simp [List.getD_eq_getElem?_getD, hn]
  · simpa [List.getD_eq_getElem?_getD, List.getElem?_set, hi] using h

theorem set_set_false {l : List Bool} {i : Nat} (h : l.getD i false = false) : (l.set i true).set i false = l := by
  rw [List.set_set]
  apply List.ext_getElem?
  intro n
  rw [List.getElem?_set]
  split
  · subst n
    split
    · rename_i hlt
      simpa [List.getD_eq_getElem?_getD, List.getElem?_eq_getElem hlt] using h.symm
    · rw [List.getElem?_eq_none (by omega)]
  · rfl

/-- The tables when the search enters a rule. -/
def Marks.enter (marks : Marks) (n : Nat) (rule : Rule) : Marks :=
  { marks with
    inProgress := marks.inProgress.set n true
    mayBeEmpty := if hasEmptyAlternate true rule then marks.mayBeEmpty.set n true else marks.mayBeEmpty }

theorem MarksOk.enter {busy : List Bool} {marks : Marks} (hok : MarksOk rules busy marks) {n : Nat} {rule : Rule}
    (hrule : rules.getD n [] = rule) (hlt : n < rules.length) :
    MarksOk rules (busy.set n true) (marks.enter n rule) ∧ marks.Keeps (marks.enter n rule) ∧
      (hasEmptyAlternate true rule = true → (marks.enter n rule).mayBeEmpty.getD n false = true) := by
  rw [Marks.enter, hok.busy]
  by_cases hempty : hasEmptyAlternate true rule = true
  · have hlt' : n < marks.mayBeEmpty.length := hok.length ▸ hlt
    rw [if_pos hempty]
    refine ⟨⟨rfl, by rw [List.length_set, hok.length], fun m hm => ?_, hok.visited⟩, fun m hm => getD_set_of_true hm,
      fun _ => by rw [List.getD_eq_getElem?_getD, List.getElem?_set_self hlt']; rfl⟩
    rcases getD_set_true hm with rfl | hm
    · rw [hrule]
      exact hempty
    · exact hok.exact m hm
  · rw [if_neg hempty]
    exact ⟨⟨rfl, hok.length, hok.exact, hok.visited⟩, fun _ hm => hm, fun h => absurd h hempty⟩

/-- What a call for a rule tells: a rule that is `hit`, or none, and then the tables are kept. -/
structure Searched (rules : Rules) (busy : List Bool) (n : Nat) (hit clear : Prop) (marks : Marks)
    (r : Bool × Marks) : Prop where
  found : r.1 = true → hit
  ok : r.1 = false → MarksOk rules busy r.2
  keeps : r.1 = false → marks.Keeps r.2
  empty : r.1 = false → hasEmptyAlternate true (rules.getD n []) = true → r.2.mayBeEmpty.getD n false = true
  clear : r.1 = false → clear

/-- The references of a rule from an element on. -/
theorem detectRefs_spec {detect : Nat → Marks → Except Fail (Bool × Marks)} {busy : List Bool} (hit clear : Nat → Prop) :
    ∀ (es : List Element) (recurse : Bool) (marks : Marks), Ends es → List.IsChain Adj es →
      (recurse = true → WellFormed es) →
      (∀ m, RestRef rules es recurse m → ∀ marks, MarksOk rules busy marks →
        ∃ r, detect m marks = .ok r ∧ Searched rules busy m (hit m) (clear m) marks r) →
      MarksOk rules busy marks →
      ∃ r, detectRefs detect es recurse marks = .ok r ∧
        (r.1 = true → ∃ m, RestRef rules es recurse m ∧ hit m) ∧
        (r.1 = false → MarksOk rules busy r.2 ∧ marks.Keeps r.2 ∧ ∀ m, RestRef rules es recurse m → clear m)
  | [], _, _, h, _, _, _, _ => h.elim
  | e :: es, recurse, marks, hends, hchain, hwf, hdetect, hok => by
    by_cases hend : e.type = .endRule
    · -- nothing stands behind the end
      cases es with
      | nil =>
          refine ⟨(false, marks), by simp [detectRefs, hend], by simp, fun _ => ⟨hok, fun _ h => h, fun m hm => ?_⟩⟩
          exact absurd hm (not_restRef_endRule hend recurse m)
      | cons u es => exact absurd hend hends.1
    · obtain ⟨u, es', rfl, hends'⟩ := hends.exists_cons hend
      have hchain' := (List.isChain_cons_cons.mp hchain).2
      by_cases href : e.type = .ruleRef ∧ recurse = true
      · obtain ⟨ht, rfl⟩ := href
        have hrest : ∀ m, RestRef rules (e :: u :: es') true m ↔
            m = e.value.toNat ∨ RestRef rules (u :: es') (hasEmptyAlternate true (rules.getD e.value.toNat [])) m :=
          restRef_ruleRef (u :: es') ht
        obtain ⟨⟨found, marks'⟩, hrun, hcall⟩ := hdetect e.value.toNat ((hrest _).mpr (.inl rfl)) marks hok
        rw [detectRefs, if_pos (by simp [ht]), hrun]
        cases found with
        | true => exact ⟨(true, marks'), rfl, fun _ => ⟨_, (hrest _).mpr (.inl rfl), hcall.found rfl⟩, by simp⟩
        | false =>
            have hempty : marks'.mayBeEmpty.getD e.value.toNat false =
                hasEmptyAlternate true (rules.getD e.value.toNat []) := by
              rw [Bool.eq_iff_iff]
              exact ⟨(hcall.ok rfl).exact _, hcall.empty rfl⟩
            obtain ⟨r, hlast, hfound, hclear⟩ := detectRefs_spec hit clear (u :: es') _ marks' hends' hchain'
              (fun _ => (hwf rfl).tail (.inl ht))
              (fun m hm => hdetect m ((hrest m).mpr (.inr (hempty ▸ hm)))) (hcall.ok rfl)
            refine ⟨r, hlast, fun h => ?_, fun h => ?_⟩
            · obtain ⟨m, hm, hhit⟩ := hfound h
              exact ⟨m, (hrest m).mpr (.inr (hempty ▸ hm)), hhit⟩
            · obtain ⟨hok', hkeeps, hall⟩ := hclear h
              refine ⟨hok', fun n hn => hkeeps n (hcall.keeps rfl n hn), fun m hm => ?_⟩
              rcases (hrest m).mp hm with rfl | hm
              · exact hcall.clear rfl
              · exact hall m (hempty ▸ hm)
      · rw [detectRefs, if_neg (by simpa using href)]
        by_cases halt : e.type = .alt
        · have hrest : ∀ m, RestRef rules (e :: u :: es') recurse m ↔ RestRef rules (u :: es') true m :=
            restRef_alt (u :: es') halt recurse
          have hflag : isEndOfSequence e = true := by simp [isEndOfSequence, halt]
          rw [hflag]
          simp only [hrest] at hdetect ⊢
          exact detectRefs_spec hit clear (u :: es') true marks hends' hchain' (fun _ => wellFormed_of_alt halt hends' hchain)
            hdetect hok
        · have hflag : isEndOfSequence e = false := by
            unfold isEndOfSequence
            cases ht : e.type <;> simp_all
          have hclass : recurse = true → e.type = .char ∨ e.type = .charNot ∨ e.type = .charAny := by
            intro hr
            have hhead := (hwf hr).head
            cases ht : e.type <;> simp_all
          have hrest : ∀ m, RestRef rules (e :: u :: es') recurse m ↔ RestRef rules (u :: es') false m :=
            restRef_other (u :: es') hflag hclass
          rw [hflag]
          simp only [hrest] at hdetect ⊢
          exact detectRefs_spec hit clear (u :: es') false marks hends' hchain' (by simp) hdetect hok

theorem getD_replicate_false (n x : Nat) : (List.replicate n false).getD x false = false := by
  rw [List.getD_eq_getElem?_getD, List.getElem?_replicate]
  split <;> rfl

theorem getElem_of_getD_false {l : List Bool} {i : Nat} (h : l.getD i false = false) (hi : i < l.length) :
    l[i] = false := by
  simpa [List.getD_eq_getElem?_getD, List.getElem?_eq_getElem hi] using h

/-- A rule that can be reached and is in progress, or can be reached from itself. -/
def Caught (rules : Rules) (busy : List Bool) (n : Nat) : Prop :=
  ∃ x, Relation.ReflTransGen (FirstRef rules) n x ∧
    (busy.getD x false = true ∨ Relation.TransGen (FirstRef rules) x x)

theorem not_firstRef_of_none {n m : Nat} (hr : rules[n]? = none) : ¬ FirstRef rules n m := by
  rintro ⟨alt, hmem, _⟩
  rw [alts_none hr] at hmem
  cases hmem

/-- What is caught with a rule in progress is caught from there, or goes back to the rule. -/
theorem Caught.of_firstRef {busy : List Bool} {n m : Nat} (hm : FirstRef rules n m)
    (h : Caught rules (busy.set n true) m) : Caught rules busy n := by
  obtain ⟨x, hx, hbusy | hcycle⟩ := h
  · rcases getD_set_true hbusy with rfl | hbusy
    · exact ⟨x, .refl, .inr (Relation.TransGen.head' hm hx)⟩
    · exact ⟨x, hx.head hm, .inl hbusy⟩
  · exact ⟨x, hx.head hm, .inr hcycle⟩

/-- Nothing is caught from a rule when nothing is from what it refers to. -/
theorem not_caught {busy : List Bool} {n : Nat} (hn : busy.getD n false = false) (hlt : n < busy.length)
    (h : ∀ m, FirstRef rules n m → ¬ Caught rules (busy.set n true) m) : ¬ Caught rules busy n := by
  have hset : ∀ x, busy.getD x false = true → (busy.set n true).getD x false = true := fun _ => getD_set_of_true
  rintro ⟨x, hx, hxs⟩
  rcases Relation.ReflTransGen.cases_head hx with rfl | ⟨m, hm, hx⟩
  · rcases hxs with hbusy | hcycle
    · rw [hn] at hbusy
      cases hbusy
    · obtain ⟨m, hm, hback⟩ := Relation.TransGen.head'_iff.mp hcycle
      exact h m hm ⟨n, hback, .inl (by simp [List.getD_eq_getElem?_getD, hlt])⟩
  · exact h m hm ⟨x, hx, hxs.imp_left (hset x)⟩

/-- **The search from one rule**: it finds something exactly where a rule is caught, and leaves the rules in progress as they
were where it does not. -/
theorem detectLeftRecursion_spec (hw : ∀ rule ∈ rules, WellFormed rule) :
    ∀ (fuel n : Nat) (busy : List Bool) (marks : Marks), busy.length = rules.length → busy.count false < fuel →
      MarksOk rules busy marks →
      ∃ r, detectLeftRecursion rules fuel n marks = .ok r ∧
        Searched rules busy n (Caught rules busy n) (¬ Caught rules busy n) marks r := by
  intro fuel
  induction fuel with
  | zero => exact fun _ _ _ _ h => absurd h (Nat.not_lt_zero _)
  | succ fuel ih =>
      intro n busy marks hlen hcount hok
      rw [detectLeftRecursion, hok.busy]
      cases hn : busy.getD n false with
      | true => exact ⟨(true, marks), rfl, fun _ => ⟨n, .refl, .inl hn⟩, by simp, by simp, by simp, by simp⟩
      | false =>
          rw [if_neg (by simp)]
          cases hr : rules[n]? with
          | none =>
              -- no such rule: nothing is searched and nothing is marked
              have hrule : rules.getD n [] = [] := by rw [List.getD_eq_getElem?_getD, hr]; rfl
              have hclear : ¬ Caught rules busy n := by
                rintro ⟨x, hx, hxs⟩
                rcases Relation.ReflTransGen.cases_head hx with rfl | ⟨m, hm, _⟩
                · rcases hxs with hbusy | hcycle
                  · rw [hn] at hbusy
                    cases hbusy
                  · obtain ⟨m, hm, _⟩ := Relation.TransGen.head'_iff.mp hcycle
                    exact not_firstRef_of_none hr hm
                · exact not_firstRef_of_none hr hm
              rw [hrule]
              refine ⟨_, rfl, by simp, fun _ => ⟨set_set_false hn, hok.length, hok.exact, fun m hm => ?_⟩,
                fun _ _ h => h, fun _ h => ?_, fun _ => hclear⟩
              · rcases getD_set_true hm with rfl | hm
                · exact fun hcycle => hclear ⟨m, .refl, .inr hcycle⟩
                · exact hok.visited m hm
              · rw [hrule] at h
                cases h
          | some rule =>
              have hlt : n < rules.length := (List.getElem?_eq_some_iff.mp hr).1
              have hrule : rules.getD n [] = rule := by rw [List.getD_eq_getElem?_getD, hr]; rfl
              have hwf := hw rule (List.mem_of_getElem? hr)
              rw [hrule]
              have hcount' : (busy.set n true).count false < fuel := by
                have hpos := List.count_pos_iff.mpr (List.mem_of_getElem (h := by omega)
                  (getElem_of_getD_false hn (by omega)))
                rw [List.count_set (by omega), getElem_of_getD_false hn (by omega)]
                simp only [beq_self_eq_true, if_true]
                simp
                omega
              obtain ⟨hok', hkeeps, hempty⟩ := hok.enter hrule hlt
              obtain ⟨⟨found, marks'⟩, hrun, hfound, hclear⟩ := detectRefs_spec (Caught rules (busy.set n true))
                (fun m => ¬ Caught rules (busy.set n true) m) rule true (marks.enter n rule) hwf.ends
                hwf.chain.tail (fun _ => hwf)
                (fun m _ marks hmarks => ih m (busy.set n true) marks (by rw [List.length_set, hlen]) hcount' hmarks) hok'
              simp only [restRef_rule hr] at hfound hclear
              rw [Marks.enter, hok.busy] at hrun
              dsimp only
              rw [hrun]
              cases found with
              | true =>
                  obtain ⟨m, hm, hcaught⟩ := hfound rfl
                  exact ⟨(true, marks'), rfl, fun _ => hcaught.of_firstRef hm, by simp, by simp, by simp, by simp⟩
              | false =>
                  obtain ⟨hok'', hkeeps', hall⟩ := hclear rfl
                  have hnot := not_caught hn (hlen ▸ hlt) hall
                  refine ⟨(false, ⟨marks'.visited.set n true, marks'.inProgress.set n false, marks'.mayBeEmpty⟩),
                    rfl, by simp,
                    fun _ => ⟨?_, hok''.length, hok''.exact, fun m hm => ?_⟩, fun _ m hm => hkeeps' m (hkeeps m hm),
                    fun _ h => hkeeps' n (hempty (hrule ▸ h)), fun _ => hnot⟩
                  · show marks'.inProgress.set n false = busy
                    rw [hok''.busy, set_set_false hn]
                  · rcases getD_set_true hm with rfl | hm
                    · exact fun hcycle => hnot ⟨m, .refl, .inr hcycle⟩
                    · exact hok''.visited m hm

theorem not_caught_idle {k n : Nat} : Caught rules (.replicate k false) n → ∃ x, Relation.TransGen (FirstRef rules) x x := by
  rintro ⟨x, _, hbusy | hcycle⟩
  · rw [getD_replicate_false] at hbusy
    cases hbusy
  · exact ⟨x, hcycle⟩

theorem detectAny_spec (hw : ∀ rule ∈ rules, WellFormed rule) :
    ∀ (is : List Nat) (marks : Marks), MarksOk rules (.replicate rules.length false) marks →
      ∃ found, detectAny rules is marks = .ok found ∧
        (found = true → ∃ x, Relation.TransGen (FirstRef rules) x x) ∧
        (found = false → ∀ i ∈ is, ¬ Relation.TransGen (FirstRef rules) i i)
  | [], _, _ => ⟨false, rfl, by simp, by simp⟩
  | i :: is, marks, hok => by
    rw [detectAny]
    split
    · rename_i hvisited
      obtain ⟨found, hrun, hfound, hclear⟩ := detectAny_spec hw is marks hok
      refine ⟨found, hrun, hfound, fun h j hj => ?_⟩
      rcases List.mem_cons.mp hj with rfl | hj
      · exact hok.visited j hvisited
      · exact hclear h j hj
    · obtain ⟨⟨found, marks'⟩, hrun, hcall⟩ := detectLeftRecursion_spec hw (rules.length + 1) i _ marks
        List.length_replicate (by simp) hok
      rw [hrun]
      cases found with
      | true => exact ⟨true, rfl, fun _ => not_caught_idle (hcall.found rfl), by simp⟩
      | false =>
          obtain ⟨found, hrest, hfound, hclear⟩ := detectAny_spec hw is marks' (hcall.ok rfl)
          refine ⟨found, hrest, hfound, fun h j hj => ?_⟩
          rcases List.mem_cons.mp hj with rfl | hj
          · exact fun hcycle => hcall.clear rfl ⟨j, .refl, .inr hcycle⟩
          · exact hclear h j hj

/-- **The check of all rules** passes exactly where no rule can be reached from itself along the references that the search
follows. -/
theorem detectAny_iff (hw : ∀ rule ∈ rules, WellFormed rule) :
    detectAny rules (List.range rules.length) (.initial rules.length) = .ok false ↔
      ∀ n, ¬ Relation.TransGen (FirstRef rules) n n := by
  have hnone : ∀ n, (List.replicate rules.length false).getD n false = false := getD_replicate_false _
  obtain ⟨found, hrun, hfound, hclear⟩ := detectAny_spec hw (List.range rules.length) (.initial rules.length)
    ⟨rfl, List.length_replicate, fun n hn => absurd (hnone n ▸ hn) Bool.false_ne_true,
      fun n hn => absurd (hnone n ▸ hn) Bool.false_ne_true⟩
  rw [hrun]
  constructor
  · intro h n hcycle
    obtain ⟨m, hm, _⟩ := Relation.TransGen.head'_iff.mp hcycle
    have hlt : n < rules.length := by
      by_contra hge
      exact not_firstRef_of_none (List.getElem?_eq_none (by omega)) hm
    exact hclear (Except.ok.inj h) n (List.mem_range.mpr hlt) hcycle
  · intro h
    cases found with
    | false => rfl
    | true =>
        obtain ⟨x, hx⟩ := hfound rfl
        exact absurd hx (h x)

/-- What the search follows can come first. -/
theorem FirstRef.leftRef (hw : ∀ rule ∈ rules, WellFormed rule) {n m : Nat} (h : FirstRef rules n m) :
    (cfg rules).LeftRef n m := by
  obtain ⟨alt, hmem, pre, post, rfl, hpre⟩ := h
  refine ⟨pre, post, hmem, ?_⟩
  clear hmem
  induction pre with
  | nil => exact .nil
  | cons s pre ih =>
      obtain ⟨k, rfl, hempty⟩ := hpre s List.mem_cons_self
      have hrest := ih fun t ht => hpre t (List.mem_cons_of_mem _ ht)
      cases hr : rules[k]? with
      | none =>
          rw [List.getD_eq_getElem?_getD, hr] at hempty
          cases hempty
      | some rule =>
          rw [List.getD_eq_getElem?_getD, hr] at hempty
          have hfirst := derives_nil_of_hasEmptyAlternate hr (hw rule (List.mem_of_getElem? hr)).ends hempty
          exact hfirst.append hrest

/-- **Rules without left recursion pass the check.** -/
theorem detectAny_initial (hw : ∀ rule ∈ rules, WellFormed rule) (hleft : (cfg rules).NoLeftRecursion) :
    detectAny rules (List.range rules.length) (.initial rules.length) = .ok false :=
  (detectAny_iff hw).mpr fun n hn => hleft n (hn.lift id fun _ _ h => h.leftRef hw)

end Search

end S2Moe.Grammar
