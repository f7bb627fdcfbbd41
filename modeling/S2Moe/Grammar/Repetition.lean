import S2Moe.Grammar.Numbered
import S2Moe.Lib.Repeat

/-!
# What is left of a repetition

The item stands in place as often as it must, and behind it a reference to synthesized rules for the optional turns.

* `sequence_append`, `alternates_optional` : the meaning of arrays behind each other, and of a rule that is one alternate or
nothing;
* `Fresh`, `KeepsNew` : the synthesized names are new, and a rule set has their rules as they were written;
* `Turning`, `Kept` : a parser between two turns of `recRules`, and what the turns leave as it was;
* `recRules_lang`, `recRules_star` : every turn allows one word more; the one turn of an unbounded repetition any number;
* `handleRepetitions_spec` : the words of what is left.
-/

namespace S2Moe.Grammar
open S2Moe.Lib

section Sequences

/-- The element starts no class of its own. -/
def Element.Modifies (e : Element) : Prop := e.type = .charRngUpper ∨ e.type = .charAlt

variable {es fs : List Element}

/-- A class does not reach beyond an element that starts one of its own. -/
theorem classRanges_append (hfs : ∀ u ∈ fs.head?, ¬ u.Modifies) : ∀ e es, classRanges (e :: (es ++ fs)) = classRanges
    (e :: es)
  | e, [] => by
    cases fs with
    | nil => rfl
    | cons u fs =>
        have hu := hfs u rfl
        unfold Element.Modifies at hu
        rw [not_or] at hu
        rw [List.nil_append, classRanges_single fs hu.1, if_neg hu.2]
        rfl
  | e, [u] => by
    by_cases hu : u.type = .charRngUpper
    · cases fs with
      | nil => rfl
      | cons a fs =>
          have ha := hfs a rfl
          unfold Element.Modifies at ha
          rw [not_or] at ha
          simp [classRanges, hu, ha.2]
    · rw [List.singleton_append, classRanges_single fs hu, classRanges_single [] hu]
      have ih := classRanges_append hfs u []
      rw [List.nil_append] at ih
      rw [ih]
  | e, u :: a :: es => by
    by_cases hu : u.type = .charRngUpper
    · have ih := classRanges_append hfs a es
      simp only [List.cons_append, classRanges, hu, if_true, ih]
    · have ih := classRanges_append hfs u (a :: es)
      rw [List.cons_append, List.cons_append] at *
      rw [classRanges_single _ hu, classRanges_single _ hu, ih]

/-- What comes behind part of an alternate. -/
theorem alternates_append (hes : Plain es) (hfs : ∀ u ∈ fs.head?, ¬ u.Modifies) :
    alternates (es ++ fs) = (sequence es ++ sequence fs) :: (alternates fs).tail := by
  induction es with
  | nil =>
      rw [List.nil_append, alternates_eq fs]
      rfl
  | cons e es ih =>
      obtain ⟨⟨halt, hend⟩, hes⟩ := List.forall_mem_cons.mp hes
      have ih := ih hes
      have hclass := classRanges_append hfs e es
      rw [List.cons_append]
      cases ht : e.type with
      | alt => exact absurd ht halt
      | endRule => exact absurd ht hend
      | ruleRef => rw [sequence_ruleRef es ht, alternates, ht, ih]; rfl
      | char => rw [sequence_char es ht, alternates, ht, ih, hclass]; rfl
      | charNot => rw [sequence_charNot es ht, alternates, ht, ih, hclass]; rfl
      | charAny => rw [sequence_charAny es ht, alternates, ht, ih]; rfl
      | charRngUpper => rw [sequence_modifier es (.inl ht), alternates, ht, ih]
      | charAlt => rw [sequence_modifier es (.inr ht), alternates, ht, ih]

theorem sequence_append (hes : Plain es) (hfs : ∀ u ∈ fs.head?, ¬ u.Modifies) :
    sequence (es ++ fs) = sequence es ++ sequence fs := by
  rw [sequence, alternates_append hes hfs]
  rfl

/-- A rule that is one alternate or nothing. -/
theorem alternates_optional (hes : Plain es) : alternates (es ++ [⟨.alt, 0⟩, ⟨.endRule, 0⟩]) = [sequence es, []] := by
  rw [alternates_append hes (fun u hu => by
    obtain rfl := Option.mem_some_iff.mp hu
    simp [Element.Modifies])]
  simp [sequence, alternates]

end Sequences

section Synthesized

/-- What is synthesized between two parsers: so many names, each with an id that no name before it has, while the symbols that
were there stay and the rules of their ids are not written. -/
structure Fresh (p p' : Parser) (n : Nat) : Prop where
  names : ∃ new, p'.symbolIds = p.symbolIds ++ new ∧ new.length = n
  ids : ∀ (i j : Nat) (a b : Text × UInt32), i < j → p.symbolIds.length ≤ j →
    p'.symbolIds[i]? = some a → p'.symbolIds[j]? = some b → a.2 ≠ b.2
  rules : ∀ kv ∈ p.symbolIds, p'.rules.getD kv.2.toNat [] = p.rules.getD kv.2.toNat []

/-- A rule set in which the rules of the new names stand as they were synthesized. -/
def KeepsNew (rules : Rules) (p p' : Parser) : Prop :=
  ∀ kv ∈ p'.symbolIds.drop p.symbolIds.length, rules[kv.2.toNat]? = p'.rules[kv.2.toNat]?

variable {p p' : Parser} {ruleName : Text}

theorem Numbered.nextId_toNat (hlt : p.symbolIds.length < 2 ^ 32) : p.nextId.toNat = p.symbolIds.length := by
  rw [Parser.nextId, UInt32.toNat_ofNat', Nat.mod_eq_of_lt hlt]

/-- As long as 32 bits can count the names, the next one is new. -/
theorem Numbered.generateSymbolId_append (h : Numbered p) (hp : ParserOk p) (hbase : '_'.toUInt8 ∉ ruleName)
    (hlt : p.symbolIds.length < 2 ^ 32) :
    p.generateSymbolId ruleName =
      (p.nextId, { p with symbolIds := p.symbolIds ++ [(ruleName ++ '_'.toUInt8 :: decimal p.nextId.toNat, p.nextId)] }) := by
  rcases generateSymbolId_eq hp hbase with ⟨-, hmem⟩ | heq
  · have hid := h.toNat_lt ⟨_, hmem⟩
    rw [Numbered.nextId_toNat hlt] at hid
    exact absurd hid (lt_irrefl _)
  · exact heq

theorem rules_addRule (p : Parser) (id : UInt32) (rule : Rule) (i : Nat) :
    (p.addRule id rule).rules[i]? =
      if i = id.toNat then some rule else if i < p.rules.length then p.rules[i]?
      else if i < id.toNat then some [] else none := by
  unfold Parser.addRule
  dsimp only
  rw [List.getElem?_set]
  by_cases hi : i = id.toNat
  · rw [if_pos hi, if_pos hi.symm, if_pos]
    rw [List.length_append, List.length_replicate]
    omega
  · rw [if_neg hi, if_neg (Ne.symm hi), List.getElem?_append, List.getElem?_replicate]
    by_cases hlt : i < p.rules.length
    · rw [if_pos hlt, if_pos hlt]
    · rw [if_neg hlt, if_neg hlt]
      by_cases hid : i < id.toNat
      · rw [if_pos hid, if_pos (by omega)]
      · rw [if_neg hid, if_neg (by omega)]

/-- A rule is written where none is. -/
theorem getD_addRule (p : Parser) {id : UInt32} (rule : Rule) {i : Nat} (hi : i ≠ id.toNat) :
    (p.addRule id rule).rules.getD i [] = p.rules.getD i [] := by
  rw [List.getD_eq_getElem?_getD, List.getD_eq_getElem?_getD, rules_addRule, if_neg hi]
  by_cases hlt : i < p.rules.length
  · rw [if_pos hlt]
  · rw [if_neg hlt, List.getElem?_eq_none (not_lt.mp hlt)]
    split <;> rfl

/-- The reference at the end of a synthesized rule. -/
def again (unbounded first : Bool) (id last : UInt32) : Rule :=
  if (!first || unbounded) = true then [⟨.ruleRef, if unbounded = true then id else last⟩] else []

/-- A turn of a repetition that gives out the next id. -/
def Parser.turn (p : Parser) (ruleName : Text) (rule : Rule) : Parser :=
  Parser.addRule { p with symbolIds := p.symbolIds ++ [(ruleName ++ '_'.toUInt8 :: decimal p.nextId.toNat, p.nextId)] }
    p.nextId rule

theorem Parser.turn_symbolIds (p : Parser) (ruleName : Text) (rule : Rule) : (p.turn ruleName rule).symbolIds =
    p.symbolIds ++ [(ruleName ++ '_'.toUInt8 :: decimal p.nextId.toNat, p.nextId)] := rfl

/-- Every turn does, as long as 32 bits can count the names. -/
theorem recRules_succ (hp : ParserOk p) (h : Numbered p) (hbase : '_'.toUInt8 ∉ ruleName)
    (hlt : p.symbolIds.length < 2 ^ 32) (prevRule : Rule) (unbounded : Bool) (n : Nat) (first : Bool) (last : UInt32) :
    recRules ruleName prevRule unbounded (n + 1) first last p =
      recRules ruleName prevRule unbounded n false p.nextId
        (p.turn ruleName (prevRule ++ again unbounded first p.nextId last ++ [⟨.alt, 0⟩, ⟨.endRule, 0⟩])) := by
  rw [recRules, h.generateSymbolId_append hp hbase hlt]
  rfl

/-- The parser between the turns of a repetition. -/
structure Turning (ruleName : Text) (prevRule : Rule) (first : Bool) (last : UInt32) (p : Parser) : Prop where
  base : '_'.toUInt8 ∉ ruleName
  ok : ParserOk p
  numbered : Numbered p
  prev : Piece p.symbolIds prevRule
  last : first = false → ∃ name, (name, last) ∈ p.symbolIds

variable {prevRule : Rule} {unbounded first : Bool} {last : UInt32}

theorem Turning.turn (h : Turning ruleName prevRule first last p) (hlt : p.symbolIds.length < 2 ^ 32) (unbounded : Bool) :
    Turning ruleName prevRule false p.nextId
      (p.turn ruleName (prevRule ++ again unbounded first p.nextId last ++ [⟨.alt, 0⟩, ⟨.endRule, 0⟩])) := by
  obtain ⟨hgen, hid⟩ := generateSymbolId_ok h.ok h.base
  have hagain : Piece (p.generateSymbolId ruleName).2.symbolIds
      (again unbounded first (p.generateSymbolId ruleName).1 last) :=
    again_piece hid fun hf => (h.last hf).imp fun _ hmem => hgen.ids hmem
  have hturn := recTurn_ok h.ok h.base h.prev hagain
  have hnum := (h.numbered.generateSymbolId h.ok h.base).addRule hid
    (prevRule ++ again unbounded first (p.generateSymbolId ruleName).1 last ++ [⟨.alt, 0⟩, ⟨.endRule, 0⟩])
  rw [h.numbered.generateSymbolId_append h.ok h.base hlt] at hid hturn hnum
  exact ⟨h.base, hturn.ok, hnum, h.prev.mono hturn.ids, fun _ => hid⟩

/-- What the turns of a repetition leave as it was: the symbols, the rules that are written, and the rules that are not. -/
structure Kept (p p' : Parser) (n : Nat) : Prop where
  names : ∃ new, p'.symbolIds = p.symbolIds ++ new ∧ new.length = n
  rules : ∀ i < p.rules.length, p'.rules[i]? = p.rules[i]?
  undefined : ∀ i < p.symbolIds.length, p'.rules.getD i [] = p.rules.getD i []

theorem Kept.refl (p : Parser) : Kept p p 0 := ⟨⟨[], (List.append_nil _).symm, rfl⟩, fun _ _ => rfl, fun _ _ => rfl⟩

/-- One turn, and those behind it. -/
theorem Kept.turn (h : Numbered p) (hlt : p.symbolIds.length < 2 ^ 32) {rule : Rule} {n : Nat}
    (hrest : Kept (p.turn ruleName rule) p' n) :
    Kept p p' (n + 1) ∧ p'.rules[p.symbolIds.length]? = some rule := by
  have hid := Numbered.nextId_toNat hlt
  have hrules := h.rules
  have hlen : (p.turn ruleName rule).rules.length = max p.rules.length (p.nextId.toNat + 1) := length_addRule _ _ rule
  refine ⟨⟨?_, fun i hi => ?_, fun i hi => ?_⟩, ?_⟩
  · obtain ⟨new, heq, hnew⟩ := hrest.names
    rw [Parser.turn_symbolIds, List.append_assoc] at heq
    exact ⟨_, heq, congrArg (· + 1) hnew⟩
  · rw [hrest.rules i (by omega), Parser.turn, rules_addRule, if_neg (by omega)]
    exact if_pos hi
  · rw [hrest.undefined i (by rw [Parser.turn_symbolIds, List.length_append]; omega)]
    exact getD_addRule _ rule (by omega)
  · rw [hrest.rules _ (by omega), Parser.turn, rules_addRule, if_pos hid.symm]

theorem recRules_kept (unbounded : Bool) : ∀ (n : Nat) (first : Bool) (last : UInt32) (p : Parser),
    Turning ruleName prevRule first last p → n = 0 ∨ p.symbolIds.length + n ≤ 2 ^ 32 →
      Kept p (recRules ruleName prevRule unbounded n first last p).2 n
  | 0, _, _, p, _, _ => Kept.refl p
  | n + 1, first, last, p, h, hle => by
    have hlt : p.symbolIds.length < 2 ^ 32 := by omega
    rw [recRules_succ h.ok h.numbered h.base hlt]
    refine (Kept.turn h.numbered hlt (recRules_kept unbounded n false p.nextId _ (h.turn hlt unbounded) ?_)).1
    rw [Parser.turn_symbolIds, List.length_append, List.length_singleton]
    omega

/-- The rule of the first of several turns. -/
theorem recRules_first (h : Turning ruleName prevRule first last p) (n : Nat) (hle : p.symbolIds.length + (n + 1) ≤ 2 ^ 32) :
    (recRules ruleName prevRule unbounded (n + 1) first last p).2.rules[p.symbolIds.length]? =
      some (prevRule ++ again unbounded first p.nextId last ++ [⟨.alt, 0⟩, ⟨.endRule, 0⟩]) := by
  have hlt : p.symbolIds.length < 2 ^ 32 := by omega
  rw [recRules_succ h.ok h.numbered h.base hlt]
  refine (Kept.turn h.numbered hlt (recRules_kept unbounded n false p.nextId _ (h.turn hlt unbounded) ?_)).2
  rw [Parser.turn_symbolIds, List.length_append, List.length_singleton]
  omega

theorem Piece.not_modifies {ids : Ids} {es : List Element} (h : Piece ids es) : ∀ u ∈ es.head?, ¬ u.Modifies := by
  intro u hu
  cases es with
  | nil => cases hu
  | cons e es =>
      obtain rfl := Option.mem_some_iff.mp hu
      have hadj := (List.isChain_cons_cons.mp h.chain).1
      rintro (ht | ht)
      · simpa using hadj.1 ht
      · simpa using hadj.2 ht

theorem again_plain (unbounded first : Bool) (id last : UInt32) : Plain (again unbounded first id last) := by
  unfold again
  split
  · exact .single (by simp)
  · exact .nil

/-- The alternates of a synthesized rule. -/
theorem alternates_turn (hprev : Plain prevRule) (unbounded first : Bool) (id last : UInt32) :
    alternates (prevRule ++ again unbounded first id last ++ [⟨.alt, 0⟩, ⟨.endRule, 0⟩]) =
      [sequence prevRule ++ sequence (again unbounded first id last), []] := by
  rw [alternates_optional (hprev.append (again_plain _ _ _ _)), sequence_append hprev]
  intro u hu
  unfold again at hu
  split at hu
  · obtain rfl := Option.mem_some_iff.mp hu
    simp [Element.Modifies]
  · cases hu

/-- The turns of a bounded repetition: one word more at most by each. -/
theorem recRules_lang (hprev : Plain prevRule) (rules : Rules) : ∀ (n : Nat) (first : Bool) (last : UInt32) (p : Parser)
    (m : Nat),
    Turning ruleName prevRule first last p → n = 0 ∨ p.symbolIds.length + n ≤ 2 ^ 32 →
      (∀ i, p.symbolIds.length ≤ i → i < p.symbolIds.length + n →
        rules[i]? = (recRules ruleName prevRule false n first last p).2.rules[i]?) →
      (cfg rules).lang (sequence (again false first last last)) = repeats ((cfg rules).lang (sequence prevRule)) 0 (some m) →
      (cfg rules).lang (sequence (again false (first && decide (n = 0))
        (recRules ruleName prevRule false n first last p).1 (recRules ruleName prevRule false n first last p).1)) =
          repeats ((cfg rules).lang (sequence prevRule)) 0 (some (m + n))
  | 0, first, last, p, m, _, _, _, hlast => by
    rw [decide_eq_true rfl, Bool.and_true]
    exact hlast
  | n + 1, first, last, p, m, h, hle, hkeep, hlast => by
    have hlt : p.symbolIds.length < 2 ^ 32 := by omega
    have hlen : (p.turn ruleName (prevRule ++ again false first p.nextId last ++
      [⟨.alt, 0⟩, ⟨.endRule, 0⟩])).symbolIds.length =
        p.symbolIds.length + 1 := by
      rw [Parser.turn_symbolIds, List.length_append, List.length_singleton]
    have hrule : rules[p.symbolIds.length]? =
        some (prevRule ++ again false first p.nextId last ++ [⟨.alt, 0⟩, ⟨.endRule, 0⟩]) := by
      rw [hkeep _ le_rfl (by omega), recRules_first h n (by omega)]
    have halts : (cfg rules).alts p.nextId.toNat = [sequence prevRule ++ sequence (again false first p.nextId last), []] := by
      rw [Numbered.nextId_toNat hlt]
      simp only [cfg, hrule]
      exact alternates_turn hprev _ _ _ _
    have hid : (cfg rules).lang (sequence (again false false p.nextId p.nextId)) =
        repeats ((cfg rules).lang (sequence prevRule)) 0 (some (m + 1)) := by
      have hseq : sequence (again false false p.nextId p.nextId) = [.ref p.nextId.toNat] := rfl
      rw [hseq, Cfg.lang_optional halts, Cfg.lang_append, ← repeats_succ, ← hlast]
      rfl
    rw [recRules_succ h.ok h.numbered h.base hlt] at hkeep ⊢
    have hrest := recRules_lang hprev rules n false p.nextId _ (m + 1) (h.turn hlt false) (by omega)
      (fun i hi hi' => hkeep i (by omega) (by omega)) hid
    rw [Bool.false_and] at hrest
    rw [decide_eq_false (Nat.succ_ne_zero n), Bool.and_false, hrest, Nat.add_assoc, Nat.add_comm 1 n]

/-- The one turn of an unbounded repetition. -/
theorem recRules_star (hprev : Plain prevRule) {rules : Rules} (h : Turning ruleName prevRule true last p)
    (hle : p.symbolIds.length + 1 ≤ 2 ^ 32)
    (hkeep : rules[p.symbolIds.length]? = (recRules ruleName prevRule true 1 true last p).2.rules[p.symbolIds.length]?) :
    (cfg rules).lang [.ref (recRules ruleName prevRule true 1 true last p).1.toNat] =
      repeats ((cfg rules).lang (sequence prevRule)) 0 none := by
  have hlt : p.symbolIds.length < 2 ^ 32 := by omega
  rw [recRules_first h 0 hle] at hkeep
  rw [recRules_succ h.ok h.numbered h.base hlt, repeats_none]
  apply Cfg.lang_star
  show (cfg rules).alts p.nextId.toNat = _
  rw [Numbered.nextId_toNat hlt]
  simp only [cfg, hkeep]
  rw [alternates_turn hprev]
  show _ = [_ ++ [Sym.ref (p.nextId).toNat], []]
  rfl

/-- How many rules are synthesized. -/
def turns (minTimes maxTimes : Int) : Nat := (if maxTimes < 0 then 1 else maxTimes - minTimes).toNat

/-- How often the item stands in place. -/
def leading (minTimes : Int) : Nat := if minTimes = 0 then 0 else (max 1 minTimes).toNat

/-- How many more words the synthesized rules allow. -/
def trailing (minTimes maxTimes : Int) : Option Nat := if maxTimes < 0 then none else some (maxTimes - minTimes).toNat

theorem sequence_replicate {ids : Ids} {es : List Element} (h : Piece ids es) (hes : Plain es) (n : Nat) :
    sequence (List.replicate n es).flatten = (List.replicate n (sequence es)).flatten := by
  induction n with
  | zero => rfl
  | succ n ih =>
      rw [List.replicate_succ, List.flatten_cons, sequence_append hes (h.replicate n).not_modifies, ih]
      rfl

/-- What stands in place is so many copies. -/
theorem leading_eq (minTimes : Int) (sym : Rule) :
    (if minTimes = 0 then [] else sym ++ (List.replicate (minTimes - 1).toNat sym).flatten) =
      (List.replicate (leading minTimes) sym).flatten := by
  unfold leading
  by_cases h : minTimes = 0
  · rw [if_pos h, if_pos h]
    rfl
  · rw [if_neg h, if_neg h, show (max 1 minTimes).toNat = (minTimes - 1).toNat + 1 by omega, List.replicate_succ,
      List.flatten_cons]

/-- What `handle_repetitions` leaves: the words of the item, as often as the numbers say that it was given. -/
theorem handleRepetitions_spec (hbase : '_'.toUInt8 ∉ ruleName) {minTimes maxTimes : Int} {s s' : SeqState} (h : Counted s)
    (hroom : turns minTimes maxTimes = 0 ∨ s.parser.symbolIds.length + turns minTimes maxTimes ≤ 2 ^ 32)
    (hrun : handleRepetitions ruleName minTimes maxTimes s = .ok s') :
    s'.rule = s.rule ∧ Kept s.parser s'.parser (turns minTimes maxTimes) ∧
      ∀ rules : Rules, (∀ i, s.parser.symbolIds.length ≤ i → i < s.parser.symbolIds.length + turns minTimes maxTimes →
          rules[i]? = s'.parser.rules[i]?) →
        (cfg rules).lang (sequence s'.sym) = repeats ((cfg rules).lang (sequence s.sym)) (leading minTimes)
          ((trailing minTimes maxTimes).map (leading minTimes + ·)) := by
  have hturning : Turning ruleName s.sym true 0 s.parser := ⟨hbase, h.ok.parser, h.numbered, h.ok.sym, by simp⟩
  rw [handleRepetitions] at hrun
  split at hrun
  · cases hrun
  cases hrun
  dsimp only
  rw [leading_eq]
  refine ⟨rfl, recRules_kept _ _ _ _ _ hturning hroom, fun rules hkeep => ?_⟩
  rw [← pow_mul_repeats, ← Cfg.lang_replicate, ← sequence_replicate h.ok.sym h.plain]
  have hcopies : Plain (List.replicate (leading minTimes) s.sym).flatten := h.plain.replicate _
  have htail : ∀ id : UInt32, ∀ u ∈ ([⟨.ruleRef, id⟩] : List Element).head?, ¬ u.Modifies := by
    intro id u hu
    obtain rfl := Option.mem_some_iff.mp hu
    simp [Element.Modifies]
  unfold turns at hroom hkeep
  unfold trailing
  by_cases hneg : maxTimes < 0
  · -- one rule that refers to itself
    simp only [hneg, if_true, decide_true] at hroom hkeep ⊢
    rw [if_pos (by decide), sequence_append hcopies (htail _), Cfg.lang_append]
    congr 1
    exact recRules_star h.plain hturning (by simpa using hroom) (hkeep _ le_rfl (by simp))
  · simp only [hneg, if_false, decide_false] at hroom hkeep ⊢
    have hlang := recRules_lang h.plain rules (maxTimes - minTimes).toNat true 0 s.parser 0 hturning hroom hkeep
      (by rw [repeats_zero]; exact Cfg.lang_nil_eq)
    rw [Nat.zero_add] at hlang
    rw [← hlang]
    by_cases hpos : maxTimes - minTimes > 0
    · rw [if_pos hpos, sequence_append hcopies (htail _), Cfg.lang_append, decide_eq_false (by omega)]
      rfl
    · rw [if_neg hpos, List.append_nil, decide_eq_true (by omega)]
      exact (mul_one _).symm.trans (congrArg _ Cfg.lang_nil_eq.symm)

end Synthesized

end S2Moe.Grammar
