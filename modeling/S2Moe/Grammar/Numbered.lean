import S2Moe.Grammar.Parsed

/-!
# The ids of a grammar

Every name takes the number of the names before it as its id, and a rule is written at an id that was given out.

* `Plain` : part of one alternate; the last symbol of a sequence is always such;
* `Numbered` : the ids are 0, 1, 2 and so on, as far as 32 bits go, and there are no more rules than ids;
* `Counted` : a sequence that is being read, with both; every level of the grammar keeps it (`parseItem_counted`,
`parseAlternates_numbered`, `parseRule_numbered`).
-/

namespace S2Moe.Grammar

open Lib (bind_eq_ok map_eq_ok)

section Plain

/-- Part of one alternate. -/
def Plain (es : List Element) : Prop := ∀ e ∈ es, e.type ≠ .alt ∧ e.type ≠ .endRule

theorem Plain.append {es fs : List Element} (hes : Plain es) (hfs : Plain fs) : Plain (es ++ fs) := by
  intro e he
  rcases List.mem_append.mp he with he | he
  · exact hes e he
  · exact hfs e he

theorem Plain.replicate {es : List Element} (h : Plain es) (n : Nat) : Plain (List.replicate n es).flatten := by
  intro e he
  obtain ⟨l, hl, he⟩ := List.mem_flatten.mp he
  rw [List.eq_of_mem_replicate hl] at he
  exact h e he

theorem Plain.nil : Plain [] := fun _ he => absurd he List.not_mem_nil

theorem Plain.single {e : Element} (h : e.type ≠ .alt ∧ e.type ≠ .endRule) : Plain [e] := by
  intro u hu
  rw [List.mem_singleton.mp hu]
  exact h

theorem ClassPiece.plain {es : List Element} (h : ClassPiece es) : Plain es := by
  intro e he
  rcases h.chars e he with ht | ht | ht | ht <;> simp [ht]

end Plain

section Numbers

/-- The ids are given out in order. -/
structure Numbered (p : Parser) : Prop where
  ids : p.symbolIds.map Prod.snd = (List.range p.symbolIds.length).map UInt32.ofNat
  rules : p.rules.length ≤ p.symbolIds.length

variable {p p' : Parser} {ruleName : Text}

theorem numbered_empty : Numbered ⟨[], []⟩ := ⟨rfl, le_rfl⟩

theorem Numbered.getElem (h : Numbered p) {j : Nat} {kv : Text × UInt32} (hj : p.symbolIds[j]? = some kv) :
    kv.2 = UInt32.ofNat j := by
  have hget := congrArg (fun l => l[j]?) h.ids
  have hlt := (List.getElem?_eq_some_iff.mp hj).1
  simp only [List.getElem?_map, hj, Option.map_some, List.getElem?_range hlt, Option.some.injEq] at hget
  exact hget

/-- An id that was given out stands for one of the symbols. -/
theorem Numbered.toNat_lt (h : Numbered p) {id : UInt32} (hid : ∃ name, (name, id) ∈ p.symbolIds) :
    id.toNat < p.symbolIds.length := by
  obtain ⟨name, hmem⟩ := hid
  obtain ⟨j, hj⟩ := List.getElem?_of_mem hmem
  have hid : id = UInt32.ofNat j := h.getElem hj
  have hlt := (List.getElem?_eq_some_iff.mp hj).1
  rw [hid, UInt32.toNat_ofNat']
  exact (Nat.mod_le j _).trans_lt hlt

theorem Numbered.addName (h : Numbered p) (name : Text) :
    Numbered { p with symbolIds := p.symbolIds ++ [(name, p.nextId)] } := by
  constructor
  · rw [List.map_append, h.ids, List.length_append, List.length_singleton, List.range_succ, List.map_append]
    rfl
  · rw [List.length_append]
    exact h.rules.trans (Nat.le_add_right _ _)

theorem Numbered.getSymbolId (h : Numbered p) (name : Text) : Numbered (p.getSymbolId name).2 := by
  rw [Parser.getSymbolId]
  split
  · exact h
  · exact h.addName name

theorem Numbered.generateSymbolId (h : Numbered p) (hp : ParserOk p) (hbase : '_'.toUInt8 ∉ ruleName) :
    Numbered (p.generateSymbolId ruleName).2 := by
  rcases generateSymbolId_eq hp hbase with ⟨heq, -⟩ | heq
  · rw [heq]
    exact h
  · rw [heq]
    exact h.addName _

theorem length_addRule (p : Parser) (id : UInt32) (rule : Rule) :
    (p.addRule id rule).rules.length = max p.rules.length (id.toNat + 1) := by
  unfold Parser.addRule
  rw [List.length_set, List.length_append, List.length_replicate]
  omega

theorem Numbered.addRule (h : Numbered p) {id : UInt32} (hid : ∃ name, (name, id) ∈ p.symbolIds) (rule : Rule) :
    Numbered (p.addRule id rule) := by
  refine ⟨h.ids, ?_⟩
  have hlt := h.toNat_lt hid
  have hle := h.rules
  rw [length_addRule]
  exact max_le hle hlt

/-- The rules of a repetition, as far as the numbers go. -/
theorem Numbered.recRules (hbase : '_'.toUInt8 ∉ ruleName) {prevRule : Rule} (unbounded : Bool) :
    ∀ (n : Nat) (first : Bool) (last : UInt32) (p : Parser), ParserOk p → Numbered p → Piece p.symbolIds prevRule →
      (first = false → ∃ name, (name, last) ∈ p.symbolIds) →
      Numbered (recRules ruleName prevRule unbounded n first last p).2
  | 0, _, _, _, _, h, _, _ => h
  | n + 1, first, last, p, hp, h, hprev, hlast => by
    obtain ⟨hgen, hid⟩ := generateSymbolId_ok hp hbase
    rw [Grammar.recRules]
    dsimp only
    have hturn := recTurn_ok hp hbase hprev
      (@again_piece _ unbounded _ _ _ hid fun hf => (hlast hf).imp fun _ hmem => hgen.ids hmem)
    exact Numbered.recRules hbase unbounded n false (p.generateSymbolId ruleName).1 _ hturn.ok
      ((h.generateSymbolId hp hbase).addRule hid _) (hprev.mono hturn.ids) fun _ => hid

/-- What the number of the ids promises of a part of the text. -/
structure Counted (s : SeqState) : Prop where
  ok : SeqOk s
  numbered : Numbered s.parser
  plain : Plain s.sym

theorem parseLiteral_plain : ∀ (fuel : Nat) {pos pos' : Text} {sym sym' : Rule}, Plain sym →
    parseLiteral fuel pos sym = .ok (pos', sym') → Plain sym'
  | 0, _, _, _, _, _, hrun => by cases hrun
  | fuel + 1, pos, pos', sym, sym', h, hrun => by
    rw [parseLiteral] at hrun
    split at hrun
    · cases hrun
      exact h
    · split at hrun
      · cases hrun
      · obtain ⟨⟨c, pos⟩, _, hrun⟩ := bind_eq_ok hrun
        exact parseLiteral_plain fuel (h.append (.single (by simp))) hrun

theorem handleRepetitions_counted (hbase : '_'.toUInt8 ∉ ruleName) {minTimes maxTimes : Int} {s s' : SeqState}
    (h : Counted s) (hrun : handleRepetitions ruleName minTimes maxTimes s = .ok s') : Counted s' := by
  have hok := (handleRepetitions_ok hbase h.ok hrun).1
  rw [handleRepetitions] at hrun
  split at hrun
  · cases hrun
  · cases hrun
    refine ⟨hok, Numbered.recRules hbase _ _ _ _ _ h.ok.parser h.numbered h.ok.sym (by simp), ?_⟩
    apply Plain.append
    · split
      · exact .nil
      · exact h.plain.append (h.plain.replicate _)
    · by_cases hpos : (if maxTimes < 0 then 1 else maxTimes - minTimes) > 0
      · rw [if_pos hpos]
        exact .single (by simp)
      · rw [if_neg hpos]
        exact .nil

/-- What a level that parses alternates promises of the numbers. -/
def AlternatesNumbered (alternates : UInt32 → Text → Parser → Except ParseError (Text × Parser)) : Prop :=
  ∀ (id : UInt32) (pos pos' : Text) (p p' : Parser), ParserOk p → Numbered p → (∃ name, (name, id) ∈ p.symbolIds) →
    alternates id pos p = .ok (pos', p') → Numbered p'

variable {alternates : UInt32 → Text → Parser → Except ParseError (Text × Parser)} {isNested : Bool}

theorem parseItem_counted (halt : AlternatesOk alternates) (hnum : AlternatesNumbered alternates)
    (hbase : '_'.toUInt8 ∉ ruleName) {s s' : SeqState} (h : Counted s)
    (hrun : parseItem alternates ruleName isNested s = .ok (some s')) : Counted s' := by
  have hok := (parseItem_ok halt hbase h.ok hrun).1
  have hrep : ∀ {minTimes maxTimes : Int} {pos : Text},
      some <$> handleRepetitions ruleName minTimes maxTimes { s with pos } = .ok (some s') → Counted s' := by
    intro minTimes maxTimes pos hmap
    obtain ⟨t, ht, heq⟩ := map_eq_ok hmap
    cases heq
    exact handleRepetitions_counted hbase (s := { s with pos }) ⟨⟨h.ok.parser, h.ok.rule, h.ok.sym⟩, h.numbered, h.plain⟩ ht
  rw [parseItem] at hrun
  dsimp only at hrun
  split at hrun
  · -- a literal string
    obtain ⟨⟨pos, sym⟩, hlit, hrun⟩ := bind_eq_ok hrun
    cases hrun
    exact ⟨hok, h.numbered, parseLiteral_plain _ .nil hlit⟩
  split at hrun
  · -- a class
    obtain ⟨⟨pos, sym⟩, hclass, hrun⟩ := bind_eq_ok hrun
    cases hrun
    exact ⟨hok, h.numbered, (parseClass_ok (by split <;> simp) _ .nil hclass).plain⟩
  split at hrun
  · -- a reference
    obtain ⟨⟨name, nameEnd⟩, hname, hrun⟩ := bind_eq_ok hrun
    cases hrun
    exact ⟨hok, h.numbered.getSymbolId name, .single (by simp)⟩
  split at hrun
  · -- a group
    obtain ⟨hext, hid⟩ := generateSymbolId_ok h.ok.parser hbase
    obtain ⟨⟨pos, parser⟩, hgroup, hrun⟩ := bind_eq_ok hrun
    have hgroup := hnum _ _ _ _ _ hext.ok (h.numbered.generateSymbolId h.ok.parser hbase) hid hgroup
    dsimp only at hrun
    split at hrun
    · cases hrun
    · cases hrun
      exact ⟨hok, hgroup, .single (by simp)⟩
  split at hrun
  · -- any character
    cases hrun
    exact ⟨hok, h.numbered, .single (by simp)⟩
  split at hrun
  · exact hrep hrun
  split at hrun
  · exact hrep hrun
  split at hrun
  · exact hrep hrun
  split at hrun
  · obtain ⟨⟨minTimes, maxTimes, pos⟩, _, hrun⟩ := bind_eq_ok hrun
    exact hrep hrun
  · cases hrun

theorem parseSequence_counted (halt : AlternatesOk alternates) (hnum : AlternatesNumbered alternates)
    (hbase : '_'.toUInt8 ∉ ruleName) : ∀ (fuel : Nat) {s s' : SeqState}, Counted s →
      parseSequence alternates ruleName isNested fuel s = .ok s' → Counted s'
  | 0, _, _, _, hrun => by cases hrun
  | fuel + 1, s, s', h, hrun => by
    rw [parseSequence] at hrun
    obtain ⟨r, hitem, hrun⟩ := bind_eq_ok hrun
    cases r with
    | none =>
        cases hrun
        exact h
    | some t => exact parseSequence_counted halt hnum hbase fuel (parseItem_counted halt hnum hbase h hitem) hrun

/-- Where a further alternate starts. -/
theorem Counted.alternate {s : SeqState} (h : Counted s) (pos : Text) :
    Counted ⟨pos, s.rule ++ s.sym ++ [⟨.alt, 0⟩], [], s.parser⟩ :=
  ⟨⟨h.ok.parser, (h.ok.rule.append h.ok.sym).append (Piece.single (by simp) (by simp)), .nil⟩, h.numbered, .nil⟩

theorem parseMore_counted (halt : AlternatesOk alternates) (hnum : AlternatesNumbered alternates)
    (hbase : '_'.toUInt8 ∉ ruleName) : ∀ (fuel : Nat) {s s' : SeqState}, Counted s →
      parseMore alternates ruleName isNested fuel s = .ok s' → Counted s'
  | 0, _, _, _, hrun => by cases hrun
  | fuel + 1, s, s', h, hrun => by
    rw [parseMore] at hrun
    split at hrun
    · obtain ⟨t, hseq, hrun⟩ := bind_eq_ok hrun
      exact parseMore_counted halt hnum hbase fuel (parseSequence_counted halt hnum hbase _ (h.alternate _) hseq) hrun
    · cases hrun
      exact h

/-- By induction on the depth. -/
theorem parseAlternates_numbered (hbase : '_'.toUInt8 ∉ ruleName) :
    ∀ (depth : Nat) (isNested : Bool), AlternatesNumbered (parseAlternates ruleName depth isNested)
  | 0, _ => fun _ _ _ _ _ _ _ _ hrun => by cases hrun
  | depth + 1, isNested => by
    intro id pos pos' p p' hp h hid hrun
    have halt := parseAlternates_ok hbase depth true
    have hnum := parseAlternates_numbered hbase depth true
    rw [parseAlternates] at hrun
    obtain ⟨s, hseq, hrun⟩ := bind_eq_ok hrun
    obtain ⟨t, hmore, hrun⟩ := bind_eq_ok hrun
    cases hrun
    have hstart : Counted ⟨pos, [], [], p⟩ := ⟨⟨hp, .nil, .nil⟩, h, .nil⟩
    have hs := parseSequence_counted halt hnum hbase _ hstart hseq
    have ht := parseMore_counted halt hnum hbase _ hs hmore
    -- the id of the rule was there from the start
    have hext := (parseSequence_ok halt hbase _ hstart.ok hseq).2.trans (parseMore_ok halt hbase _ hs.ok hmore).2
    exact ht.numbered.addRule (hid.imp fun _ hmem => hext.ids hmem) _

theorem parseRule_numbered {src pos : Text} (hp : ParserOk p) (h : Numbered p) (hrun : parseRule src p = .ok (pos, p')) :
    Numbered p' := by
  rw [parseRule] at hrun
  obtain ⟨⟨name, nameEnd⟩, hname, hrun⟩ := bind_eq_ok hrun
  have hbase := underscore_notMem_name hname
  obtain ⟨hext, hid⟩ := getSymbolId_ok hp hbase
  dsimp only at hrun
  split at hrun
  · cases hrun
  · obtain ⟨⟨pos', q⟩, halts, hrun⟩ := bind_eq_ok hrun
    have hq := parseAlternates_numbered hbase _ false _ _ _ _ _ hext.ok (h.getSymbolId name) hid halts
    dsimp only at hrun
    split at hrun
    · cases hrun
      exact hq
    split at hrun
    · cases hrun
      exact hq
    split at hrun
    · cases hrun
    · cases hrun
      exact hq

end Numbers

end S2Moe.Grammar
