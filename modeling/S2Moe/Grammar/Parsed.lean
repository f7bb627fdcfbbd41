import S2Moe.Grammar.Parser
import S2Moe.Grammar.Stacks
import S2Moe.Lib.Run
import Mathlib.Data.List.TakeWhile
import Mathlib.Tactic.IntervalCases

/-!
# What the parser promises

* `Piece` : part of a rule that can stand anywhere in one;
* `ParserOk` : the rules so far are well formed, they refer to ids that were given out, and a name that was made up spells its
  id, so that no id is ever lost;
* `Extends` : a parser that is `ParserOk` and still has the ids of an earlier one; every level of the grammar leads to such
  (`handleRepetitions_ok`, `parseItem_ok`, `parseAlternates_ok`);
* `parse_wf` : the rules of a grammar that is read are well formed, and all their references are defined.
-/

namespace S2Moe.Grammar

open Lib (bind_eq_ok map_eq_ok)

section Names

theorem digit_byte {c : Char} (h : c.isDigit = true) : Char.ofNat c.toUInt8.toNat = c ∧ c.toUInt8 ≠ '_'.toUInt8 := by
  have hn : 48 ≤ c.toNat ∧ c.toNat ≤ 57 := by
    simp only [Char.isDigit, Bool.and_eq_true, decide_eq_true_eq, ge_iff_le, UInt32.le_iff_toNat_le] at h
    exact h
  obtain ⟨n, hc⟩ : ∃ n, n = c.toNat := ⟨_, rfl⟩
  rw [← hc] at hn
  obtain rfl : c = Char.ofNat n := by rw [hc, Char.ofNat_toNat]
  obtain ⟨h1, h2⟩ := hn
  clear hc h
  interval_cases n <;> decide

theorem isDigit_of_mem {n : Nat} {c : Char} (h : c ∈ Nat.toDigits 10 n) : c.isDigit = true :=
  Nat.isDigit_of_mem_toDigits (by decide) (by decide) h

theorem decimal_inj {m n : Nat} (h : decimal m = decimal n) : m = n := by
  have hinv : ∀ k, (decimal k).map (fun b => Char.ofNat b.toNat) = Nat.toDigits 10 k := by
    intro k
    rw [decimal, List.map_map]
    exact (List.map_congr_left fun c hc => (digit_byte (isDigit_of_mem hc)).1).trans (List.map_id _)
  have hdig : Nat.toDigits 10 m = Nat.toDigits 10 n := by rw [← hinv m, ← hinv n, h]
  rw [← Nat.ofDigitChars_ten_toDigits (n := m), hdig, Nat.ofDigitChars_ten_toDigits]

theorem underscore_notMem_decimal (n : Nat) : '_'.toUInt8 ∉ decimal n := by
  intro h
  obtain ⟨c, hc, heq⟩ := List.mem_map.mp h
  exact (digit_byte (isDigit_of_mem hc)).2 heq

theorem underscore_notMem_name {src name rest : Text} (h : parseName src = .ok (name, rest)) : '_'.toUInt8 ∉ name := by
  rw [parseName] at h
  split at h
  · cases h
  · cases h
    intro hmem
    have hword := List.mem_takeWhile_imp hmem
    revert hword
    decide

end Names

section Pieces

abbrev Ids := List (Text × UInt32)

/-- Part of a rule: it starts with no modifier, does not end the rule, and refers to ids that were given out. -/
structure Piece (ids : Ids) (es : List Element) : Prop where
  chain : List.IsChain Adj (⟨.alt, 0⟩ :: es)
  noEnd : ∀ e ∈ es, e.type ≠ .endRule
  refs : ∀ e ∈ es, e.type = .ruleRef → ∃ name, (name, e.value) ∈ ids

variable {ids ids' : Ids} {es fs : List Element}

theorem Piece.nil : Piece ids [] := ⟨List.isChain_singleton _, by simp, by simp⟩

theorem Piece.mono (h : Piece ids es) (hsub : ids ⊆ ids') : Piece ids' es :=
  ⟨h.chain, h.noEnd, fun e he ht => (h.refs e he ht).imp fun _ hn => hsub hn⟩

/-- Anything may stand before an array that starts with no modifier. -/
theorem isChain_append_piece {e : Element} (h : List.IsChain Adj (e :: es)) (hf : List.IsChain Adj (⟨.alt, 0⟩ :: fs)) :
    List.IsChain Adj (e :: (es ++ fs)) := by
  induction es generalizing e with
  | nil =>
      cases fs with
      | nil => exact List.isChain_singleton _
      | cons u fs =>
          obtain ⟨hadj, hf⟩ := List.isChain_cons_cons.mp hf
          refine List.isChain_cons_cons.mpr ⟨⟨fun hu => ?_, fun hu => ?_⟩, hf⟩
          · simpa using hadj.1 hu
          · simpa using hadj.2 hu
  | cons u es ih =>
      obtain ⟨hadj, h⟩ := List.isChain_cons_cons.mp h
      exact List.isChain_cons_cons.mpr ⟨hadj, ih h⟩

theorem Piece.append (h : Piece ids es) (hf : Piece ids fs) : Piece ids (es ++ fs) := by
  refine ⟨isChain_append_piece h.chain hf.chain, fun e he => ?_, fun e he => ?_⟩
  · rcases List.mem_append.mp he with he | he
    · exact h.noEnd e he
    · exact hf.noEnd e he
  · rcases List.mem_append.mp he with he | he
    · exact h.refs e he
    · exact hf.refs e he

theorem Piece.replicate (h : Piece ids es) (n : Nat) : Piece ids (List.replicate n es).flatten := by
  induction n with
  | zero => exact .nil
  | succ n ih =>
      rw [List.replicate_succ, List.flatten_cons]
      exact h.append ih

/-- One element that modifies nothing. -/
theorem Piece.single {e : Element} (h : e.type ≠ .charRngUpper ∧ e.type ≠ .charAlt ∧ e.type ≠ .endRule)
    (href : e.type = .ruleRef → ∃ name, (name, e.value) ∈ ids) : Piece ids [e] := by
  refine ⟨List.isChain_cons_cons.mpr ⟨⟨fun hu => absurd hu h.1, fun hu => absurd hu h.2.1⟩, List.isChain_singleton _⟩, ?_, ?_⟩
  · intro u hu
    rw [List.mem_singleton.mp hu]
    exact h.2.2
  · intro u hu
    rw [List.mem_singleton.mp hu]
    exact href

theorem Ends.of_piece : ∀ {es : List Element}, (∀ e ∈ es, e.type ≠ .endRule) → Ends (es ++ [⟨.endRule, 0⟩])
  | [], _ => rfl
  | e :: es, h => by
    have ih : Ends (es ++ [⟨.endRule, 0⟩]) := Ends.of_piece fun u hu => h u (List.mem_cons_of_mem _ hu)
    have he := h e List.mem_cons_self
    cases es with
    | nil => exact ⟨he, ih⟩
    | cons u es => exact ⟨he, ih⟩

/-- A piece with an end is a rule. -/
theorem Piece.wellFormed (h : Piece ids es) : WellFormed (es ++ [⟨.endRule, 0⟩]) := by
  refine ⟨Ends.of_piece h.noEnd, isChain_append_piece h.chain ?_⟩
  exact List.isChain_cons_cons.mpr ⟨⟨by simp, by simp⟩, List.isChain_singleton _⟩

/-- A class that is being read. -/
structure ClassPiece (es : List Element) : Prop where
  chain : List.IsChain Adj (⟨.alt, 0⟩ :: es)
  chars : ∀ e ∈ es, e.type = .char ∨ e.type = .charNot ∨ e.type = .charAlt ∨ e.type = .charRngUpper

theorem ClassPiece.nil : ClassPiece [] := ⟨List.isChain_singleton _, by simp⟩

theorem ClassPiece.piece (h : ClassPiece es) : Piece ids es := by
  refine ⟨h.chain, fun e he => ?_, fun e he ht => ?_⟩
  · rcases h.chars e he with ht | ht | ht | ht <;> simp [ht]
  · rcases h.chars e he with ht' | ht' | ht' | ht' <;> simp [ht'] at ht

/-- One more character: the first of the class, or a further one. -/
theorem ClassPiece.snoc (h : ClassPiece es) {startType : Gretype} (hstart : startType = .char ∨ startType = .charNot)
    (c : UInt32) : ClassPiece (es ++ [⟨if es.isEmpty then startType else .charAlt, c⟩]) := by
  refine ⟨?_, fun e he => ?_⟩
  · rw [← List.cons_append, List.isChain_append]
    refine ⟨h.chain, List.isChain_singleton _, fun x hx y hy => ?_⟩
    obtain rfl : y = _ := (by simpa using hy.symm)
    cases es with
    | nil =>
        rcases hstart with rfl | rfl <;> exact ⟨by simp, by simp⟩
    | cons e es =>
        have hmem : x ∈ e :: es := by
          rw [List.getLast?_cons_cons] at hx
          exact List.mem_of_getLast? hx
        refine ⟨by simp, fun _ => ?_⟩
        simpa using h.chars x hmem
  · rcases List.mem_append.mp he with he | he
    · exact h.chars e he
    · rw [List.mem_singleton.mp he]
      rcases hstart with rfl | rfl <;> cases es <;> simp

/-- The upper bound of the character just read. -/
theorem ClassPiece.upper {e : Element} (h : ClassPiece (es ++ [e])) (he : e.type ≠ .charRngUpper) (c : UInt32) :
    ClassPiece (es ++ [e] ++ [⟨.charRngUpper, c⟩]) := by
  refine ⟨?_, fun u hu => ?_⟩
  · rw [← List.cons_append, List.isChain_append]
    refine ⟨h.chain, List.isChain_singleton _, fun x hx y hy => ?_⟩
    obtain rfl : y = _ := (by simpa using hy.symm)
    rw [← List.cons_append, List.getLast?_append] at hx
    obtain rfl : e = x := by simpa using hx
    refine ⟨fun _ => ?_, by simp⟩
    rcases h.chars e (by simp) with ht | ht | ht | ht
    · exact .inl ht
    · exact .inr (.inl ht)
    · exact .inr (.inr ht)
    · exact absurd ht he
  · rcases List.mem_append.mp hu with hu | hu
    · exact h.chars u hu
    · rw [List.mem_singleton.mp hu]
      exact .inr (.inr (.inr rfl))

end Pieces

section Levels

structure ParserOk (p : Parser) : Prop where
  names : ∀ kv ∈ p.symbolIds, '_'.toUInt8 ∈ kv.1 →
    ∃ base, '_'.toUInt8 ∉ base ∧ kv.1 = base ++ '_'.toUInt8 :: decimal kv.2.toNat
  rules : ∀ rule ∈ p.rules, rule = [] ∨ ∃ es, rule = es ++ [⟨.endRule, 0⟩] ∧ Piece p.symbolIds es

/-- `p'` is reached from `p`. -/
structure Extends (p p' : Parser) : Prop where
  ok : ParserOk p'
  ids : p.symbolIds ⊆ p'.symbolIds

variable {p p' p'' : Parser} {ruleName : Text}

theorem ParserOk.extends (h : ParserOk p) : Extends p p := ⟨h, fun _ hx => hx⟩

theorem Extends.trans (h : Extends p p') (h' : Extends p' p'') : Extends p p'' := ⟨h'.ok, fun _ hx => h'.ids (h.ids hx)⟩

/-- A name that was not there yet. -/
theorem ParserOk.addName (h : ParserOk p) (name : Text) (id : UInt32)
    (hname : '_'.toUInt8 ∈ name → ∃ base, '_'.toUInt8 ∉ base ∧ name = base ++ '_'.toUInt8 :: decimal id.toNat) :
    Extends p { p with symbolIds := p.symbolIds ++ [(name, id)] } := by
  have hsub : p.symbolIds ⊆ p.symbolIds ++ [(name, id)] := fun _ hx => List.mem_append_left _ hx
  refine ⟨⟨fun kv hkv => ?_, fun rule hrule => ?_⟩, hsub⟩
  · rcases List.mem_append.mp hkv with hkv | hkv
    · exact h.names kv hkv
    · rw [List.mem_singleton.mp hkv]
      exact hname
  · rcases h.rules rule hrule with rfl | ⟨es, rfl, hes⟩
    · exact .inl rfl
    · exact .inr ⟨es, rfl, hes.mono hsub⟩

theorem mem_of_lookup {ids : Ids} {name : Text} {id : UInt32} (h : ids.lookup name = some id) : (name, id) ∈ ids := by
  obtain ⟨l₁, l₂, rfl, _⟩ := List.lookup_eq_some_iff.mp h
  simp

theorem getSymbolId_ok (h : ParserOk p) {name : Text} (hname : '_'.toUInt8 ∉ name) :
    Extends p (p.getSymbolId name).2 ∧ ∃ n, (n, (p.getSymbolId name).1) ∈ (p.getSymbolId name).2.symbolIds := by
  rw [Parser.getSymbolId]
  split
  · rename_i id hid
    exact ⟨h.extends, name, mem_of_lookup hid⟩
  · exact ⟨h.addName name p.nextId fun hmem => absurd hmem hname, name, by simp⟩

/-- Should the name be there already, then with the same id. -/
theorem generateSymbolId_eq (h : ParserOk p) (hbase : '_'.toUInt8 ∉ ruleName) :
    (p.generateSymbolId ruleName = (p.nextId, p) ∧
      (ruleName ++ '_'.toUInt8 :: decimal p.nextId.toNat, p.nextId) ∈ p.symbolIds) ∨
    p.generateSymbolId ruleName =
      (p.nextId, { p with symbolIds := p.symbolIds ++ [(ruleName ++ '_'.toUInt8 :: decimal p.nextId.toNat, p.nextId)] }) := by
  dsimp only [Parser.generateSymbolId]
  cases hid : p.symbolIds.lookup (ruleName ++ '_'.toUInt8 :: decimal p.nextId.toNat) with
  | none => exact .inr rfl
  | some id =>
      have hsame : ∀ kv ∈ p.symbolIds, kv.1 = ruleName ++ '_'.toUInt8 :: decimal p.nextId.toNat → kv.2 = p.nextId := by
        intro kv hkv heq
        obtain ⟨base, _, heq'⟩ := h.names kv hkv (by rw [heq]; simp)
        rw [heq] at heq'
        obtain ⟨_, _, hdec⟩ := (List.append_cons_inj_of_notMem hbase (underscore_notMem_decimal _)).mp heq'
        exact (UInt32.toNat_inj.mp (decimal_inj hdec)).symm
      have hmap : p.symbolIds.map (fun kv =>
          if kv.1 = ruleName ++ '_'.toUInt8 :: decimal p.nextId.toNat then
            (ruleName ++ '_'.toUInt8 :: decimal p.nextId.toNat, p.nextId) else kv) = p.symbolIds := by
        refine (List.map_congr_left fun kv hkv => ?_).trans (List.map_id _)
        split
        · rename_i heq
          exact Prod.ext heq.symm (hsame kv hkv heq).symm
        · rfl
      have hmem := mem_of_lookup hid
      rw [show id = p.nextId from hsame _ hmem rfl] at hmem
      exact .inl ⟨by dsimp only; rw [hmap], hmem⟩

theorem generateSymbolId_ok (h : ParserOk p) (hbase : '_'.toUInt8 ∉ ruleName) :
    Extends p (p.generateSymbolId ruleName).2 ∧
      ∃ n, (n, (p.generateSymbolId ruleName).1) ∈ (p.generateSymbolId ruleName).2.symbolIds := by
  rcases generateSymbolId_eq h hbase with ⟨heq, hmem⟩ | heq
  · rw [heq]
    exact ⟨h.extends, _, hmem⟩
  · rw [heq]
    exact ⟨h.addName _ p.nextId fun _ => ⟨ruleName, hbase, rfl⟩, ruleName ++ '_'.toUInt8 :: decimal p.nextId.toNat, by simp⟩

theorem addRule_ok (h : ParserOk p) {es : List Element} (hes : Piece p.symbolIds es) (id : UInt32) :
    Extends p (p.addRule id (es ++ [⟨.endRule, 0⟩])) := by
  refine ⟨⟨h.names, fun rule hrule => ?_⟩, fun _ hx => hx⟩
  rcases List.mem_or_eq_of_mem_set hrule with hmem | rfl
  · rcases List.mem_append.mp hmem with hmem | hmem
    · exact h.rules rule hmem
    · exact .inl (List.eq_of_mem_replicate hmem)
  · exact .inr ⟨es, rfl, hes⟩

/-- The reference of a repetition to itself, or to the rule before. -/
theorem again_piece {unbounded first : Bool} {id last : UInt32} (hid : ∃ name, (name, id) ∈ p.symbolIds)
    (hlast : first = false → ∃ name, (name, last) ∈ p.symbolIds) :
    Piece p.symbolIds (if (!first || unbounded) = true then [⟨.ruleRef, if unbounded = true then id else last⟩] else []) := by
  split
  · rename_i hcond
    refine Piece.single (by simp) fun _ => ?_
    cases unbounded with
    | true => exact hid
    | false => exact hlast (by simpa using hcond)
  · exact .nil

/-- One turn of a repetition. -/
theorem recTurn_ok (h : ParserOk p) (hbase : '_'.toUInt8 ∉ ruleName) {prevRule again : Rule}
    (hprev : Piece p.symbolIds prevRule) (hagain : Piece (p.generateSymbolId ruleName).2.symbolIds again) :
    Extends p ((p.generateSymbolId ruleName).2.addRule (p.generateSymbolId ruleName).1
      (prevRule ++ again ++ [⟨.alt, 0⟩, ⟨.endRule, 0⟩])) := by
  obtain ⟨hgen, -⟩ := generateSymbolId_ok h hbase
  have hrule := addRule_ok hgen.ok (((hprev.mono hgen.ids).append hagain).append
    (Piece.single (e := ⟨.alt, 0⟩) (by simp) (by simp))) (p.generateSymbolId ruleName).1
  rw [List.append_assoc] at hrule
  exact hgen.trans hrule

/-- The rules of a repetition; the last id is known if there was a first turn, or before. -/
theorem recRules_ok (hbase : '_'.toUInt8 ∉ ruleName) {prevRule : Rule} (unbounded : Bool) :
    ∀ (n : Nat) (first : Bool) (last : UInt32) (p : Parser), ParserOk p → Piece p.symbolIds prevRule →
      (first = false → ∃ name, (name, last) ∈ p.symbolIds) →
      Extends p (recRules ruleName prevRule unbounded n first last p).2 ∧
        (0 < n ∨ first = false → ∃ name, (name, (recRules ruleName prevRule unbounded n first last p).1) ∈
          (recRules ruleName prevRule unbounded n first last p).2.symbolIds)
  | 0, first, last, p, h, _, hlast => ⟨h.extends, fun hn => hlast (by simpa using hn)⟩
  | n + 1, first, last, p, h, hprev, hlast => by
    obtain ⟨hgen, hid⟩ := generateSymbolId_ok h hbase
    rw [recRules]
    dsimp only
    have hturn := recTurn_ok h hbase hprev
      (@again_piece _ unbounded _ _ _ hid fun hf => (hlast hf).imp fun _ hmem => hgen.ids hmem)
    obtain ⟨hrest, hid'⟩ := recRules_ok hbase unbounded n false (p.generateSymbolId ruleName).1 _ hturn.ok
      (hprev.mono hturn.ids) fun _ => hid
    exact ⟨hturn.trans hrest, fun _ => hid' (.inr rfl)⟩

/-- The rule that is being written. -/
structure SeqOk (s : SeqState) : Prop where
  parser : ParserOk s.parser
  rule : Piece s.parser.symbolIds s.rule
  sym : Piece s.parser.symbolIds s.sym

theorem SeqOk.next {s : SeqState} (h : SeqOk s) {pos : Text} {sym : Rule} (hp : Extends s.parser p)
    (hsym : Piece p.symbolIds sym) : SeqOk (s.next pos sym p) :=
  ⟨hp.ok, (h.rule.append h.sym).mono hp.ids, hsym⟩

theorem handleRepetitions_ok (hbase : '_'.toUInt8 ∉ ruleName) {minTimes maxTimes : Int} {s s' : SeqState} (h : SeqOk s)
    (hrun : handleRepetitions ruleName minTimes maxTimes s = .ok s') : SeqOk s' ∧ Extends s.parser s'.parser := by
  rw [handleRepetitions] at hrun
  split at hrun
  · cases hrun
  · cases hrun
    obtain ⟨hrec, hid⟩ := recRules_ok hbase (decide (maxTimes < 0))
      (if maxTimes < 0 then 1 else maxTimes - minTimes).toNat true 0 s.parser h.parser h.sym (by simp)
    have htimes : Piece s.parser.symbolIds
        (if minTimes = 0 then [] else s.sym ++ (List.replicate (minTimes - 1).toNat s.sym).flatten) := by
      split
      · exact .nil
      · exact h.sym.append (h.sym.replicate _)
    refine ⟨⟨hrec.ok, h.rule.mono hrec.ids, (htimes.mono hrec.ids).append ?_⟩, hrec⟩
    by_cases hpos : (if maxTimes < 0 then 1 else maxTimes - minTimes) > 0
    · rw [if_pos hpos]
      exact Piece.single (by simp) fun _ => hid (.inl (by omega))
    · rw [if_neg hpos]
      exact .nil

theorem parseLiteral_ok : ∀ (fuel : Nat) {pos pos' : Text} {sym sym' : Rule} {ids : Ids}, Piece ids sym →
    parseLiteral fuel pos sym = .ok (pos', sym') → Piece ids sym'
  | 0, _, _, _, _, _, _, hrun => by cases hrun
  | fuel + 1, pos, pos', sym, sym', ids, h, hrun => by
    rw [parseLiteral] at hrun
    split at hrun
    · cases hrun
      exact h
    · split at hrun
      · cases hrun
      · obtain ⟨⟨c, pos⟩, _, hrun⟩ := bind_eq_ok hrun
        exact parseLiteral_ok fuel (h.append (Piece.single (by simp) (by simp))) hrun

theorem parseClass_ok {startType : Gretype} (hstart : startType = .char ∨ startType = .charNot) :
    ∀ (fuel : Nat) {pos pos' : Text} {sym sym' : Rule}, ClassPiece sym →
      parseClass startType fuel pos sym = .ok (pos', sym') → ClassPiece sym'
  | 0, _, _, _, _, _, hrun => by cases hrun
  | fuel + 1, pos, pos', sym, sym', h, hrun => by
    rw [parseClass] at hrun
    split at hrun
    · cases hrun
      exact h
    · split at hrun
      · cases hrun
      · obtain ⟨⟨c, pos⟩, _, hrun⟩ := bind_eq_ok hrun
        have hsnoc := h.snoc hstart c
        dsimp only at hrun
        split at hrun
        · split at hrun
          · cases hrun
          · obtain ⟨⟨upper, pos⟩, _, hrun⟩ := bind_eq_ok hrun
            refine parseClass_ok hstart fuel ?_ hrun
            have hupper := hsnoc.upper (by rcases hstart with rfl | rfl <;> cases sym <;> simp) upper
            rwa [List.append_assoc] at hupper
        · exact parseClass_ok hstart fuel hsnoc hrun

/-- What a level that parses alternates promises. -/
def AlternatesOk (alternates : UInt32 → Text → Parser → Except ParseError (Text × Parser)) : Prop :=
  ∀ (id : UInt32) (pos pos' : Text) (p p' : Parser), ParserOk p → alternates id pos p = .ok (pos', p') → Extends p p'

variable {alternates : UInt32 → Text → Parser → Except ParseError (Text × Parser)} {isNested : Bool}

theorem parseItem_ok (halt : AlternatesOk alternates) (hbase : '_'.toUInt8 ∉ ruleName) {s s' : SeqState} (h : SeqOk s)
    (hrun : parseItem alternates ruleName isNested s = .ok (some s')) : SeqOk s' ∧ Extends s.parser s'.parser := by
  have hrep : ∀ {minTimes maxTimes : Int} {pos : Text},
      some <$> handleRepetitions ruleName minTimes maxTimes { s with pos } = .ok (some s') →
        SeqOk s' ∧ Extends s.parser s'.parser := by
    intro minTimes maxTimes pos hmap
    obtain ⟨t, ht, heq⟩ := map_eq_ok hmap
    cases heq
    exact handleRepetitions_ok hbase (s := { s with pos }) ⟨h.parser, h.rule, h.sym⟩ ht
  rw [parseItem] at hrun
  dsimp only at hrun
  split at hrun
  · -- a literal string
    obtain ⟨⟨pos, sym⟩, hlit, hrun⟩ := bind_eq_ok hrun
    cases hrun
    exact ⟨h.next h.parser.extends (parseLiteral_ok _ .nil hlit), h.parser.extends⟩
  split at hrun
  · -- a class
    obtain ⟨⟨pos, sym⟩, hclass, hrun⟩ := bind_eq_ok hrun
    cases hrun
    have hsym := parseClass_ok (by split <;> simp) _ .nil hclass
    exact ⟨h.next h.parser.extends hsym.piece, h.parser.extends⟩
  split at hrun
  · -- a reference
    obtain ⟨⟨name, nameEnd⟩, hname, hrun⟩ := bind_eq_ok hrun
    cases hrun
    obtain ⟨hext, hid⟩ := getSymbolId_ok h.parser (underscore_notMem_name hname)
    exact ⟨h.next hext (Piece.single (by simp) fun _ => hid), hext⟩
  split at hrun
  · -- a group
    obtain ⟨hext, hid⟩ := generateSymbolId_ok h.parser hbase
    obtain ⟨⟨pos, parser⟩, hgroup, hrun⟩ := bind_eq_ok hrun
    have hext' := halt _ _ _ _ _ hext.ok hgroup
    dsimp only at hrun
    split at hrun
    · cases hrun
    · cases hrun
      have hsym : Piece parser.symbolIds [⟨.ruleRef, (s.parser.generateSymbolId ruleName).1⟩] :=
        Piece.single (by simp) fun _ => hid.imp fun _ hmem => hext'.ids hmem
      exact ⟨h.next (hext.trans hext') hsym, hext.trans hext'⟩
  split at hrun
  · -- any character
    cases hrun
    exact ⟨h.next h.parser.extends (Piece.single (by simp) (by simp)), h.parser.extends⟩
  split at hrun
  · exact hrep hrun
  split at hrun
  · exact hrep hrun
  split at hrun
  · exact hrep hrun
  split at hrun
  · obtain ⟨⟨minTimes, maxTimes, pos⟩, _, hrun⟩ := bind_eq_ok hrun
    exact hrep hrun
  · cases hrun

theorem parseSequence_ok (halt : AlternatesOk alternates) (hbase : '_'.toUInt8 ∉ ruleName) :
    ∀ (fuel : Nat) {s s' : SeqState}, SeqOk s → parseSequence alternates ruleName isNested fuel s = .ok s' →
      SeqOk s' ∧ Extends s.parser s'.parser
  | 0, _, _, _, hrun => by cases hrun
  | fuel + 1, s, s', h, hrun => by
    rw [parseSequence] at hrun
    obtain ⟨r, hitem, hrun⟩ := bind_eq_ok hrun
    cases r with
    | none =>
        cases hrun
        exact ⟨h, h.parser.extends⟩
    | some t =>
        obtain ⟨ht, hext⟩ := parseItem_ok halt hbase h hitem
        obtain ⟨hs', hext'⟩ := parseSequence_ok halt hbase fuel ht hrun
        exact ⟨hs', hext.trans hext'⟩

theorem parseMore_ok (halt : AlternatesOk alternates) (hbase : '_'.toUInt8 ∉ ruleName) :
    ∀ (fuel : Nat) {s s' : SeqState}, SeqOk s → parseMore alternates ruleName isNested fuel s = .ok s' →
      SeqOk s' ∧ Extends s.parser s'.parser
  | 0, _, _, _, hrun => by cases hrun
  | fuel + 1, s, s', h, hrun => by
    rw [parseMore] at hrun
    split at hrun
    · obtain ⟨t, hseq, hrun⟩ := bind_eq_ok hrun
      have hstart : SeqOk ⟨parseSpace (s.pos.drop 1) true, s.rule ++ s.sym ++ [⟨.alt, 0⟩], [], s.parser⟩ :=
        ⟨h.parser, (h.rule.append h.sym).append (Piece.single (by simp) (by simp)), .nil⟩
      obtain ⟨ht, hext⟩ := parseSequence_ok halt hbase _ hstart hseq
      obtain ⟨hs', hext'⟩ := parseMore_ok halt hbase fuel ht hrun
      exact ⟨hs', hext.trans hext'⟩
    · cases hrun
      exact ⟨h, h.parser.extends⟩

/-- By induction on the depth: a group is parsed by the level below. -/
theorem parseAlternates_ok (hbase : '_'.toUInt8 ∉ ruleName) :
    ∀ (depth : Nat) (isNested : Bool), AlternatesOk (parseAlternates ruleName depth isNested)
  | 0, _ => fun _ _ _ _ _ _ hrun => by cases hrun
  | depth + 1, isNested => by
    intro id pos pos' p p' h hrun
    have halt := parseAlternates_ok hbase depth true
    rw [parseAlternates] at hrun
    obtain ⟨s, hseq, hrun⟩ := bind_eq_ok hrun
    obtain ⟨t, hmore, hrun⟩ := bind_eq_ok hrun
    cases hrun
    obtain ⟨hs, hext⟩ := parseSequence_ok halt hbase _ (s := ⟨pos, [], [], p⟩) ⟨h, .nil, .nil⟩ hseq
    obtain ⟨ht, hext'⟩ := parseMore_ok halt hbase _ hs hmore
    exact (hext.trans hext').trans (addRule_ok ht.parser (ht.rule.append ht.sym) id)

theorem parseRule_ok {src pos : Text} (h : ParserOk p) (hrun : parseRule src p = .ok (pos, p')) : Extends p p' := by
  rw [parseRule] at hrun
  obtain ⟨⟨name, nameEnd⟩, hname, hrun⟩ := bind_eq_ok hrun
  have hbase := underscore_notMem_name hname
  obtain ⟨hext, _⟩ := getSymbolId_ok h hbase
  dsimp only at hrun
  split at hrun
  · cases hrun
  · obtain ⟨⟨pos', q⟩, halts, hrun⟩ := bind_eq_ok hrun
    have hext' := hext.trans (parseAlternates_ok hbase _ false _ _ _ _ _ hext.ok halts)
    dsimp only at hrun
    split at hrun
    · cases hrun
      exact hext'
    split at hrun
    · cases hrun
      exact hext'
    split at hrun
    · cases hrun
    · cases hrun
      exact hext'

theorem parseRules_ok : ∀ (fuel : Nat) {pos : Text} {p p' : Parser}, ParserOk p → parseRules fuel pos p = .ok p' → ParserOk p'
  | 0, _, _, _, _, hrun => by cases hrun
  | fuel + 1, pos, p, p', h, hrun => by
    rw [parseRules] at hrun
    split at hrun
    · cases hrun
      exact h
    · obtain ⟨⟨pos, q⟩, hrule, hrun⟩ := bind_eq_ok hrun
      exact parseRules_ok fuel (parseRule_ok h hrule).ok hrun

theorem forM_eq_ok {α ε : Type} {f : α → Except ε Unit} : ∀ {xs : List α}, xs.forM f = .ok () → ∀ x ∈ xs, f x = .ok ()
  | x :: xs, h, y, hy => by
    obtain ⟨⟨⟩, hx, hxs⟩ := bind_eq_ok h
    rcases List.mem_cons.mp hy with rfl | hy
    · exact hx
    · exact forM_eq_ok hxs y hy

/-- **The rules of a grammar that is read are well formed, and what they refer to is defined.** -/
theorem parse_wf {src : Text} (hrun : parse src = .ok p) : WfRules p.rules := by
  rw [parse] at hrun
  obtain ⟨q, hrules, hrun⟩ := bind_eq_ok hrun
  obtain ⟨⟨⟩, hcheck, hrun⟩ := bind_eq_ok hrun
  cases hrun
  have hok : ParserOk p := parseRules_ok _ ⟨by simp, by simp⟩ hrules
  have hall := forM_eq_ok hcheck
  have hne : ∀ rule ∈ p.rules, ∃ es, rule = es ++ [⟨.endRule, 0⟩] ∧ Piece p.symbolIds es := by
    intro rule hrule
    rcases hok.rules rule hrule with rfl | h
    · cases hall [] hrule
    · exact h
  constructor
  · intro rule hrule
    obtain ⟨es, rfl, hes⟩ := hne rule hrule
    exact hes.wellFormed
  · intro rule hrule e he ht
    obtain ⟨es, rfl, hes⟩ := hne rule hrule
    have hmem : e ∈ es := by
      rcases List.mem_append.mp he with he | he
      · exact he
      · rw [List.mem_singleton.mp he] at ht
        cases ht
    -- the id was given out, so the check would have found its name
    obtain ⟨name, hname⟩ := hes.refs e hmem ht
    have hrun' := hall _ hrule
    rw [checkRule, if_neg (by simp)] at hrun'
    have helem := forM_eq_ok hrun' e he
    by_contra hge
    have hempty : (p.rules.getD e.value.toNat []).isEmpty = true := by
      rw [List.getD_eq_getElem?_getD, List.getElem?_eq_none (by omega)]
      rfl
    rw [checkElement, if_pos ⟨ht, hempty⟩] at helem
    cases hfind : p.symbolIds.find? fun kv => kv.2 == e.value with
    | none => exact absurd (List.find?_eq_none.mp hfind _ hname) (by simp)
    | some kv =>
        rw [hfind] at helem
        cases helem

end Levels

end S2Moe.Grammar
