import S2Moe.Grammar.Parsed

/-!
# The parser reads every text to its end

The fuel of the loops is the length of what they read, and the depth of the groups is bounded by it as well. Every turn of
a loop and every group reads a byte, so that no text runs out of it.

* `Total P x` : `x` does not run out of fuel, and what it returns has `P`;
* `parse_ne_fuel` : a text is read, or refused for what it says.
-/

namespace S2Moe.Grammar

variable {α β : Type}

def Total (P : α → Prop) (x : Except ParseError α) : Prop := x ≠ .error .fuel ∧ ∀ a, x = .ok a → P a

section Rules
variable {P Q : α → Prop} {R : β → Prop} {x : Except ParseError α}

theorem Total.ok {a : α} (h : P a) : Total P (.ok a) := ⟨fun h => (by cases h), fun _ h' => by cases h'; exact h⟩

theorem Total.error {e : ParseError} (he : e ≠ .fuel) : Total P (.error e) :=
  ⟨fun h => he (by cases h; rfl), fun _ h => by cases h⟩

theorem Total.errorAt (before : String) (pos : Text) : Total P (errorAt before pos) := .error (by simp)

theorem Total.unexpectedEnd : Total P unexpectedEnd := .error (by simp)

theorem Total.mono (h : Total P x) (hPQ : ∀ a, P a → Q a) : Total Q x := ⟨h.1, fun a ha => hPQ a (h.2 a ha)⟩

theorem Total.bind {f : α → Except ParseError β} (h : Total P x) (hf : ∀ a, P a → Total R (f a)) : Total R (x >>= f) := by
  cases x with
  | error e => exact ⟨fun he => h.1 (by cases he; rfl), fun _ he => by cases he⟩
  | ok a => exact hf a (h.2 a rfl)

theorem Total.map {f : α → β} (h : Total P x) (hf : ∀ a, P a → R (f a)) : Total R (f <$> x) := by
  cases x with
  | error e => exact ⟨fun he => h.1 (by cases he; rfl), fun _ he => by cases he⟩
  | ok a => exact .ok (hf a (h.2 a rfl))

end Rules

section Words

theorem length_pos_of_deref {pos : Text} (h : deref pos ≠ 0) : 0 < pos.length := by
  cases pos with
  | nil => exact absurd rfl h
  | cons c pos => exact Nat.succ_pos _

theorem length_drop_lt {pos : Text} (h : deref pos ≠ 0) : (pos.drop 1).length < pos.length := by
  have := length_pos_of_deref h
  rw [List.length_drop]
  omega

theorem length_skipSpace_le (newlineOk : Bool) : ∀ (inComment : Bool) (pos : Text),
    (skipSpace newlineOk inComment pos).length ≤ pos.length
  | _, [] => le_rfl
  | inComment, c :: pos => by
    have h1 := length_skipSpace_le newlineOk true pos
    have h2 := length_skipSpace_le newlineOk false pos
    rw [skipSpace]
    split
    · exact Nat.le_succ_of_le h1
    split
    · exact Nat.le_succ_of_le h2
    split
    · exact Nat.le_succ_of_le h1
    split
    · exact Nat.le_succ_of_le h2
    · exact le_rfl

theorem length_parseSpace_le (pos : Text) (newlineOk : Bool) : (parseSpace pos newlineOk).length ≤ pos.length :=
  length_skipSpace_le newlineOk false pos

theorem parseName_total (src : Text) : Total (fun r => r.2.length < src.length) (parseName src) := by
  rw [parseName]
  split
  · exact .errorAt _ _
  · rename_i h
    refine .ok ?_
    have hlen := congrArg List.length (List.takeWhile_append_dropWhile (p := isWordChar) (l := src))
    have hpos : 0 < (src.takeWhile isWordChar).length := List.length_pos_of_ne_nil (by simpa using h)
    rw [List.length_append] at hlen
    show (src.dropWhile isWordChar).length < _
    omega

theorem parseInt_total (src : Text) : Total (fun r => r.2.length < src.length) (parseInt src) := by
  rw [parseInt]
  split
  · exact .errorAt _ _
  · rename_i h
    refine .ok ?_
    have hlen := congrArg List.length (List.takeWhile_append_dropWhile (p := isDigitChar) (l := src))
    have hpos : 0 < (src.takeWhile isDigitChar).length := List.length_pos_of_ne_nil (by simpa using h)
    rw [List.length_append] at hlen
    show (src.dropWhile isDigitChar).length < _
    omega

theorem length_decodeTail_le : ∀ (n : Nat) (pos : Text) (value : UInt32), (decodeTail n pos value).2.length ≤ pos.length
  | 0, _, _ => le_rfl
  | _ + 1, [], _ => le_rfl
  | n + 1, c :: pos, value => by
    rw [decodeTail]
    split
    · exact le_rfl
    · exact Nat.le_succ_of_le (length_decodeTail_le n pos _)

theorem length_hexDigits_le : ∀ (n : Nat) (pos : Text) (value : UInt32) (r : UInt32 × Text), hexDigits n pos value = some r →
    r.2.length ≤ pos.length
  | 0, _, _, _, h => by
    cases h
    exact le_rfl
  | _ + 1, [], _, _, h => by cases h
  | n + 1, c :: pos, value, r, h => by
    rw [hexDigits] at h
    split at h
    · exact Nat.le_succ_of_le (length_hexDigits_le n pos _ r h)
    · cases h

theorem parseChar_total {src : Text} (h : deref src ≠ 0) : Total (fun r => r.2.length < src.length) (parseChar src) := by
  have hpos := length_pos_of_deref h
  have hdrop : (src.drop 2).length < src.length := by
    rw [List.length_drop]
    omega
  have hhex : ∀ size, Total (fun r => r.2.length < src.length) (parseHex (src.drop 2) size) := by
    intro size
    rw [parseHex]
    split
    · rename_i r hr
      exact .ok (lt_of_le_of_lt (length_hexDigits_le _ _ _ r hr) hdrop)
    · exact .errorAt _ _
  rw [parseChar]
  dsimp only
  split
  · split
    · exact hhex 2
    split
    · exact hhex 4
    split
    · exact hhex 8
    split
    · exact .ok hdrop
    split
    · exact .ok hdrop
    split
    · exact .ok hdrop
    split
    · exact .ok hdrop
    · exact .errorAt _ _
  · refine .ok (lt_of_le_of_lt (length_decodeTail_le _ _ _) ?_)
    rw [List.length_tail]
    omega

end Words

section Levels

theorem parseLiteral_total : ∀ (fuel : Nat) (pos : Text) (sym : Rule), pos.length < fuel →
    Total (fun r => r.1.length < pos.length) (parseLiteral fuel pos sym)
  | fuel + 1, pos, sym, hfuel => by
    rw [parseLiteral]
    split
    · rename_i h
      exact .ok (length_drop_lt (by rw [h]; decide))
    split
    · exact .unexpectedEnd
    · rename_i h
      refine (parseChar_total h).bind fun a ha => ?_
      have ih := parseLiteral_total fuel a.2 (sym ++ [⟨.char, a.1⟩]) (by omega)
      exact ⟨ih.1, fun b hb => lt_trans (ih.2 b hb) ha⟩

theorem parseClass_total (startType : Gretype) : ∀ (fuel : Nat) (pos : Text) (sym : Rule), pos.length < fuel →
    Total (fun r => r.1.length < pos.length) (parseClass startType fuel pos sym)
  | fuel + 1, pos, sym, hfuel => by
    rw [parseClass]
    split
    · rename_i h
      exact .ok (length_drop_lt (by rw [h]; decide))
    split
    · exact .unexpectedEnd
    · rename_i h
      refine (parseChar_total h).bind fun a ha => ?_
      dsimp only
      split
      · split
        · exact .unexpectedEnd
        · rename_i h'
          have hlt : (a.2.drop 1).length ≤ a.2.length := by rw [List.length_drop]; omega
          refine (parseChar_total h').bind fun b hb => ?_
          have ih := parseClass_total startType fuel b.2
            (sym ++ [⟨if sym.isEmpty = true then startType else .charAlt, a.1⟩, ⟨.charRngUpper, b.1⟩]) (by omega)
          exact ⟨ih.1, fun c hc => by have := ih.2 c hc; omega⟩
      · have ih := parseClass_total startType fuel a.2
          (sym ++ [⟨if sym.isEmpty = true then startType else .charAlt, a.1⟩]) (by omega)
        exact ⟨ih.1, fun b hb => lt_trans (ih.2 b hb) ha⟩

theorem handleRepetitions_total (ruleName : Text) (minTimes maxTimes : Int) (s : SeqState) :
    Total (fun s' => s'.pos = s.pos) (handleRepetitions ruleName minTimes maxTimes s) := by
  rw [handleRepetitions]
  split
  · exact .errorAt _ _
  · exact .ok rfl

theorem stoul_total (digits : Text) : Total (fun _ => True) (stoul digits) := by
  rw [stoul]
  split
  · exact .ok trivial
  · exact .error (by simp)

theorem parseBounds_total (isNested : Bool) (pos : Text) :
    Total (fun r => r.2.2.length ≤ pos.length) (parseBounds isNested pos) := by
  have hspace : ∀ (src : Text) (n : Nat), src.length ≤ pos.length → (parseSpace (src.drop n) isNested).length ≤
    pos.length := by
    intro src n h
    have := length_parseSpace_le (src.drop n) isNested
    rw [List.length_drop] at this
    omega
  rw [parseBounds]
  split
  · exact .errorAt _ _
  refine (parseInt_total pos).bind fun a ha => (stoul_total a.1).bind fun minTimes _ => ?_
  have hpos : (parseSpace a.2 isNested).length ≤ pos.length := hspace a.2 0 ha.le
  dsimp only
  split
  · exact .ok (hspace _ 1 hpos)
  split
  · have hpos' := hspace _ 1 hpos
    have hclose : ∀ (maxTimes : Int) (q : Text), q.length ≤ pos.length →
        Total (fun r => r.2.2.length ≤ pos.length)
          (if deref q ≠ '\x7d'.toUInt8 then errorAt "expecting '\x7d' at " q
            else .ok (minTimes, maxTimes, parseSpace (q.drop 1) isNested)) := by
      intro maxTimes q hq
      split
      · exact .errorAt _ _
      · exact .ok (hspace q 1 hq)
    split
    · refine (parseInt_total _).bind fun b hb => (stoul_total b.1).bind fun maxTimes _ => ?_
      exact hclose maxTimes _ (hspace b.2 0 (by omega))
    · exact hclose (-1) _ hpos'
  · exact .errorAt _ _

/-- What a level that parses alternates needs: the depth is enough for texts of less than `n` bytes. -/
def AlternatesTotal (n : Nat) (alternates : UInt32 → Text → Parser → Except ParseError (Text × Parser)) : Prop :=
  ∀ id pos p, pos.length < n → Total (fun r => r.1.length ≤ pos.length) (alternates id pos p)

variable {alternates : UInt32 → Text → Parser → Except ParseError (Text × Parser)} {ruleName : Text} {isNested : Bool}

theorem parseItem_total {s : SeqState} {n : Nat} (halt : AlternatesTotal n alternates) (hn : s.pos.length ≤ n) :
    Total (fun r => ∀ s', r = some s' → s'.pos.length < s.pos.length) (parseItem alternates ruleName isNested s) := by
  have hspace : ∀ (pos : Text) (b : Bool), pos.length < s.pos.length → (parseSpace pos b).length < s.pos.length :=
    fun pos b h => lt_of_le_of_lt (length_parseSpace_le pos b) h
  -- a symbol that was recognised by its first byte
  have hfirst : ∀ c : UInt8, c ≠ 0 → deref s.pos = c → (s.pos.drop 1).length < s.pos.length :=
    fun c hc h => length_drop_lt (h ▸ hc)
  have hrep : ∀ (minTimes maxTimes : Int) (pos : Text), pos.length < s.pos.length →
      Total (fun r => ∀ s', r = some s' → s'.pos.length < s.pos.length)
        (some <$> handleRepetitions ruleName minTimes maxTimes { s with pos }) := by
    intro minTimes maxTimes pos hpos
    refine (handleRepetitions_total ruleName minTimes maxTimes { s with pos }).map fun t ht s' h => ?_
    cases h
    rw [ht]
    exact hpos
  have hsome : ∀ (pos : Text) (sym : Rule) (p : Parser), pos.length < s.pos.length →
      Total (fun r => ∀ s', r = some s' → s'.pos.length < s.pos.length) (.ok (some (s.next pos sym p))) := by
    intro pos sym p hpos
    refine .ok fun s' h => ?_
    cases h
    exact hpos
  rw [parseItem]
  dsimp only
  split
  · rename_i h
    have hdrop := hfirst _ (by decide) h
    exact (parseLiteral_total _ _ _ (by omega)).bind fun a ha => hsome _ _ _ (hspace _ _ (by omega))
  split
  · rename_i h
    have hdrop := hfirst _ (by decide) h
    refine Total.bind (P := fun r => r.1.length < s.pos.length) ?_ fun a ha => hsome _ _ _ (hspace _ _ ha)
    have hle : (if deref (s.pos.drop 1) = '^'.toUInt8 then (s.pos.drop 1).drop 1 else s.pos.drop 1).length <
        s.pos.length := by
      split
      · rw [List.length_drop]
        omega
      · exact hdrop
    exact (parseClass_total _ _ _ _ (by omega)).mono fun r hr => lt_trans hr hle
  split
  · exact (parseName_total s.pos).bind fun a ha => hsome _ _ _ (hspace _ _ ha)
  split
  · rename_i h
    have hdrop := hspace _ true (hfirst _ (by decide) h)
    refine (halt _ _ _ (by omega)).bind fun a ha => ?_
    split
    · exact .errorAt _ _
    · refine hsome _ _ _ (hspace _ _ ?_)
      rw [List.length_drop]
      omega
  split
  · rename_i h
    exact hsome _ _ _ (hspace _ _ (hfirst _ (by decide) h))
  split
  · rename_i h
    exact hrep _ _ _ (hspace _ _ (hfirst _ (by decide) h))
  split
  · rename_i h
    exact hrep _ _ _ (hspace _ _ (hfirst _ (by decide) h))
  split
  · rename_i h
    exact hrep _ _ _ (hspace _ _ (hfirst _ (by decide) h))
  split
  · rename_i h
    have hdrop := hspace _ isNested (hfirst _ (by decide) h)
    exact (parseBounds_total _ _).bind fun a ha => hrep _ _ _ (lt_of_le_of_lt ha hdrop)
  · exact .ok fun s' h => by cases h

theorem parseSequence_total {n : Nat} (halt : AlternatesTotal n alternates) : ∀ (fuel : Nat) (s : SeqState),
    s.pos.length < fuel → s.pos.length ≤ n →
      Total (fun s' => s'.pos.length ≤ s.pos.length) (parseSequence alternates ruleName isNested fuel s)
  | fuel + 1, s, hfuel, hn => by
    rw [parseSequence]
    refine (parseItem_total halt hn).bind fun r hr => ?_
    cases r with
    | none => exact .ok le_rfl
    | some t =>
        have ht := hr t rfl
        exact (parseSequence_total halt fuel t (by omega) (by omega)).mono fun s' hs' => by omega

theorem parseMore_total {n : Nat} (halt : AlternatesTotal n alternates) : ∀ (fuel : Nat) (s : SeqState),
    s.pos.length < fuel → s.pos.length ≤ n →
      Total (fun s' => s'.pos.length ≤ s.pos.length) (parseMore alternates ruleName isNested fuel s)
  | fuel + 1, s, hfuel, hn => by
    rw [parseMore]
    split
    · rename_i h
      have hdrop : (parseSpace (s.pos.drop 1) true).length < s.pos.length :=
        lt_of_le_of_lt (length_parseSpace_le _ _) (length_drop_lt (by rw [h]; decide))
      have hseq : Total (fun t => t.pos.length ≤ (parseSpace (s.pos.drop 1) true).length)
          (parseSequence alternates ruleName isNested ((parseSpace (s.pos.drop 1) true).length + 1)
            ⟨parseSpace (s.pos.drop 1) true, s.rule ++ s.sym ++ [⟨.alt, 0⟩], [], s.parser⟩) :=
        parseSequence_total halt _ _ (Nat.lt_succ_self _) (le_trans hdrop.le hn)
      refine hseq.bind fun t ht => ?_
      exact (parseMore_total halt fuel t (by omega) (by omega)).mono fun s' hs' => by omega
    · exact .ok le_rfl

/-- By induction on the depth: a group is shorter than the text it is in. -/
theorem parseAlternates_total : ∀ (depth : Nat) (isNested : Bool), AlternatesTotal depth
    (parseAlternates ruleName depth isNested)
  | 0, _ => fun _ _ _ h => absurd h (Nat.not_lt_zero _)
  | depth + 1, isNested => by
    intro id pos p hpos
    have halt := parseAlternates_total depth true
    have hseq : Total (fun s => s.pos.length ≤ pos.length)
        (parseSequence (parseAlternates ruleName depth true) ruleName isNested (pos.length + 1) ⟨pos, [], [], p⟩) :=
      parseSequence_total halt _ _ (Nat.lt_succ_self _) (Nat.lt_succ_iff.mp hpos)
    rw [parseAlternates]
    refine hseq.bind fun s hs => ?_
    exact (parseMore_total halt _ s (by omega) (by omega)).bind fun t ht => .ok (le_trans ht hs)

theorem parseRule_total (src : Text) (p : Parser) : Total (fun r => r.1.length < src.length) (parseRule src p) := by
  rw [parseRule]
  refine (parseName_total src).bind fun a ha => ?_
  have hspace : ∀ (pos : Text) (n : Nat) (b : Bool), pos.length < src.length → (parseSpace (pos.drop n) b).length <
    src.length := by
    intro pos n b h
    have := length_parseSpace_le (pos.drop n) b
    rw [List.length_drop] at this
    omega
  have hpos := hspace a.2 0 false ha
  dsimp only
  split
  · exact .errorAt _ _
  have hpos' := hspace _ 3 true hpos
  refine (parseAlternates_total _ false _ _ _ (Nat.lt_succ_self _)).bind fun r hr => ?_
  have hr' := lt_of_le_of_lt hr hpos'
  split
  · exact .ok (hspace _ _ _ hr')
  split
  · exact .ok (hspace _ _ _ hr')
  split
  · exact .errorAt _ _
  · exact .ok (hspace r.1 0 true hr')

theorem parseRules_total : ∀ (fuel : Nat) (pos : Text) (p : Parser), pos.length < fuel →
    Total (fun _ => True) (parseRules fuel pos p)
  | fuel + 1, pos, p, hfuel => by
    rw [parseRules]
    split
    · exact .ok trivial
    · exact (parseRule_total pos p).bind fun r hr => parseRules_total fuel r.1 r.2 (by omega)

theorem forM_total {f : α → Except ParseError Unit} (hf : ∀ a, Total (fun _ => True) (f a)) :
    ∀ xs : List α, Total (fun _ => True) (xs.forM f)
  | [] => .ok trivial
  | x :: xs => (hf x).bind fun _ _ => forM_total hf xs

theorem checkRule_total (p : Parser) (rule : Rule) : Total (fun _ => True) (checkRule p rule) := by
  rw [checkRule]
  split
  · exact .error (by simp)
  · refine forM_total (fun e => ?_) rule
    rw [checkElement]
    split
    · split
      · exact .error (by simp)
      · exact .ok trivial
    · exact .ok trivial

/-- **No text runs out of fuel.** -/
theorem parse_ne_fuel (src : Text) : parse src ≠ .error .fuel := by
  have htotal : Total (fun _ => True) (parse src) := by
    rw [parse]
    refine (parseRules_total _ _ _ (Nat.lt_succ_of_le (length_parseSpace_le src true))).bind fun p _ => ?_
    exact (forM_total (checkRule_total p) p.rules).bind fun _ _ => .ok trivial
  exact htotal.1

end Levels

end S2Moe.Grammar
