import S2Moe.Grammar.Repetition

/-!
# Repetition operators in a run of the parser

* `Number`, `Operator` : the operators, with the numbers that they write; `exists_operator` : all that is accepted are
such;
* `Operator.parseItem` : an accepted operator rewrites the item before it with the numbers converted to `int`;
* `Fits`, `fits_iff` : when the conversion keeps the bounds;
* `Reached` : where `parse_sequence` comes in a run of `parse`; `Item` : what can stand before an operator;
* `repetition_iff` : the language is kept and the synthesized rules are new exactly when the numbers fit and there are ids
left;
* `overflow_not_desugars` : a number of 2 ^ 32 leaves nothing of the item.
-/

namespace S2Moe.Grammar
open S2Moe.Lib

section Texts

/-- The number that decimal digits write. -/
def decimalValue (digits : Text) : Nat := digits.foldl (fun n c => 10 * n + (c.toNat - '0'.toNat)) 0

/-- Digits in front of a text that has no further one. -/
def Number (pos : Text) (n : Nat) (behind : Text) : Prop :=
  ∃ digits, pos = digits ++ behind ∧ digits ≠ [] ∧ (∀ c ∈ digits, isDigitChar c = true) ∧
    (∀ c ∈ behind.head?, isDigitChar c = false) ∧ n = decimalValue digits

/-- The operators of the language, with the numbers that they write: how many times at least and, if there is a bound, at
most. -/
inductive Operator (isNested : Bool) : Text → Nat → Option Nat → Prop
  | star (rest : Text) : Operator isNested ('*'.toUInt8 :: rest) 0 none
  | plus (rest : Text) : Operator isNested ('+'.toUInt8 :: rest) 1 none
  | optional (rest : Text) : Operator isNested ('?'.toUInt8 :: rest) 0 (some 1)
  | exactly {pos behind rest : Text} {m : Nat} (min : Number (parseSpace pos isNested) m behind)
      (close : parseSpace behind isNested = '\x7d'.toUInt8 :: rest) : Operator isNested ('\x7b'.toUInt8 :: pos) m (some m)
  | atLeast {pos behind more rest : Text} {m : Nat} (min : Number (parseSpace pos isNested) m behind)
      (comma : parseSpace behind isNested = ','.toUInt8 :: more)
      (close : parseSpace more isNested = '\x7d'.toUInt8 :: rest) : Operator isNested ('\x7b'.toUInt8 :: pos) m none
  | between {pos behind more behind' rest : Text} {m n : Nat} (min : Number (parseSpace pos isNested) m behind)
      (comma : parseSpace behind isNested = ','.toUInt8 :: more) (max : Number (parseSpace more isNested) n behind')
      (close : parseSpace behind' isNested = '\x7d'.toUInt8 :: rest) : Operator isNested ('\x7b'.toUInt8 :: pos) m (some n)

/-- `std::stoul` throws beyond 64 bits. -/
def InRange (lo : Nat) (hi : Option Nat) : Prop := lo < 2 ^ 64 ∧ ∀ h ∈ hi, h < 2 ^ 64

theorem inRange_some {lo hi : Nat} (hlo : lo < 2 ^ 64) (hhi : hi < 2 ^ 64) : InRange lo (some hi) :=
  ⟨hlo, fun _ hh => (Option.mem_some_iff.mp hh).symm.trans_lt hhi⟩

/-- The conversion to `int`. -/
def toInt (n : Nat) : Int := (n : Int).bmod (2 ^ 32)

def maxTimes : Option Nat → Int
  | none => -1
  | some n => toInt n

theorem stoul_eq_ok {digits : Text} {v : Int} (h : stoul digits = .ok v) :
    decimalValue digits < 2 ^ 64 ∧ v = toInt (decimalValue digits) := by
  have heq : stoul digits = if decimalValue digits < 2 ^ 64 then .ok (toInt (decimalValue digits))
    else .error (.message "stoul" [] "") := rfl
  rw [heq] at h
  by_cases hlt : decimalValue digits < 2 ^ 64
  · rw [if_pos hlt] at h
    exact ⟨hlt, (Except.ok.inj h).symm⟩
  · rw [if_neg hlt] at h
    cases h

variable {pos behind : Text} {n : Nat}

theorem Number.isDigit (h : Number pos n behind) : isDigitChar (deref pos) = true := by
  obtain ⟨digits, rfl, hne, hall, -⟩ := h
  cases digits with
  | nil => exact absurd rfl hne
  | cons c digits => exact hall c List.mem_cons_self

theorem Number.parseInt (h : Number pos n behind) :
    ∃ digits, parseInt pos = .ok (digits, behind) ∧ n = decimalValue digits := by
  obtain ⟨digits, rfl, hne, hall, hbehind, hn⟩ := h
  refine ⟨digits, ?_, hn⟩
  have hstop : behind.takeWhile isDigitChar = [] ∧ behind.dropWhile isDigitChar = behind := by
    cases behind with
    | nil => exact ⟨rfl, rfl⟩
    | cons c behind =>
        have hc := hbehind c rfl
        constructor
        · rw [List.takeWhile_cons, hc]; rfl
        · rw [List.dropWhile_cons, hc]; rfl
  rw [Grammar.parseInt, List.takeWhile_append_of_pos hall, List.dropWhile_append_of_pos hall, hstop.1, hstop.2,
    List.append_nil,
    if_neg (by simpa using hne)]

/-- The numbers between braces, converted. -/
theorem Operator.bounds {isNested : Bool} {pos rest : Text} {lo : Nat} {hi : Option Nat} {a b : Int}
    (h : Operator isNested ('\x7b'.toUInt8 :: pos) lo hi)
    (hrun : parseBounds isNested (parseSpace pos isNested) = .ok (a, b, rest)) :
    InRange lo hi ∧ a = toInt lo ∧ b = maxTimes hi := by
  have hcomma : ','.toUInt8 ≠ '\x7d'.toUInt8 := by decide
  have hdigit : isDigitChar '\x7d'.toUInt8 = false := by decide
  cases h with
  | exactly min close =>
      obtain ⟨digits, hint, rfl⟩ := min.parseInt
      simp only [parseBounds, min.isDigit, Bool.not_true, Bool.false_eq_true, if_false, hint] at hrun
      obtain ⟨_, heq, hrun⟩ := bind_eq_ok hrun
      cases heq
      obtain ⟨v, hv, hrun⟩ := bind_eq_ok hrun
      obtain ⟨hlt, hv⟩ := stoul_eq_ok hv
      simp only [close, deref, List.headD_cons, if_true] at hrun
      cases hrun
      exact ⟨inRange_some hlt hlt, hv, by rw [maxTimes]; exact hv⟩
  | atLeast min comma close =>
      obtain ⟨digits, hint, rfl⟩ := min.parseInt
      simp only [parseBounds, min.isDigit, Bool.not_true, Bool.false_eq_true, if_false, hint] at hrun
      obtain ⟨_, heq, hrun⟩ := bind_eq_ok hrun
      cases heq
      obtain ⟨v, hv, hrun⟩ := bind_eq_ok hrun
      obtain ⟨hlt, hv⟩ := stoul_eq_ok hv
      simp only [comma, close, deref, List.headD_cons, hcomma, if_false, if_true, List.drop_succ_cons, List.drop_zero, hdigit,
        Bool.false_eq_true] at hrun
      cases hrun
      exact ⟨⟨hlt, fun h hh => absurd hh (Option.not_mem_none h)⟩, hv, rfl⟩
  | between min comma max close =>
      obtain ⟨digits, hint, rfl⟩ := min.parseInt
      obtain ⟨digits', hint', rfl⟩ := max.parseInt
      have hmax := max.isDigit
      simp only [parseBounds, min.isDigit, Bool.not_true, Bool.false_eq_true, if_false, hint] at hrun
      obtain ⟨_, heq, hrun⟩ := bind_eq_ok hrun
      cases heq
      obtain ⟨v, hv, hrun⟩ := bind_eq_ok hrun
      obtain ⟨hlt, hv⟩ := stoul_eq_ok hv
      simp only [comma, deref, List.headD_cons, hcomma, if_false, if_true, List.drop_succ_cons, List.drop_zero] at hmax hrun
      rw [hmax, hint'] at hrun
      obtain ⟨_, heq, hrun⟩ := bind_eq_ok hrun
      cases heq
      obtain ⟨w, hw, hrun⟩ := bind_eq_ok hrun
      obtain ⟨hlt', hw⟩ := stoul_eq_ok hw
      simp only [close, pure, Except.pure, Except.bind, bind, List.headD_cons, ne_eq, not_true, if_false] at hrun
      cases hrun
      exact ⟨inRange_some hlt hlt', hv, by rw [maxTimes]; exact hw⟩

theorem number_of_parseInt {digits : Text} (h : parseInt pos = .ok (digits, behind)) :
    Number pos (decimalValue digits) behind := by
  rw [parseInt] at h
  split at h
  · cases h
  · rename_i hne
    cases h
    refine ⟨pos.takeWhile isDigitChar, List.takeWhile_append_dropWhile.symm, by simpa using hne, fun c hc => ?_,
      fun c hc => ?_, rfl⟩
    · exact List.mem_takeWhile_imp hc
    · have hstop := List.head?_dropWhile_not isDigitChar pos
      rw [Option.mem_def.mp hc] at hstop
      simpa using hstop

theorem exists_cons_of_deref {c : UInt8} (hc : c ≠ 0) (h : deref pos = c) : ∃ rest, pos = c :: rest := by
  cases pos with
  | nil => exact absurd h.symm hc
  | cons d rest =>
      obtain rfl : d = c := h
      exact ⟨rest, rfl⟩

/-- The numbers between braces that are read are an operator. -/
theorem operator_of_bounds {isNested : Bool} {r : Int × Int × Text}
    (hrun : parseBounds isNested (parseSpace pos isNested) = .ok r) :
    ∃ lo hi, Operator isNested ('\x7b'.toUInt8 :: pos) lo hi := by
  unfold parseBounds at hrun
  split at hrun
  · cases hrun
  obtain ⟨⟨digits, intEnd⟩, hint, hrun⟩ := bind_eq_ok hrun
  have hmin := number_of_parseInt hint
  obtain ⟨v, -, hrun⟩ := bind_eq_ok hrun
  dsimp only at hrun
  split at hrun
  · rename_i hclose
    obtain ⟨rest, hrest⟩ := exists_cons_of_deref (by decide) hclose
    exact ⟨_, _, .exactly hmin hrest⟩
  split at hrun
  · rename_i hcomma
    obtain ⟨more, hmore⟩ := exists_cons_of_deref (by decide) hcomma
    rw [hmore] at hrun
    split at hrun
    · obtain ⟨⟨digits', intEnd'⟩, hint', hrun⟩ := bind_eq_ok hrun
      obtain ⟨w', -, hrun⟩ := bind_eq_ok hrun
      obtain ⟨⟨w, pos'⟩, heq, hrun⟩ := bind_eq_ok hrun
      cases heq
      dsimp only at hrun
      split at hrun
      · cases hrun
      · rename_i hclose
        obtain ⟨rest, hrest⟩ := exists_cons_of_deref (by decide) (not_not.mp hclose)
        exact ⟨_, _, .between hmin hmore (number_of_parseInt hint') hrest⟩
    · obtain ⟨⟨w, pos'⟩, heq, hrun⟩ := bind_eq_ok hrun
      cases heq
      dsimp only at hrun
      split at hrun
      · cases hrun
      · rename_i hclose
        obtain ⟨rest, hrest⟩ := exists_cons_of_deref (by decide) (not_not.mp hclose)
        exact ⟨_, _, .atLeast hmin hmore hrest⟩
  · cases hrun

theorem parseItem_brace (alternates : UInt32 → Text → Parser → Except ParseError (Text × Parser)) (ruleName : Text)
    (isNested : Bool) (text : Text) (rule sym : Rule) (parser : Parser) :
    parseItem alternates ruleName isNested ⟨'\x7b'.toUInt8 :: text, rule, sym, parser⟩ =
      parseBounds isNested (parseSpace text isNested) >>= fun r =>
        some <$> handleRepetitions ruleName r.1 r.2.1 ⟨r.2.2, rule, sym, parser⟩ := rfl

/-- An operator that is accepted rewrites whatever item stands before it, with the converted numbers. -/
theorem Operator.parseItem {alternates : UInt32 → Text → Parser → Except ParseError (Text × Parser)} {ruleName : Text}
    {isNested : Bool} {lo : Nat} {hi : Option Nat} {s s₁ : SeqState} (h : Operator isNested s.pos lo hi)
    (hrun : parseItem alternates ruleName isNested s = .ok (some s₁)) :
    InRange lo hi ∧ ∃ rest, ∀ sym, Grammar.parseItem alternates ruleName isNested { s with sym } =
      some <$> handleRepetitions ruleName (toInt lo) (maxTimes hi) { s with pos := rest, sym } := by
  obtain ⟨pos, rule, sym, parser⟩ := s
  have hbrace : ∀ {text : Text}, Operator isNested ('\x7b'.toUInt8 :: text) lo hi →
      Grammar.parseItem alternates ruleName isNested ⟨'\x7b'.toUInt8 :: text, rule, sym, parser⟩ = .ok (some s₁) →
      InRange lo hi ∧ ∃ rest, ∀ sym, Grammar.parseItem alternates ruleName isNested
        ⟨'\x7b'.toUInt8 :: text, rule, sym, parser⟩ =
        some <$> handleRepetitions ruleName (toInt lo) (maxTimes hi) ⟨rest, rule, sym, parser⟩ := by
    intro text hop hitem
    rw [parseItem_brace] at hitem
    obtain ⟨⟨a, b, rest⟩, hab, -⟩ := bind_eq_ok hitem
    have hnumbers := hop.bounds hab
    refine ⟨hnumbers.1, rest, fun sym => ?_⟩
    rw [parseItem_brace, hab, ← hnumbers.2.1, ← hnumbers.2.2]
    rfl
  dsimp only at h
  cases h with
  | star rest => exact ⟨⟨by decide, fun _ hh => absurd hh (Option.not_mem_none _)⟩, parseSpace rest isNested, fun _ => rfl⟩
  | plus rest => exact ⟨⟨by decide, fun _ hh => absurd hh (Option.not_mem_none _)⟩, parseSpace rest isNested, fun _ => rfl⟩
  | optional rest => exact ⟨inRange_some (by decide) (by decide), parseSpace rest isNested, fun _ => rfl⟩
  | exactly min close => exact hbrace (.exactly min close) hrun
  | atLeast min comma close => exact hbrace (.atLeast min comma close) hrun
  | between min comma max close => exact hbrace (.between min comma max close) hrun

/-- Every operator that is accepted writes its numbers so. -/
theorem exists_operator {alternates : UInt32 → Text → Parser → Except ParseError (Text × Parser)} {ruleName : Text}
    {isNested : Bool} {s s₁ : SeqState} (hrun : parseItem alternates ruleName isNested s = .ok (some s₁))
    (hop : deref s.pos ∈ ['*', '+', '?', '\x7b'].map Char.toUInt8) : ∃ lo hi, Operator isNested s.pos lo hi := by
  obtain ⟨pos, rule, sym, parser⟩ := s
  simp only [List.map_cons, List.map_nil, List.mem_cons, List.not_mem_nil, or_false] at hop
  rcases hop with hop | hop | hop | hop
  · obtain ⟨rest, rfl⟩ := exists_cons_of_deref (by decide) hop
    exact ⟨_, _, .star rest⟩
  · obtain ⟨rest, rfl⟩ := exists_cons_of_deref (by decide) hop
    exact ⟨_, _, .plus rest⟩
  · obtain ⟨rest, rfl⟩ := exists_cons_of_deref (by decide) hop
    exact ⟨_, _, .optional rest⟩
  · obtain ⟨rest, rfl⟩ := exists_cons_of_deref (by decide) hop
    rw [parseItem_brace] at hrun
    obtain ⟨r, hr, -⟩ := bind_eq_ok hrun
    exact operator_of_bounds hr

end Texts

section Bounds

theorem toInt_of_lt {n : Nat} (h : n < 2 ^ 31) : toInt n = n := by
  unfold toInt
  rw [Int.bmod_def]
  omega

theorem toInt_lt (n : Nat) : toInt n < 2 ^ 31 := by
  unfold toInt
  rw [Int.bmod_def]
  omega

/-- The numbers come through the conversion, and leave no empty range. -/
def Fits (lo : Nat) (hi : Option Nat) : Prop := lo < 2 ^ 31 ∧ ∀ h ∈ hi, lo ≤ h ∧ h < 2 ^ 31

/-- The rules that the numbers ask for: one that refers to itself, or one for each optional turn. -/
def optionalTurns (lo : Nat) (hi : Option Nat) : Nat := hi.elim 1 (· - lo)

variable {lo : Nat} {hi : Option Nat}

theorem leading_toInt_of_lt (h : lo < 2 ^ 31) : leading (toInt lo) = lo := by
  rw [toInt_of_lt h, leading]
  split <;> omega

/-- The numbers that are handed on are those of the text exactly when they fit. -/
theorem fits_iff : leading (toInt lo) = lo ∧
    (trailing (toInt lo) (maxTimes hi)).map (leading (toInt lo) + ·) = hi ↔ Fits lo hi := by
  constructor
  · rintro ⟨hlo, hhi⟩
    have hbound := toInt_lt lo
    have hlt : lo < 2 ^ 31 := by
      rw [leading] at hlo
      split at hlo <;> omega
    refine ⟨hlt, fun h hh => ?_⟩
    obtain rfl := Option.mem_def.mp hh
    have hbound' := toInt_lt h
    rw [maxTimes, trailing] at hhi
    split at hhi
    · cases hhi
    · have hval : leading (toInt lo) + (toInt h - toInt lo).toNat = h := Option.some.inj hhi
      rw [leading_toInt_of_lt hlt, toInt_of_lt hlt] at hval
      omega
  · rintro ⟨hlt, hfits⟩
    refine ⟨leading_toInt_of_lt hlt, ?_⟩
    rw [leading_toInt_of_lt hlt, toInt_of_lt hlt]
    cases hi with
    | none => rfl
    | some h =>
        obtain ⟨hle, hlt'⟩ := hfits h rfl
        rw [maxTimes, toInt_of_lt hlt', trailing, if_neg (by omega), Option.map_some]
        congr 1
        omega

theorem turns_eq (h : Fits lo hi) : turns (toInt lo) (maxTimes hi) = optionalTurns lo hi := by
  rw [toInt_of_lt h.1]
  cases hi with
  | none => rfl
  | some m =>
      obtain ⟨hle, hlt⟩ := h.2 m rfl
      rw [maxTimes, toInt_of_lt hlt, turns, if_neg (by omega)]
      show ((m : Int) - lo).toNat = m - lo
      omega

/-- The range that is handed on is never empty. -/
theorem leading_le (minTimes maxTimes : Int) :
    ∀ h ∈ (trailing minTimes maxTimes).map (leading minTimes + ·), leading minTimes ≤ h := by
  intro h hh
  obtain ⟨b, -, rfl⟩ := Option.map_eq_some_iff.mp hh
  exact Nat.le_add_right _ b

end Bounds

section Fresh
variable {p p' : Parser} {n : Nat}

/-- With the names of 32 bits there is one for every turn. -/
theorem Kept.fresh (h : Kept p p' n) (hp : Numbered p) (hp' : Numbered p') (hroom : n = 0 ∨ p.symbolIds.length + n ≤ 2 ^ 32) :
    Fresh p p' n := by
  obtain ⟨new, heq, hnew⟩ := h.names
  have hlen : p'.symbolIds.length = p.symbolIds.length + n := by rw [heq, List.length_append, hnew]
  refine ⟨h.names, fun i j a b hij hj ha hb hab => ?_, fun kv hkv => h.undefined _ (hp.toNat_lt ⟨kv.1, hkv⟩)⟩
  have hlt := (List.getElem?_eq_some_iff.mp hb).1
  rw [hp'.getElem ha, hp'.getElem hb] at hab
  have hval := congrArg UInt32.toNat hab
  rw [UInt32.toNat_ofNat', UInt32.toNat_ofNat', Nat.mod_eq_of_lt (by omega), Nat.mod_eq_of_lt (by omega)] at hval
  omega

/-- Otherwise an id comes twice. -/
theorem Fresh.room (h : Fresh p p' n) (hp' : Numbered p') : n = 0 ∨ p.symbolIds.length + n ≤ 2 ^ 32 := by
  obtain ⟨new, heq, hnew⟩ := h.names
  have hlen : p'.symbolIds.length = p.symbolIds.length + n := by rw [heq, List.length_append, hnew]
  by_contra hfull
  -- an index of a new name that has one before it with the same id
  obtain ⟨j, hj, hj', hge⟩ : ∃ j, p.symbolIds.length ≤ j ∧ j < p'.symbolIds.length ∧ 2 ^ 32 ≤ j :=
    ⟨max p.symbolIds.length (2 ^ 32), by omega, by omega, by omega⟩
  have hi' : j - 2 ^ 32 < p'.symbolIds.length := by omega
  refine h.ids (j - 2 ^ 32) j _ _ (by omega) hj (List.getElem?_eq_getElem hi') (List.getElem?_eq_getElem hj') ?_
  rw [hp'.getElem (List.getElem?_eq_getElem hi'), hp'.getElem (List.getElem?_eq_getElem hj')]
  apply UInt32.toNat_inj.mp
  rw [UInt32.toNat_ofNat', UInt32.toNat_ofNat']
  omega

/-- The rules of the new ids are those at the new places. -/
theorem Fresh.keeps (h : Fresh p p' n) (hp' : Numbered p') {rules : Rules} (hkeep : KeepsNew rules p p') :
    ∀ i, p.symbolIds.length ≤ i → i < p.symbolIds.length + n → rules[i]? = p'.rules[i]? := by
  intro i hi hi'
  obtain ⟨new, heq, hnew⟩ := h.names
  have hlen : p'.symbolIds.length = p.symbolIds.length + n := by rw [heq, List.length_append, hnew]
  have hroom := h.room hp'
  have hget : p'.symbolIds[i]? = some p'.symbolIds[i] := List.getElem?_eq_getElem (by omega)
  have hmem : p'.symbolIds[i] ∈ p'.symbolIds.drop p.symbolIds.length := by
    rw [List.mem_iff_getElem?]
    exact ⟨i - p.symbolIds.length, by rw [List.getElem?_drop, Nat.add_sub_cancel' hi, hget]⟩
  have hrule := hkeep _ hmem
  rwa [hp'.getElem hget, UInt32.toNat_ofNat', Nat.mod_eq_of_lt (by omega)] at hrule

end Fresh

section Runs

/-- The loop of `parse` between two rules. -/
inductive RulesAt (src : Text) : Text → Parser → Prop
  | start : RulesAt src (parseSpace src true) ⟨[], []⟩
  | rule {pos pos' : Text} {p p' : Parser} (before : RulesAt src pos p) (more : deref pos ≠ 0)
      (run : parseRule pos p = .ok (pos', p')) : RulesAt src pos' p'

/-- The loop of `parse_sequence` in a run of `parse` : in a rule, behind a symbol or an operator, behind a bar, and in a
group. -/
inductive Reached (src : Text) : Text → Bool → SeqState → Prop
  | rule {pos ruleName nameEnd : Text} {p : Parser} (before : RulesAt src pos p) (more : deref pos ≠ 0)
      (name : parseName pos = .ok (ruleName, nameEnd)) :
      Reached src ruleName false
        ⟨parseSpace ((parseSpace nameEnd false).drop 3) true, [], [], (p.getSymbolId ruleName).2⟩
  | item {ruleName : Text} {isNested : Bool} {s s' : SeqState} (before : Reached src ruleName isNested s) (depth : Nat)
      (run : parseItem (parseAlternates ruleName depth true) ruleName isNested s = .ok (some s')) :
      Reached src ruleName isNested s'
  | alternate {ruleName : Text} {isNested : Bool} {s : SeqState} (before : Reached src ruleName isNested s)
      (bar : deref s.pos = '|'.toUInt8) :
      Reached src ruleName isNested ⟨parseSpace (s.pos.drop 1) true, s.rule ++ s.sym ++ [⟨.alt, 0⟩], [], s.parser⟩
  | group {ruleName : Text} {isNested : Bool} {s : SeqState} (before : Reached src ruleName isNested s)
      (open_ : deref s.pos = '('.toUInt8) :
      Reached src ruleName true
        ⟨parseSpace (s.pos.drop 1) true, [], [], (s.parser.generateSymbolId ruleName).2⟩

variable {src : Text}

theorem RulesAt.ok {pos : Text} {p : Parser} (h : RulesAt src pos p) : ParserOk p ∧ Numbered p := by
  induction h with
  | start => exact ⟨⟨by simp, by simp⟩, numbered_empty⟩
  | rule _ _ run ih => exact ⟨(parseRule_ok ih.1 run).ok, parseRule_numbered ih.1 ih.2 run⟩

/-- Everywhere in a run the ids are given out in order. -/
theorem Reached.counted {ruleName : Text} {isNested : Bool} {s : SeqState} (h : Reached src ruleName isNested s) :
    '_'.toUInt8 ∉ ruleName ∧ Counted s := by
  induction h with
  | rule before _ name =>
      obtain ⟨hok, hnum⟩ := before.ok
      have hbase := underscore_notMem_name name
      exact ⟨hbase, ⟨(getSymbolId_ok hok hbase).1.ok, .nil, .nil⟩, hnum.getSymbolId _, .nil⟩
  | item _ depth run ih =>
      exact ⟨ih.1, parseItem_counted (parseAlternates_ok ih.1 depth true) (parseAlternates_numbered ih.1 depth true) ih.1 ih.2
        run⟩
  | alternate _ _ ih => exact ⟨ih.1, ih.2.alternate _⟩
  | group _ _ ih =>
      obtain ⟨hbase, h⟩ := ih
      exact ⟨hbase, ⟨(generateSymbolId_ok h.ok.parser hbase).1.ok, .nil, .nil⟩,
        h.numbered.generateSymbolId h.ok.parser hbase, .nil⟩

/-- What can stand before an operator. -/
structure Item (p : Parser) (sym : Rule) : Prop where
  nonempty : sym ≠ []
  piece : Piece p.symbolIds sym
  plain : Plain sym

/-- Whatever item stands before the operator, what is left of it has the words of the item as often as the operator says, in
every rule set that keeps the synthesized rules; and these are new. -/
def Desugars (alternates : UInt32 → Text → Parser → Except ParseError (Text × Parser)) (ruleName : Text) (isNested : Bool)
    (s : SeqState) (lo : Nat) (hi : Option Nat) : Prop :=
  ∀ sym, Item s.parser sym → ∃ s', parseItem alternates ruleName isNested { s with sym } = .ok (some s') ∧
    s'.rule = s.rule ∧ Fresh s.parser s'.parser (turns (toInt lo) (maxTimes hi)) ∧
    ∀ rules, KeepsNew rules s.parser s'.parser →
      (cfg rules).lang (sequence s'.sym) = repeats ((cfg rules).lang (sequence sym)) lo hi

/-- There is an id of 32 bits for every rule that is synthesized. -/
def Room (p : Parser) (lo : Nat) (hi : Option Nat) : Prop :=
  optionalTurns lo hi = 0 ∨ p.symbolIds.length + optionalTurns lo hi ≤ 2 ^ 32

/-- A single letter. -/
theorem lang_letter (rules : Rules) (c : UInt32) (w : List UInt32) :
    w ∈ (cfg rules).lang (sequence [⟨.char, c⟩]) ↔ w = [c] := by
  have hseq : sequence [⟨.char, c⟩] = [.cls (.chars true [⟨c, c⟩])] := rfl
  have hhit : ∀ d, (cfg rules).hit (.chars true [⟨c, c⟩]) d ↔ d = c := by
    intro d
    show ((∃ r ∈ [Range.mk c c], r.lo ≤ d ∧ d ≤ r.hi) ↔ true = true) ↔ _
    constructor
    · intro h
      obtain ⟨r, hr, hlo, hhi⟩ := h.mpr rfl
      rw [List.mem_singleton.mp hr] at hlo hhi
      exact UInt32.le_antisymm hhi hlo
    · rintro rfl
      exact ⟨fun _ => rfl, fun _ => ⟨_, List.mem_singleton.mpr rfl, UInt32.le_refl _, UInt32.le_refl _⟩⟩
  rw [hseq]
  cases w with
  | nil => simp
  | cons d w =>
      rw [Cfg.lang_cls, hhit, Cfg.lang_nil, List.cons_eq_cons]

theorem exists_handleRepetitions (ruleName : Text) (minTimes maxTimes : Int) (s : SeqState) (h : s.sym ≠ []) :
    ∃ s', handleRepetitions ruleName minTimes maxTimes s = .ok s' := by
  rw [handleRepetitions, if_neg (by simpa using h)]
  exact ⟨_, rfl⟩

/-- **Repetitions keep the language, and their rules are new, exactly when the numbers fit into an `int`, no range is
empty and there are ids left.** -/
theorem repetition_iff {ruleName : Text} {isNested : Bool} {s s₁ : SeqState} {lo : Nat} {hi : Option Nat} {depth : Nat}
    (h : Reached src ruleName isNested s) (hop : Operator isNested s.pos lo hi)
    (hrun : parseItem (parseAlternates ruleName depth true) ruleName isNested s = .ok (some s₁)) :
    Desugars (parseAlternates ruleName depth true) ruleName isNested s lo hi ↔ Fits lo hi ∧ Room s.parser lo hi := by
  obtain ⟨hbase, hs⟩ := h.counted
  obtain ⟨-, rest, hrest⟩ := hop.parseItem hrun
  have hcounted : ∀ {sym}, Item s.parser sym → Counted { s with pos := rest, sym } :=
    fun hsym => ⟨⟨hs.ok.parser, hs.ok.rule, hsym.piece⟩, hs.numbered, hsym.plain⟩
  constructor
  · intro hdes
    have hletter : Item s.parser [⟨.char, 97⟩] := ⟨by simp, Piece.single (by simp) (by simp), .single (by simp)⟩
    obtain ⟨s', hitem, -, hfresh, hlang⟩ := hdes _ hletter
    rw [hrest] at hitem
    obtain ⟨t, ht, heq⟩ := map_eq_ok hitem
    cases heq
    have hnum := (handleRepetitions_counted hbase (hcounted hletter) ht).numbered
    have hroom := hfresh.room hnum
    obtain ⟨-, -, hspec⟩ := handleRepetitions_spec hbase (hcounted hletter) hroom ht
    have heq := (hspec s'.parser.rules fun _ _ _ => rfl).symm.trans (hlang s'.parser.rules fun _ _ => rfl)
    have hfits := fits_iff.mp (bounds_of_repeats_eq (lang_letter _ 97) (leading_le _ _) heq)
    rw [turns_eq hfits] at hroom
    exact ⟨hfits, hroom⟩
  · rintro ⟨hfits, hroom⟩ sym hsym
    obtain ⟨t, ht⟩ := exists_handleRepetitions ruleName (toInt lo) (maxTimes hi)
      { s with pos := rest, sym } hsym.nonempty
    have hnum := (handleRepetitions_counted hbase (hcounted hsym) ht).numbered
    obtain ⟨hlo, hhi⟩ := fits_iff.mpr hfits
    have hroom' : turns (toInt lo) (maxTimes hi) = 0 ∨
        s.parser.symbolIds.length + turns (toInt lo) (maxTimes hi) ≤ 2 ^ 32 := by
      rw [turns_eq hfits]
      exact hroom
    obtain ⟨hrule, hkept, hspec⟩ := handleRepetitions_spec hbase (hcounted hsym) hroom' ht
    have hfresh := hkept.fresh hs.numbered hnum hroom'
    refine ⟨t, ?_, hrule, hfresh, fun rules hkeep => ?_⟩
    · rw [hrest, ht]
      rfl
    · rw [hspec rules (hfresh.keeps hnum hkeep), hhi, hlo]

/-- The one rule `root ::= "a"`, and an operator behind the letter. -/
def letterRepeated (operator : List Char) : Text :=
  (['r', 'o', 'o', 't', ' ', ':', ':', '=', ' ', '"', 'a', '"'] ++ operator).map Char.toUInt8

/-- Behind the letter. -/
def behindLetter (operator : List Char) : SeqState :=
  ⟨operator.map Char.toUInt8, [], [⟨.char, 97⟩], ⟨[(['r', 'o', 'o', 't'].map Char.toUInt8, 0)], []⟩⟩

theorem reached_star : Reached (letterRepeated ['*']) (['r', 'o', 'o', 't'].map Char.toUInt8) false (behindLetter ['*']) :=
  .item (.rule .start (by decide) rfl) 0 (by rfl)

/-- `root ::= "a"*` -/
theorem repetition_iff_star :
    Desugars (parseAlternates (['r', 'o', 'o', 't'].map Char.toUInt8) 0 true) (['r', 'o', 'o', 't'].map Char.toUInt8) false
      (behindLetter ['*']) 0 none ↔ Fits 0 none ∧ Room (behindLetter ['*']).parser 0 none :=
  repetition_iff reached_star (.star []) (by rfl)

/-- The digits of 2 ^ 32. -/
def overflowDigits : List Char := ['4', '2', '9', '4', '9', '6', '7', '2', '9', '6']

theorem reached_overflow : Reached (letterRepeated ('\x7b' :: (overflowDigits ++ ['\x7d'])))
    (['r', 'o', 'o', 't'].map Char.toUInt8) false (behindLetter ('\x7b' :: (overflowDigits ++ ['\x7d']))) :=
  .item (.rule .start (by decide) rfl) 0 (by rfl)

theorem operator_overflow :
    Operator false (behindLetter ('\x7b' :: (overflowDigits ++ ['\x7d']))).pos (2 ^ 32) (some (2 ^ 32)) := by
  have hnumber : Number (parseSpace ((overflowDigits ++ ['\x7d']).map Char.toUInt8) false) (2 ^ 32) ['\x7d'.toUInt8] :=
    ⟨overflowDigits.map Char.toUInt8, rfl, by decide +kernel, by decide +kernel, by decide +kernel, by decide +kernel⟩
  exact @Operator.exactly false _ _ [] _ hnumber rfl

/-- `root ::= "a"\x7b4294967296\x7d` : the number becomes the `int` 0, and nothing is left of the letter. -/
theorem overflow_not_desugars : ∃ (name : Text) (s s' : SeqState) (operator : List Char),
    Reached (letterRepeated operator) name false s ∧ Operator false s.pos (2 ^ 32) (some (2 ^ 32)) ∧
      parseItem (parseAlternates name 0 true) name false s = .ok (some s') ∧ s'.sym = [] ∧
      ¬ Desugars (parseAlternates name 0 true) name false s (2 ^ 32) (some (2 ^ 32)) := by
  have hrun : parseItem (parseAlternates (['r', 'o', 'o', 't'].map Char.toUInt8) 0 true)
    (['r', 'o', 'o', 't'].map Char.toUInt8)
      false (behindLetter ('\x7b' :: (overflowDigits ++ ['\x7d']))) =
        .ok (some { behindLetter [] with sym := [] }) := by
    have hbounds : parseBounds false (parseSpace ((overflowDigits ++ ['\x7d']).map Char.toUInt8) false) = .ok (0, 0, []) := by
      decide +kernel
    refine (parseItem_brace _ _ _ _ _ _ _).trans ?_
    rw [hbounds]
    rfl
  refine ⟨_, _, _, _, reached_overflow, operator_overflow, hrun, rfl, fun hdes => ?_⟩
  obtain ⟨t, ht, -, -, hlang⟩ := hdes [⟨.char, 97⟩] ⟨by simp, Piece.single (by simp) (by simp), .single (by simp)⟩
  obtain rfl := Option.some.inj (Except.ok.inj (ht.symm.trans hrun))
  -- the empty word is left, which is no repetition
  have hempty : List.replicate 0 97 ∈ (cfg (behindLetter []).parser.rules).lang (sequence []) := Cfg.lang_nil.mpr rfl
  have heq := hlang (behindLetter []).parser.rules fun _ _ => rfl
  dsimp only at heq
  rw [heq, replicate_mem_repeats (lang_letter _ 97)] at hempty
  exact absurd hempty.1 (by decide)

end Runs

end S2Moe.Grammar
