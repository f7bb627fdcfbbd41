import S2Moe.Grammar.Rules

/-!
# Reading a grammar

The parser turns the text of a grammar into the flat arrays. Groups and repetitions become rules of their own, with names that
no rule of the text can have. The text is read through a pointer, which is the rest of the text here; behind it is a zero.

* `parseSpace`, `parseName`, `parseInt`, `parseChar` : the words of the language;
* `Parser` : the ids of the names, and the rules so far;
* `SeqState` : the rule that is being written, cut where its last symbol starts, so that a repetition can rewrite that;
* `parseItem`, `parseSequence`, `parseAlternates`, `parseRule`, `parse` : the levels of the grammar.

The loops take fuel, of which the length of the text is enough: every turn reads a byte.
-/

namespace S2Moe.Grammar

/-- What a `const char *` can read. -/
abbrev Text := List UInt8

/-- `*pos`. -/
def deref (pos : Text) : UInt8 := pos.headD 0

/-- The text of a `std::runtime_error`, with what it quotes of the source. -/
inductive ParseError where
  | fuel
  | message (before : String) (quoted : Text) (behind : String)
deriving DecidableEq

def errorAt {α : Type} (before : String) (pos : Text) : Except ParseError α := .error (.message before pos "")

def unexpectedEnd {α : Type} : Except ParseError α := .error (.message "unexpected end of input" [] "")

section Words

/-- `is_digit_char`. -/
def isDigitChar (c : UInt8) : Bool := '0'.toUInt8 ≤ c && c ≤ '9'.toUInt8

/-- `is_word_char`. -/
def isWordChar (c : UInt8) : Bool :=
  ('a'.toUInt8 ≤ c && c ≤ 'z'.toUInt8) || ('A'.toUInt8 ≤ c && c ≤ 'Z'.toUInt8) || c == '-'.toUInt8 || isDigitChar c

/-- `parse_space` : in a comment everything is passed up to the end of the line. -/
def skipSpace (newlineOk : Bool) : Bool → Text → Text
  | _, [] => []
  | inComment, c :: pos =>
    let newline := c == '\r'.toUInt8 || c == '\n'.toUInt8
    if inComment && c != 0 && !newline then skipSpace newlineOk true pos
    else if c == ' '.toUInt8 || c == '\t'.toUInt8 then skipSpace newlineOk false pos
    else if c == '#'.toUInt8 then skipSpace newlineOk true pos
    else if newlineOk && newline then skipSpace newlineOk false pos
    else c :: pos

def parseSpace (src : Text) (newlineOk : Bool) : Text := skipSpace newlineOk false src

/-- `parse_name`, with the name itself. -/
def parseName (src : Text) : Except ParseError (Text × Text) :=
  if (src.takeWhile isWordChar).isEmpty then errorAt "expecting name at " src
  else .ok (src.takeWhile isWordChar, src.dropWhile isWordChar)

/-- `parse_int`, with the digits. -/
def parseInt (src : Text) : Except ParseError (Text × Text) :=
  if (src.takeWhile isDigitChar).isEmpty then errorAt "expecting integer at " src
  else .ok (src.takeWhile isDigitChar, src.dropWhile isDigitChar)

/-- `std::stoul` of digits, converted to an `int`. -/
def stoul (digits : Text) : Except ParseError Int :=
  let n := digits.foldl (fun n c => 10 * n + (c.toNat - '0'.toNat)) 0
  if n < 2 ^ 64 then .ok ((n : Int).bmod (2 ^ 32)) else .error (.message "stoul" [] "")

/-- `decode_utf8` : the bytes after the first, up to the end of the text. -/
def decodeTail : Nat → Text → UInt32 → UInt32 × Text
  | 0, pos, value => (value, pos)
  | _ + 1, [], value => (value, [])
  | n + 1, c :: pos, value =>
    if c = 0 then (value, c :: pos) else decodeTail n pos ((value <<< 6) + (c &&& 0x3F).toUInt32)

def decodeUtf8 (src : Text) : UInt32 × Text :=
  let firstByte := deref src
  let len := [1, 1, 1, 1, 1, 1, 1, 1, 1, 1, 1, 1, 2, 2, 3, 4].getD (firstByte >>> 4).toNat 1
  let mask := UInt8.ofNat (2 ^ (8 - len) - 1)
  decodeTail (len - 1) src.tail (firstByte &&& mask).toUInt32

def hexDigit (c : UInt8) : Option UInt32 :=
  if 'a'.toUInt8 ≤ c && c ≤ 'f'.toUInt8 then some (c - 'a'.toUInt8 + 10).toUInt32
  else if 'A'.toUInt8 ≤ c && c ≤ 'F'.toUInt8 then some (c - 'A'.toUInt8 + 10).toUInt32
  else if '0'.toUInt8 ≤ c && c ≤ '9'.toUInt8 then some (c - '0'.toUInt8).toUInt32
  else none

def hexDigits : Nat → Text → UInt32 → Option (UInt32 × Text)
  | 0, pos, value => some (value, pos)
  | _ + 1, [], _ => none
  | n + 1, c :: pos, value =>
    match hexDigit c with
    | some d => hexDigits n pos ((value <<< 4) + d)
    | none => none

/-- `parse_hex`. -/
def parseHex (src : Text) (size : Nat) : Except ParseError (UInt32 × Text) :=
  match hexDigits size src 0 with
  | some r => .ok r
  | none => errorAt ("expecting " ++ toString size ++ " hex chars at ") src

/-- `parse_char`. -/
def parseChar (src : Text) : Except ParseError (UInt32 × Text) :=
  if deref src = '\\'.toUInt8 then
    let c := deref (src.drop 1)
    if c = 'x'.toUInt8 then parseHex (src.drop 2) 2
    else if c = 'u'.toUInt8 then parseHex (src.drop 2) 4
    else if c = 'U'.toUInt8 then parseHex (src.drop 2) 8
    else if c = 't'.toUInt8 then .ok ('\t'.val, src.drop 2)
    else if c = 'r'.toUInt8 then .ok ('\r'.val, src.drop 2)
    else if c = 'n'.toUInt8 then .ok ('\n'.val, src.drop 2)
    else if c = '\\'.toUInt8 || c = '"'.toUInt8 || c = '['.toUInt8 || c = ']'.toUInt8 then .ok (c.toUInt32, src.drop 2)
    else errorAt "unknown escape at " src
  else if deref src ≠ 0 then .ok (decodeUtf8 src)
  else unexpectedEnd

end Words

section Ids

/-- `llama_grammar_parser`. -/
structure Parser where
  symbolIds : List (Text × UInt32)
  rules : Rules

/-- The decimal digits of `std::to_string`. -/
def decimal (n : Nat) : Text := (Nat.toDigits 10 n).map Char.toUInt8

/-- The id of the next name. -/
def Parser.nextId (p : Parser) : UInt32 := UInt32.ofNat p.symbolIds.length

/-- `get_symbol_id`. -/
def Parser.getSymbolId (p : Parser) (name : Text) : UInt32 × Parser :=
  match p.symbolIds.lookup name with
  | some id => (id, p)
  | none => (p.nextId, { p with symbolIds := p.symbolIds ++ [(name, p.nextId)] })

/-- `generate_symbol_id`. -/
def Parser.generateSymbolId (p : Parser) (baseName : Text) : UInt32 × Parser :=
  let name := baseName ++ '_'.toUInt8 :: decimal p.nextId.toNat
  let symbolIds :=
    match p.symbolIds.lookup name with
    | some _ => p.symbolIds.map fun kv => if kv.1 = name then (name, p.nextId) else kv
    | none => p.symbolIds ++ [(name, p.nextId)]
  (p.nextId, { p with symbolIds })

/-- `add_rule`. -/
def Parser.addRule (p : Parser) (ruleId : UInt32) (rule : Rule) : Parser :=
  let rules := p.rules ++ .replicate (ruleId.toNat + 1 - p.rules.length) []
  { p with rules := rules.set ruleId.toNat rule }

end Ids

section Sequences

/-- The loop of `parse_sequence` : the rule is `rule ++ sym`, and `last_sym_start` the length of `rule`. -/
structure SeqState where
  pos : Text
  rule : Rule
  sym : Rule
  parser : Parser

/-- A new symbol. -/
def SeqState.next (s : SeqState) (pos : Text) (sym : Rule) (parser : Parser) : SeqState :=
  ⟨pos, s.rule ++ s.sym, sym, parser⟩

/-- The rules `S'` of `handle_repetitions`. -/
def recRules (ruleName : Text) (prevRule : Rule) (unbounded : Bool) : Nat → Bool → UInt32 → Parser → UInt32 × Parser
  | 0, _, lastRecRuleId, p => (lastRecRuleId, p)
  | n + 1, first, lastRecRuleId, p =>
    let (recRuleId, p) := p.generateSymbolId ruleName
    let again : Rule :=
      if !first || unbounded then [⟨.ruleRef, if unbounded then recRuleId else lastRecRuleId⟩] else []
    recRules ruleName prevRule unbounded n false recRuleId
      (p.addRule recRuleId (prevRule ++ again ++ [⟨.alt, 0⟩, ⟨.endRule, 0⟩]))

/-- `handle_repetitions`. -/
def handleRepetitions (ruleName : Text) (minTimes maxTimes : Int) (s : SeqState) : Except ParseError SeqState :=
  if s.sym.isEmpty then errorAt "expecting preceding item to */+/?/\x7b at " s.pos
  else
    let sym := if minTimes = 0 then [] else s.sym ++ (List.replicate (minTimes - 1).toNat s.sym).flatten
    let nOpt := if maxTimes < 0 then 1 else maxTimes - minTimes
    let (lastRecRuleId, parser) := recRules ruleName s.sym (decide (maxTimes < 0)) nOpt.toNat true 0 s.parser
    let ref : Rule := if nOpt > 0 then [⟨.ruleRef, lastRecRuleId⟩] else []
    .ok { s with sym := sym ++ ref, parser }

/-- The characters of a literal string. -/
def parseLiteral : Nat → Text → Rule → Except ParseError (Text × Rule)
  | 0, _, _ => .error .fuel
  | fuel + 1, pos, sym =>
    if deref pos = '"'.toUInt8 then .ok (pos.drop 1, sym)
    else if deref pos = 0 then unexpectedEnd
    else do
      let (c, pos) ← parseChar pos
      parseLiteral fuel pos (sym ++ [⟨.char, c⟩])

/-- The characters and ranges of a class. -/
def parseClass (startType : Gretype) : Nat → Text → Rule → Except ParseError (Text × Rule)
  | 0, _, _ => .error .fuel
  | fuel + 1, pos, sym =>
    if deref pos = ']'.toUInt8 then .ok (pos.drop 1, sym)
    else if deref pos = 0 then unexpectedEnd
    else do
      let (c, pos) ← parseChar pos
      let type := if sym.isEmpty then startType else .charAlt
      if deref pos = '-'.toUInt8 ∧ deref (pos.drop 1) ≠ ']'.toUInt8 then
        if deref (pos.drop 1) = 0 then unexpectedEnd
        else do
          let (upper, pos) ← parseChar (pos.drop 1)
          parseClass startType fuel pos (sym ++ [⟨type, c⟩, ⟨.charRngUpper, upper⟩])
      else parseClass startType fuel pos (sym ++ [⟨type, c⟩])

/-- The numbers between braces; a maximum of -1 is none. -/
def parseBounds (isNested : Bool) (pos : Text) : Except ParseError (Int × Int × Text) := do
  if !isDigitChar (deref pos) then errorAt "expecting an int at " pos
  else
    let (digits, intEnd) ← parseInt pos
    let minTimes ← stoul digits
    let pos := parseSpace intEnd isNested
    if deref pos = '\x7d'.toUInt8 then .ok (minTimes, minTimes, parseSpace (pos.drop 1) isNested)
    else if deref pos = ','.toUInt8 then
      let pos := parseSpace (pos.drop 1) isNested
      let (maxTimes, pos) ←
        if isDigitChar (deref pos) then do
          let (digits, intEnd) ← parseInt pos
          let maxTimes ← stoul digits
          pure (maxTimes, parseSpace intEnd isNested)
        else pure (-1, pos)
      if deref pos ≠ '\x7d'.toUInt8 then errorAt "expecting '\x7d' at " pos
      else .ok (minTimes, maxTimes, parseSpace (pos.drop 1) isNested)
    else errorAt "expecting ',' at " pos

/-- One turn of the loop of `parse_sequence`, unless it ends there. A group is parsed by `alternates`. -/
def parseItem (alternates : UInt32 → Text → Parser → Except ParseError (Text × Parser)) (ruleName : Text) (isNested : Bool)
    (s : SeqState) : Except ParseError (Option SeqState) :=
  let c := deref s.pos
  if c = '"'.toUInt8 then do
    let (pos, sym) ← parseLiteral (s.pos.length + 1) (s.pos.drop 1) []
    .ok (some (s.next (parseSpace pos isNested) sym s.parser))
  else if c = '['.toUInt8 then do
    let pos := s.pos.drop 1
    let negated := deref pos = '^'.toUInt8
    let (pos, sym) ← parseClass (if negated then .charNot else .char) (s.pos.length + 1)
      (if negated then pos.drop 1 else pos) []
    .ok (some (s.next (parseSpace pos isNested) sym s.parser))
  else if isWordChar c then do
    let (name, nameEnd) ← parseName s.pos
    let (refRuleId, parser) := s.parser.getSymbolId name
    .ok (some (s.next (parseSpace nameEnd isNested) [⟨.ruleRef, refRuleId⟩] parser))
  else if c = '('.toUInt8 then do
    let (subRuleId, parser) := s.parser.generateSymbolId ruleName
    let (pos, parser) ← alternates subRuleId (parseSpace (s.pos.drop 1) true) parser
    if deref pos ≠ ')'.toUInt8 then errorAt "expecting ')' at " pos
    else .ok (some (s.next (parseSpace (pos.drop 1) isNested) [⟨.ruleRef, subRuleId⟩] parser))
  else if c = '.'.toUInt8 then
    .ok (some (s.next (parseSpace (s.pos.drop 1) isNested) [⟨.charAny, 0⟩] s.parser))
  else if c = '*'.toUInt8 then
    some <$> handleRepetitions ruleName 0 (-1) { s with pos := parseSpace (s.pos.drop 1) isNested }
  else if c = '+'.toUInt8 then
    some <$> handleRepetitions ruleName 1 (-1) { s with pos := parseSpace (s.pos.drop 1) isNested }
  else if c = '?'.toUInt8 then
    some <$> handleRepetitions ruleName 0 1 { s with pos := parseSpace (s.pos.drop 1) isNested }
  else if c = '\x7b'.toUInt8 then do
    let (minTimes, maxTimes, pos) ← parseBounds isNested (parseSpace (s.pos.drop 1) isNested)
    some <$> handleRepetitions ruleName minTimes maxTimes { s with pos }
  else .ok none

/-- `parse_sequence`. -/
def parseSequence (alternates : UInt32 → Text → Parser → Except ParseError (Text × Parser)) (ruleName : Text)
    (isNested : Bool) : Nat → SeqState → Except ParseError SeqState
  | 0, _ => .error .fuel
  | fuel + 1, s => do
    match ← parseItem alternates ruleName isNested s with
    | none => .ok s
    | some s => parseSequence alternates ruleName isNested fuel s

/-- The further alternates of `parse_alternates`. -/
def parseMore (alternates : UInt32 → Text → Parser → Except ParseError (Text × Parser)) (ruleName : Text)
    (isNested : Bool) : Nat → SeqState → Except ParseError SeqState
  | 0, _ => .error .fuel
  | fuel + 1, s =>
    if deref s.pos = '|'.toUInt8 then do
      let pos := parseSpace (s.pos.drop 1) true
      let s ← parseSequence alternates ruleName isNested (pos.length + 1)
        ⟨pos, s.rule ++ s.sym ++ [⟨.alt, 0⟩], [], s.parser⟩
      parseMore alternates ruleName isNested fuel s
    else .ok s

/-- `parse_alternates` : the first argument bounds how deep groups are nested. -/
def parseAlternates (ruleName : Text) : Nat → Bool → UInt32 → Text → Parser → Except ParseError (Text × Parser)
  | 0, _, _, _, _ => .error .fuel
  | depth + 1, isNested, ruleId, src, p => do
    let alternates := parseAlternates ruleName depth true
    let s ← parseSequence alternates ruleName isNested (src.length + 1) ⟨src, [], [], p⟩
    let s ← parseMore alternates ruleName isNested (src.length + 1) s
    .ok (s.pos, s.parser.addRule ruleId (s.rule ++ s.sym ++ [⟨.endRule, 0⟩]))

end Sequences

/-- `parse_rule`. -/
def parseRule (src : Text) (p : Parser) : Except ParseError (Text × Parser) := do
  let (name, nameEnd) ← parseName src
  let pos := parseSpace nameEnd false
  let (ruleId, p) := p.getSymbolId name
  if !(deref pos = ':'.toUInt8 && deref (pos.drop 1) = ':'.toUInt8 && deref (pos.drop 2) = '='.toUInt8) then
    errorAt "expecting ::= at " pos
  else
    let pos := parseSpace (pos.drop 3) true
    let (pos, p) ← parseAlternates name (pos.length + 1) false ruleId pos p
    if deref pos = '\r'.toUInt8 then
      .ok (parseSpace (pos.drop (if deref (pos.drop 1) = '\n'.toUInt8 then 2 else 1)) true, p)
    else if deref pos = '\n'.toUInt8 then .ok (parseSpace (pos.drop 1) true, p)
    else if deref pos ≠ 0 then errorAt "expecting newline or end at " pos
    else .ok (parseSpace pos true, p)

/-- The loop of `parse`. -/
def parseRules : Nat → Text → Parser → Except ParseError Parser
  | 0, _, _ => .error .fuel
  | fuel + 1, pos, p =>
    if deref pos = 0 then .ok p
    else do
      let (pos, p) ← parseRule pos p
      parseRules fuel pos p

/-- The check of one element : the rule that it refers to exists. -/
def checkElement (p : Parser) (elem : Element) : Except ParseError Unit :=
  if elem.type = .ruleRef ∧ (p.rules.getD elem.value.toNat []).isEmpty then
    match p.symbolIds.find? fun kv => kv.2 == elem.value with
    | some kv => .error (.message "Undefined rule identifier '" kv.1 "'")
    | none => .ok ()
  else .ok ()

def checkRule (p : Parser) (rule : Rule) : Except ParseError Unit :=
  if rule.isEmpty then .error (.message "Undefined rule" [] "") else rule.forM (checkElement p)

/-- `llama_grammar_parser::parse`. -/
def parse (src : Text) : Except ParseError Parser := do
  let p ← parseRules (src.length + 1) (parseSpace src true) ⟨[], []⟩
  p.rules.forM (checkRule p)
  .ok p

end S2Moe.Grammar
