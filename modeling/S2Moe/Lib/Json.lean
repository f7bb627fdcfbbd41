import Mathlib.Data.List.Basic

/-!
# The texts of JSON

The bytes of a value as they may be written, with any white space and any escapes.

* `Piece`, `literal`, `decode` : the pieces of a string, its text and what it says;
* `Number`, `Value` : the texts of numbers and of values;
* `Member`, `Document` : the top-level members of an object, and a text with nothing else.
-/

namespace S2Moe.Lib.Json

abbrev Bytes := List UInt8

def quote : UInt8 := 0x22
def backslash : UInt8 := 0x5c
def colon : UInt8 := 0x3a
def comma : UInt8 := 0x2c

section Strings

/-- The escapes of one letter. -/
inductive Short where
  | quote | backslash | slash | backspace | formFeed | lineFeed | carriageReturn | tab
deriving DecidableEq

/-- The letter behind the backslash. -/
def Short.letter : Short → UInt8
  | .quote => 0x22
  | .backslash => 0x5c
  | .slash => 0x2f
  | .backspace => 0x62
  | .formFeed => 0x66
  | .lineFeed => 0x6e
  | .carriageReturn => 0x72
  | .tab => 0x74

/-- The byte that is meant. -/
def Short.byte : Short → UInt8
  | .quote => 0x22
  | .backslash => 0x5c
  | .slash => 0x2f
  | .backspace => 0x08
  | .formFeed => 0x0c
  | .lineFeed => 0x0a
  | .carriageReturn => 0x0d
  | .tab => 0x09

def IsDigit (b : UInt8) : Prop := 0x30 ≤ b ∧ b ≤ 0x39

def IsHex (b : UInt8) : Prop := IsDigit b ∨ 0x41 ≤ b ∧ b ≤ 0x46 ∨ 0x61 ≤ b ∧ b ≤ 0x66

instance : DecidablePred IsDigit := fun b => inferInstanceAs (Decidable (0x30 ≤ b ∧ b ≤ 0x39))

instance : DecidablePred IsHex := fun b =>
  inferInstanceAs (Decidable (IsDigit b ∨ 0x41 ≤ b ∧ b ≤ 0x46 ∨ 0x61 ≤ b ∧ b ≤ 0x66))

def hexValue (b : UInt8) : Nat :=
  if b ≤ 0x39 then b.toNat - 0x30 else if b ≤ 0x46 then b.toNat - 0x37 else b.toNat - 0x57

/-- The four digits behind `\u`. -/
structure Hex4 where
  digits : Bytes
  length_eq : digits.length = 4
  isHex : ∀ b ∈ digits, IsHex b

def Hex4.value (u : Hex4) : Nat := u.digits.foldl (fun n b => 16 * n + hexValue b) 0

/-- A piece of a string; the surrogates come in pairs. -/
inductive Piece where
  | plain (b : UInt8) (h : 0x20 ≤ b ∧ b ≠ quote ∧ b ≠ backslash)
  | short (e : Short)
  | unicode (u : Hex4) (h : u.value < 0xd800 ∨ 0xdfff < u.value)
  | pair (high low : Hex4) (h : 0xd800 ≤ high.value ∧ high.value < 0xdc00) (h' : 0xdc00 ≤ low.value ∧ low.value < 0xe000)

def Piece.text : Piece → Bytes
  | .plain b _ => [b]
  | .short e => [backslash, e.letter]
  | .unicode u _ => backslash :: 0x75 :: u.digits
  | .pair high low _ _ => backslash :: 0x75 :: high.digits ++ backslash :: 0x75 :: low.digits

/-- What a piece says, in UTF-8. -/
def Piece.decode : Piece → Bytes
  | .plain b _ => [b]
  | .short e => [e.byte]
  | .unicode u _ => String.utf8EncodeChar (Char.ofNat u.value)
  | .pair high low _ _ =>
    String.utf8EncodeChar (Char.ofNat (0x10000 + 0x400 * (high.value - 0xd800) + (low.value - 0xdc00)))

/-- The text between the quotes. -/
def raw (s : List Piece) : Bytes := s.flatMap Piece.text

def literal (s : List Piece) : Bytes := quote :: raw s ++ [quote]

def decode (s : List Piece) : Bytes := s.flatMap Piece.decode

theorem Hex4.value_lt (u : Hex4) : u.value < 0x10000 := by
  have hdigit : ∀ b : UInt8, IsHex b → hexValue b < 16 := by
    intro b hb
    unfold IsHex IsDigit at hb
    unfold hexValue
    simp only [UInt8.le_iff_toNat_le, UInt8.reduceToNat] at hb ⊢
    split_ifs <;> omega
  obtain ⟨digits, hlen, hhex⟩ := u
  obtain ⟨a, b, c, d, rfl⟩ := List.length_eq_four.mp hlen
  have ha := hdigit a (hhex a (by simp))
  have hb := hdigit b (hhex b (by simp))
  have hc := hdigit c (hhex c (by simp))
  have hd := hdigit d (hhex d (by simp))
  simp only [Hex4.value, List.foldl_cons, List.foldl_nil]
  omega

/-- A code point of the basic plane takes three bytes at most. -/
theorem length_decode_unicode (u : Hex4) (h : u.value < 0xd800 ∨ 0xdfff < u.value) :
    (Piece.unicode u h).decode.length ≤ 3 := by
  have hlt := u.value_lt
  have hvalid : u.value.isValidChar := by
    unfold Nat.isValidChar
    omega
  have hval : (Char.ofNat u.value).val.toNat = u.value := by
    rw [Char.ofNat, dif_pos hvalid]
    rfl
  show (String.utf8EncodeChar (Char.ofNat u.value)).length ≤ 3
  rw [String.length_utf8EncodeChar, Char.utf8Size]
  simp only [UInt32.le_iff_toNat_le, UInt32.toNat_ofNatLT, hval]
  split_ifs <;> omega

theorem length_decode_pair (high low : Hex4) (h : 0xd800 ≤ high.value ∧ high.value < 0xdc00)
    (h' : 0xdc00 ≤ low.value ∧ low.value < 0xe000) : (Piece.pair high low h h').decode.length ≤ 4 := by
  have hlen : ∀ c : Char, (String.utf8EncodeChar c).length ≤ 4 := by
    intro c
    rw [String.length_utf8EncodeChar]
    exact Char.utf8Size_le_four c
  rw [Piece.decode]
  exact hlen _

end Strings

section Values

/-- White space. -/
def Blank (t : Bytes) : Prop := ∀ b ∈ t, b = 0x20 ∨ b = 0x09 ∨ b = 0x0a ∨ b = 0x0d

instance (t : Bytes) : Decidable (Blank t) :=
  List.decidableBAll (fun b => b = 0x20 ∨ b = 0x09 ∨ b = 0x0a ∨ b = 0x0d) t

def Digits (t : Bytes) : Prop := t ≠ [] ∧ ∀ b ∈ t, IsDigit b

/-- A number : a sign, an integer without leading zeros, a fraction and an exponent. -/
structure Number (t : Bytes) : Prop where
  parts : ∃ sign int frac exp : Bytes, t = sign ++ int ++ frac ++ exp ∧ (sign = [] ∨ sign = [0x2d]) ∧
    Digits int ∧ (int.head? = some 0x30 → int = [0x30]) ∧
    (frac = [] ∨ ∃ digits, Digits digits ∧ frac = 0x2e :: digits) ∧
    (exp = [] ∨ ∃ e sign digits : Bytes, (e = [0x65] ∨ e = [0x45]) ∧ (sign = [] ∨ sign = [0x2b] ∨ sign = [0x2d]) ∧
      Digits digits ∧ exp = e ++ sign ++ digits)

/-- `null`, `true` and `false` -/
def words : List Bytes :=
  [[0x6e, 0x75, 0x6c, 0x6c], [0x74, 0x72, 0x75, 0x65], [0x66, 0x61, 0x6c, 0x73, 0x65]]

/-- An element of an array, with the white space around it. -/
structure Item where
  before : Bytes
  value : Bytes
  behind : Bytes

def Item.text (x : Item) : Bytes := x.before ++ x.value ++ x.behind

def Item.Spaced (x : Item) : Prop := Blank x.before ∧ Blank x.behind

/-- A member of an object, with the white space around the name and the value. -/
structure Member where
  before : Bytes
  name : List Piece
  behind : Bytes
  ahead : Bytes
  value : Bytes
  after : Bytes

def Member.text (m : Member) : Bytes :=
  m.before ++ literal m.name ++ m.behind ++ [colon] ++ m.ahead ++ m.value ++ m.after

def Member.Spaced (m : Member) : Prop := Blank m.before ∧ Blank m.behind ∧ Blank m.ahead ∧ Blank m.after

/-- What is between the braces or the brackets : white space, if there is nothing else. -/
def body (blank : Bytes) (texts : List Bytes) : Bytes := if texts = [] then blank else [comma].intercalate texts

/-- **The texts of values.** -/
inductive Value : Bytes → Prop
  | word {t : Bytes} (h : t ∈ words) : Value t
  | number {t : Bytes} (h : Number t) : Value t
  | string (s : List Piece) : Value (literal s)
  | array {blank : Bytes} {items : List Item} (hblank : Blank blank) (hspaced : ∀ x ∈ items, x.Spaced)
      (h : ∀ x ∈ items, Value x.value) : Value ([0x5b] ++ body blank (items.map Item.text) ++ [0x5d])
  | object {blank : Bytes} {members : List Member} (hblank : Blank blank) (hspaced : ∀ m ∈ members, m.Spaced)
      (h : ∀ m ∈ members, Value m.value) : Value ([0x7b] ++ body blank (members.map Member.text) ++ [0x7d])

/-- A text with one object. -/
structure Document where
  lead : Bytes
  blank : Bytes
  members : List Member
  trail : Bytes
  lead_blank : Blank lead
  blank_blank : Blank blank
  trail_blank : Blank trail
  spaced : ∀ m ∈ members, m.Spaced
  values : ∀ m ∈ members, Value m.value

def Document.text (d : Document) : Bytes := d.lead ++ ([0x7b] ++ body d.blank (d.members.map Member.text) ++ [0x7d]) ++
    d.trail

/-- The member of a name; where there are many, the last one counts. -/
def Document.member? (d : Document) (name : Bytes) : Option Member :=
  d.members.reverse.find? fun m => decide (decode m.name = name)

/-- What is in front of the first byte of a member's name. -/
def Document.front (d : Document) (before : List Member) (m : Member) : Bytes :=
  d.lead ++ [0x7b] ++ (before.map fun x => x.text ++ [comma]).flatten ++ m.before

theorem intercalate_split (sep : Bytes) (before : List Bytes) (t : Bytes) (behind : List Bytes) :
    ∃ rest, sep.intercalate (before ++ t :: behind) = (before.map (· ++ sep)).flatten ++ t ++ rest := by
  induction before with
  | nil =>
      cases behind with
      | nil => exact ⟨[], by simp⟩
      | cons u behind => exact ⟨sep ++ sep.intercalate (u :: behind), by simp⟩
  | cons u before ih =>
      obtain ⟨rest, hrest⟩ := ih
      refine ⟨rest, ?_⟩
      cases hb : before ++ t :: behind with
      | nil => simp at hb
      | cons v more =>
          rw [List.cons_append, hb, List.intercalate_cons_cons, ← hb, hrest]
          simp

/-- The text from a member's name on. -/
theorem Document.text_split {d : Document} {before behind : List Member} {m : Member}
    (h : d.members = before ++ m :: behind) :
    ∃ rest, d.text = d.front before m ++ (literal m.name ++ m.behind ++ [colon] ++ m.ahead ++ m.value ++ rest) := by
  obtain ⟨rest, hrest⟩ := intercalate_split [comma] (before.map Member.text) m.text (behind.map Member.text)
  refine ⟨m.after ++ rest ++ [0x7d] ++ d.trail, ?_⟩
  have hbody : body d.blank (d.members.map Member.text) =
      (before.map fun x => x.text ++ [comma]).flatten ++ m.text ++ rest := by
    rw [body, if_neg (by simp [h]), h, List.map_append, List.map_cons, hrest, List.map_map]
    rfl
  rw [Document.text, hbody, Member.text, Document.front]
  simp only [List.append_assoc]

end Values

end S2Moe.Lib.Json
