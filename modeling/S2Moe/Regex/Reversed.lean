import Mathlib
import S2Moe.Lib.Run

/-!
# The pattern for a partial match

* `reversedPartialRegex` : `regex_to_reversed_partial_regex`; what it reads behind the pattern is an error;
* `Simple`, `Inside`, `LooksBehind` : how a pattern is scanned, a group that is left, and where the scan comes to read
behind the end;
* `Element`, `Alternatives` : the patterns that are written, with a group for each element but the first, and
`depth_alternatives` : their groups are balanced;
* `reversed_total_iff` : it returns such a pattern or throws exactly where the scan does not come to read behind the end.
-/

namespace S2Moe.Regex
open S2Moe.Lib

/-- `std::string`, character by character -/
abbrev Chars := List Char

/-- How the transformation stops. -/
inductive Fault where
  | thrown (what : String)
  | outOfRange
  | outOfFuel
deriving DecidableEq

section Scanner

/-- The class behind `[`, and what is behind it. Behind a backslash at the end of the pattern the iterator passes the end. -/
def scanClass : Chars → Except Fault (Chars × Chars)
  | [] => .error (.thrown "Unmatched '[' in pattern")
  | c :: rest =>
    if c = '\\' then
      match rest with
      | [] => .error .outOfRange
      | d :: rest => (fun x => (c :: d :: x.1, x.2)) <$> scanClass rest
    else if c = ']' then .ok ([c], rest)
    else (fun x => (c :: x.1, x.2)) <$> scanClass rest

/-- The repetition behind `\x7b`, and what is behind it. -/
def scanRepetition (rest : Chars) : Except Fault (Chars × Chars) :=
  match rest.dropWhile (· ≠ '\x7d') with
  | [] => .error (.thrown "Unmatched '\x7b' in pattern")
  | _ :: behind => .ok (rest.takeWhile (· ≠ '\x7d'), behind)

def isSpace (c : Char) : Bool := c = ' ' ∨ c = '\t' ∨ c = '\n' ∨ c = '\x0b' ∨ c = '\x0c' ∨ c = '\r'

/-- A number that is read is an `int`, or `std::out_of_range` is thrown. -/
def checkInt (n : Int) : Except Fault Int := if -2 ^ 31 ≤ n ∧ n < 2 ^ 31 then .ok n else .error (.thrown "stoi")

def numberOf (negative : Bool) (digits : Chars) : Except Fault Int :=
  let n : Int := digits.foldl (fun n d => 10 * n + (d.toNat - '0'.toNat)) 0
  if digits = [] then .error (.thrown "stoi") else checkInt (if negative then -n else n)

/-- `std::stoi` : the number in front of a text, behind white space and a sign. -/
def stoi (s : Chars) : Except Fault Int :=
  let s := s.dropWhile isSpace
  numberOf (s.head? = some '-') ((if s.head? = some '-' ∨ s.head? = some '+' then s.tail else s).takeWhile Char.isDigit)

/-- `parseOptInt` -/
def parseOptInt (s : Chars) (def_ : Option Int) : Except Fault (Option Int) :=
  if s = [] then .ok def_ else some <$> stoi s

/-- The second number, which is the first where there is no comma. -/
def parseMax (parts : List Chars) (min : Option Int) : Except Fault (Option Int) :=
  if parts.length = 1 then .ok min else parseOptInt (parts.getD 1 []) none

def checkRange (least : Int) : Option Int → Except Fault (Int × Option Int)
  | some most => if most < least then .error (.thrown "Invalid repetition range in pattern") else .ok (least, some most)
  | none => .ok (least, none)

/-- How often the element is repeated : at least, and at most. -/
def parseRepetition (inside : Chars) : Except Fault (Int × Option Int) :=
  let parts := inside.splitOn ','
  if parts.length > 2 then .error (.thrown "Invalid repetition range in pattern")
  else do
    let min ← parseOptInt (parts.getD 0 []) (some 0)
    let max ← parseMax parts min
    checkRange (min.getD 0) max

/-- The copies of an element that is repeated. -/
def copies (part : Chars) : Int × Option Int → List Chars
  | (least, some most) => List.replicate least.toNat part ++ List.replicate (most - least).toNat (part ++ ['?'])
  | (least, none) => List.replicate least.toNat part ++ [part ++ ['*']]

/-- `(` may be followed by `?:`. -/
def afterOpen : Chars → Chars
  | '?' :: ':' :: rest => rest
  | rest => rest

/-- What a round of the loop of `process` does. -/
inductive Move where
  | next (sequence : List Chars) (rest : Chars)
  | bar (rest : Chars)
  | group (rest : Chars)
  | close

/-- The branches of the loop of `process`. -/
def move (sequence : List Chars) (c : Char) (rest : Chars) : Except Fault Move :=
  if c = '[' then (fun x => .next (sequence ++ [c :: x.1]) x.2) <$> scanClass rest
  else if c = '*' ∨ c = '?' ∨ c = '+' then
    if sequence = [] then .error (.thrown "Quantifier without preceding element")
    else
      let sequence := sequence.dropLast ++ [sequence.getLastD [] ++ [c]]
      if c = '*' then
        match rest with
        | [] => .error .outOfRange
        | d :: behind => .ok (.next sequence (if d = '?' then behind else rest))
      else .ok (.next sequence rest)
  else if c = '\x7b' then
    if sequence = [] then .error (.thrown "Repetition without preceding element")
    else do
      let (inside, rest) ← scanRepetition rest
      let range ← parseRepetition inside
      .ok (.next (sequence.dropLast ++ copies (sequence.getLastD []) range) rest)
  else if c = '(' then .ok (.group (afterOpen rest))
  else if c = ')' then .ok .close
  else if c = '|' then .ok (.bar rest)
  else if c = '\\' then
    match rest with
    | [] => .ok (.next sequence [])
    | d :: rest => .ok (.next (sequence ++ [[c, d]]) rest)
  else .ok (.next (sequence ++ [[c]]) rest)

/-- `parts.size() - 1`, as a `size_t` -/
def lessOne (n : Nat) : Nat := if n = 0 then 2 ^ 64 - 1 else n - 1

/-- An alternative that is written : its elements in reverse, in a group each but the first. -/
def alternative (parts : List Chars) : Chars :=
  (List.replicate (parts.length - 1) ['(', '?', ':']).flatten ++ [')', '?'].intercalate parts.reverse

/-- The opening groups of an alternative. They are as many as a string holds, or `std::length_error` is thrown. -/
def emit (maxSize : Nat) : List (List Chars) → Except Fault (List Chars)
  | [] => .ok []
  | parts :: alternatives =>
    if maxSize < 3 * lessOne parts.length then .error (.thrown "basic_string::append")
    else (fun texts => alternative parts :: texts) <$> emit maxSize alternatives

/-- `process` : the pattern that is written, and what is left of the pattern that is read. -/
def process (maxSize : Nat) : Nat → List (List Chars) → List Chars → Chars → Except Fault (Chars × Chars)
  | 0, _, _, _ => .error .outOfFuel
  | _ + 1, alternatives, sequence, [] =>
    (fun texts => (['|'].intercalate texts, [])) <$> emit maxSize (alternatives ++ [sequence])
  | fuel + 1, alternatives, sequence, c :: rest => do
    match ← move sequence c rest with
    | .next sequence rest => process maxSize fuel alternatives sequence rest
    | .bar rest => process maxSize fuel (alternatives ++ [sequence]) [] rest
    | .close => (fun texts => (['|'].intercalate texts, c :: rest)) <$> emit maxSize (alternatives ++ [sequence])
    | .group rest =>
      let (sub, rest) ← process maxSize fuel [] [] rest
      match rest with
      | [] => .error .outOfRange
      | d :: rest =>
        if d ≠ ')' then .error (.thrown "Unmatched '(' in pattern")
        else process maxSize fuel alternatives (sequence ++ [['(', '?', ':'] ++ sub ++ [')']]) rest

/-- What comes behind the one capturing group. -/
def anything : Chars := [')', '[', '\\', 's', '\\', 'S', ']', '*']

/-- `regex_to_reversed_partial_regex` -/
def reversedPartialRegex (maxSize : Nat) (pattern : Chars) : Except Fault Chars := do
  let (res, rest) ← process maxSize (pattern.length + 1) [] [] pattern
  if rest ≠ [] then .error (.thrown "Unmatched '(' in pattern")
  else .ok (['('] ++ res ++ anything)

end Scanner

section Scan

/-- A class that ends behind a backslash. -/
inductive ClassCut : Chars → Prop
  | cut : ClassCut ['\\']
  | escape {d : Char} {rest : Chars} (h : ClassCut rest) : ClassCut ('\\' :: d :: rest)
  | char {c : Char} {rest : Chars} (hc : c ≠ '\\') (hc' : c ≠ ']') (h : ClassCut rest) : ClassCut (c :: rest)

theorem scanClass_cons (c : Char) (rest : Chars) : scanClass (c :: rest) =
    if c = '\\' then
      match rest with
      | [] => .error .outOfRange
      | d :: rest => (fun x => (c :: d :: x.1, x.2)) <$> scanClass rest
    else if c = ']' then .ok ([c], rest)
    else (fun x => (c :: x.1, x.2)) <$> scanClass rest := by
  cases rest with
  | nil => rfl
  | cons d rest => rfl

theorem map_eq_error {α β : Type} {x : Except Fault α} {f : α → β} {e : Fault} : f <$> x = .error e ↔ x = .error e := by
  cases x with
  | error _ => exact ⟨fun h => (by cases h; rfl), fun h => (by cases h; rfl)⟩
  | ok _ => exact ⟨fun h => (by cases h), fun h => (by cases h)⟩

theorem scanClass_cut : ∀ {body : Chars}, scanClass body = .error .outOfRange ↔ ClassCut body
  | [] => ⟨fun h => (by cases h), fun h => (by cases h)⟩
  | [c] => by
    rw [scanClass_cons]
    by_cases hc : c = '\\'
    · subst hc
      exact iff_of_true rfl .cut
    · refine iff_of_false (fun h => ?_) fun h => ?_
      · rw [if_neg hc] at h
        by_cases hc' : c = ']'
        · rw [if_pos hc'] at h
          cases h
        · rw [if_neg hc', map_eq_error] at h
          cases h
      · cases h with
        | cut => exact hc rfl
        | char _ _ h => cases h
  | c :: d :: rest => by
    rw [scanClass_cons]
    by_cases hc : c = '\\'
    · subst hc
      show (fun x => _) <$> scanClass rest = _ ↔ _
      rw [map_eq_error, scanClass_cut]
      refine ⟨.escape, fun h => ?_⟩
      cases h with
      | escape h => exact h
      | char hc _ _ => exact absurd rfl hc
    · rw [if_neg hc]
      by_cases hc' : c = ']'
      · rw [if_pos hc']
        refine iff_of_false (fun h => by cases h) fun h => ?_
        cases h with
        | escape _ => exact hc rfl
        | char _ h _ => exact h hc'
      · rw [if_neg hc', map_eq_error, scanClass_cut]
        refine ⟨.char hc hc', fun h => ?_⟩
        cases h with
        | escape _ => exact absurd rfl hc
        | char _ _ h => exact h

/-- The characters that are more than themselves. -/
def special : List Char := ['[', '*', '?', '+', '\x7b', '(', ')', '|', '\\']

/-- The number of elements of an alternative behind a repetition. -/
def repeated (n : Nat) : Int × Option Int → Nat
  | (least, some most) => n - 1 + least.toNat + (most - least).toNat
  | (least, none) => n - 1 + least.toNat + 1

/-- **What is scanned at a time, groups apart** : the number of elements of the alternative before and behind, and what is
left. -/
inductive Simple : Nat → Chars → Nat → Chars → Prop
  | cls {n : Nat} {body cls rest : Chars} (h : scanClass body = .ok (cls, rest)) : Simple n ('[' :: body) (n + 1) rest
  | quantifier {n : Nat} {c : Char} {rest : Chars} (hn : 0 < n) (hc : c = '?' ∨ c = '+') : Simple n (c :: rest) n rest
  | star {n : Nat} {d : Char} {rest : Chars} (hn : 0 < n) :
    Simple n ('*' :: d :: rest) n (if d = '?' then rest else d :: rest)
  | repetition {n : Nat} {text inside rest : Chars} {range : Int × Option Int} (hn : 0 < n)
      (h : scanRepetition text = .ok (inside, rest)) (hrange : parseRepetition inside = .ok range) :
      Simple n ('\x7b' :: text) (repeated n range) rest
  | escape {n : Nat} {d : Char} {rest : Chars} : Simple n ('\\' :: d :: rest) (n + 1) rest
  | backslash {n : Nat} : Simple n ['\\'] n []
  | char {n : Nat} {c : Char} {rest : Chars} (h : c ∉ special) : Simple n (c :: rest) (n + 1) rest

/-- The opening groups of so many elements fit a string: there is one, at least. -/
def Fits (maxSize n : Nat) : Prop := 3 * lessOne n ≤ maxSize

variable {maxSize : Nat}

/-- **The scan of a group comes to its end** : at `)`, or at the end of the pattern. Each of its alternatives has an
element. -/
inductive Inside (maxSize : Nat) : Nat → Chars → Chars → Prop
  | ends {n : Nat} (hn : Fits maxSize n) : Inside maxSize n [] []
  | closes {n : Nat} {rest : Chars} (hn : Fits maxSize n) : Inside maxSize n (')' :: rest) (')' :: rest)
  | simple {n n' : Nat} {text text' rest : Chars} (h : Simple n text n' text') (hmore : Inside maxSize n' text' rest) :
      Inside maxSize n text rest
  | bar {n : Nat} {text rest : Chars} (hn : Fits maxSize n) (hmore : Inside maxSize 0 text rest) :
      Inside maxSize n ('|' :: text) rest
  | group {n : Nat} {text text' rest : Chars} (h : Inside maxSize 0 (afterOpen text) (')' :: text'))
      (hmore : Inside maxSize (n + 1) text' rest) : Inside maxSize n ('(' :: text) rest

/-- **The scan reads behind the end** : behind a last `*`, in a class that ends behind a backslash, or for the end of a
group. -/
inductive LooksBehind (maxSize : Nat) : Nat → Chars → Prop
  | star {n : Nat} (hn : 0 < n) : LooksBehind maxSize n ['*']
  | cls {n : Nat} {body : Chars} (h : ClassCut body) : LooksBehind maxSize n ('[' :: body)
  | unclosed {n : Nat} {text : Chars} (h : Inside maxSize 0 (afterOpen text) []) : LooksBehind maxSize n ('(' :: text)
  | within {n : Nat} {text : Chars} (h : LooksBehind maxSize 0 (afterOpen text)) : LooksBehind maxSize n ('(' :: text)
  | simple {n n' : Nat} {text text' : Chars} (h : Simple n text n' text') (hmore : LooksBehind maxSize n' text') :
      LooksBehind maxSize n text
  | bar {n : Nat} {text : Chars} (hmore : LooksBehind maxSize 0 text) : LooksBehind maxSize n ('|' :: text)
  | group {n : Nat} {text text' : Chars} (h : Inside maxSize 0 (afterOpen text) (')' :: text'))
      (hmore : LooksBehind maxSize (n + 1) text') : LooksBehind maxSize n ('(' :: text)

/-! ## The patterns that are written -/

/-- An element of an alternative : a class, an escaped character, a character, or a group, and its quantifiers. -/
inductive Element : Chars → Prop
  | cls {body cls rest : Chars} (h : scanClass body = .ok (cls, rest)) : Element ('[' :: cls)
  | escape (d : Char) : Element ['\\', d]
  | char {c : Char} (h : c ∉ special) : Element [c]
  | group {alternatives : List (List Chars)} (hne : ∀ parts ∈ alternatives, parts ≠ [])
      (h : ∀ parts ∈ alternatives, ∀ p ∈ parts, Element p) :
      Element (['(', '?', ':'] ++ ['|'].intercalate (alternatives.map alternative) ++ [')'])
  | quantified {p : Chars} {c : Char} (h : Element p) (hc : c = '*' ∨ c = '?' ∨ c = '+') : Element (p ++ [c])

/-- What a round of the loop may do. -/
inductive Moves (sequence : List Chars) : Char → Chars → Except Fault Move → Prop
  | next {c : Char} {rest rest' : Chars} {sequence' : List Chars}
      (h : Simple sequence.length (c :: rest) sequence'.length rest') (hlen : rest'.length ≤ rest.length)
      (helement : (∀ p ∈ sequence, Element p) → ∀ p ∈ sequence', Element p) :
      Moves sequence c rest (.ok (.next sequence' rest'))
  | group {rest : Chars} : Moves sequence '(' rest (.ok (.group (afterOpen rest)))
  | close {rest : Chars} : Moves sequence ')' rest (.ok .close)
  | bar {rest : Chars} : Moves sequence '|' rest (.ok (.bar rest))
  | thrown {c : Char} {rest : Chars} {what : String} : Moves sequence c rest (.error (.thrown what))
  | behind {c : Char} {rest : Chars} (h : ∀ maxSize, LooksBehind maxSize sequence.length (c :: rest)) :
      Moves sequence c rest (.error .outOfRange)

theorem scanClass_length : ∀ {body cls rest : Chars}, scanClass body = .ok (cls, rest) → rest.length ≤ body.length
  | [], cls, rest, h => by cases h
  | [c], cls, rest, h => by
    rw [scanClass_cons] at h
    by_cases hc : c = '\\'
    · rw [if_pos hc] at h
      cases h
    · rw [if_neg hc] at h
      by_cases hc' : c = ']'
      · rw [if_pos hc'] at h
        cases h
        exact Nat.zero_le _
      · rw [if_neg hc'] at h
        obtain ⟨x, hx, -⟩ := map_eq_ok h
        cases hx
  | c :: d :: behind, cls, rest, h => by
    rw [scanClass_cons] at h
    by_cases hc : c = '\\'
    · rw [if_pos hc] at h
      obtain ⟨x, hx, hrest⟩ := map_eq_ok h
      have hle := scanClass_length hx
      cases hrest
      simp only [List.length_cons]
      omega
    · rw [if_neg hc] at h
      by_cases hc' : c = ']'
      · rw [if_pos hc'] at h
        cases h
        exact Nat.le_succ _
      · rw [if_neg hc'] at h
        obtain ⟨x, hx, hrest⟩ := map_eq_ok h
        have hle := scanClass_length hx
        cases hrest
        simp only [List.length_cons] at hle ⊢
        omega

theorem scanClass_ne_outOfFuel : ∀ {body : Chars}, scanClass body ≠ .error .outOfFuel
  | [], h => by cases h
  | [c], h => by
    rw [scanClass_cons] at h
    by_cases hc : c = '\\'
    · rw [if_pos hc] at h
      cases h
    · rw [if_neg hc] at h
      by_cases hc' : c = ']'
      · rw [if_pos hc'] at h
        cases h
      · rw [if_neg hc', map_eq_error] at h
        cases h
  | c :: d :: rest, h => by
    rw [scanClass_cons] at h
    by_cases hc : c = '\\'
    · rw [if_pos hc] at h
      exact scanClass_ne_outOfFuel (map_eq_error.mp h)
    · rw [if_neg hc] at h
      by_cases hc' : c = ']'
      · rw [if_pos hc'] at h
        cases h
      · rw [if_neg hc', map_eq_error] at h
        exact scanClass_ne_outOfFuel h

theorem scanRepetition_throws {text : Chars} {e : Fault} (h : scanRepetition text = .error e) : ∃ what, e = .thrown what := by
  rw [scanRepetition] at h
  split at h
  · cases h
    exact ⟨_, rfl⟩
  · cases h

theorem checkInt_throws {n : Int} {e : Fault} (h : checkInt n = .error e) : ∃ what, e = .thrown what := by
  unfold checkInt at h
  split at h
  · cases h
  · cases h
    exact ⟨_, rfl⟩

theorem numberOf_throws {negative : Bool} {digits : Chars} {e : Fault} (h : numberOf negative digits = .error e) :
    ∃ what, e = .thrown what := by
  unfold numberOf at h
  dsimp only at h
  by_cases hd : digits = []
  · rw [if_pos hd] at h
    cases h
    exact ⟨_, rfl⟩
  · rw [if_neg hd] at h
    exact checkInt_throws h

theorem parseOptInt_throws {s : Chars} {o : Option Int} {e : Fault} (h : parseOptInt s o = .error e) :
    ∃ what, e = .thrown what := by
  unfold parseOptInt at h
  split at h
  · cases h
  · exact numberOf_throws (map_eq_error.mp h)

theorem bind_eq_error {α β : Type} {x : Except Fault α} {f : α → Except Fault β} {e : Fault} (h : (x >>= f) = .error e) :
    x = .error e ∨ ∃ a, x = .ok a ∧ f a = .error e := by
  cases x with
  | error _ =>
      cases h
      exact .inl rfl
  | ok a => exact .inr ⟨a, rfl, h⟩

theorem parseRepetition_throws {inside : Chars} {e : Fault} (h : parseRepetition inside = .error e) :
    ∃ what, e = .thrown what := by
  unfold parseRepetition at h
  dsimp only at h
  split at h
  · cases h
    exact ⟨_, rfl⟩
  · rcases bind_eq_error h with h | ⟨min, -, h⟩
    · exact parseOptInt_throws h
    rcases bind_eq_error h with h | ⟨max, -, h⟩
    · unfold parseMax at h
      split at h
      · cases h
      · exact parseOptInt_throws h
    · unfold checkRange at h
      split at h
      · split at h
        · cases h
          exact ⟨_, rfl⟩
        · cases h
      · cases h

theorem scanRepetition_length {text inside rest : Chars} (h : scanRepetition text = .ok (inside, rest)) :
    rest.length ≤ text.length := by
  rw [scanRepetition] at h
  cases hd : text.dropWhile (· ≠ '\x7d') with
  | nil =>
      rw [hd] at h
      cases h
  | cons c behind =>
      rw [hd] at h
      cases h
      have hle : (text.dropWhile (· ≠ '\x7d')).length ≤ text.length := (List.dropWhile_suffix _).length_le
      rw [hd, List.length_cons] at hle
      omega

theorem length_afterOpen (rest : Chars) : (afterOpen rest).length ≤ rest.length := by
  unfold afterOpen
  split
  · simp only [List.length_cons]
    omega
  · exact (Nat.le_refl _)

/-- The last element is changed. -/
theorem length_dropLast_append {sequence : List Chars} (hne : sequence ≠ []) (p : Chars) :
    (sequence.dropLast ++ [p]).length = sequence.length := by
  have hpos := List.length_pos_of_ne_nil hne
  rw [List.length_append, List.length_dropLast, List.length_singleton]
  omega

theorem length_copies (sequence : List Chars) (part : Chars) (range : Int × Option Int) :
    (sequence.dropLast ++ copies part range).length = repeated sequence.length range := by
  obtain ⟨least, most⟩ := range
  cases most with
  | none =>
      simp only [copies, repeated, List.length_append, List.length_dropLast, List.length_replicate, List.length_singleton]
      omega
  | some most =>
      simp only [copies, repeated, List.length_append, List.length_dropLast, List.length_replicate]
      omega

theorem mem_copies {part p : Chars} {range : Int × Option Int} (h : p ∈ copies part range) :
    p = part ∨ p = part ++ ['?'] ∨ p = part ++ ['*'] := by
  obtain ⟨least, most⟩ := range
  cases most with
  | none =>
      rcases List.mem_append.mp h with h | h
      · exact .inl (List.eq_of_mem_replicate h)
      · exact .inr (.inr (List.mem_singleton.mp h))
  | some most =>
      rcases List.mem_append.mp h with h | h
      · exact .inl (List.eq_of_mem_replicate h)
      · exact .inr (.inl (List.eq_of_mem_replicate h))

theorem element_getLastD {sequence : List Chars} (hne : sequence ≠ []) (h : ∀ p ∈ sequence, Element p) :
    Element (sequence.getLastD []) := by
  rw [List.getLastD_eq_getLast?, List.getLast?_eq_some_getLast hne, Option.getD_some]
  exact h _ (List.getLast_mem hne)

/-- **What a round of the loop does.** -/
theorem moves (sequence : List Chars) (c : Char) (rest : Chars) : Moves sequence c rest (move sequence c rest) := by
  have hkeep : ∀ {p : Chars}, Element p → (∀ q ∈ sequence, Element q) → ∀ q ∈ sequence ++ [p], Element q := by
    intro p hp h q hq
    rcases List.mem_append.mp hq with hq | hq
    · exact h q hq
    · rw [List.mem_singleton.mp hq]
      exact hp
  unfold move
  by_cases hclass : c = '['
  · subst hclass
    rw [if_pos rfl]
    cases hscan : scanClass rest with
    | error e =>
        cases e with
        | thrown what => exact .thrown
        | outOfRange => exact .behind fun _ => .cls (scanClass_cut.mp hscan)
        | outOfFuel => exact absurd hscan scanClass_ne_outOfFuel
    | ok x =>
        refine .next ?_ (scanClass_length hscan) (hkeep (.cls hscan))
        rw [List.length_append]
        exact .cls hscan
  rw [if_neg hclass]
  by_cases hquant : c = '*' ∨ c = '?' ∨ c = '+'
  · rw [if_pos hquant]
    by_cases hne : sequence = []
    · rw [if_pos hne]
      exact .thrown
    rw [if_neg hne]
    have hpos := List.length_pos_of_ne_nil hne
    have hlast := length_dropLast_append hne (sequence.getLastD [] ++ [c])
    have helement : (∀ p ∈ sequence, Element p) →
        ∀ p ∈ sequence.dropLast ++ [sequence.getLastD [] ++ [c]], Element p := by
      intro h p hp
      rcases List.mem_append.mp hp with hp | hp
      · exact h p (List.dropLast_subset _ hp)
      · rw [List.mem_singleton.mp hp]
        exact .quantified (element_getLastD hne h) hquant
    dsimp only
    by_cases hstar : c = '*'
    · subst hstar
      rw [if_pos rfl]
      cases rest with
      | nil => exact .behind fun _ => .star hpos
      | cons d behind =>
          refine .next ?_ ?_ helement
          · rw [hlast]
            exact .star hpos
          · split
            · exact Nat.le_succ _
            · exact (Nat.le_refl _)
    · rw [if_neg hstar]
      refine .next ?_ (Nat.le_refl _) helement
      rw [hlast]
      exact .quantifier hpos (hquant.resolve_left hstar)
  rw [if_neg hquant]
  by_cases hrep : c = '\x7b'
  · subst hrep
    rw [if_pos rfl]
    by_cases hne : sequence = []
    · rw [if_pos hne]
      exact .thrown
    rw [if_neg hne]
    cases hscan : scanRepetition rest with
    | error e =>
        obtain ⟨what, rfl⟩ := scanRepetition_throws hscan
        exact .thrown
    | ok x =>
        obtain ⟨inside, behind⟩ := x
        cases hrange : parseRepetition inside with
        | error e =>
            obtain ⟨what, rfl⟩ := parseRepetition_throws hrange
            show Moves sequence '\x7b' rest
              (do
                let range ← parseRepetition inside
                .ok (.next (sequence.dropLast ++ copies (sequence.getLastD []) range) behind))
            rw [hrange]
            exact .thrown
        | ok range =>
            show Moves sequence '\x7b' rest
              (do
                let range ← parseRepetition inside
                .ok (.next (sequence.dropLast ++ copies (sequence.getLastD []) range) behind))
            rw [hrange]
            refine .next ?_ (scanRepetition_length hscan) fun h p hp => ?_
            · rw [length_copies]
              exact .repetition (List.length_pos_of_ne_nil hne) hscan hrange
            · have hlast := element_getLastD hne h
              rcases List.mem_append.mp hp with hp | hp
              · exact h p (List.dropLast_subset _ hp)
              · rcases mem_copies hp with rfl | rfl | rfl
                · exact hlast
                · exact .quantified hlast (.inr (.inl rfl))
                · exact .quantified hlast (.inl rfl)
  rw [if_neg hrep]
  by_cases hopen : c = '('
  · subst hopen
    exact .group
  rw [if_neg hopen]
  by_cases hclose : c = ')'
  · subst hclose
    exact .close
  rw [if_neg hclose]
  by_cases hbar : c = '|'
  · subst hbar
    exact .bar
  rw [if_neg hbar]
  by_cases hescape : c = '\\'
  · subst hescape
    rw [if_pos rfl]
    cases rest with
    | nil => exact .next .backslash (Nat.le_refl _) id
    | cons d rest =>
        refine .next ?_ (Nat.le_succ _) (hkeep (.escape d))
        rw [List.length_append]
        exact .escape
  rw [if_neg hescape]
  have hspecial : c ∉ special := by
    rw [not_or, not_or] at hquant
    simp [special, hclass, hquant.1, hquant.2.1, hquant.2.2, hrep, hopen, hclose, hbar, hescape]
  refine .next ?_ (Nat.le_refl _) (hkeep (.char hspecial))
  rw [List.length_append]
  exact .char hspecial

theorem Simple.length_lt {n n' : Nat} {text text' : Chars} (h : Simple n text n' text') : text'.length < text.length := by
  cases h with
  | cls h => exact Nat.lt_succ_of_le (scanClass_length h)
  | quantifier _ _ => exact Nat.lt_succ_self _
  | star _ =>
      split
      · simp only [List.length_cons]
        omega
      · simp only [List.length_cons]
        omega
  | repetition _ h _ => exact Nat.lt_succ_of_le (scanRepetition_length h)
  | escape =>
      simp only [List.length_cons]
      omega
  | backslash => exact Nat.one_pos
  | char _ => exact Nat.lt_succ_self _

/-- What is scanned is what a round of the loop does. -/
theorem Simple.move {n n' : Nat} {text text' : Chars} (h : Simple n text n' text') {sequence : List Chars}
    (hlen : sequence.length = n) :
    ∃ c rest sequence', text = c :: rest ∧ move sequence c rest = .ok (.next sequence' text') ∧ sequence'.length = n' := by
  have happend : ∀ p : Chars, (sequence ++ [p]).length = n + 1 := fun p => by rw [List.length_append, hlen]; rfl
  have hne : 0 < n → sequence ≠ [] := fun hn => List.ne_nil_of_length_pos (hlen ▸ hn)
  cases h with
  | @cls body cls _ h =>
      refine ⟨'[', body, sequence ++ ['[' :: cls], rfl, ?_, happend _⟩
      rw [Regex.move.eq_def, if_pos rfl, h]
      rfl
  | @quantifier c rest hn hc =>
      refine ⟨c, text', _, rfl, ?_, (length_dropLast_append (hne hn) (sequence.getLastD [] ++ [c])).trans hlen⟩
      rcases hc with rfl | rfl
      all_goals
        rw [Regex.move.eq_def, if_neg (by decide), if_pos (by decide), if_neg (hne hn)]
        exact if_neg (by decide)
  | @star d rest hn =>
      refine ⟨'*', d :: rest, _, rfl, ?_, (length_dropLast_append (hne hn) (sequence.getLastD [] ++ ['*'])).trans hlen⟩
      rw [Regex.move.eq_def, if_neg (by decide), if_pos (by decide), if_neg (hne hn)]
      exact if_pos rfl
  | @repetition text inside _ range hn h hrange =>
      refine ⟨'\x7b', text, sequence.dropLast ++ copies (sequence.getLastD []) range, rfl, ?_, ?_⟩
      · rw [Regex.move.eq_def, if_neg (by decide), if_neg (by decide), if_pos rfl, if_neg (hne hn), h]
        show (parseRepetition inside >>= fun range => _) = _
        rw [hrange]
        rfl
      · rw [length_copies, hlen]
  | escape => exact ⟨_, _, _, rfl, rfl, happend _⟩
  | backslash => exact ⟨_, _, _, rfl, rfl, hlen⟩
  | @char c rest h =>
      simp only [special, List.mem_cons, List.not_mem_nil, or_false, not_or] at h
      obtain ⟨h₁, h₂, h₃, h₄, h₅, h₆, h₇, h₈, h₉⟩ := h
      refine ⟨c, text', sequence ++ [[c]], rfl, ?_, happend _⟩
      rw [Regex.move.eq_def, if_neg h₁, if_neg (by simp [h₂, h₃, h₄]), if_neg h₅, if_neg h₆, if_neg h₇, if_neg h₈, if_neg h₉]

theorem Inside.length_le {n : Nat} {text rest : Chars} (h : Inside maxSize n text rest) : rest.length ≤ text.length := by
  induction h with
  | ends _ => exact Nat.le_refl _
  | closes _ => exact Nat.le_refl _
  | simple h _ ih => exact Nat.le_trans ih (Nat.le_of_lt h.length_lt)
  | bar _ _ ih => exact Nat.le_succ_of_le ih
  | @group _ text _ _ _ _ ih ih' =>
      have hopen := length_afterOpen text
      simp only [List.length_cons] at ih ⊢
      omega

end Scan

section Process
variable {maxSize fuel : Nat} {alternatives : List (List Chars)} {sequence : List Chars}

theorem emit_ok : ∀ {alternatives : List (List Chars)}, (∀ parts ∈ alternatives, Fits maxSize parts.length) →
    emit maxSize alternatives = .ok (alternatives.map alternative)
  | [], _ => rfl
  | parts :: alternatives, h => by
    rw [emit, if_neg (Nat.not_lt.mpr (h parts List.mem_cons_self)), emit_ok fun p hp => h p (List.mem_cons_of_mem _ hp)]
    rfl

theorem emit_cases (alternatives : List (List Chars)) :
    (∀ parts ∈ alternatives, Fits maxSize parts.length) ∧ emit maxSize alternatives = .ok (alternatives.map alternative) ∨
      ∃ what, emit maxSize alternatives = .error (.thrown what) := by
  induction alternatives with
  | nil => exact .inl ⟨fun p hp => absurd hp List.not_mem_nil, rfl⟩
  | cons parts alternatives ih =>
      rw [emit]
      by_cases hfits : maxSize < 3 * lessOne parts.length
      · rw [if_pos hfits]
        exact .inr ⟨_, rfl⟩
      · rw [if_neg hfits]
        rcases ih with ⟨hall, hok⟩ | ⟨what, herror⟩
        · rw [hok]
          exact .inl ⟨List.forall_mem_cons.mpr ⟨Nat.not_lt.mp hfits, hall⟩, rfl⟩
        · rw [herror]
          exact .inr ⟨what, rfl⟩

/-- What comes behind a group. -/
def afterGroup (maxSize fuel : Nat) (alternatives : List (List Chars)) (sequence : List Chars) (x : Chars × Chars) :
    Except Fault (Chars × Chars) :=
  match x.2 with
  | [] => .error .outOfRange
  | d :: rest =>
    if d ≠ ')' then .error (.thrown "Unmatched '(' in pattern")
    else process maxSize fuel alternatives (sequence ++ [['(', '?', ':'] ++ x.1 ++ [')']]) rest

variable {c : Char} {rest rest' : Chars} {sequence' : List Chars}

theorem process_next (h : move sequence c rest = .ok (.next sequence' rest')) :
    process maxSize (fuel + 1) alternatives sequence (c :: rest) = process maxSize fuel alternatives sequence' rest' := by
  rw [process, h]
  rfl

theorem process_group : process maxSize (fuel + 1) alternatives sequence ('(' :: rest) =
    process maxSize fuel [] [] (afterOpen rest) >>= afterGroup maxSize fuel alternatives sequence := rfl

theorem process_bar : process maxSize (fuel + 1) alternatives sequence ('|' :: rest) =
    process maxSize fuel (alternatives ++ [sequence]) [] rest := rfl

theorem process_close : process maxSize (fuel + 1) alternatives sequence (')' :: rest) =
    (fun texts => (['|'].intercalate texts, ')' :: rest)) <$> emit maxSize (alternatives ++ [sequence]) := rfl

theorem process_error {e : Fault} (h : move sequence c rest = .error e) :
    process maxSize (fuel + 1) alternatives sequence (c :: rest) = .error e := by
  rw [process, h]
  rfl

theorem forall_mem_concat {P : List Chars → Prop} : (∀ parts ∈ alternatives ++ [sequence], P parts) ↔
    (∀ parts ∈ alternatives, P parts) ∧ P sequence := by
  simp only [List.mem_append, List.mem_singleton, or_imp, forall_and, forall_eq]

theorem process_ends (h : ∀ parts ∈ alternatives ++ [sequence], Fits maxSize parts.length) (behind : Chars) :
    ((fun texts => (['|'].intercalate texts, behind)) <$> emit maxSize (alternatives ++ [sequence]) : Except Fault _) =
      .ok (['|'].intercalate ((alternatives ++ [sequence]).map alternative), behind) := by
  rw [emit_ok h]
  rfl

/-- What is written at the end of a group. -/
theorem emit_eq_ok {behind : Chars} {x : Chars × Chars}
    (h : ((fun texts => (['|'].intercalate texts, behind)) <$> emit maxSize (alternatives ++ [sequence]) :
      Except Fault _) = .ok x) :
    (∀ parts ∈ alternatives ++ [sequence], Fits maxSize parts.length) ∧
      x = (['|'].intercalate ((alternatives ++ [sequence]).map alternative), behind) := by
  rcases @emit_cases maxSize (alternatives ++ [sequence]) with ⟨hfits, hok⟩ | ⟨what, herror⟩
  · rw [hok] at h
    exact ⟨hfits, (Except.ok.inj h).symm⟩
  · rw [herror] at h
    cases h

/-- **Where the scan comes to an end, `process` has returned.** -/
theorem process_inside {text : Chars} (h : Inside maxSize sequence.length text rest)
    (halt : ∀ parts ∈ alternatives, Fits maxSize parts.length) (hfuel : text.length < fuel) :
    ∃ s, process maxSize fuel alternatives sequence text = .ok (s, rest) := by
  generalize hn : sequence.length = n at h
  induction h generalizing alternatives sequence fuel with
  | ends hfits =>
      obtain ⟨fuel, rfl⟩ := Nat.exists_eq_add_one_of_ne_zero (Nat.ne_of_gt hfuel)
      subst hn
      exact ⟨_, process_ends (forall_mem_concat.mpr ⟨halt, hfits⟩) []⟩
  | @closes n rest hfits =>
      obtain ⟨fuel, rfl⟩ := Nat.exists_eq_add_one_of_ne_zero (Nat.ne_zero_of_lt hfuel)
      subst hn
      exact ⟨_, process_ends (forall_mem_concat.mpr ⟨halt, hfits⟩) (')' :: rest)⟩
  | simple hsimple _ ih =>
      obtain ⟨fuel, rfl⟩ := Nat.exists_eq_add_one_of_ne_zero (Nat.ne_zero_of_lt hfuel)
      have hlt := hsimple.length_lt
      obtain ⟨c, rest, sequence', rfl, hmove, hlen⟩ := hsimple.move hn
      rw [process_next hmove]
      exact ih halt (by omega) hlen
  | bar hfits _ ih =>
      obtain ⟨fuel, rfl⟩ := Nat.exists_eq_add_one_of_ne_zero (Nat.ne_zero_of_lt hfuel)
      subst hn
      rw [process_bar]
      exact ih (forall_mem_concat.mpr ⟨halt, hfits⟩) (Nat.lt_of_succ_lt_succ hfuel) rfl
  | @group n text text' rest hinner hmore ih ih' =>
      obtain ⟨fuel, rfl⟩ := Nat.exists_eq_add_one_of_ne_zero (Nat.ne_zero_of_lt hfuel)
      have hopen := length_afterOpen text
      have hle := hinner.length_le
      rw [List.length_cons] at hfuel hle
      obtain ⟨sub, hsub⟩ := @ih fuel [] [] (fun p hp => absurd hp List.not_mem_nil) (by omega) rfl
      obtain ⟨s, hs⟩ := @ih' fuel alternatives (sequence ++ [['(', '?', ':'] ++ sub ++ [')']]) halt (by omega)
        (by rw [List.length_append, hn]; rfl)
      refine ⟨s, ?_⟩
      rw [process_group, hsub]
      exact hs

/-- Where `process` returns, the scan comes to an end. -/
theorem inside_of_process {text s : Chars} (hfuel : text.length < fuel)
    (h : process maxSize fuel alternatives sequence text = .ok (s, rest)) :
    (∀ parts ∈ alternatives, Fits maxSize parts.length) ∧ Inside maxSize sequence.length text rest := by
  induction fuel generalizing alternatives sequence text s rest with
  | zero => exact absurd hfuel (Nat.not_lt_zero _)
  | succ fuel ih =>
      cases text with
      | nil =>
          obtain ⟨hfits, hx⟩ := emit_eq_ok h
          cases hx
          exact (forall_mem_concat.mp hfits).imp_right .ends
      | cons c text =>
          have hlt : text.length < fuel := Nat.lt_of_succ_lt_succ hfuel
          have hmoves := moves sequence c text
          generalize hm : move sequence c text = m at hmoves
          cases hmoves with
          | next hsimple hlen _ =>
              rw [process_next hm] at h
              exact (ih (by omega) h).imp_right (.simple hsimple)
          | group =>
              rw [process_group] at h
              obtain ⟨⟨sub, behind⟩, hinner, h⟩ := bind_eq_ok h
              have hopen := length_afterOpen text
              have hinside := (ih (by omega) hinner).2
              have hle := hinside.length_le
              rw [afterGroup] at h
              cases behind with
              | nil => cases h
              | cons d behind =>
                  dsimp only at h
                  by_cases hd : d = ')'
                  · subst hd
                    rw [if_neg (not_not.mpr rfl)] at h
                    rw [List.length_cons] at hle
                    obtain ⟨hfits, hmore⟩ := ih (by omega) h
                    rw [List.length_append] at hmore
                    exact ⟨hfits, .group hinside hmore⟩
                  · rw [if_pos hd] at h
                    cases h
          | close =>
              rw [process_close] at h
              obtain ⟨hfits, hx⟩ := emit_eq_ok h
              cases hx
              exact (forall_mem_concat.mp hfits).imp_right .closes
          | bar =>
              rw [process_bar] at h
              obtain ⟨hfits, hmore⟩ := ih hlt h
              obtain ⟨halt, hseq⟩ := forall_mem_concat.mp hfits
              exact ⟨halt, .bar hseq hmore⟩
          | thrown =>
              rw [process_error hm] at h
              cases h
          | behind _ =>
              rw [process_error hm] at h
              cases h

/-- The end of a group may throw. -/
theorem emit_eq_error {behind : Chars} {e : Fault}
    (h : ((fun texts => (['|'].intercalate texts, behind)) <$> emit maxSize (alternatives ++ [sequence]) : Except Fault _) =
      .error e) : ∃ what, e = .thrown what := by
  rw [map_eq_error] at h
  rcases @emit_cases maxSize (alternatives ++ [sequence]) with ⟨-, hok⟩ | ⟨what, herror⟩
  · rw [hok] at h
    cases h
  · rw [herror] at h
    cases h
    exact ⟨what, rfl⟩

theorem process_looksBehind {text : Chars} (h : LooksBehind maxSize sequence.length text) (hfuel : text.length < fuel) :
    process maxSize fuel alternatives sequence text = .error .outOfRange := by
  generalize hn : sequence.length = n at h
  induction h generalizing alternatives sequence fuel with
  | star hpos =>
      obtain ⟨fuel, rfl⟩ := Nat.exists_eq_add_one_of_ne_zero (Nat.ne_zero_of_lt hfuel)
      refine process_error ?_
      rw [move.eq_def, if_neg (by decide), if_pos (by decide), if_neg (List.ne_nil_of_length_pos (hn ▸ hpos))]
      exact if_pos rfl
  | cls hcut =>
      obtain ⟨fuel, rfl⟩ := Nat.exists_eq_add_one_of_ne_zero (Nat.ne_zero_of_lt hfuel)
      refine process_error ?_
      rw [move.eq_def, if_pos rfl, scanClass_cut.mpr hcut]
      rfl
  | @unclosed n text hinside =>
      obtain ⟨fuel, rfl⟩ := Nat.exists_eq_add_one_of_ne_zero (Nat.ne_zero_of_lt hfuel)
      have hopen := length_afterOpen text
      rw [List.length_cons] at hfuel
      obtain ⟨sub, hsub⟩ := @process_inside maxSize fuel [] [] [] _ hinside (fun p hp => absurd hp List.not_mem_nil)
        (by omega)
      rw [process_group, hsub]
      rfl
  | @within n text _ ih =>
      obtain ⟨fuel, rfl⟩ := Nat.exists_eq_add_one_of_ne_zero (Nat.ne_zero_of_lt hfuel)
      have hopen := length_afterOpen text
      rw [List.length_cons] at hfuel
      rw [process_group, ih (by omega) rfl]
      rfl
  | simple hsimple _ ih =>
      obtain ⟨fuel, rfl⟩ := Nat.exists_eq_add_one_of_ne_zero (Nat.ne_zero_of_lt hfuel)
      have hlt := hsimple.length_lt
      obtain ⟨c, rest, sequence', rfl, hmove, hlen⟩ := hsimple.move hn
      rw [process_next hmove]
      exact ih (by omega) hlen
  | bar _ ih =>
      obtain ⟨fuel, rfl⟩ := Nat.exists_eq_add_one_of_ne_zero (Nat.ne_zero_of_lt hfuel)
      rw [process_bar]
      exact ih (Nat.lt_of_succ_lt_succ hfuel) rfl
  | @group n text text' hinside _ ih =>
      obtain ⟨fuel, rfl⟩ := Nat.exists_eq_add_one_of_ne_zero (Nat.ne_zero_of_lt hfuel)
      have hopen := length_afterOpen text
      have hle := hinside.length_le
      rw [List.length_cons] at hfuel hle
      obtain ⟨sub, hsub⟩ := @process_inside maxSize fuel [] [] _ _ hinside (fun p hp => absurd hp List.not_mem_nil) (by omega)
      rw [process_group, hsub]
      exact @ih fuel alternatives (sequence ++ [['(', '?', ':'] ++ sub ++ [')']]) (by omega)
        (by rw [List.length_append, hn]; rfl)

/-- **An error is thrown, or the scan reads behind the end.** -/
theorem error_of_process {text : Chars} {e : Fault} (hfuel : text.length < fuel)
    (h : process maxSize fuel alternatives sequence text = .error e) :
    (∃ what, e = .thrown what) ∨ e = .outOfRange ∧ LooksBehind maxSize sequence.length text := by
  induction fuel generalizing alternatives sequence text with
  | zero => exact absurd hfuel (Nat.not_lt_zero _)
  | succ fuel ih =>
      cases text with
      | nil => exact .inl (emit_eq_error h)
      | cons c text =>
          have hlt : text.length < fuel := Nat.lt_of_succ_lt_succ hfuel
          have hmoves := moves sequence c text
          generalize hm : move sequence c text = m at hmoves
          cases hmoves with
          | next hsimple hlen _ =>
              rw [process_next hm] at h
              exact (ih (by omega) h).imp_right fun h => ⟨h.1, .simple hsimple h.2⟩
          | group =>
              have hopen := length_afterOpen text
              rw [process_group] at h
              rcases bind_eq_error h with h | ⟨⟨sub, behind⟩, hinner, h⟩
              · exact (ih (by omega) h).imp_right fun h => ⟨h.1, .within h.2⟩
              · have hinside := (inside_of_process (by omega) hinner).2
                have hle := hinside.length_le
                rw [afterGroup] at h
                cases behind with
                | nil =>
                    cases h
                    exact .inr ⟨rfl, .unclosed hinside⟩
                | cons d behind =>
                    dsimp only at h
                    by_cases hd : d = ')'
                    · subst hd
                      rw [if_neg (not_not.mpr rfl)] at h
                      rw [List.length_cons] at hle
                      refine (ih (by omega) h).imp_right fun h => ⟨h.1, .group hinside ?_⟩
                      have hmore := h.2
                      rwa [List.length_append] at hmore
                    · rw [if_pos hd] at h
                      cases h
                      exact .inl ⟨_, rfl⟩
          | close =>
              rw [process_close] at h
              exact .inl (emit_eq_error h)
          | bar =>
              rw [process_bar] at h
              exact (ih hlt h).imp_right fun h => ⟨h.1, .bar h.2⟩
          | thrown =>
              rw [process_error hm] at h
              cases h
              exact .inl ⟨_, rfl⟩
          | behind hbehind =>
              rw [process_error hm] at h
              cases h
              exact .inr ⟨rfl, hbehind maxSize⟩

end Process

section Written
variable {maxSize : Nat}

/-- The groups that are open behind a text, `none` if one is closed that is not open. Escaped characters and classes are
passed. -/
def depth : Bool → Nat → Chars → Option Nat
  | inClass, d, [] => if inClass then none else some d
  | inClass, d, c :: rest =>
    if c = '\\' then
      match rest with
      | [] => none
      | _ :: rest => depth inClass d rest
    else if inClass then depth (c ≠ ']') d rest
    else if c = '[' then depth true d rest
    else if c = '(' then depth false (d + 1) rest
    else if c = ')' then if d = 0 then none else depth false (d - 1) rest
    else depth false d rest

/-- As many groups are open behind a text as before. -/
def Balanced (t : Chars) : Prop := ∀ d rest, depth false d (t ++ rest) = depth false d rest

theorem Balanced.append {t u : Chars} (ht : Balanced t) (hu : Balanced u) : Balanced (t ++ u) := fun d rest => by
  rw [List.append_assoc, ht, hu]

theorem depth_cons (inClass : Bool) (d : Nat) (c : Char) (rest : Chars) : depth inClass d (c :: rest) =
    if c = '\\' then
      match rest with
      | [] => none
      | _ :: rest => depth inClass d rest
    else if inClass then depth (c ≠ ']') d rest
    else if c = '[' then depth true d rest
    else if c = '(' then depth false (d + 1) rest
    else if c = ')' then if d = 0 then none else depth false (d - 1) rest
    else depth false d rest := by
  cases rest with
  | nil => rfl
  | cons _ rest => rfl

theorem depth_bracket {c : Char} (hc : c = ']') (d : Nat) (rest : Chars) :
    depth true d ([c] ++ rest) = depth false d rest := by
  subst hc
  rw [List.singleton_append, depth_cons, if_neg (by decide), if_pos rfl, decide_eq_false (by decide)]

/-- What is in a class is passed. -/
theorem depth_class : ∀ {body cls rest : Chars}, scanClass body = .ok (cls, rest) → ∀ d behind,
    depth true d (cls ++ behind) = depth false d behind
  | [], _, _, h, _, _ => by cases h
  | [c], cls, rest, h, d, behind => by
    rw [scanClass_cons] at h
    by_cases hc : c = '\\'
    · rw [if_pos hc] at h
      cases h
    · rw [if_neg hc] at h
      by_cases hc' : c = ']'
      · rw [if_pos hc'] at h
        cases h
        exact depth_bracket hc' d behind
      · rw [if_neg hc'] at h
        obtain ⟨x, hx, -⟩ := map_eq_ok h
        cases hx
  | c :: e :: body, cls, rest, h, d, behind => by
    rw [scanClass_cons] at h
    by_cases hc : c = '\\'
    · rw [if_pos hc] at h
      obtain ⟨x, hx, heq⟩ := map_eq_ok h
      cases heq
      rw [List.cons_append, depth_cons, if_pos hc]
      exact depth_class hx d behind
    · rw [if_neg hc] at h
      by_cases hc' : c = ']'
      · rw [if_pos hc'] at h
        cases h
        exact depth_bracket hc' d behind
      · rw [if_neg hc'] at h
        obtain ⟨x, hx, heq⟩ := map_eq_ok h
        cases heq
        rw [List.cons_append, depth_cons, if_neg hc, if_pos rfl, decide_eq_true hc']
        exact depth_class hx d behind

theorem balanced_char {c : Char} (h : c ≠ '\\') (h₁ : c ≠ '[') (h₂ : c ≠ '(') (h₃ : c ≠ ')') : Balanced [c] :=
    fun d rest => by
  rw [List.singleton_append, depth_cons, if_neg h, if_neg Bool.false_ne_true, if_neg h₁, if_neg h₂, if_neg h₃]

theorem depth_open (d : Nat) (rest : Chars) : depth false d (['(', '?', ':'] ++ rest) = depth false (d + 1) rest := by
  have hquestion : Balanced ['?'] := balanced_char (by decide) (by decide) (by decide) (by decide)
  have hcolon : Balanced [':'] := balanced_char (by decide) (by decide) (by decide) (by decide)
  calc depth false d (['(', '?', ':'] ++ rest)
      = depth false (d + 1) (['?'] ++ ([':'] ++ rest)) := by
        show depth false d ('(' :: _) = _
        rw [depth_cons, if_neg (by decide), if_neg Bool.false_ne_true, if_neg (by decide), if_pos rfl]
        rfl
    _ = depth false (d + 1) rest := by rw [hquestion, hcolon]

theorem depth_close (d : Nat) (rest : Chars) : depth false (d + 1) ([')'] ++ rest) = depth false d rest := by
  rw [List.singleton_append, depth_cons, if_neg (by decide), if_neg Bool.false_ne_true, if_neg (by decide),
    if_neg (by decide),
    if_pos rfl, if_neg (Nat.succ_ne_zero d), Nat.add_sub_cancel]

theorem depth_opens (n d : Nat) (rest : Chars) :
    depth false d ((List.replicate n ['(', '?', ':']).flatten ++ rest) = depth false (d + n) rest := by
  induction n generalizing d with
  | zero => rfl
  | succ n ih =>
      rw [List.replicate_succ, List.flatten_cons, List.append_assoc, depth_open, ih, Nat.add_right_comm, Nat.add_assoc]

/-- The elements close the groups that are opened in front of them. -/
theorem depth_elements {p : Chars} {parts : List Chars} (h : ∀ q ∈ p :: parts, Balanced q) (d : Nat) (rest : Chars) :
    depth false (d + parts.length) ([')', '?'].intercalate (p :: parts) ++ rest) = depth false d rest := by
  induction parts generalizing p with
  | nil =>
      rw [List.intercalate_singleton]
      exact h p List.mem_cons_self d rest
  | cons q parts ih =>
      have hquestion : Balanced ['?'] := balanced_char (by decide) (by decide) (by decide) (by decide)
      rw [List.intercalate_cons_cons, List.append_assoc, List.append_assoc, h p List.mem_cons_self]
      calc depth false (d + (q :: parts).length) ([')', '?'] ++ ([')', '?'].intercalate (q :: parts) ++ rest))
          = depth false (d + parts.length + 1) ([')'] ++ (['?'] ++ ([')', '?'].intercalate (q :: parts) ++ rest))) := rfl
        _ = depth false (d + parts.length) ([')', '?'].intercalate (q :: parts) ++ rest) := by rw [depth_close, hquestion]
        _ = depth false d rest := ih fun x hx => h x (List.mem_cons_of_mem _ hx)

theorem balanced_alternative {parts : List Chars} (hne : parts ≠ []) (h : ∀ p ∈ parts, Balanced p) :
    Balanced (alternative parts) := by
  intro d rest
  have hrev : ∀ p ∈ parts.reverse, Balanced p := fun p hp => h p (List.mem_reverse.mp hp)
  have hlen : parts.reverse.length = parts.length := List.length_reverse
  rw [alternative, List.append_assoc, depth_opens]
  cases hparts : parts.reverse with
  | nil => exact absurd (List.reverse_eq_nil_iff.mp hparts) hne
  | cons p more =>
      rw [hparts] at hrev hlen
      rw [← hlen, List.length_cons, Nat.add_sub_cancel]
      exact depth_elements hrev d rest

theorem balanced_alternatives {texts : List Chars} (h : ∀ t ∈ texts, Balanced t) : Balanced (['|'].intercalate texts) := by
  induction texts with
  | nil => exact fun d rest => rfl
  | cons t texts ih =>
      cases texts with
      | nil =>
          rw [List.intercalate_singleton]
          exact h t List.mem_cons_self
      | cons u texts =>
          rw [List.intercalate_cons_cons]
          exact ((h t List.mem_cons_self).append (balanced_char (by decide) (by decide) (by decide) (by decide))).append
            (ih fun x hx => h x (List.mem_cons_of_mem _ hx))

/-- **The groups of an element are balanced.** -/
theorem Element.balanced {p : Chars} (h : Element p) : Balanced p := by
  induction h with
  | cls h =>
      intro d rest
      rw [List.cons_append, depth_cons, if_neg (by decide), if_neg Bool.false_ne_true, if_pos rfl]
      exact depth_class h d rest
  | escape d => exact fun _ _ => rfl
  | char h =>
      simp only [special, List.mem_cons, List.not_mem_nil, or_false, not_or] at h
      exact balanced_char h.2.2.2.2.2.2.2.2 h.1 h.2.2.2.2.2.1 h.2.2.2.2.2.2.1
  | @group alternatives hne _ ih =>
      have halt : Balanced (['|'].intercalate (alternatives.map alternative)) := by
        refine balanced_alternatives fun t ht => ?_
        obtain ⟨parts, hparts, rfl⟩ := List.mem_map.mp ht
        exact balanced_alternative (hne parts hparts) (ih parts hparts)
      intro d rest
      rw [List.append_assoc, List.append_assoc, depth_open, halt]
      exact depth_close d rest
  | quantified _ hc ih =>
      refine ih.append ?_
      rcases hc with rfl | rfl | rfl
      all_goals exact balanced_char (by decide) (by decide) (by decide) (by decide)

/-- An alternative with an element, at least, and elements only. -/
def WrittenParts (parts : List Chars) : Prop := parts ≠ [] ∧ ∀ p ∈ parts, Element p

theorem Fits.ne_nil {parts : List Chars} (hmax : maxSize < 2 ^ 64) (h : Fits maxSize parts.length) : parts ≠ [] := by
  rintro rfl
  rw [Fits, List.length_nil, lessOne, if_pos rfl] at h
  omega

/-- What is written at the end of a group, or of the pattern. -/
theorem emit_written (hmax : maxSize < 2 ^ 64) {alternatives : List (List Chars)} {sequence : List Chars}
    {behind rest s : Chars}
    (halt : ∀ parts ∈ alternatives, ∀ p ∈ parts, Element p) (hseq : ∀ p ∈ sequence, Element p)
    (h : ((fun texts => (['|'].intercalate texts, behind)) <$> emit maxSize (alternatives ++ [sequence]) : Except Fault _) =
      .ok (s, rest)) :
    ∃ written : List (List Chars), (∀ parts ∈ written, WrittenParts parts) ∧
      s = ['|'].intercalate (written.map alternative) := by
  obtain ⟨hfits, hx⟩ := emit_eq_ok h
  have hall := forall_mem_concat.mpr ⟨halt, hseq⟩
  exact ⟨alternatives ++ [sequence], fun parts hparts => ⟨(hfits parts hparts).ne_nil hmax, hall parts hparts⟩,
    congrArg Prod.fst hx⟩

/-- **What `process` writes** : alternatives, each with a group for every element but the first. -/
theorem process_written (hmax : maxSize < 2 ^ 64) {fuel : Nat} {alternatives : List (List Chars)} {sequence : List Chars}
    {text rest s : Chars} (halt : ∀ parts ∈ alternatives, ∀ p ∈ parts, Element p) (hseq : ∀ p ∈ sequence, Element p)
    (h : process maxSize fuel alternatives sequence text = .ok (s, rest)) :
    ∃ written : List (List Chars), (∀ parts ∈ written, WrittenParts parts) ∧
      s = ['|'].intercalate (written.map alternative) := by
  induction fuel generalizing alternatives sequence text rest s with
  | zero => cases h
  | succ fuel ih =>
      cases text with
      | nil => exact emit_written hmax halt hseq h
      | cons c text =>
          have hmoves := moves sequence c text
          generalize hm : move sequence c text = m at hmoves
          cases hmoves with
          | next _ _ helement =>
              rw [process_next hm] at h
              exact ih halt (helement hseq) h
          | group =>
              rw [process_group] at h
              obtain ⟨⟨sub, behind⟩, hinner, h⟩ := bind_eq_ok h
              obtain ⟨written, hwritten, rfl⟩ := ih (fun p hp => absurd hp List.not_mem_nil)
                (fun p hp => absurd hp List.not_mem_nil) hinner
              rw [afterGroup] at h
              cases behind with
              | nil => cases h
              | cons d behind =>
                  dsimp only at h
                  by_cases hd : d = ')'
                  · rw [if_neg (not_not.mpr hd)] at h
                    refine ih halt (fun p hp => ?_) h
                    rcases List.mem_append.mp hp with hp | hp
                    · exact hseq p hp
                    · rw [List.mem_singleton.mp hp]
                      exact .group (fun parts hparts => (hwritten parts hparts).1) fun parts hparts =>
                        (hwritten parts hparts).2
                  · rw [if_pos hd] at h
                    cases h
          | close => exact emit_written hmax halt hseq h
          | bar =>
              rw [process_bar] at h
              exact ih (forall_mem_concat.mpr ⟨halt, hseq⟩) (fun p hp => absurd hp List.not_mem_nil) h
          | thrown =>
              rw [process_error hm] at h
              cases h
          | behind _ =>
              rw [process_error hm] at h
              cases h

/-- What is returned : alternatives with a group for every element but the first, in a group, and its groups are balanced. -/
def Written (res : Chars) : Prop := depth false 0 res = some 0 ∧ ∃ alternatives : List (List Chars),
  (∀ parts ∈ alternatives, WrittenParts parts) ∧
    res = ['('] ++ ['|'].intercalate (alternatives.map alternative) ++ anything

theorem depth_returned {t : Chars} (h : Balanced t) : depth false 0 (['('] ++ t ++ anything) = some 0 := by
  have hopen : depth false 0 (['('] ++ (t ++ anything)) = depth false 1 (t ++ anything) := by
    rw [List.singleton_append, depth_cons, if_neg (by decide), if_neg Bool.false_ne_true, if_neg (by decide), if_pos rfl]
  rw [List.append_assoc, hopen, h]
  decide

/-- **The transformation returns a balanced pattern or throws, unless the scan reads behind the end.** -/
theorem reversed_total_iff (hmax : maxSize < 2 ^ 64) (pattern : Chars) :
    ((∃ res, reversedPartialRegex maxSize pattern = .ok res ∧ Written res) ∨
      ∃ what, reversedPartialRegex maxSize pattern = .error (.thrown what)) ↔ ¬ LooksBehind maxSize 0 pattern := by
  have hfuel : pattern.length < pattern.length + 1 := Nat.lt_succ_self _
  have hnil : ∀ x : Chars, x ∈ ([] : List Chars) → Element x := fun x hx => absurd hx List.not_mem_nil
  cases hp : process maxSize (pattern.length + 1) [] [] pattern with
  | error e =>
      have hreturn : reversedPartialRegex maxSize pattern = .error e := by
        rw [reversedPartialRegex, hp]
        rfl
      rw [hreturn]
      rcases error_of_process hfuel hp with ⟨what, rfl⟩ | ⟨rfl, hlooks⟩
      · refine iff_of_true (.inr ⟨what, rfl⟩) fun hlooks => ?_
        rw [@process_looksBehind maxSize _ [] [] pattern hlooks hfuel] at hp
        cases hp
      · refine iff_of_false ?_ (not_not.mpr hlooks)
        rintro (⟨res, h, -⟩ | ⟨what, h⟩)
        · cases h
        · cases h
  | ok x =>
      obtain ⟨s, rest⟩ := x
      refine iff_of_true ?_ fun hlooks => ?_
      · have hreturn : reversedPartialRegex maxSize pattern =
            if rest ≠ [] then .error (.thrown "Unmatched '(' in pattern") else .ok (['('] ++ s ++ anything) := by
          rw [reversedPartialRegex, hp]
          rfl
        rw [hreturn]
        by_cases hrest : rest = []
        · obtain ⟨written, hwritten, rfl⟩ := process_written hmax (fun p hp => absurd hp List.not_mem_nil) hnil hp
          rw [if_neg (not_not.mpr hrest)]
          refine .inl ⟨_, rfl, depth_returned (balanced_alternatives fun t ht => ?_), written, hwritten, rfl⟩
          obtain ⟨parts, hparts, rfl⟩ := List.mem_map.mp ht
          obtain ⟨hne, helement⟩ := hwritten parts hparts
          exact balanced_alternative hne fun p hp => (helement p hp).balanced
        · rw [if_pos hrest]
          exact .inr ⟨_, rfl⟩
      · rw [@process_looksBehind maxSize _ [] [] pattern hlooks hfuel] at hp
        cases hp

/-- `(a|b)c?` -/
theorem reversed_total_iff_group :
    ((∃ res, reversedPartialRegex (2 ^ 62) ['(', 'a', '|', 'b', ')', 'c', '?'] = .ok res ∧ Written res) ∨
      ∃ what, reversedPartialRegex (2 ^ 62) ['(', 'a', '|', 'b', ')', 'c', '?'] = .error (.thrown what)) ↔
        ¬ LooksBehind (2 ^ 62) 0 ['(', 'a', '|', 'b', ')', 'c', '?'] :=
  reversed_total_iff (by decide) _

/-- `a*` : a pattern that ends in a `*`. -/
theorem star_looks_behind : reversedPartialRegex (2 ^ 62) ['a', '*'] = .error .outOfRange ∧
    ¬ ((∃ res, reversedPartialRegex (2 ^ 62) ['a', '*'] = .ok res ∧ Written res) ∨
      ∃ what, reversedPartialRegex (2 ^ 62) ['a', '*'] = .error (.thrown what)) := by
  have herror : reversedPartialRegex (2 ^ 62) ['a', '*'] = .error .outOfRange := by decide +kernel
  rw [herror]
  refine ⟨rfl, ?_⟩
  rintro (⟨res, h, -⟩ | ⟨what, h⟩)
  · cases h
  · cases h

end Written

end S2Moe.Regex
