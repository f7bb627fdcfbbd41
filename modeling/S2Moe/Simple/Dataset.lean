import S2Moe.Lib.Json
import S2Moe.Lib.Text

/-!
# The lines of a dataset

`extract_json_value` looks for the first place in the line where the key stands in quotes, and reads the text of the first
quotes behind the next colon.

* `extractJsonValue` : the function, with its loop `scan`;
* `Reads` : what a reader of JSON returns for a key with a string, and for a key that is not there;
* `FoundFirst` : the place that is found is the name of the member; `Plain` : no escapes but those of the loop, and nothing is
  read for a key that is not there;
* `reads_iff_plain` : where the name is found first, the line is read so exactly if it is plain.
-/

namespace S2Moe.Simple
open S2Moe.Lib S2Moe.Lib.Json

section Lookup

/-- The letter behind a backslash. -/
def unescape (c : UInt8) : UInt8 :=
  if c = 0x6e then 0x0a        -- `\n`
  else if c = 0x72 then 0x0d   -- `\r`
  else if c = 0x74 then 0x09   -- `\t`
  else if c = quote then quote
  else if c = backslash then backslash
  else c

/-- The loop behind the opening quote. -/
def scan : Bool → Bytes → Bytes → Bytes
  | _, _, [] => []
  | true, result, c :: rest => scan false (result ++ [unescape c]) rest
  | false, result, c :: rest =>
    if c = backslash then scan true result rest
    else if c = quote then result
    else scan false (result ++ [c]) rest

/-- `search_key` -/
def searchKey (key : Bytes) : Bytes := quote :: key ++ [quote]

/-- `extract_json_value` -/
def extractJsonValue (jsonLine key : Bytes) : Bytes :=
  match find jsonLine (searchKey key) 0 with
  | none => []
  | some keyPos =>
    match find jsonLine [colon] (keyPos + (searchKey key).length) with
    | none => []
    | some colonPos =>
      match find jsonLine [quote] (colonPos + 1) with
      | none => []
      | some startQuote => scan false [] (jsonLine.drop (startQuote + 1))

end Lookup

section Specification

/-- What a reader of JSON returns : the string of the member, and nothing where there is no member. -/
structure Reads (d : Document) (key : Bytes) : Prop where
  string : ∀ m s, d.member? key = some m → m.value = literal s → extractJsonValue d.text key = decode s
  absent : d.member? key = none → extractJsonValue d.text key = []

/-- The first place where the key stands in quotes is the name of the member. -/
def FoundFirst (d : Document) (key : Bytes) : Prop :=
  ∀ m s, d.member? key = some m → m.value = literal s → ∃ before behind, d.members = before ++ m :: behind ∧
    raw m.name = key ∧ find d.text (searchKey key) 0 = some (d.front before m).length

/-- The escapes that the loop does not know. -/
inductive Hard : Piece → Prop
  | backspace : Hard (.short .backspace)
  | formFeed : Hard (.short .formFeed)
  | unicode (u : Hex4) (h : u.value < 0xd800 ∨ 0xdfff < u.value) : Hard (.unicode u h)
  | pair (high low : Hex4) (h : 0xd800 ≤ high.value ∧ high.value < 0xdc00)
      (h' : 0xdc00 ≤ low.value ∧ low.value < 0xe000) : Hard (.pair high low h h')

/-- A quote without a backslash in front of it comes; for `true`, behind the next byte. -/
inductive Closes : Bool → Bytes → Prop
  | quote (rest : Bytes) : Closes false (quote :: rest)
  | backslash {rest : Bytes} (h : Closes true rest) : Closes false (backslash :: rest)
  | escaped {c : UInt8} {rest : Bytes} (h : Closes false rest) : Closes true (c :: rest)
  | char {c : UInt8} {rest : Bytes} (hc : c ≠ Json.backslash) (hc' : c ≠ Json.quote) (h : Closes false rest) :
      Closes false (c :: rest)

/-- Behind the first place of the key there is no colon with a quote behind it, or the two quotes behind the colon have
nothing between them, or there is only one. -/
def Unread (line key : Bytes) : Prop := ∀ keyPos colonPos startQuote,
  find line (searchKey key) 0 = some keyPos → find line [colon] (keyPos + (searchKey key).length) = some colonPos →
    find line [quote] (colonPos + 1) = some startQuote →
      (line.drop (startQuote + 1)).head? = some quote ∨ ¬ Closes false (line.drop (startQuote + 1))

/-- **The lines that are read right**, of those where the name is found first. -/
structure Plain (d : Document) (key : Bytes) : Prop where
  string : ∀ m s, d.member? key = some m → m.value = literal s → ∀ p ∈ s, ¬ Hard p
  absent : d.member? key = none → Unread d.text key

end Specification

section Literals

/-- What the loop makes of a piece. -/
def simple : Piece → Bytes
  | .plain b _ => [b]
  | .short e => [unescape e.letter]
  | .unicode u _ => 0x75 :: u.digits
  | .pair high low _ _ => 0x75 :: high.digits ++ 0x75 :: low.digits

theorem scan_plain {t : Bytes} (h : ∀ b ∈ t, b ≠ backslash ∧ b ≠ quote) (result rest : Bytes) :
    scan false result (t ++ rest) = scan false (result ++ t) rest := by
  induction t generalizing result with
  | nil => rw [List.nil_append, List.append_nil]
  | cons b t ih =>
      obtain ⟨hb, hb'⟩ := h b List.mem_cons_self
      rw [List.cons_append, scan, if_neg hb, if_neg hb', ih fun c hc => h c (List.mem_cons_of_mem _ hc), List.append_assoc]
      rfl

theorem scan_escape (c : UInt8) (result rest : Bytes) :
    scan false result (backslash :: c :: rest) = scan false (result ++ [unescape c]) rest := by
  rw [scan, if_pos rfl, scan]

theorem digits_plain (u : Hex4) : ∀ b ∈ u.digits, b ≠ backslash ∧ b ≠ quote := by
  intro b hb
  have hhex := u.isHex b hb
  constructor
  · rintro rfl
    revert hhex
    decide
  · rintro rfl
    revert hhex
    decide

theorem scan_unicode (u : Hex4) (result rest : Bytes) :
    scan false result (backslash :: 0x75 :: u.digits ++ rest) = scan false (result ++ 0x75 :: u.digits) rest := by
  have hu : unescape 0x75 = 0x75 := by decide
  rw [List.cons_append, List.cons_append, scan_escape, hu, scan_plain (digits_plain u), List.append_assoc]
  rfl

theorem scan_piece (p : Piece) (result rest : Bytes) :
    scan false result (p.text ++ rest) = scan false (result ++ simple p) rest := by
  cases p with
  | plain b h =>
      refine scan_plain (fun c hc => ?_) result rest
      rw [List.mem_singleton.mp hc]
      exact ⟨h.2.2, h.2.1⟩
  | short e => exact scan_escape _ result rest
  | unicode u _ => exact scan_unicode u result rest
  | pair high low _ _ =>
      rw [Piece.text, simple, List.append_assoc, scan_unicode high, scan_unicode low, List.append_assoc]

/-- **The loop reads a literal to its end.** -/
theorem scan_raw (s : List Piece) (result rest : Bytes) :
    scan false result (raw s ++ quote :: rest) = result ++ s.flatMap simple := by
  induction s generalizing result with
  | nil =>
      show scan false result (quote :: rest) = result ++ []
      rw [scan, if_neg (by decide), if_pos rfl, List.append_nil]
  | cons p s ih =>
      show scan false result ((p.text ++ raw s) ++ quote :: rest) = _
      rw [List.append_assoc, scan_piece, ih, List.append_assoc, List.flatMap_cons]

theorem simple_eq_decode {p : Piece} (h : ¬ Hard p) : simple p = p.decode := by
  cases p with
  | plain b _ => rfl
  | short e =>
      cases e with
      | backspace => exact absurd .backspace h
      | formFeed => exact absurd .formFeed h
      | _ => rfl
  | unicode u hu => exact absurd (.unicode u hu) h
  | pair high low hh hl => exact absurd (.pair high low hh hl) h

/-- What is made of a hard piece is longer, or of the same length and another text. -/
theorem decode_lt_simple {p : Piece} (h : Hard p) :
    p.decode.length < (simple p).length ∨ p.decode.length = (simple p).length ∧ p.decode ≠ simple p := by
  cases h with
  | backspace => exact .inr ⟨rfl, by decide⟩
  | formFeed => exact .inr ⟨rfl, by decide⟩
  | unicode u hu =>
      have hle := length_decode_unicode u hu
      have hlen : (simple (.unicode u hu)).length = 5 := by rw [simple, List.length_cons, u.length_eq]
      exact .inl (by omega)
  | pair high low hh hl =>
      have hle := length_decode_pair high low hh hl
      have hlen : (simple (.pair high low hh hl)).length = 10 := by
        rw [simple, List.length_append, List.length_cons, List.length_cons, high.length_eq, low.length_eq]
      exact .inl (by omega)

theorem length_decode_le (p : Piece) : p.decode.length ≤ (simple p).length := by
  by_cases h : Hard p
  · rcases decode_lt_simple h with h | h
    · exact h.le
    · exact h.1.le
  · rw [simple_eq_decode h]

theorem length_flatMap_decode_le (s : List Piece) : (decode s).length ≤ (s.flatMap simple).length := by
  induction s with
  | nil => exact le_rfl
  | cons p s ih =>
      show (p.decode ++ decode s).length ≤ _
      rw [List.length_append, List.flatMap_cons, List.length_append]
      exact Nat.add_le_add (length_decode_le p) ih

/-- **A string is read right exactly if it has no hard piece.** -/
theorem flatMap_simple_iff (s : List Piece) : s.flatMap simple = decode s ↔ ∀ p ∈ s, ¬ Hard p := by
  induction s with
  | nil => exact iff_of_true rfl fun p hp => absurd hp List.not_mem_nil
  | cons p s ih =>
      rw [List.forall_mem_cons, ← ih]
      show simple p ++ s.flatMap simple = p.decode ++ decode s ↔ _
      constructor
      · intro h
        have hlen := congrArg List.length h
        have hp := length_decode_le p
        have hs := length_flatMap_decode_le s
        rw [List.length_append, List.length_append] at hlen
        obtain ⟨hhead, htail⟩ := List.append_inj h (by omega)
        refine ⟨fun hard => ?_, htail⟩
        rcases decode_lt_simple hard with hlt | ⟨-, hne⟩
        · rw [hhead] at hlt
          exact absurd hlt (Nat.lt_irrefl _)
        · exact hne hhead.symm
      · rintro ⟨hp, hs⟩
        rw [simple_eq_decode hp, hs]

end Literals

section Found

/-- A byte that is not in a gap is found behind it. -/
theorem find_behind (front gap rest : Bytes) {c : UInt8} (h : c ∉ gap) :
    find (front ++ (gap ++ c :: rest)) [c] front.length = some (front.length + gap.length) := by
  rw [find_eq_some]
  refine ⟨⟨by simp, Nat.le_add_right _ _, ?_⟩, fun j hj hlt hpat => ?_⟩
  · rw [← List.drop_drop, List.drop_left, List.drop_left]
    exact List.prefix_append [c] rest
  · obtain ⟨k, rfl⟩ := Nat.exists_eq_add_of_le hj
    have hk : k < gap.length := by omega
    have hdrop : (front ++ (gap ++ c :: rest)).drop (front.length + k) = gap.drop k ++ c :: rest := by
      rw [← List.drop_drop, List.drop_left, List.drop_append_of_le_length hk.le]
    rw [hdrop, List.drop_eq_getElem_cons hk, List.cons_append, List.cons_prefix_cons] at hpat
    exact h (hpat.1 ▸ List.getElem_mem hk)

theorem not_mem_blank {t : Bytes} (h : Blank t) : colon ∉ t ∧ quote ∉ t := by
  constructor
  · intro hc
    have := h _ hc
    revert this
    decide
  · intro hc
    have := h _ hc
    revert this
    decide

/-- **What is returned where the name is found first** : the literal behind it, without its backslashes. -/
theorem extract_found {d : Document} {before behind : List Member} {m : Member} {s : List Piece}
    (h : d.members = before ++ m :: behind) (hvalue : m.value = literal s)
    (hfind : find d.text (searchKey (raw m.name)) 0 = some (d.front before m).length) :
    extractJsonValue d.text (raw m.name) = s.flatMap simple := by
  obtain ⟨rest, htext⟩ := d.text_split h
  obtain ⟨-, hbehind, hahead, -⟩ := d.spaced m (by rw [h]; exact List.mem_append_right _ List.mem_cons_self)
  have hcolon : find d.text [colon] ((d.front before m).length + (searchKey (raw m.name)).length) =
      some ((d.front before m ++ searchKey (raw m.name)).length + m.behind.length) := by
    have hline : d.text = (d.front before m ++ searchKey (raw m.name)) ++
        (m.behind ++ colon :: (m.ahead ++ m.value ++ rest)) := by
      rw [htext, literal, searchKey]
      simp only [List.append_assoc, List.cons_append, List.nil_append]
    rw [← List.length_append, hline]
    exact find_behind _ _ _ (not_mem_blank hbehind).1
  have hline : d.text = (d.front before m ++ searchKey (raw m.name) ++ m.behind ++ [colon]) ++
      (m.ahead ++ quote :: (raw s ++ quote :: rest)) := by
    rw [htext, hvalue, literal, literal, searchKey]
    simp only [List.append_assoc, List.cons_append, List.nil_append]
  have hquote : find d.text [quote] ((d.front before m ++ searchKey (raw m.name)).length + m.behind.length + 1) =
      some ((d.front before m ++ searchKey (raw m.name) ++ m.behind ++ [colon]).length + m.ahead.length) := by
    have hlen : (d.front before m ++ searchKey (raw m.name)).length + m.behind.length + 1 =
        (d.front before m ++ searchKey (raw m.name) ++ m.behind ++ [colon]).length := by
      simp only [List.length_append, List.length_singleton]
    rw [hlen, hline]
    exact find_behind _ _ _ (not_mem_blank hahead).2
  have hdrop : d.text.drop ((d.front before m ++ searchKey (raw m.name) ++ m.behind ++ [colon]).length + m.ahead.length + 1) =
      raw s ++ quote :: rest := by
    rw [hline]
    generalize d.front before m ++ searchKey (raw m.name) ++ m.behind ++ [colon] = front
    have hsplit : front ++ (m.ahead ++ quote :: (raw s ++ quote :: rest)) =
        (front ++ m.ahead ++ [quote]) ++ (raw s ++ quote :: rest) := by simp
    rw [hsplit]
    refine List.drop_left' ?_
    simp only [List.length_append, List.length_singleton]
  rw [extractJsonValue, hfind]
  dsimp only
  rw [hcolon]
  dsimp only
  rw [hquote]
  dsimp only
  rw [hdrop, scan_raw, List.nil_append]

/-- What the loop returns with something in its result, or from behind a backslash. -/
theorem scan_eq_nil {t : Bytes} {escape : Bool} {result : Bytes} (h : result ≠ [] ∨ escape = true) :
    scan escape result t = [] ↔ ¬ Closes escape t := by
  induction t generalizing escape result with
  | nil =>
      refine iff_of_true (by cases escape <;> rfl) fun h => ?_
      cases h
  | cons c t ih =>
      cases escape with
      | true =>
          rw [scan, ih (.inl (List.append_ne_nil_of_right_ne_nil _ (List.cons_ne_nil _ _)))]
          refine not_congr ⟨.escaped, fun h => ?_⟩
          cases h with
          | escaped h => exact h
      | false =>
          have hresult := h.resolve_right Bool.false_ne_true
          rw [scan]
          by_cases hc : c = backslash
          · subst hc
            rw [if_pos rfl, ih (.inr rfl)]
            refine not_congr ⟨.backslash, fun h => ?_⟩
            cases h with
            | backslash h => exact h
            | char hc _ _ => exact absurd rfl hc
          · rw [if_neg hc]
            by_cases hc' : c = quote
            · subst hc'
              rw [if_pos rfl]
              exact iff_of_false hresult (not_not.mpr (.quote t))
            · rw [if_neg hc', ih (.inl (List.append_ne_nil_of_right_ne_nil _ (List.cons_ne_nil _ _)))]
              refine not_congr ⟨.char hc hc', fun h => ?_⟩
              cases h with
              | quote => exact absurd rfl hc'
              | backslash _ => exact absurd rfl hc
              | char _ _ h => exact h

theorem scan_start_eq_nil (t : Bytes) : scan false [] t = [] ↔ t.head? = some quote ∨ ¬ Closes false t := by
  cases t with
  | nil => exact iff_of_true rfl (.inr fun h => by cases h)
  | cons c t =>
      rw [scan, List.head?_cons, Option.some_inj]
      by_cases hc : c = backslash
      · subst hc
        rw [if_pos rfl, scan_eq_nil (.inr rfl)]
        refine ⟨fun h => .inr fun hcl => ?_, fun h hcl => ?_⟩
        · cases hcl with
          | backslash hcl => exact h hcl
          | char hc _ _ => exact hc rfl
        · rcases h with h | h
          · exact absurd h (by decide)
          · exact h (.backslash hcl)
      · rw [if_neg hc]
        by_cases hc' : c = quote
        · rw [if_pos hc']
          exact iff_of_true rfl (.inl hc')
        · rw [if_neg hc', List.nil_append, scan_eq_nil (.inl (List.cons_ne_nil _ _))]
          refine ⟨fun h => .inr fun hcl => ?_, fun h hcl => ?_⟩
          · cases hcl with
            | quote => exact hc' rfl
            | backslash _ => exact hc rfl
            | char _ _ hcl => exact h hcl
          · exact (h.resolve_left hc') (.char hc hc' hcl)

/-- **Nothing is returned exactly where nothing is to be read.** -/
theorem extract_eq_nil (line key : Bytes) : extractJsonValue line key = [] ↔ Unread line key := by
  unfold extractJsonValue Unread
  split
  · exact iff_of_true rfl fun _ _ _ h => by simp_all
  · rename_i keyPos hkey
    split
    · exact iff_of_true rfl fun _ _ _ h h' => by simp_all
    · rename_i colonPos hcolon
      split
      · exact iff_of_true rfl fun _ _ _ h h' h'' => by simp_all
      · rename_i startQuote hquote
        rw [scan_start_eq_nil]
        refine ⟨fun h k c q hk hc hq => ?_, fun h => h _ _ _ hkey hcolon hquote⟩
        rw [hkey] at hk
        cases hk
        rw [hcolon] at hc
        cases hc
        rw [hquote] at hq
        cases hq
        exact h

/-- **Where the name of the member is found first, the line is read right exactly if it is plain.** -/
theorem reads_iff_plain (d : Document) (key : Bytes) (hfirst : FoundFirst d key) : Reads d key ↔ Plain d key := by
  have hstring : ∀ m s, d.member? key = some m → m.value = literal s →
      (extractJsonValue d.text key = decode s ↔ ∀ p ∈ s, ¬ Hard p) := by
    intro m s hm hs
    obtain ⟨before, behind, hmembers, rfl, hfind⟩ := hfirst m s hm hs
    rw [extract_found hmembers hs hfind]
    exact flatMap_simple_iff s
  constructor
  · intro h
    exact ⟨fun m s hm hs => (hstring m s hm hs).mp (h.string m s hm hs), fun hnone =>
      (extract_eq_nil _ _).mp (h.absent hnone)⟩
  · intro h
    exact ⟨fun m s hm hs => (hstring m s hm hs).mpr (h.string m s hm hs),
      fun hnone => (extract_eq_nil _ _).mpr (h.absent hnone)⟩

end Found

section Example

/-- `k` -/
def theName : List Piece := [.plain 0x6b (by decide)]

/-- The line `{"k":s}`. -/
def lineOf (s : List Piece) : Document where
  lead := []
  blank := []
  members := [⟨[], theName, [], [], literal s, []⟩]
  trail := []
  lead_blank := by decide
  blank_blank := by decide
  trail_blank := by decide
  spaced := by
    intro m hm
    have hnil : Blank [] := by decide
    rw [List.mem_singleton.mp hm]
    exact ⟨hnil, hnil, hnil, hnil⟩
  values := by
    intro m hm
    rw [List.mem_singleton.mp hm]
    exact .string s

/-- `v`, and an escaped `é`. -/
def plainText : List Piece := [.plain 0x76 (by decide)]
def accented : List Piece := [.unicode ⟨[0x30, 0x30, 0x65, 0x39], by decide, by simp [IsHex, IsDigit]⟩ (by decide)]

theorem foundFirst_line : FoundFirst (lineOf plainText) [0x6b] := by
  intro m s hm _
  have hmember : (lineOf plainText).member? [0x6b] = some ⟨[], theName, [], [], literal plainText, []⟩ := by rfl
  rw [hmember] at hm
  cases hm
  exact ⟨[], [], rfl, rfl, by decide +kernel⟩

/-- `{"k":"v"}` -/
theorem reads_iff_plain_line : Reads (lineOf plainText) [0x6b] ↔ Plain (lineOf plainText) [0x6b] :=
  reads_iff_plain _ _ foundFirst_line

/-- `{"k":"\u00e9"}` is read as `u00e9`. -/
theorem accented_misread : extractJsonValue (lineOf accented).text [0x6b] = [0x75, 0x30, 0x30, 0x65, 0x39] ∧
    ¬ Reads (lineOf accented) [0x6b] := by
  have hread : extractJsonValue (lineOf accented).text [0x6b] = [0x75, 0x30, 0x30, 0x65, 0x39] := by decide +kernel
  refine ⟨hread, fun h => ?_⟩
  have hstring := h.string ⟨[], theName, [], [], literal accented, []⟩ accented (by rfl) rfl
  rw [hread] at hstring
  exact absurd hstring (by decide)

end Example

end S2Moe.Simple
