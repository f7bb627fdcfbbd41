import Mathlib
import S2Moe.Regex.Syntax

/-!
# The transformation of a pattern

* `run` : `process` with as much fuel as it needs; `run_next`, `run_group` : a round of its loop;
* `Atom.run`, `Quantifier.run`, `Item.run`, `Sequence.run`, `Alternatives.run` : what is scanned of a pattern, and what is
checked while it is;
* `partialPattern` : the pattern that is written, with its group and what comes behind;
* `reversedPartialRegex_iff` : it is written unless an alternative is left without elements, does not fit a string, or a `*`
is the last character.
-/

namespace S2Moe.Regex
open S2Moe.Lib

/-- `process`, with enough fuel. -/
def run (maxSize : Nat) (alternatives : List (List Chars)) (sequence : List Chars) (text : Chars) :
    Except Fault (Chars × Chars) := process maxSize (text.length + 1) alternatives sequence text

section Run
variable {maxSize : Nat} {alternatives : List (List Chars)} {sequence : List Chars}

theorem process_fuel {fuel fuel' : Nat} {text : Chars} (h : text.length < fuel) (h' : text.length < fuel') :
    process maxSize fuel alternatives sequence text = process maxSize fuel' alternatives sequence text := by
  induction fuel generalizing fuel' alternatives sequence text with
  | zero => exact absurd h (Nat.not_lt_zero _)
  | succ fuel ih =>
      obtain ⟨fuel', rfl⟩ := Nat.exists_eq_add_one_of_ne_zero (Nat.ne_zero_of_lt h')
      cases text with
      | nil => rfl
      | cons c text =>
          have hlt : text.length < fuel := Nat.lt_of_succ_lt_succ h
          have hlt' : text.length < fuel' := Nat.lt_of_succ_lt_succ h'
          have hmoves := moves sequence c text
          generalize hm : move sequence c text = m at hmoves
          cases hmoves with
          | next _ hlen _ =>
              rw [process_next hm, process_next hm]
              exact ih (by omega) (by omega)
          | group =>
              have hopen := length_afterOpen text
              rw [process_group, process_group, @ih [] [] fuel' (afterOpen text) (by omega) (by omega)]
              cases hinner : process maxSize fuel' [] [] (afterOpen text) with
              | error e => rfl
              | ok x =>
                  have hinside := (inside_of_process (by omega) hinner).2.length_le
                  show afterGroup maxSize fuel alternatives sequence x = afterGroup maxSize fuel' alternatives sequence x
                  unfold afterGroup
                  cases hx : x.2 with
                  | nil => rfl
                  | cons d rest =>
                      rw [hx, List.length_cons] at hinside
                      dsimp only
                      rw [@ih alternatives (sequence ++ [['(', '?', ':'] ++ x.1 ++ [')']]) fuel' rest (by omega) (by omega)]
          | close => rfl
          | bar =>
              rw [process_bar, process_bar]
              exact ih hlt hlt'
          | thrown => rw [process_error hm, process_error hm]
          | behind _ => rw [process_error hm, process_error hm]

theorem run_next {c : Char} {rest rest' : Chars} {sequence' : List Chars}
    (h : move sequence c rest = .ok (.next sequence' rest')) (hlen : rest'.length ≤ rest.length) :
    run maxSize alternatives sequence (c :: rest) = run maxSize alternatives sequence' rest' := by
  rw [run, process_next h]
  exact process_fuel (by rw [List.length_cons]; omega) (Nat.lt_succ_self _)

theorem run_bar {rest : Chars} :
    run maxSize alternatives sequence ('|' :: rest) = run maxSize (alternatives ++ [sequence]) [] rest := by
  rw [run, process_bar]
  exact process_fuel (Nat.lt_succ_self _) (Nat.lt_succ_self _)

/-- A group whose end is found. -/
theorem run_group {rest rest' sub : Chars} (h : run maxSize [] [] (afterOpen rest) = .ok (sub, ')' :: rest')) :
    run maxSize alternatives sequence ('(' :: rest) =
      run maxSize alternatives (sequence ++ [['(', '?', ':'] ++ sub ++ [')']]) rest' := by
  have hopen := length_afterOpen rest
  have hinside := (inside_of_process (Nat.lt_succ_self _) h).2.length_le
  rw [List.length_cons] at hinside
  rw [run, process_group, process_fuel (by rw [List.length_cons]; omega) (Nat.lt_succ_self (afterOpen rest).length)]
  rw [run] at h
  rw [h]
  show afterGroup maxSize _ alternatives sequence (sub, ')' :: rest') = _
  rw [afterGroup]
  dsimp only
  rw [if_neg (not_not.mpr rfl)]
  exact process_fuel (by rw [List.length_cons]; omega) (Nat.lt_succ_self _)

theorem run_group_error {rest : Chars} {e : Fault} (h : run maxSize [] [] (afterOpen rest) = .error e) :
    run maxSize alternatives sequence ('(' :: rest) = .error e := by
  have hopen := length_afterOpen rest
  rw [run, process_group, process_fuel (by rw [List.length_cons]; omega) (Nat.lt_succ_self (afterOpen rest).length)]
  rw [run] at h
  rw [h]
  rfl

theorem run_error {c : Char} {rest : Chars} {e : Fault} (h : move sequence c rest = .error e) :
    run maxSize alternatives sequence (c :: rest) = .error e := process_error h

end Run

/-! ## Elements -/

section Elements
variable {maxSize : Nat} {alternatives : List (List Chars)} {sequence : List Chars}

theorem scanClass_append : ∀ {body cls behind : Chars} (rest : Chars), scanClass body = .ok (cls, behind) →
    scanClass (body ++ rest) = .ok (cls, behind ++ rest)
  | [], _, _, _, h => by cases h
  | [c], cls, behind, rest, h => by
    rw [scanClass_cons] at h
    rw [List.singleton_append, scanClass_cons]
    by_cases hc : c = '\\'
    · rw [if_pos hc] at h
      cases h
    · rw [if_neg hc] at h ⊢
      by_cases hc' : c = ']'
      · rw [if_pos hc'] at h ⊢
        cases h
        rfl
      · rw [if_neg hc'] at h
        obtain ⟨x, hx, -⟩ := map_eq_ok h
        cases hx
  | c :: d :: body, cls, behind, rest, h => by
    rw [scanClass_cons] at h
    rw [List.cons_append, scanClass_cons]
    by_cases hc : c = '\\'
    · rw [if_pos hc] at h ⊢
      obtain ⟨x, hx, heq⟩ := map_eq_ok h
      cases heq
      rw [List.cons_append]
      dsimp only
      rw [scanClass_append rest hx]
      rfl
    · rw [if_neg hc] at h ⊢
      by_cases hc' : c = ']'
      · rw [if_pos hc'] at h ⊢
        cases h
        rfl
      · rw [if_neg hc'] at h ⊢
        obtain ⟨x, hx, heq⟩ := map_eq_ok h
        cases heq
        rw [scanClass_append rest hx]
        rfl

theorem Atom.run {t : Chars} (h : Atom t) (rest : Chars) :
    run maxSize alternatives sequence (t ++ rest) = run maxSize alternatives (sequence ++ [t]) rest := by
  cases h with
  | @char c h _ _ =>
      simp only [special, List.mem_cons, List.not_mem_nil, or_false, not_or] at h
      obtain ⟨h₁, h₂, h₃, h₄, h₅, h₆, h₇, h₈, h₉⟩ := h
      refine run_next ?_ le_rfl
      rw [Regex.move.eq_def, if_neg h₁, if_neg (by simp [h₂, h₃, h₄]), if_neg h₅, if_neg h₆, if_neg h₇, if_neg h₈, if_neg h₉]
      rfl
  | @escape d _ _ => exact run_next rfl (Nat.le_succ _)
  | @cls cls h =>
      have happend := scanClass_append rest h
      refine @run_next _ _ _ _ _ rest _ ?_ ?_
      · rw [Regex.move.eq_def, if_pos rfl]
        show (fun x => _) <$> scanClass (cls ++ rest) = _
        rw [happend]
        rfl
      · show rest.length ≤ (cls ++ rest).length
        rw [List.length_append]
        exact Nat.le_add_left _ _

theorem dropLast_concat_append (t u : Chars) :
    (sequence ++ [t]).dropLast ++ [(sequence ++ [t]).getLastD [] ++ u] = sequence ++ [t ++ u] := by
  rw [List.dropLast_concat, List.getLastD_concat]

/-- A repetition ends where it is closed. -/
theorem Repetition.scan (r : Repetition) (rest : Chars) :
    scanRepetition (r.inside ++ '\x7d' :: rest) = .ok (r.inside, rest) := by
  have hinside : ∀ c ∈ r.inside, decide (c ≠ '\x7d') = true := by
    obtain ⟨m, n, -, hdigit, heq⟩ := r.written
    have hne : ∀ c ∈ m ++ n, c ≠ '\x7d' := by
      rintro c hc rfl
      exact absurd (hdigit _ hc) (by decide)
    intro c hc
    apply decide_eq_true
    rcases heq with heq | heq
    · exact hne c (List.mem_append_left n (heq ▸ hc))
    · rw [heq] at hc
      rcases List.mem_append.mp hc with hc | hc
      · rcases List.mem_append.mp hc with hc | hc
        · exact hne c (List.mem_append_left n hc)
        · rw [List.mem_singleton.mp hc]
          decide
      · exact hne c (List.mem_append_right m hc)
  rw [scanRepetition, List.dropWhile_append_of_pos hinside, List.takeWhile_append_of_pos hinside,
    List.dropWhile_cons_of_neg (by decide), List.takeWhile_cons_of_neg (by decide), List.append_nil]

theorem Repetition.copies (r : Repetition) (t : Chars) :
    Regex.copies t ((r.least : Int), r.most.map fun n : Nat => (n : Int)) =
      (Quantifier.repetition r).expand.map fun q => t ++ q.text := by
  rw [Quantifier.expand, List.map_append, List.map_replicate]
  show _ = List.replicate r.least (t ++ []) ++ _
  rw [List.append_nil]
  cases r.most with
  | none => rfl
  | some most =>
      show List.replicate r.least t ++ List.replicate ((most : Int) - r.least).toNat (t ++ ['?']) =
        List.replicate r.least t ++ (List.replicate (most - r.least) Quantifier.optional).map _
      rw [List.map_replicate, ← Int.toNat_sub]
      rfl

/-- A `*` is not followed by the end, nor by a `?`. -/
def Followed (rest : Chars) : Prop := rest ≠ [] ∧ rest.head? ≠ some '?'

theorem Quantifier.run (q : Quantifier) (t : Chars) {rest : Chars} (h : q = star → Followed rest) :
    run maxSize alternatives (sequence ++ [t]) (q.text ++ rest) =
      run maxSize alternatives (sequence ++ q.expand.map fun q => t ++ q.text) rest := by
  have hne : sequence ++ [t] ≠ [] := List.append_ne_nil_of_right_ne_nil _ (List.cons_ne_nil t [])
  cases q with
  | once =>
      show Regex.run _ _ _ rest = Regex.run _ _ (sequence ++ [t ++ []]) rest
      rw [List.append_nil]
  | optional =>
      refine run_next ?_ le_rfl
      rw [Regex.move.eq_def, if_neg (by decide), if_pos (by decide), if_neg hne, dropLast_concat_append]
      exact if_neg (by decide)
  | plus =>
      refine run_next ?_ le_rfl
      rw [Regex.move.eq_def, if_neg (by decide), if_pos (by decide), if_neg hne, dropLast_concat_append]
      exact if_neg (by decide)
  | star =>
      obtain ⟨hrest, hhead⟩ := h rfl
      obtain ⟨d, behind, rfl⟩ := List.exists_cons_of_ne_nil hrest
      have hd : d ≠ '?' := fun hd => hhead (congrArg some hd)
      refine @run_next _ _ _ _ _ (d :: behind) _ ?_ le_rfl
      rw [Regex.move.eq_def, if_neg (by decide), if_pos (by decide), if_neg hne, dropLast_concat_append]
      show Except.ok (Move.next _ (if d = '?' then behind else d :: behind)) = _
      rw [if_neg hd]
      rfl
  | repetition r =>
      show Regex.run _ _ _ ('\x7b' :: (r.inside ++ ['\x7d'] ++ rest)) = _
      rw [List.append_assoc, List.singleton_append]
      refine run_next ?_ ?_
      · rw [Regex.move.eq_def, if_neg (by decide), if_neg (by decide), if_pos rfl, if_neg hne, r.scan rest]
        show (parseRepetition r.inside >>= fun range => _) = _
        rw [r.parsed]
        show Except.ok (Move.next ((sequence ++ [t]).dropLast ++ Regex.copies ((sequence ++ [t]).getLastD []) _) rest) = _
        rw [List.dropLast_concat, List.getLastD_concat, r.copies]
      · rw [List.length_append, List.length_cons]
        omega

theorem run_star_last (t : Chars) : run maxSize alternatives (sequence ++ [t]) ['*'] = .error .outOfRange := by
  refine run_error ?_
  rw [Regex.move.eq_def, if_neg (by decide), if_pos (by decide),
    if_neg (List.append_ne_nil_of_right_ne_nil _ (List.cons_ne_nil t []))]
  exact if_pos rfl

end Elements

/-! ## Patterns -/

/-- How the elements of an alternative are written. -/
def Sequence.partTexts (s : Sequence) : List Chars := s.parts.map fun p => p.1.text ++ p.2.text

def Alternatives.partTexts : Alternatives → List (List Chars)
  | .only s => [s.partTexts]
  | .or s d => s.partTexts :: d.partTexts

def Sequence.last : Sequence → Option Quantifier
  | .nil => none
  | .cons _ q s => some (s.last.getD q)

/-- The last character is a `*`. -/
def Alternatives.EndsInStar : Alternatives → Prop
  | .only s => s.last = some .star
  | .or _ d => d.EndsInStar

mutual
/-- What is checked while an item is scanned. -/
def Item.check (maxSize : Nat) : Item → Except Fault Unit
  | .atom _ _ => .ok ()
  | .group _ d => d.check maxSize >>= fun _ => (fun _ => ()) <$> emit maxSize d.partTexts

def Sequence.check (maxSize : Nat) : Sequence → Except Fault Unit
  | .nil => .ok ()
  | .cons r _ s => r.check maxSize >>= fun _ => s.check maxSize

def Alternatives.check (maxSize : Nat) : Alternatives → Except Fault Unit
  | .only s => s.check maxSize
  | .or s d => s.check maxSize >>= fun _ => d.check maxSize
end

section Patterns
variable {maxSize : Nat}

theorem intercalate_concat (sep y : Chars) {xs : List Chars} (hne : xs ≠ []) :
    sep.intercalate (xs ++ [y]) = sep.intercalate xs ++ sep ++ y := by
  induction xs with
  | nil => exact absurd rfl hne
  | cons x xs ih =>
      cases xs with
      | nil =>
          rw [List.singleton_append, List.intercalate_cons_cons, List.intercalate_singleton, List.intercalate_singleton]
      | cons z xs =>
          have ih := ih (List.cons_ne_nil z xs)
          rw [List.cons_append] at ih
          rw [List.cons_append, List.cons_append, List.intercalate_cons_cons, ih, List.intercalate_cons_cons]
          simp only [List.append_assoc]

theorem text_nest (ps : List (Item × Quantifier)) : (nest ps).text = alternative (ps.map fun p => p.1.text ++ p.2.text) := by
  induction ps with
  | nil => rfl
  | cons p ps ih =>
      cases ps with
      | nil =>
          show p.1.text ++ p.2.text ++ [] = [')', '?'].intercalate [p.1.text ++ p.2.text]
          rw [List.append_nil, List.intercalate_singleton]
      | cons q ps =>
          have hreverse : ∀ (x y : Chars) (xs : List Chars), [')', '?'].intercalate ((x :: y :: xs).reverse) =
              [')', '?'].intercalate (y :: xs).reverse ++ [')', '?'] ++ x := by
            intro x y xs
            rw [List.reverse_cons, intercalate_concat _ _ (by simp)]
          show (['('] ++ ['?', ':'] ++ (nest (q :: ps)).text ++ [')']) ++ ['?'] ++ (p.1.text ++ p.2.text ++ []) = _
          rw [ih, List.map_cons, List.map_cons, List.map_cons, alternative, alternative, hreverse]
          simp only [List.length_cons, Nat.add_sub_cancel, List.replicate_succ, List.flatten_cons, List.append_assoc,
            List.cons_append, List.nil_append, List.append_nil]

theorem Alternatives.text_back : ∀ d : Alternatives, d.back.text = ['|'].intercalate (d.partTexts.map alternative)
  | .only s => by
    rw [Alternatives.back, Alternatives.text, text_nest, Alternatives.partTexts, List.map_singleton,
      List.intercalate_singleton]
    rfl
  | .or s d => by
    have hne : d.partTexts.map alternative ≠ [] := by
      cases d with
      | only _ => exact List.cons_ne_nil _ _
      | or _ _ => exact List.cons_ne_nil _ _
    obtain ⟨t, ts, hts⟩ := List.exists_cons_of_ne_nil hne
    rw [Alternatives.back, Alternatives.text, text_nest, Alternatives.text_back d, Alternatives.partTexts, List.map_cons, hts,
      List.intercalate_cons_cons]
    rfl

/-- An item does not begin with a `?`. -/
theorem Item.text_head (r : Item) : ∃ c t, r.text = c :: t ∧ c ≠ '?' := by
  cases r with
  | atom t h =>
      cases h with
      | @char c h _ _ => exact ⟨c, [], rfl, fun hc => h (by rw [hc]; decide)⟩
      | escape _ _ => exact ⟨_, _, rfl, by decide⟩
      | cls _ => exact ⟨_, _, rfl, by decide⟩
  | group _ _ => exact ⟨'(', _, rfl, by decide⟩

theorem Sequence.text_head (s : Sequence) {rest : Chars} (h : rest.head? ≠ some '?') : (s.text ++ rest).head? ≠ some '?' := by
  cases s with
  | nil => exact h
  | cons r q s =>
      obtain ⟨c, t, ht, hc⟩ := r.text_head
      rw [Sequence.text, ht]
      exact fun hhead => hc (Option.some.inj hhead)

theorem Alternatives.text_head (d : Alternatives) {rest : Chars} (h : rest.head? ≠ some '?') :
    (d.text ++ rest).head? ≠ some '?' := by
  cases d with
  | only s => exact s.text_head h
  | or s d =>
      rw [Alternatives.text, List.append_assoc, List.append_assoc]
      exact s.text_head (by simp)

theorem afterOpen_eq {text : Chars} (h : text.head? ≠ some '?') : afterOpen text = text := by
  unfold afterOpen
  split
  · exact absurd rfl h
  · rfl

/-- Behind a `*` there is something that is not a `?`. -/
theorem Sequence.followed (s : Sequence) {q : Quantifier} {rest : Chars} (hq : q = .star)
    (h : (Sequence.cons (.group false (.only .nil)) q s).last = some .star → Followed rest) : Followed (s.text ++ rest) := by
  cases s with
  | nil => exact h (congrArg some hq)
  | cons r q' s =>
      obtain ⟨c, t, ht, hc⟩ := r.text_head
      rw [Sequence.text, ht]
      exact ⟨List.cons_ne_nil _ _, fun hhead => hc (Option.some.inj hhead)⟩

theorem Sequence.last_cons {r : Item} {q : Quantifier} {s : Sequence} (h : s.last = some .star) :
    (Sequence.cons r q s).last = some .star := by
  rw [Sequence.last, h]
  rfl

theorem emit_concat (alternatives : List (List Chars)) (parts : List Chars) (more : List (List Chars)) :
    alternatives ++ [parts] ++ more = alternatives ++ (parts :: more) := by
  rw [List.append_assoc, List.singleton_append]

mutual
/-- **What is scanned of an item** : one element more. -/
theorem Item.run : ∀ (r : Item) (alternatives : List (List Chars)) (sequence : List Chars) (rest : Chars),
    run maxSize alternatives sequence (r.text ++ rest) =
      r.check maxSize >>= fun _ => run maxSize alternatives (sequence ++ [r.back.text]) rest
  | .atom t h, alternatives, sequence, rest => h.run rest
  | .group capturing d, alternatives, sequence, rest => by
    have hinner := Alternatives.run d [] (')' :: rest) (by simp) (fun _ => List.cons_ne_nil _ _)
    have hopen : afterOpen ((if capturing then [] else ['?', ':']) ++ (d.text ++ ')' :: rest)) = d.text ++ ')' :: rest := by
      cases capturing with
      | false => rfl
      | true => exact afterOpen_eq (d.text_head (by simp))
    have htext : (Item.group capturing d).text ++ rest =
        '(' :: ((if capturing then [] else ['?', ':']) ++ (d.text ++ ')' :: rest)) := by
      rw [Item.text]
      simp only [List.append_assoc, List.cons_append, List.nil_append]
    rw [htext, Item.check, Item.back, bind_assoc]
    cases hcheck : d.check maxSize with
    | error e =>
        rw [hcheck] at hinner
        exact run_group_error (by rw [hopen, hinner]; rfl)
    | ok _ =>
        rw [hcheck] at hinner
        cases hemit : emit maxSize d.partTexts with
        | error e =>
            refine run_group_error ?_
            rw [hopen, hinner]
            show (fun texts => _) <$> emit maxSize ([] ++ d.partTexts) = _
            rw [List.nil_append, hemit]
            rfl
        | ok texts =>
            have htexts : texts = d.partTexts.map alternative := by
              rcases @emit_cases maxSize d.partTexts with ⟨-, hok⟩ | ⟨what, herror⟩
              · exact Except.ok.inj (hemit.symm.trans hok)
              · rw [hemit] at herror
                cases herror
            refine (@run_group _ _ _ _ rest d.back.text ?_).trans ?_
            · rw [hopen, hinner]
              show (fun texts => _) <$> emit maxSize ([] ++ d.partTexts) = _
              rw [List.nil_append, hemit, htexts, d.text_back]
              rfl
            · show _ = run maxSize alternatives (sequence ++ [(Item.group false d.back).text]) rest
              rw [Item.text]
              simp only [Bool.false_eq_true, if_false, List.cons_append, List.nil_append]

theorem Sequence.run : ∀ (s : Sequence) (alternatives : List (List Chars)) (sequence : List Chars) (rest : Chars),
    (s.last = some .star → Followed rest) → run maxSize alternatives sequence (s.text ++ rest) =
      s.check maxSize >>= fun _ => run maxSize alternatives (sequence ++ s.partTexts) rest
  | .nil, alternatives, sequence, rest, _ => by
    rw [Sequence.partTexts, Sequence.parts, List.map_nil, List.append_nil]
    rfl
  | .cons r q s, alternatives, sequence, rest, h => by
    have hfollowed : q = .star → Followed (s.text ++ rest) := fun hq => s.followed hq h
    rw [Sequence.text, Sequence.check, List.append_assoc, List.append_assoc, Item.run r, bind_assoc]
    refine congrArg _ (funext fun _ => ?_)
    rw [q.run r.back.text hfollowed, Sequence.run s _ _ rest fun hs => h (Sequence.last_cons hs)]
    refine congrArg _ (funext fun _ => ?_)
    rw [Sequence.partTexts, Sequence.partTexts, Sequence.parts, List.map_append, List.map_map, List.append_assoc]
    rfl

/-- What is scanned up to the end of a group, or of the pattern. -/
theorem Alternatives.run : ∀ (d : Alternatives) (alternatives : List (List Chars)) (rest : Chars),
    rest = [] ∨ rest.head? = some ')' → (d.EndsInStar → rest ≠ []) → run maxSize alternatives [] (d.text ++ rest) =
      d.check maxSize >>= fun _ => (fun texts => (['|'].intercalate texts, rest)) <$> emit maxSize
        (alternatives ++ d.partTexts)
  | .only s, alternatives, rest, hrest, hstar => by
    have hends : Regex.run maxSize alternatives ([] ++ s.partTexts) rest =
        (fun texts => (['|'].intercalate texts, rest)) <$> emit maxSize (alternatives ++ [s.partTexts]) := by
      rcases hrest with rfl | hrest
      · rfl
      · obtain ⟨c, t, rfl⟩ := List.exists_cons_of_ne_nil (List.ne_nil_of_mem (List.mem_of_mem_head? hrest))
        cases hrest
        rfl
    rw [Alternatives.text, Alternatives.check, Sequence.run s alternatives [] rest, hends]
    · rfl
    · intro hs
      refine ⟨hstar hs, ?_⟩
      rcases hrest with rfl | hrest
      · exact absurd rfl (hstar hs)
      · rw [hrest]
        decide
  | .or s d, alternatives, rest, hrest, hstar => by
    rw [Alternatives.text, Alternatives.check, List.append_assoc, List.append_assoc, List.singleton_append, bind_assoc,
      Sequence.run s alternatives [] ('|' :: (d.text ++ rest)) fun _ => ⟨List.cons_ne_nil _ _, by simp⟩]
    refine congrArg _ (funext fun _ => ?_)
    rw [run_bar, Alternatives.run d _ rest hrest hstar, List.nil_append, emit_concat]
    rfl
end

theorem Sequence.run_star : ∀ (s : Sequence) (alternatives : List (List Chars)) (sequence : List Chars),
    s.last = some .star → Regex.run maxSize alternatives sequence s.text =
      s.check maxSize >>= fun _ => .error .outOfRange
  | .cons r q .nil, alternatives, sequence, h => by
    obtain rfl : q = .star := Option.some.inj h
    rw [Sequence.text, Sequence.text, Sequence.check, List.append_nil, Item.run r, bind_assoc]
    refine congrArg _ (funext fun _ => ?_)
    exact run_star_last _
  | .cons r q (.cons r' q' s), alternatives, sequence, h => by
    have hlast : (Sequence.cons r' q' s).last = some .star := h
    have hfollowed : q = .star → Followed (Sequence.cons r' q' s).text := by
      intro _
      obtain ⟨c, t, ht, hc⟩ := r'.text_head
      rw [Sequence.text, ht]
      exact ⟨List.cons_ne_nil _ _, fun hhead => hc (Option.some.inj hhead)⟩
    rw [Sequence.text, Sequence.check, List.append_assoc, Item.run r, bind_assoc]
    refine congrArg _ (funext fun _ => ?_)
    rw [q.run r.back.text hfollowed, Sequence.run_star (.cons r' q' s) _ _ hlast]

theorem Alternatives.run_star : ∀ (d : Alternatives) (alternatives : List (List Chars)), d.EndsInStar →
    Regex.run maxSize alternatives [] d.text = d.check maxSize >>= fun _ => .error .outOfRange
  | .only s, alternatives, h => s.run_star alternatives [] h
  | .or s d, alternatives, h => by
    rw [Alternatives.text, Alternatives.check, List.append_assoc, List.singleton_append, bind_assoc,
      Sequence.run s alternatives [] ('|' :: d.text) fun _ => ⟨List.cons_ne_nil _ _, by simp⟩]
    refine congrArg _ (funext fun _ => ?_)
    rw [run_bar, Alternatives.run_star d _ h]

/-! ## What is checked -/

theorem check_bind {x y : Except Fault Unit} : (x >>= fun _ => y) = .ok () ↔ x = .ok () ∧ y = .ok () := by
  cases x with
  | error e => exact ⟨fun h => (by cases h), fun h => (by cases h.1)⟩
  | ok _ => exact ⟨fun h => ⟨rfl, h⟩, fun h => h.2⟩

theorem emit_check (alternatives : List (List Chars)) : ((fun _ => ()) <$> emit maxSize alternatives : Except Fault Unit) =
    .ok () ↔ ∀ parts ∈ alternatives, Regex.Fits maxSize parts.length := by
  rcases @emit_cases maxSize alternatives with ⟨hall, hok⟩ | ⟨what, herror⟩
  · rw [hok]
    exact iff_of_true rfl hall
  · refine iff_of_false (fun h => ?_) fun hall => ?_
    · rw [herror] at h
      cases h
    · rw [emit_ok hall] at herror
      cases herror

theorem Sequence.length_partTexts (s : Sequence) : s.partTexts.length = s.parts.length := List.length_map _

mutual
theorem Item.check_iff : ∀ r : Item, r.check maxSize = .ok () ↔ r.Fits maxSize
  | .atom _ _ => iff_of_true rfl trivial
  | .group _ d => by
    rw [Item.check, check_bind, emit_check]
    exact Alternatives.check_iff d

theorem Sequence.check_iff : ∀ s : Sequence, s.check maxSize = .ok () ↔ s.Fits maxSize
  | .nil => iff_of_true rfl trivial
  | .cons r q s => by
    rw [Sequence.check, check_bind, Item.check_iff r, Sequence.check_iff s]
    exact Iff.rfl

theorem Alternatives.check_iff : ∀ d : Alternatives, (d.check maxSize = .ok () ∧
    ∀ parts ∈ d.partTexts, Regex.Fits maxSize parts.length) ↔ d.Fits maxSize
  | .only s => by
    rw [Alternatives.check, Sequence.check_iff s, Alternatives.partTexts, List.forall_mem_singleton, s.length_partTexts]
    exact Iff.rfl
  | .or s d => by
    have hd := Alternatives.check_iff d
    rw [Alternatives.check, check_bind, Sequence.check_iff s, Alternatives.partTexts, List.forall_mem_cons,
      s.length_partTexts, and_and_and_comm, hd, and_assoc]
    exact Iff.rfl
end

/-! ## The pattern that is returned -/

/-- `[\s\S]` -/
def anyAtom : Chars := ['[', '\\', 's', '\\', 'S', ']']

theorem atom_anyAtom : Atom anyAtom := .cls (by decide)

/-- The alternatives in reverse, in the one group, and what comes behind. -/
def partialPattern (p : Alternatives) : Sequence :=
  .cons (.group true p.back) .once (.cons (.atom anyAtom atom_anyAtom) .star .nil)

theorem text_partialPattern (p : Alternatives) :
    (partialPattern p).text = ['('] ++ ['|'].intercalate (p.partTexts.map alternative) ++ anything := by
  rw [← p.text_back]
  show ['('] ++ [] ++ p.back.text ++ [')'] ++ [] ++ (anyAtom ++ ['*'] ++ []) = _
  simp only [List.append_assoc, List.append_nil]
  rfl

theorem reversedPartialRegex_eq (pattern : Chars) : reversedPartialRegex maxSize pattern =
    run maxSize [] [] pattern >>= fun x =>
      if x.2 ≠ [] then .error (.thrown "Unmatched '(' in pattern") else .ok (['('] ++ x.1 ++ anything) := rfl

theorem reversedPartialRegex_ok {p : Alternatives} (hfits : p.Fits maxSize) (hstar : ¬ p.EndsInStar) :
    reversedPartialRegex maxSize p.text = .ok (partialPattern p).text := by
  have hrun := @Alternatives.run maxSize p [] [] (.inl rfl) (fun h => absurd h hstar)
  obtain ⟨hcheck, hall⟩ := p.check_iff.mpr hfits
  rw [List.append_nil, hcheck] at hrun
  rw [reversedPartialRegex_eq, hrun, text_partialPattern]
  show (fun texts => _) <$> emit maxSize ([] ++ p.partTexts) >>= _ = _
  rw [List.nil_append, emit_ok hall]
  rfl

/-- **The pattern is written** unless one of its alternatives has no element or does not fit, or its last character is a
`*`. -/
theorem reversedPartialRegex_iff (p : Alternatives) :
    (∃ res, reversedPartialRegex maxSize p.text = .ok res) ↔ p.Fits maxSize ∧ ¬ p.EndsInStar := by
  constructor
  · rintro ⟨res, hres⟩
    rw [reversedPartialRegex_eq] at hres
    obtain ⟨x, hrun, -⟩ := bind_eq_ok hres
    by_cases hstar : p.EndsInStar
    · rw [p.run_star [] hstar] at hrun
      obtain ⟨_, -, herror⟩ := bind_eq_ok hrun
      cases herror
    · refine ⟨?_, hstar⟩
      have hok := @Alternatives.run maxSize p [] [] (.inl rfl) (fun h => absurd h hstar)
      rw [List.append_nil, hrun] at hok
      obtain ⟨_, hcheck, hemit⟩ := bind_eq_ok hok.symm
      rw [List.nil_append] at hemit
      obtain ⟨texts, hemit, -⟩ := map_eq_ok hemit
      refine p.check_iff.mp ⟨hcheck, (emit_check _).mp ?_⟩
      rw [hemit]
      rfl
  · rintro ⟨hfits, hstar⟩
    exact ⟨_, reversedPartialRegex_ok hfits hstar⟩

end Patterns

end S2Moe.Regex
