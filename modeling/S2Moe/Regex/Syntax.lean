import Mathlib
import S2Moe.Lib.Cuts
import S2Moe.Regex.Reversed

/-!
# Patterns and what they match

The patterns of characters, classes, groups, alternatives and the quantifiers `?`, `*`, `+` and `\x7bm,n\x7d`.

* `Item`, `Sequence`, `Alternatives` : the patterns, `text` : how they are written, `lang` : the words they match, when
`reads` says what characters an atom stands for;
* `Quantifier.expand` : the quantifiers of the elements that an element and its quantifier become;
* `Item.back`, `Sequence.parts`, `Alternatives.back` : the pattern that is written, whose elements come in reverse, each but
the first in an optional group;
* `Alternatives.cut` : the words that are read of a pattern where each of its groups may be left behind any element;
* `Alternatives.lang_back` : the pattern that is written matches these words in reverse;
* `Alternatives.within` : a word of the pattern, and what it starts with, is one of them.
-/

namespace S2Moe.Regex
open S2Moe.Lib

/-! ## Patterns -/

/-- What is behind a backslash and has more than one character, or matches none. -/
def noClass : List Char := ['b', 'B', 'c', 'u', 'x']

/-- A character, a class of characters, or a class that is escaped. -/
inductive Atom : Chars → Prop
  | char {c : Char} (h : c ∉ special) (hstart : c ≠ '^') (hend : c ≠ '$') : Atom [c]
  | escape {d : Char} (h : d ∉ noClass) (hdigit : ¬ d.isDigit) : Atom ['\\', d]
  | cls {cls : Chars} (h : scanClass cls = .ok (cls, [])) : Atom ('[' :: cls)

/-- `\x7bm\x7d`, `\x7bm,\x7d` or `\x7bm,n\x7d` : what is inside, and the bounds. -/
structure Repetition where
  inside : Chars
  least : Nat
  most : Option Nat
  written : ∃ m n : Chars, m ≠ [] ∧ (∀ c ∈ m ++ n, c.isDigit) ∧ (inside = m ∨ inside = m ++ [','] ++ n)
  parsed : parseRepetition inside = .ok ((least : Int), most.map fun n : Nat => (n : Int))

inductive Quantifier where
  | once | optional | star | plus
  | repetition (r : Repetition)

def Quantifier.text : Quantifier → Chars
  | once => []
  | optional => ['?']
  | star => ['*']
  | plus => ['+']
  | repetition r => ['\x7b'] ++ r.inside ++ ['\x7d']

/-- How often, at least and at most. -/
def Quantifier.bounds : Quantifier → Nat × Option Nat
  | once => (1, some 1)
  | optional => (0, some 1)
  | star => (0, none)
  | plus => (1, none)
  | repetition r => (r.least, r.most)

mutual
/-- A character, a class or a group. -/
inductive Item where
  | atom (t : Chars) (h : Atom t)
  | group (capturing : Bool) (d : Alternatives)

/-- Items with their quantifiers behind each other. -/
inductive Sequence where
  | nil
  | cons (r : Item) (q : Quantifier) (s : Sequence)

inductive Alternatives where
  | only (s : Sequence)
  | or (s : Sequence) (d : Alternatives)
end

mutual
def Item.text : Item → Chars
  | .atom t _ => t
  | .group capturing d => ['('] ++ (if capturing then [] else ['?', ':']) ++ d.text ++ [')']

def Sequence.text : Sequence → Chars
  | .nil => []
  | .cons r q s => r.text ++ q.text ++ s.text

def Alternatives.text : Alternatives → Chars
  | .only s => s.text
  | .or s d => s.text ++ ['|'] ++ d.text
end

variable (reads : Chars → Set UInt8)

def Quantifier.times (q : Quantifier) (L : Language UInt8) : Language UInt8 := repeats L q.bounds.1 q.bounds.2

mutual
/-- The words that the pattern matches. -/
def Item.lang : Item → Language UInt8
  | .atom t _ => {w | ∃ b ∈ reads t, w = [b]}
  | .group _ d => d.lang

def Sequence.lang : Sequence → Language UInt8
  | .nil => 1
  | .cons r q s => q.times r.lang * s.lang

def Alternatives.lang : Alternatives → Language UInt8
  | .only s => s.lang
  | .or s d => s.lang + d.lang
end

/-! ## The pattern that is written -/

/-- The elements that an element with the quantifier becomes. -/
def Quantifier.expand : Quantifier → List Quantifier
  | repetition r => List.replicate r.least once ++
    match r.most with
    | some most => List.replicate (most - r.least) optional
    | none => [star]
  | q => [q]

/-- The elements in reverse, all but the first in an optional group. -/
def nest : List (Item × Quantifier) → Sequence
  | [] => .nil
  | [p] => .cons p.1 p.2 .nil
  | p :: q :: ps => .cons (.group false (.only (nest (q :: ps)))) .optional (.cons p.1 p.2 .nil)

mutual
def Item.back : Item → Item
  | .atom t h => .atom t h
  | .group _ d => .group false d.back

/-- The elements of an alternative. -/
def Sequence.parts : Sequence → List (Item × Quantifier)
  | .nil => []
  | .cons r q s => q.expand.map (fun q => (r.back, q)) ++ s.parts

def Alternatives.back : Alternatives → Alternatives
  | .only s => .only (nest s.parts)
  | .or s d => .or (nest s.parts) d.back
end

/-! ## Words that are read in part -/

mutual
/-- What may be read of an item : of a group, where it and its groups may be left behind any element. -/
def Item.cut : Item → Language UInt8
  | .atom t _ => {w | ∃ b ∈ reads t, w = [b]}
  | .group _ d => d.cut

def Sequence.cutParts : Sequence → List (Language UInt8)
  | .nil => []
  | .cons r q s => q.expand.map (fun q => q.times r.cut) ++ s.cutParts

def Alternatives.cut : Alternatives → Language UInt8
  | .only s => cuts s.cutParts
  | .or s d => cuts s.cutParts + d.cut
end

/-! ## Bounds -/

mutual
/-- Each of the alternatives has an element, and its opening groups fit a string. -/
def Item.Fits (maxSize : Nat) : Item → Prop
  | .atom _ _ => True
  | .group _ d => d.Fits maxSize

def Sequence.Fits (maxSize : Nat) : Sequence → Prop
  | .nil => True
  | .cons r _ s => r.Fits maxSize ∧ s.Fits maxSize

def Alternatives.Fits (maxSize : Nat) : Alternatives → Prop
  | .only s => s.Fits maxSize ∧ Regex.Fits maxSize s.parts.length
  | .or s d => s.Fits maxSize ∧ Regex.Fits maxSize s.parts.length ∧ d.Fits maxSize
end

section Repeat
variable {L : Language UInt8}

theorem Repetition.least_le (r : Repetition) : ∀ most ∈ r.most, r.least ≤ most := by
  intro most hmost
  have hparsed := r.parsed
  unfold parseRepetition at hparsed
  dsimp only at hparsed
  split at hparsed
  · cases hparsed
  · obtain ⟨least, -, hparsed⟩ := bind_eq_ok hparsed
    obtain ⟨bound, -, hparsed⟩ := bind_eq_ok hparsed
    cases bound with
    | none =>
        have hnone := congrArg Prod.snd (Except.ok.inj hparsed)
        rw [Option.mem_def.mp hmost] at hnone
        cases hnone
    | some bound =>
        rw [checkRange] at hparsed
        split at hparsed
        · cases hparsed
        · rename_i hle
          have heq := Except.ok.inj hparsed
          have hleast : least.getD 0 = (r.least : Int) := congrArg Prod.fst heq
          have hbound : some bound = r.most.map fun n : Nat => (n : Int) := congrArg Prod.snd heq
          rw [Option.mem_def.mp hmost, Option.map_some, Option.some.injEq] at hbound
          omega

theorem Quantifier.times_once : Quantifier.once.times L = L := by
  have hone := pow_mul_repeats (L := L) 1 (some 0)
  rw [repeats_zero, mul_one, pow_one] at hone
  exact hone.symm

theorem Quantifier.times_optional : Quantifier.optional.times L = L + 1 := by
  have hone := repeats_succ (L := L) 0
  rw [repeats_zero, mul_one] at hone
  exact hone.symm

/-- Words that may be left out. -/
theorem prod_optional (L : Language UInt8) (n : Nat) :
    (List.replicate n (Quantifier.optional.times L)).prod = repeats L 0 (some n) := by
  induction n with
  | zero => exact repeats_zero.symm
  | succ n ih =>
      rw [List.replicate_succ, List.prod_cons, ih, Quantifier.times_optional]
      ext w
      rw [add_mul, one_mul, ← repeats_succ, Language.mem_add, Language.mem_add]
      refine ⟨fun h => h.elim .inl fun h => ?_, fun h => h.elim .inl fun h => .inr ?_⟩
      · obtain ⟨k, -, hk, hw⟩ := h
        cases k with
        | zero => exact .inr hw
        | succ k =>
            rw [pow_succ'] at hw
            obtain ⟨a, ha, b, hb, rfl⟩ := Language.mem_mul.mp hw
            refine .inl (Language.append_mem_mul ha ⟨k, Nat.zero_le k, fun m hm => ?_, hb⟩)
            exact (Nat.le_succ k).trans (hk m hm)
      · exact ⟨0, le_rfl, fun m _ => Nat.zero_le m, h⟩

/-- **The elements that an element becomes are what its quantifier says.** -/
theorem Quantifier.prod_expand (q : Quantifier) (L : Language UInt8) : (q.expand.map fun q => q.times L).prod =
    q.times L := by
  cases q with
  | once | optional | star | plus => exact List.prod_singleton
  | repetition r =>
      rw [expand, List.map_append, List.prod_append, List.map_replicate, times_once, List.prod_replicate]
      cases hmost : r.most with
      | none =>
          show L ^ r.least * List.prod [repeats L 0 none] = repeats L r.least r.most
          rw [List.prod_singleton, pow_mul_repeats, hmost, Option.map_none]
      | some most =>
          show L ^ r.least * (List.map (fun q => q.times L) (List.replicate (most - r.least) Quantifier.optional)).prod =
            repeats L r.least r.most
          rw [List.map_replicate, prod_optional, pow_mul_repeats, hmost, Option.map_some,
            Nat.add_sub_cancel' (r.least_le most hmost)]

theorem Quantifier.bounds_expand {q q' : Quantifier} (h : q' ∈ q.expand) : q'.bounds.1 ≤ 1 := by
  cases q with
  | once | optional | star | plus =>
      rw [List.mem_singleton.mp h]
      decide
  | repetition r =>
      rcases List.mem_append.mp h with h | h
      · rw [List.eq_of_mem_replicate h]
        exact le_rfl
      · cases hmost : r.most with
        | none =>
            rw [hmost] at h
            rw [List.mem_singleton.mp h]
            exact Nat.zero_le 1
        | some most =>
            rw [hmost] at h
            rw [List.eq_of_mem_replicate h]
            exact Nat.zero_le 1

theorem Quantifier.times_reverse (q : Quantifier) : (q.times L).reverse = q.times L.reverse := reverse_repeats _ _

end Repeat

/-! ## The words of the pattern that is written -/

section Back
variable {maxSize : Nat} {reads}

theorem Fits.pos (hmax : maxSize < 2 ^ 64) {n : Nat} (h : Fits maxSize n) : 0 < n := by
  apply Nat.pos_of_ne_zero
  rintro rfl
  rw [Fits, lessOne, if_pos rfl] at h
  omega

/-- The elements in reverse match the words of the first elements in reverse. -/
theorem lang_nest {ps : List (Item × Quantifier)} (hne : ps ≠ []) :
    (nest ps).lang reads = (cuts (ps.map fun p => p.2.times (p.1.lang reads).reverse)).reverse := by
  induction ps with
  | nil => exact absurd rfl hne
  | cons p ps ih =>
      have hlast : (p.2.times (p.1.lang reads).reverse).reverse = p.2.times (p.1.lang reads) := by
        rw [Quantifier.times_reverse, Language.reverse_reverse]
      cases ps with
      | nil =>
          rw [List.map_singleton, cuts_singleton, hlast]
          exact mul_one _
      | cons q ps =>
          rw [List.map_cons, cuts, Language.reverse_add, Language.reverse_mul, hlast, ← ih (List.cons_ne_nil q ps)]
          show Quantifier.optional.times ((nest (q :: ps)).lang reads) * (p.2.times (p.1.lang reads) * 1) = _
          rw [Quantifier.times_optional, mul_one, add_mul, one_mul, add_comm]

mutual
theorem Item.lang_back (hmax : maxSize < 2 ^ 64) : ∀ r : Item, r.Fits maxSize → r.back.lang reads = (r.cut reads).reverse
  | .atom t h, _ => by
    rw [Item.back, Item.lang, Item.cut]
    ext w
    show (∃ b ∈ reads t, w = [b]) ↔ ∃ b ∈ reads t, w.reverse = [b]
    refine exists_congr fun b => and_congr_right fun _ => ?_
    rw [List.reverse_eq_iff, List.reverse_singleton]
  | .group _ d, h => Alternatives.lang_back hmax d h

theorem Sequence.lang_parts (hmax : maxSize < 2 ^ 64) : ∀ s : Sequence, s.Fits maxSize →
    s.parts.map (fun p => p.2.times (p.1.lang reads).reverse) = s.cutParts reads
  | .nil, _ => rfl
  | .cons r q s, h => by
    rw [Sequence.parts, Sequence.cutParts, List.map_append, List.map_map, Sequence.lang_parts hmax s h.2]
    refine congrArg (· ++ _) (List.map_congr_left fun q _ => ?_)
    show q.times (r.back.lang reads).reverse = q.times (r.cut reads)
    rw [Item.lang_back hmax r h.1, Language.reverse_reverse]

/-- **The pattern that is written matches, in reverse, the words that are read where its groups may be left.** -/
theorem Alternatives.lang_back (hmax : maxSize < 2 ^ 64) : ∀ d : Alternatives, d.Fits maxSize →
    d.back.lang reads = (d.cut reads).reverse
  | .only s, h => by
    rw [Alternatives.back, Alternatives.lang, Alternatives.cut, lang_nest (List.ne_nil_of_length_pos (h.2.pos hmax)),
      Sequence.lang_parts hmax s h.1]
  | .or s d, h => by
    rw [Alternatives.back, Alternatives.lang, Alternatives.cut, lang_nest (List.ne_nil_of_length_pos (h.2.1.pos hmax)),
      Sequence.lang_parts hmax s h.1, Alternatives.lang_back hmax d h.2.2, Language.reverse_add]
end

/-- What an element matches, and what it starts with, is read in part. -/
def Within (L M : Language UInt8) : Prop := (∀ w ∈ L, w ∈ M) ∧ ∀ u ∈ begins L, u ∈ M

theorem Within.times {L M : Language UInt8} (h : Within L M) {q : Quantifier} (hq : q.bounds.1 ≤ 1) :
    Within (q.times L) (q.times M) := ⟨repeats_subset h.1 _ _, begins_repeats h.1 h.2 hq⟩

theorem Within.add {L L' M M' : Language UInt8} (h : Within L M) (h' : Within L' M') : Within (L + L') (M + M') := by
  constructor
  · intro w hw
    exact hw.imp (h.1 w) (h'.1 w)
  · intro u hu
    rw [begins_add] at hu
    exact hu.imp (h.2 u) (h'.2 u)

/-- Elements behind each other. -/
theorem Within.prod {Ls Ms : List (Language UInt8)} (h : List.Forall₂ Within Ls Ms) (hne : Ms ≠ []) :
    Within Ls.prod (cuts Ms) := by
  constructor
  · intro w hw
    exact prod_subset_cuts hne w (prod_subset (h.imp fun _ _ h => h.1) w hw)
  · exact begins_prod_subset_cuts h

theorem Sequence.length_cutParts : ∀ s : Sequence, (s.cutParts reads).length = s.parts.length
  | .nil => rfl
  | .cons r q s => by
    rw [Sequence.cutParts, Sequence.parts, List.length_append, List.length_append, List.length_map, List.length_map,
      Sequence.length_cutParts s]

theorem Sequence.cutParts_ne_nil (hmax : maxSize < 2 ^ 64) {s : Sequence} (h : Regex.Fits maxSize s.parts.length) :
    s.cutParts reads ≠ [] := by
  apply List.ne_nil_of_length_pos
  rw [Sequence.length_cutParts]
  exact h.pos hmax

mutual
theorem Item.within (hmax : maxSize < 2 ^ 64) : ∀ r : Item, r.Fits maxSize → Within (r.lang reads) (r.cut reads)
  | .atom t _, _ => by
    refine ⟨fun w hw => hw, ?_⟩
    rintro u ⟨hne, w, ⟨b, hb, rfl⟩, hu⟩
    rcases List.prefix_cons_iff.mp hu with rfl | ⟨t, rfl, ht⟩
    · exact absurd rfl hne
    · rw [List.prefix_nil.mp ht]
      exact ⟨b, hb, rfl⟩
  | .group _ d, h => Alternatives.within hmax d h

theorem Sequence.within (hmax : maxSize < 2 ^ 64) : ∀ s : Sequence, s.Fits maxSize →
    ∃ Ls : List (Language UInt8), Ls.prod = s.lang reads ∧ List.Forall₂ Within Ls (s.cutParts reads)
  | .nil, _ => ⟨[], rfl, .nil⟩
  | .cons r q s, h => by
    obtain ⟨Ls, hprod, hwithin⟩ := Sequence.within hmax s h.2
    refine ⟨q.expand.map (fun q => q.times (r.lang reads)) ++ Ls, ?_, ?_⟩
    · rw [List.prod_append, Quantifier.prod_expand, hprod]
      rfl
    · rw [Sequence.cutParts]
      refine List.rel_append ?_ hwithin
      rw [List.forall₂_map_left_iff, List.forall₂_map_right_iff, List.forall₂_same]
      exact fun q' hq' => (Item.within hmax r h.1).times (Quantifier.bounds_expand hq')

/-- **What a word of the pattern starts with is read where its groups may be left.** -/
theorem Alternatives.within (hmax : maxSize < 2 ^ 64) : ∀ d : Alternatives, d.Fits maxSize →
    Within (d.lang reads) (d.cut reads)
  | .only s, h => by
    obtain ⟨Ls, hprod, hwithin⟩ := Sequence.within hmax s h.1
    rw [Alternatives.lang, Alternatives.cut, ← hprod]
    exact Within.prod hwithin (Sequence.cutParts_ne_nil hmax h.2)
  | .or s d, h => by
    obtain ⟨Ls, hprod, hwithin⟩ := Sequence.within hmax s h.1
    rw [Alternatives.lang, Alternatives.cut, ← hprod]
    exact (Within.prod hwithin (Sequence.cutParts_ne_nil hmax h.2.1)).add (Alternatives.within hmax d h.2.2)
end

end Back

end S2Moe.Regex
