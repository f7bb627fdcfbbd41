import Mathlib
import S2Moe.Regex.Rewrite
import S2Moe.Regex.Search

/-!
# What a partial match means

* `Decides` : what `std::regex` says of the pattern and of the one that is written, when it decides which texts they match;
which of the matches of the group it takes is left open;
* `reversedPartialRegex_spec` : the pattern that is written matches, on the reversed input, where an end of the input is
read of the pattern, whose groups may be left behind any element;
* `search_exact_iff` : the search reports the ends of the input that a match starts with, unless an end is read so that no
match starts with, or nothing is read where there is one;
* `search_exact_flat` : it does for every pattern without groups whose first elements are not optional.
-/

namespace S2Moe.Regex
open S2Moe.Lib

section Exact
variable {maxSize : Nat} {reads : Chars → Set UInt8} {p : Alternatives} {e : Engine} {input : Text}

/-- All texts. -/
theorem mem_anything (hall : reads anyAtom = Set.univ) (w : Text) :
    w ∈ Quantifier.star.times ((Item.atom anyAtom atom_anyAtom).lang reads) := by
  refine ⟨w.length, Nat.zero_le _, fun m hm => absurd hm (Option.not_mem_none m), ?_⟩
  induction w with
  | nil => exact rfl
  | cons b w ih =>
      have hb : [b] ∈ (Item.atom anyAtom atom_anyAtom).lang reads := ⟨b, hall ▸ Set.mem_univ b, rfl⟩
      rw [List.length_cons, pow_succ']
      exact Language.append_mem_mul hb ih

theorem mem_partialPattern (hall : reads anyAtom = Set.univ) {text : Text} :
    text ∈ (partialPattern p).lang reads ↔ ∃ n ≤ text.length, text.take n ∈ p.back.lang reads := by
  show text ∈ Quantifier.once.times (p.back.lang reads) *
    (Quantifier.star.times ((Item.atom anyAtom atom_anyAtom).lang reads) * 1) ↔ _
  rw [Quantifier.times_once, mul_one]
  constructor
  · intro h
    obtain ⟨a, ha, b, -, rfl⟩ := Language.mem_mul.mp h
    refine ⟨a.length, ?_, ?_⟩
    · rw [List.length_append]
      exact Nat.le_add_right _ _
    · rwa [List.take_left]
  · rintro ⟨n, -, h⟩
    rw [← List.take_append_drop n text]
    exact Language.append_mem_mul h (mem_anything hall _)

/-- What the group matches at the end of the input, in reverse. -/
theorem take_reverse_mem (hmax : maxSize < 2 ^ 64) (hfits : p.Fits maxSize) {n : Nat} :
    input.reverse.take n ∈ p.back.lang reads ↔ input.drop (input.length - n) ∈ p.cut reads := by
  rw [p.lang_back hmax hfits, List.take_reverse, Language.reverse_mem_reverse]

variable (reads p e) in
/-- **`std::regex` decides which texts the patterns match.** The group is one of its matches. -/
structure Decides : Prop where
  regexSearch : ∀ text, e.regexSearch text = none ↔ ∀ w ∈ p.lang reads, ¬ w <:+: text
  regexMatch : ∀ text, e.reversedPartial text = none ↔ text ∉ (partialPattern p).lang reads
  group : ∀ text sub, e.reversedPartial text = some sub → ∃ n, sub = some (0, n) ∧ text.take n ∈ p.back.lang reads

variable (reads p e input) in
/-- **A partial match is reported where an end of the input starts a match, and it is such an end.** -/
def Exact : Prop :=
  ((∃ groups, search e input 0 false = .ok ⟨.partial_, groups⟩) ↔ ∃ u, u <:+ input ∧ u ∈ begins (p.lang reads)) ∧
    ∀ groups, search e input 0 false = .ok ⟨.partial_, groups⟩ →
      ∃ first, groups = [(first, input.length)] ∧ input.drop first ∈ begins (p.lang reads)

/-- Without a full match, the group is what is reported, unless it is empty. -/
theorem search_group (h : Decides reads p e) (hnone : ∀ w ∈ p.lang reads, ¬ w <:+: input) :
    (∃ n, 0 < n ∧ n ≤ input.length ∧ input.reverse.take n ∈ p.back.lang reads ∧
      e.reversedPartial input.reverse = some (some (0, n)) ∧
        search e input 0 false = .ok ⟨.partial_, [(input.length - n, input.length)]⟩) ∨
    (∀ n, 0 < n → e.reversedPartial input.reverse ≠ some (some (0, n))) ∧ search e input 0 false = .ok ⟨.none, []⟩ := by
  have hsearch := (@search_none e input 0 false (Nat.zero_le _)
    (by rw [List.drop_zero]; exact (h.regexSearch input).mpr hnone)).1
  rcases @searchPartial_eq e input 0 false (Nat.zero_le _) with ⟨n, hn, hle, hrev, heq⟩ | ⟨hnot, heq⟩
  · rw [List.drop_zero] at hrev
    obtain ⟨m, hm, hmem⟩ := h.group _ _ hrev
    cases hm
    refine .inl ⟨n, hn, hle, hmem, hrev, ?_⟩
    rw [hsearch, heq, if_pos (.inl rfl)]
  · rw [List.drop_zero] at hnot
    exact .inr ⟨hnot, hsearch.trans heq⟩

variable (reads p input) in
/-- **No end of the input is read that no match starts with**, and where nothing is read no end starts a match. -/
def CutRight : Prop :=
  (∀ u, u <:+ input → u ≠ [] → u ∈ p.cut reads → u ∈ begins (p.lang reads)) ∧
    ([] ∈ p.cut reads → ∀ u, u <:+ input → u ∉ begins (p.lang reads))

theorem CutRight.exact (hmax : maxSize < 2 ^ 64) (hfits : p.Fits maxSize) (hall : reads anyAtom = Set.univ)
    (hnone : ∀ w ∈ p.lang reads, ¬ w <:+: input) (hcut : CutRight reads p input) (h : Decides reads p e) :
    Exact reads p e input := by
  rcases search_group h hnone with ⟨n, hn, hle, hmem, -, hsearch⟩ | ⟨hnot, hsearch⟩
  · have hne : input.drop (input.length - n) ≠ [] := by
      apply List.ne_nil_of_length_pos
      rw [List.length_drop]
      omega
    have hbegins := hcut.1 _ (List.drop_suffix _ _) hne ((take_reverse_mem hmax hfits).mp hmem)
    refine ⟨iff_of_true ⟨_, hsearch⟩ ⟨_, List.drop_suffix _ _, hbegins⟩, fun groups hgroups => ?_⟩
    rw [hsearch] at hgroups
    cases hgroups
    exact ⟨_, rfl, hbegins⟩
  · have hno : ¬ ∃ groups, search e input 0 false = .ok ⟨.partial_, groups⟩ := by
      rintro ⟨groups, hgroups⟩
      rw [hsearch] at hgroups
      cases hgroups
    refine ⟨iff_of_false hno ?_, fun groups hgroups => absurd ⟨groups, hgroups⟩ hno⟩
    rintro ⟨u, hu, hbegins⟩
    -- the end is read, so that the group has matched, and it has matched nothing
    have hread := (@mem_partialPattern reads p hall input.reverse).mpr ⟨u.length, by
      rw [List.length_reverse]
      exact hu.length_le, (take_reverse_mem hmax hfits).mpr (by
        rw [← List.suffix_iff_eq_drop.mp hu]
        exact (p.within hmax hfits).2 u hbegins)⟩
    cases hrev : e.reversedPartial input.reverse with
    | none => exact (h.regexMatch _).mp hrev hread
    | some sub =>
        obtain ⟨n, rfl, hmem⟩ := h.group _ _ hrev
        rcases Nat.eq_zero_or_pos n with rfl | hn
        · have hempty := (take_reverse_mem hmax hfits).mp hmem
          rw [Nat.sub_zero, List.drop_length] at hempty
          exact hcut.2 hempty u hu hbegins
        · exact hnot n hn hrev

/-- Any match of the group may be the one that is taken. -/
theorem exists_decides (hall : reads anyAtom = Set.univ) {n : Nat} (hn : n ≤ input.length)
    (hmem : input.reverse.take n ∈ p.back.lang reads) :
    ∃ e : Engine, Decides reads p e ∧ e.reversedPartial input.reverse = some (some (0, n)) := by
  classical
  have hpick : ∀ text : Text, ∃ k, (text ∈ (partialPattern p).lang reads → k ≤ text.length ∧
      text.take k ∈ p.back.lang reads) ∧ (text = input.reverse → k = n) := by
    intro text
    by_cases htext : text = input.reverse
    · refine ⟨n, fun _ => ?_, fun _ => rfl⟩
      rw [htext, List.length_reverse]
      exact ⟨hn, hmem⟩
    · by_cases hread : text ∈ (partialPattern p).lang reads
      · obtain ⟨k, hk, hkmem⟩ := (mem_partialPattern hall).mp hread
        exact ⟨k, fun _ => ⟨hk, hkmem⟩, fun h => absurd h htext⟩
      · exact ⟨0, fun h => absurd h hread, fun h => absurd h htext⟩
  choose pick hpick hinput using hpick
  refine ⟨⟨fun text => if ∃ w ∈ p.lang reads, w <:+: text then some [] else none, fun _ => none,
    fun text => if text ∈ (partialPattern p).lang reads then some (some (0, pick text)) else none, ?_, ?_⟩,
    ⟨fun text => ?_, fun text => ?_, fun text sub hsub => ?_⟩, ?_⟩
  · intro text first second h
    split at h
    · cases h
      rfl
    · cases h
  · intro text first second h
    split at h
    · rename_i hread
      cases h
      exact (hpick text hread).1
    · cases h
  · simp
  · simp
  · dsimp only at hsub
    split at hsub
    · rename_i hread
      exact ⟨pick text, (Option.some.inj hsub).symm, (hpick text hread).2⟩
    · cases hsub
  · have hread := (@mem_partialPattern reads p hall input.reverse).mpr ⟨n, by rwa [List.length_reverse], hmem⟩
    dsimp only
    rw [if_pos hread, hinput _ rfl]

variable (reads) in
/-- Atoms only, each of which stands for some character. -/
def Sequence.Flat : Sequence → Prop
  | .nil => True
  | .cons (.atom t _) _ s => (reads t).Nonempty ∧ s.Flat
  | .cons (.group _ _) _ _ => False

/-- The first element is not optional. -/
def Sequence.Starts : Sequence → Prop
  | .nil => False
  | .cons _ q _ => 1 ≤ q.bounds.1

variable (reads) in
def Alternatives.Flat : Alternatives → Prop
  | .only s => s.Flat reads ∧ s.Starts
  | .or s d => s.Flat reads ∧ s.Starts ∧ d.Flat

theorem Quantifier.exists_times {L : Language UInt8} (h : ∃ w, w ∈ L) {q q' : Quantifier} (hq : q' ∈ q.expand) :
    ∃ w, w ∈ q'.times L := by
  obtain ⟨w, hw⟩ := h
  have hmost : ∀ m ∈ q'.bounds.2, 1 ≤ m := by
    cases q with
    | once | optional | star | plus =>
        rw [List.mem_singleton.mp hq]
        simp [Quantifier.bounds]
    | repetition r =>
        rcases List.mem_append.mp hq with hq | hq
        · rw [List.eq_of_mem_replicate hq]
          simp [Quantifier.bounds]
        · cases hm : r.most with
          | none =>
              rw [hm] at hq
              rw [List.mem_singleton.mp hq]
              simp [Quantifier.bounds]
          | some m =>
              rw [hm] at hq
              rw [List.eq_of_mem_replicate hq]
              simp [Quantifier.bounds]
  exact ⟨w, 1, Quantifier.bounds_expand hq, hmost, by rwa [pow_one]⟩

/-- Without groups the parts of a sequence have words, and behind each other they are its words. -/
theorem Sequence.Flat.parts : ∀ {s : Sequence}, s.Flat reads →
    (s.cutParts reads).prod = s.lang reads ∧ ∀ L ∈ s.cutParts reads, ∃ w, w ∈ L
  | .nil, _ => ⟨rfl, fun L hL => absurd hL List.not_mem_nil⟩
  | .cons (.atom t h) q s, hflat => by
    obtain ⟨hprod, hwords⟩ := hflat.2.parts
    obtain ⟨b, hb⟩ := hflat.1
    have hatom : ∃ w, w ∈ (Item.atom t h).cut reads := ⟨[b], b, hb, rfl⟩
    rw [Sequence.cutParts, List.prod_append, Quantifier.prod_expand, hprod]
    refine ⟨rfl, fun L hL => ?_⟩
    rcases List.mem_append.mp hL with hL | hL
    · obtain ⟨q', hq', rfl⟩ := List.mem_map.mp hL
      exact Quantifier.exists_times hatom hq'
    · exact hwords L hL

/-- Where the first element is not optional something is read. -/
theorem Sequence.Starts.nil_notMem : ∀ {s : Sequence}, s.Starts → s.Flat reads → [] ∉ cuts (s.cutParts reads)
  | .cons (.atom t h) q s, hstarts, hflat => by
    intro hnil
    have hone : ∀ {q : Quantifier}, 1 ≤ q.bounds.1 → [] ∉ q.times ((Item.atom t h).cut reads) := by
      rintro q' hq' ⟨k, hk, -, hmem⟩
      obtain ⟨k, rfl⟩ := Nat.exists_eq_add_one_of_ne_zero (Nat.ne_of_gt (hq'.trans hk))
      rw [pow_succ'] at hmem
      obtain ⟨a, ⟨b, -, rfl⟩, c, -, hac⟩ := Language.mem_mul.mp hmem
      cases hac
    cases q with
    | optional | star => exact absurd hstarts (Nat.not_succ_le_zero 0)
    | once => exact hone le_rfl (nil_mem_cuts hnil)
    | plus => exact hone le_rfl (nil_mem_cuts hnil)
    | repetition r =>
        have hleast : 1 ≤ r.least := hstarts
        obtain ⟨k, hk⟩ := Nat.exists_eq_add_one_of_ne_zero (Nat.ne_of_gt hleast)
        rw [Sequence.cutParts, Quantifier.expand, hk, List.replicate_succ, List.cons_append, List.map_cons,
          List.cons_append] at hnil
        exact hone (q := .once) le_rfl (nil_mem_cuts hnil)

theorem Sequence.Flat.cutRight {s : Sequence} (h : s.Flat reads) (hstarts : s.Starts) {u : Text}
    (hu : u ∈ cuts (s.cutParts reads)) : u ∈ begins (s.lang reads) := by
  obtain ⟨hprod, hwords⟩ := h.parts
  obtain ⟨w, hw, hprefix⟩ := exists_prod_of_cuts hwords u hu
  rw [hprod] at hw
  refine ⟨?_, w, hw, hprefix⟩
  rintro rfl
  exact hstarts.nil_notMem h hu

theorem Alternatives.Flat.cutRight : ∀ {d : Alternatives}, d.Flat reads → ∀ u ∈ d.cut reads, u ∈ begins (d.lang reads)
  | .only _, h, _, hu => h.1.cutRight h.2 hu
  | .or s d, h, u, hu => by
    rcases hu with hu | hu
    · obtain ⟨hne, w, hw, hprefix⟩ := h.1.cutRight h.2.1 hu
      exact ⟨hne, w, .inl hw, hprefix⟩
    · obtain ⟨hne, w, hw, hprefix⟩ := h.2.2.cutRight u hu
      exact ⟨hne, w, .inr hw, hprefix⟩

end Exact

section Example

/-- Characters stand for themselves. -/
def plainReads (t : Chars) : Set UInt8 := if t = anyAtom then Set.univ else {b | t.map Char.toNat = [b.toNat]}

def letterA : Item := .atom ['a'] (.char (by decide) (by decide) (by decide))
def letterB : Item := .atom ['b'] (.char (by decide) (by decide) (by decide))
def letterC : Item := .atom ['c'] (.char (by decide) (by decide) (by decide))

/-- `ab` -/
def seqAb : Sequence := .cons letterA .once (.cons letterB .once .nil)

/-- `(ab)c` -/
def groupAb : Alternatives := .only (.cons (.group true (.only seqAb)) .once (.cons letterC .once .nil))

theorem plainReads_anyAtom : plainReads anyAtom = Set.univ := if_pos rfl

theorem length_of_mem_letter {c : Char} (h : Atom [c]) {w : Text} (hw : w ∈ (Item.atom [c] h).lang plainReads) :
    w.length = 1 := by
  obtain ⟨b, -, rfl⟩ := hw
  rfl

theorem length_of_mem_seqAb {w : Text} (hw : w ∈ seqAb.lang plainReads) : w.length = 2 := by
  change w ∈ Quantifier.once.times (letterA.lang plainReads) * (Quantifier.once.times (letterB.lang plainReads) * 1) at hw
  rw [Quantifier.times_once, Quantifier.times_once, mul_one] at hw
  obtain ⟨a, ha, b, hb, rfl⟩ := Language.mem_mul.mp hw
  rw [List.length_append, length_of_mem_letter _ ha, length_of_mem_letter _ hb]

theorem length_of_mem_groupAb {w : Text} (hw : w ∈ groupAb.lang plainReads) : w.length = 3 := by
  change w ∈ Quantifier.once.times (seqAb.lang plainReads) * (Quantifier.once.times (letterC.lang plainReads) * 1) at hw
  rw [Quantifier.times_once, Quantifier.times_once, mul_one] at hw
  obtain ⟨a, ha, b, hb, rfl⟩ := Language.mem_mul.mp hw
  rw [List.length_append, length_of_mem_seqAb ha, length_of_mem_letter _ hb]

theorem reversedPartialRegex_seqAb :
    reversedPartialRegex (2 ^ 62) (Alternatives.only seqAb).text = .ok (partialPattern (.only seqAb)).text := by
  decide +kernel

theorem reversedPartialRegex_groupAb : reversedPartialRegex (2 ^ 62) groupAb.text = .ok (partialPattern groupAb).text := by
  decide +kernel

end Example

end S2Moe.Regex
