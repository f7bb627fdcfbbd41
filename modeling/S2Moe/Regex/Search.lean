import Mathlib.Data.List.Basic

/-!
# Searching with a regex

`common_regex::search` looks for a full match from a position on, and if there is none it matches the reverse of what is left
against a second regex, whose one capturing group is a partial match at the end of the input.

* `Engine` : what `std::regex` says of a range; it sees the characters of the range and nothing else;
* `search` : the method;
* `SameFrom`, `PartialWhole` : the result does not depend on what is before the position, and a partial match of all that is
left is found;
* `search_iff` : both hold but for a partial match of all that is left, behind a position that is not the first.
-/

namespace S2Moe.Regex

/-- `std::string` -/
abbrev Text := List UInt8

/-- A `std::sub_match` by its distances from the start of the range; a group that takes no part has none. -/
abbrev SubMatch := Option (Nat × Nat)

/-- `std::regex_search` and `std::regex_match` with the pattern, on a range, and the group of `std::regex_match` with the
reversed partial pattern, on a range that runs backwards: the pattern starts with the group, and the group is within the
range. -/
structure Engine where
  regexSearch : Text → Option (List SubMatch)
  regexMatch : Text → Option (List SubMatch)
  reversedPartial : Text → Option SubMatch
  group_start : ∀ text first second, reversedPartial text = some (some (first, second)) → first = 0
  group_end : ∀ text first second, reversedPartial text = some (some (first, second)) → second ≤ text.length

inductive MatchType where
  | none | partial_ | full
deriving DecidableEq

/-- `common_regex_match` : a range is its begin and its end. -/
structure Match where
  type : MatchType
  groups : List (Nat × Nat)
deriving DecidableEq

inductive Error where
  | outOfBounds   -- "Position out of bounds"
  | invalidRange  -- "Invalid range"
deriving DecidableEq

/-- `match.position(i)` and `match.length(i)` : a group that takes no part is at the end. -/
def position (range : Text) (sub : SubMatch) : Nat := sub.elim range.length Prod.fst

def length (sub : SubMatch) : Nat := sub.elim 0 fun g => g.2 - g.1

/-- The second half of `common_regex::search`. -/
def searchPartial (e : Engine) (input : Text) (pos : Nat) (asMatch : Bool) : Except Error Match :=
  match e.reversedPartial (input.drop pos).reverse with
  | some (some (first, second)) =>
    if second - first ≠ 0 then
      -- `srmatch[1].second.base()`, as a distance from `input.begin()`
      let begin_ := input.length - second
      if !asMatch || begin_ = 0 then
        if begin_ > input.length then .error .invalidRange else .ok ⟨.partial_, [(begin_, input.length)]⟩
      else .ok ⟨.none, []⟩
    else .ok ⟨.none, []⟩
  | _ => .ok ⟨.none, []⟩

/-- `common_regex::search` -/
def search (e : Engine) (input : Text) (pos : Nat) (asMatch : Bool) : Except Error Match :=
  if pos > input.length then .error .outOfBounds
  else
    let range := input.drop pos
    match if asMatch then e.regexMatch range else e.regexSearch range with
    | some groups =>
      .ok ⟨.full, groups.map fun sub => (pos + position range sub, pos + position range sub + length sub)⟩
    | none => searchPartial e input pos asMatch

section Positions
variable {e : Engine} {input : Text} {pos : Nat} {asMatch : Bool}

/-- The groups behind so many more characters. -/
def Match.shift (n : Nat) (m : Match) : Match := { m with groups := m.groups.map fun g => (n + g.1, n + g.2) }

/-- The group of the reversed partial pattern matches the text, all of it. -/
def Engine.PartialOf (e : Engine) (text : Text) : Prop :=
  text ≠ [] ∧ e.reversedPartial text.reverse = some (some (0, text.length))

instance (text : Text) : Decidable (e.PartialOf text) :=
  inferInstanceAs (Decidable (text ≠ [] ∧ e.reversedPartial text.reverse = some (some (0, text.length))))

/-- What is before the position does not matter. -/
def SameFrom (e : Engine) (input : Text) (pos : Nat) (asMatch : Bool) : Prop :=
  search e input pos asMatch = Match.shift pos <$> search e (input.drop pos) 0 asMatch

/-- With `as_match`, a partial match is one of all that is left. -/
def PartialWhole (e : Engine) (input : Text) (pos : Nat) : Prop :=
  (∃ groups, search e input pos true = .ok ⟨.partial_, groups⟩) ↔
    e.regexMatch (input.drop pos) = none ∧ e.PartialOf (input.drop pos)

/-- A full match does not depend on the position. -/
theorem search_full {groups : List SubMatch} (hpos : pos ≤ input.length)
    (h : (if asMatch then e.regexMatch (input.drop pos) else e.regexSearch (input.drop pos)) = some groups) :
    SameFrom e input pos asMatch ∧ ∃ m, search e input pos asMatch = .ok m ∧ m.type = .full := by
  have hsearch : search e input pos asMatch = .ok ⟨.full, groups.map fun sub =>
      (pos + position (input.drop pos) sub, pos + position (input.drop pos) sub + length sub)⟩ := by
    rw [search, if_neg (Nat.not_lt.mpr hpos)]
    dsimp only
    rw [h]
  have hrest : search e (input.drop pos) 0 asMatch = .ok ⟨.full, groups.map fun sub =>
      (0 + position (input.drop pos) sub, 0 + position (input.drop pos) sub + length sub)⟩ := by
    rw [search, if_neg (Nat.not_lt_zero _), List.drop_zero]
    dsimp only
    rw [h]
  refine ⟨?_, _, hsearch, rfl⟩
  rw [SameFrom, hsearch, hrest]
  show _ = Except.ok (Match.shift pos _)
  rw [Match.shift, List.map_map]
  refine congrArg (fun groups => Except.ok (Match.mk .full groups)) (List.map_congr_left fun sub _ => ?_)
  simp only [Function.comp_apply, Nat.zero_add, Nat.add_assoc]

theorem search_none (hpos : pos ≤ input.length)
    (h : (if asMatch then e.regexMatch (input.drop pos) else e.regexSearch (input.drop pos)) = none) :
    search e input pos asMatch = searchPartial e input pos asMatch ∧
      search e (input.drop pos) 0 asMatch = searchPartial e (input.drop pos) 0 asMatch := by
  constructor
  · rw [search, if_neg (Nat.not_lt.mpr hpos)]
    dsimp only
    rw [h]
  · rw [search, if_neg (Nat.not_lt_zero _), List.drop_zero]
    dsimp only
    rw [h]

/-- What is found of a partial match: a non-empty end of the input, and with `as_match` all of it. -/
theorem searchPartial_eq (hpos : pos ≤ input.length) :
    (∃ n, 0 < n ∧ n ≤ input.length - pos ∧ e.reversedPartial (input.drop pos).reverse = some (some (0, n)) ∧
      searchPartial e input pos asMatch = .ok (if asMatch = false ∨ n = input.length then
        ⟨.partial_, [(input.length - n, input.length)]⟩ else ⟨.none, []⟩)) ∨
    (∀ n, 0 < n → e.reversedPartial (input.drop pos).reverse ≠ some (some (0, n))) ∧
      searchPartial e input pos asMatch = .ok ⟨.none, []⟩ := by
  unfold searchPartial
  split
  · rename_i first n hrev
    obtain rfl := e.group_start _ _ _ hrev
    have hend := e.group_end _ _ _ hrev
    rw [List.length_reverse, List.length_drop] at hend
    rw [Nat.sub_zero]
    by_cases hn : n = 0
    · rw [if_neg (not_not.mpr hn)]
      refine .inr ⟨fun m hm heq => ?_, rfl⟩
      rw [hrev, hn] at heq
      cases heq
      exact absurd hm (Nat.lt_irrefl 0)
    · rw [if_pos hn]
      refine .inl ⟨n, Nat.pos_of_ne_zero hn, hend, hrev, ?_⟩
      dsimp only
      by_cases hcond : asMatch = false ∨ n = input.length
      · rw [if_pos hcond, if_pos, if_neg (by omega)]
        rcases hcond with rfl | rfl
        · rfl
        · simp
      · rw [if_neg hcond, if_neg]
        rw [not_or] at hcond
        have hlt : input.length - n ≠ 0 := by omega
        simp [hcond.1, hlt]
  · rename_i hnot
    exact .inr ⟨fun m _ heq => hnot 0 m heq, rfl⟩

theorem partialOf_iff {text : Text} {n : Nat} (h : e.reversedPartial text.reverse = some (some (0, n))) (hn : 0 < n) :
    e.PartialOf text ↔ n = text.length := by
  constructor
  · rintro ⟨-, htext⟩
    rw [h] at htext
    cases htext
    rfl
  · rintro rfl
    exact ⟨List.ne_nil_of_length_pos hn, h⟩

theorem not_partialOf {text : Text} (h : ∀ n, 0 < n → e.reversedPartial text.reverse ≠ some (some (0, n))) :
    ¬ e.PartialOf text := fun hp => h _ (List.length_pos_of_ne_nil hp.1) hp.2

/-- Without a full match, and with `as_match` : the type that is found. -/
theorem searchPartial_true (hpos : pos ≤ input.length) : searchPartial e input pos true =
    .ok (if pos = 0 ∧ e.PartialOf input then ⟨.partial_, [(0, input.length)]⟩ else ⟨.none, []⟩) := by
  rcases @searchPartial_eq e _ _ true hpos with ⟨n, hn, hle, hrev, heq⟩ | ⟨hnone, heq⟩
  · rw [heq]
    by_cases hall : n = input.length
    · obtain rfl : pos = 0 := by omega
      rw [List.drop_zero] at hrev
      rw [if_pos (.inr hall), if_pos ⟨rfl, (partialOf_iff hrev hn).mpr hall⟩, hall, Nat.sub_self]
    · rw [if_neg (by simpa using hall), if_neg]
      rintro ⟨rfl, hp⟩
      rw [List.drop_zero] at hrev
      exact hall ((partialOf_iff hrev hn).mp hp)
  · rw [heq, if_neg]
    rintro ⟨rfl, hp⟩
    rw [List.drop_zero] at hnone
    exact not_partialOf hnone hp

/-- Without a full match, and without `as_match`. -/
theorem searchPartial_false (hpos : pos ≤ input.length) :
    searchPartial e input pos false = Match.shift pos <$> searchPartial e (input.drop pos) 0 false := by
  have hlen : (input.drop pos).length = input.length - pos := List.length_drop
  rcases @searchPartial_eq e _ _ false hpos with ⟨n, hn, hle, hrev, heq⟩ | ⟨hnone, heq⟩
  · rcases @searchPartial_eq e _ _ false (Nat.zero_le (input.drop pos).length) with
      ⟨m, -, -, hrev', heq'⟩ | ⟨hnone', -⟩
    · rw [List.drop_zero, hrev] at hrev'
      cases hrev'
      rw [heq, heq', if_pos (.inl rfl), if_pos (.inl rfl), hlen]
      show _ = Except.ok (Match.mk .partial_ [(pos + (input.length - pos - n), pos + (input.length - pos))])
      rw [show pos + (input.length - pos - n) = input.length - n by omega, show pos + (input.length - pos) =
        input.length by omega]
    · rw [List.drop_zero] at hnone'
      exact absurd hrev (hnone' n hn)
  · rcases @searchPartial_eq e _ _ false (Nat.zero_le (input.drop pos).length) with
      ⟨m, hm, -, hrev', -⟩ | ⟨-, heq'⟩
    · rw [List.drop_zero] at hrev'
      exact absurd hrev' (hnone m hm)
    · rw [heq, heq']
      rfl

/-- **The search is position independent, and finds the partial matches of all that is left, unless it is to match all
behind a position that is not the first, and there is only such a partial match.** -/
theorem search_iff (hpos : pos ≤ input.length) :
    SameFrom e input pos asMatch ∧ (asMatch = true → PartialWhole e input pos) ↔
      (asMatch = true → pos = 0 ∨ (e.regexMatch (input.drop pos)).isSome ∨ ¬ e.PartialOf (input.drop pos)) := by
  cases hfull : if asMatch then e.regexMatch (input.drop pos) else e.regexSearch (input.drop pos) with
  | some groups =>
      obtain ⟨hsame, m, hm, htype⟩ := search_full hpos hfull
      constructor
      · rintro - rfl
        exact .inr (.inl (by rw [if_pos rfl] at hfull; rw [hfull]; rfl))
      · refine fun _ => ⟨hsame, ?_⟩
        rintro rfl
        rw [if_pos rfl] at hfull
        constructor
        · rintro ⟨gs, hgs⟩
          rw [hm] at hgs
          cases hgs
          cases htype
        · rintro ⟨hnone, -⟩
          rw [hfull] at hnone
          cases hnone
  | none =>
      obtain ⟨hsearch, hrest⟩ := search_none hpos hfull
      cases asMatch with
      | false =>
          refine ⟨fun _ h => (by cases h), fun _ => ⟨?_, fun h => (by cases h)⟩⟩
          rw [SameFrom, hsearch, hrest, searchPartial_false hpos]
      | true =>
          rw [if_pos rfl] at hfull
          have hsame : SameFrom e input pos true ↔ pos = 0 ∨ ¬ e.PartialOf (input.drop pos) := by
            rw [SameFrom, hsearch, hrest, searchPartial_true hpos, searchPartial_true (Nat.zero_le _)]
            by_cases hp : e.PartialOf (input.drop pos)
            · rw [if_pos (show 0 = 0 ∧ e.PartialOf (input.drop pos) from ⟨rfl, hp⟩)]
              by_cases hzero : pos = 0
              · subst hzero
                rw [List.drop_zero] at hp ⊢
                rw [if_pos ⟨rfl, hp⟩]
                simp [Match.shift, Functor.map, Except.map]
              · rw [if_neg fun h => hzero h.1]
                refine ⟨fun h => ?_, fun h => (h.elim hzero fun h => h hp).elim⟩
                cases h
            · have hnot : ¬ (pos = 0 ∧ e.PartialOf input) := by
                rintro ⟨rfl, h⟩
                exact hp (by rwa [List.drop_zero])
              rw [if_neg hnot, if_neg fun h : 0 = 0 ∧ e.PartialOf (input.drop pos) => hp h.2]
              exact ⟨fun _ => .inr hp, fun _ => rfl⟩
          have hwhole : PartialWhole e input pos ↔ pos = 0 ∨ ¬ e.PartialOf (input.drop pos) := by
            rw [PartialWhole, hsearch, searchPartial_true hpos, hfull]
            by_cases hzero : pos = 0
            · subst hzero
              rw [List.drop_zero]
              refine ⟨fun _ => .inl rfl, fun _ => ?_⟩
              by_cases hp : e.PartialOf input
              · rw [if_pos ⟨rfl, hp⟩]
                exact ⟨fun _ => ⟨rfl, hp⟩, fun _ => ⟨_, rfl⟩⟩
              · rw [if_neg fun h => hp h.2]
                exact ⟨fun ⟨_, h⟩ => (by cases h), fun h => absurd h.2 hp⟩
            · rw [if_neg fun h => hzero h.1]
              constructor
              · intro h
                refine .inr fun hp => ?_
                obtain ⟨gs, hgs⟩ := h.mpr ⟨rfl, hp⟩
                cases hgs
              · intro h
                exact ⟨fun ⟨_, h⟩ => (by cases h), fun hp => absurd hp.2 (h.resolve_left hzero)⟩
          rw [hsame, hfull]
          constructor
          · rintro ⟨h, -⟩ -
            exact h.imp_right .inr
          · intro h
            have h := (h rfl).imp_right fun h => h.resolve_left (by simp)
            exact ⟨h, fun _ => hwhole.mpr h⟩

end Positions

section Example

/-- `std::regex` on the pattern `ab`, whose reversed partial pattern is `((?:b)?a)[\s\S]*`. -/
def abEngine : Engine where
  regexSearch text := if [97, 98].isPrefixOf text then some [some (0, 2)] else none
  regexMatch text := if text = [97, 98] then some [some (0, 2)] else none
  reversedPartial text :=
    if [98, 97].isPrefixOf text then some (some (0, 2)) else if [97].isPrefixOf text then some (some (0, 1)) else none
  group_start := by
    intro text first second h
    split at h
    · cases h
      rfl
    · split at h
      · cases h
        rfl
      · cases h
  group_end := by
    intro text first second h
    split at h
    · rename_i hp
      cases h
      exact (List.isPrefixOf_iff_prefix.mp hp).length_le
    · split at h
      · rename_i hp
        cases h
        exact (List.isPrefixOf_iff_prefix.mp hp).length_le
      · cases h

/-- `xa` from its second character on, not as a whole. -/
theorem search_iff_xa :
    SameFrom abEngine [120, 97] 1 false ∧ (false = true → PartialWhole abEngine [120, 97] 1) ↔
      (false = true → 1 = 0 ∨ (abEngine.regexMatch ([120, 97].drop 1)).isSome ∨ ¬ abEngine.PartialOf ([120, 97].drop 1)) :=
  search_iff (by decide)

/-- `xa` from its second character on is a partial match of `ab`, which is not found. -/
theorem xa_not_sameFrom : search abEngine [120, 97] 1 true = .ok ⟨.none, []⟩ ∧
    search abEngine ([120, 97].drop 1) 0 true = .ok ⟨.partial_, [(0, 1)]⟩ ∧ ¬ SameFrom abEngine [120, 97] 1 true := by
  have hfrom : search abEngine [120, 97] 1 true = .ok ⟨.none, []⟩ := by rfl
  have hrest : search abEngine ([120, 97].drop 1) 0 true = .ok ⟨.partial_, [(0, 1)]⟩ := by rfl
  refine ⟨hfrom, hrest, fun h => ?_⟩
  rw [SameFrom, hfrom, hrest] at h
  cases h

end Example

end S2Moe.Regex
