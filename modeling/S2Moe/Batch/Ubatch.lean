import S2Moe.Batch.Init

/-!
# The splitters as loops over indices

The three splitters of `llama_batch_allocr` with their cursors. A read outside of `used` or of an entry of `seq_set_map`,
and a loop that does not end, give nothing.

* `Ubatch`, `ubatchAdd` : what a splitter returns; `mark` : `used[i] = true`;
* `Source.splitSimple`, `Source.splitEqual`, `Source.splitSeq` : the loops; `Cursor` : the current index of a sequence
set;
* `ubatches` : a splitter is called until its ubatch is empty;
* `call_eq` : no read is out of range, and the loops take the tokens that the splitters of `Batch.Split` take;
* `ubatches_partition` : the ubatches of an accepted batch are a partition of it;
* `ubatches_bounded` : they have at most `n_ubatch` tokens exactly when no call of `split_equal` finds more than
`n_ubatch` sequence sets.
-/

namespace S2Moe.Batch
open S2Moe.Lib

structure Ubatch where
  equalSeqs : Bool := false
  nTokens : Nat := 0
  nSeqTokens : Nat := 0
  nSeqs : Nat := 0
  idx : List Nat := []
deriving DecidableEq

namespace Allocr

/-- `used[i] = true; ++n_used` -/
def mark (a : Allocr) (i : Nat) : Option Allocr :=
  if i < a.tokens.length then some { a with used := insert i a.used, nUsed := a.nUsed + 1 } else none

def usedAt (a : Allocr) (i : Nat) : Option Bool :=
  if i < a.tokens.length then some (decide (i ∈ a.used)) else none

/-- `seq_set_map[s]` -/
def setIdxs (a : Allocr) (s : Finset Nat) : List Nat :=
  (List.range a.tokens.length).filter fun i => decide (a.seqSet i = s)

def ubatchAdd (a : Allocr) (idxs : List Nat) (nSeqs : Nat) (equalSeqs : Bool) : Option (Ubatch × Allocr) :=
  if ∀ i ∈ idxs, i < a.tokens.length then
    some (⟨equalSeqs, idxs.length, idxs.length / nSeqs, nSeqs, idxs⟩,
      { a with outIds := a.outIds ++ idxs.filter fun i => (a.token i).output })
  else none

end Allocr

namespace Source

def simpleLoop (nUbatch : Nat) : Nat → Allocr → Nat → List Nat → Option (List Nat × Allocr)
  | 0, _, _, _ => none
  | fuel + 1, a, cur, idxs =>
    (a.mark cur).bind fun a' =>
      if a'.tokens.length ≤ cur + 1 then some (idxs ++ [cur], a')
      else if nUbatch ≤ (idxs ++ [cur]).length then some (idxs ++ [cur], a')
      else simpleLoop nUbatch fuel a' (cur + 1) (idxs ++ [cur])

def splitSimple (a : Allocr) (nUbatch : Nat) : Option (Ubatch × Allocr) :=
  match a.firstUnused with
  | none => some ({}, a)
  | some cur =>
    (simpleLoop nUbatch (a.tokens.length + 1) a cur []).bind fun r => r.2.ubatchAdd r.1 r.1.length false

/-- A sequence set of a ubatch, the index of its next token in `seq_set_map`, and the tokens taken so far. -/
structure Cursor where
  set : Finset Nat
  idx : Nat
  idxs : List Nat := []

/-- `while (used[seq_set_map[s][k]]) ++k` -/
def skipUsed (a : Allocr) (s : Finset Nat) : Nat → Nat → Option Nat
  | 0, _ => none
  | fuel + 1, k =>
    (a.setIdxs s)[k]?.bind fun i => (a.usedAt i).bind fun used =>
      if used then skipUsed a s fuel (k + 1) else some k

def cursors (a : Allocr) : List (Finset Nat) → Option (List Cursor)
  | [] => some []
  | s :: sets => (skipUsed a s (a.tokens.length + 1) 0).bind fun k => (cursors a sets).map (⟨s, k, []⟩ :: ·)

/-- The next token of each of the sets. -/
def expand : Allocr → List Cursor → Option (Allocr × List Cursor)
  | a, [] => some (a, [])
  | a, c :: cs =>
    (a.setIdxs c.set)[c.idx]?.bind fun i => (a.mark i).bind fun a' =>
      (expand a' cs).map fun r => (r.1, { c with idx := c.idx + 1, idxs := c.idxs ++ [i] } :: r.2)

def canExpand (a : Allocr) (cs : List Cursor) : Bool := cs.all fun c => decide (c.idx < (a.setIdxs c.set).length)

def equalLoop (nUbatch : Nat) : Nat → Allocr → List Cursor → Option (Allocr × List Cursor)
  | 0, _, _ => none
  | fuel + 1, a, cs =>
    if canExpand a cs then
      (expand a cs).bind fun r => r.2.head?.bind fun c =>
        if nUbatch < (c.idxs.length + 1) * r.2.length then some r else equalLoop nUbatch fuel r.1 r.2
    else some (a, cs)

def splitEqual (a : Allocr) (nUbatch : Nat) (sequential : Bool) : Option (Ubatch × Allocr) :=
  if sequential && a.hasCpl then some ({}, a)
  else
    let sets := a.pickSets nUbatch sequential (List.range a.tokens.length) [] 0
    if sets = [] then some ({}, a)
    else
      (cursors a sets).bind fun cs => (equalLoop nUbatch (a.tokens.length + 1) a cs).bind fun r =>
        r.1.ubatchAdd (r.2.flatMap Cursor.idxs) sets.length true

/-- `do ++cur while` the token is used or its set is not inside of the current one. -/
def nextSeq (a : Allocr) (s : Finset Nat) (cur : Nat) : Option Nat :=
  (List.range' (cur + 1) (a.tokens.length - (cur + 1))).find? fun i => decide (i ∉ a.used ∧ a.seqSet i ⊆ s)

def seqLoop (nUbatch : Nat) : Nat → Allocr → Nat → Finset Nat → List Nat → Option (List Nat × Allocr)
  | 0, _, _, _, _ => none
  | fuel + 1, a, cur, s, idxs =>
    (a.mark cur).bind fun a' =>
      if nUbatch ≤ (idxs ++ [cur]).length then some (idxs ++ [cur], a')
      else
        match nextSeq a' s cur with
        | none => some (idxs ++ [cur], a')
        | some next => seqLoop nUbatch fuel a' next (a'.seqSet next) (idxs ++ [cur])

def splitSeq (a : Allocr) (nUbatch : Nat) : Option (Ubatch × Allocr) :=
  match a.firstUnused with
  | none => some ({}, a)
  | some cur =>
    (seqLoop nUbatch (a.tokens.length + 1) a cur (a.seqSet cur) []).bind fun r => r.2.ubatchAdd r.1 1 true

end Source

def Splitter.call (sp : Splitter) (nUbatch : Nat) (a : Allocr) : Option (Ubatch × Allocr) :=
  match sp with
  | .simple => Source.splitSimple a nUbatch
  | .equal sequential => Source.splitEqual a nUbatch sequential
  | .seq => Source.splitSeq a nUbatch

/-- The calls up to the first empty ubatch. -/
def ubatches (sp : Splitter) (nUbatch : Nat) : Nat → Allocr → Option (List Ubatch × Allocr)
  | 0, _ => none
  | fuel + 1, a =>
    (sp.call nUbatch a).bind fun r =>
      if r.1.nTokens = 0 then some ([], r.2)
      else (ubatches sp nUbatch fuel r.2).map fun q => (r.1 :: q.1, q.2)

/-! ## Marks -/

namespace Allocr

/-- All of `idxs` are marked. -/
def marks (a : Allocr) (idxs : List Nat) : Allocr :=
  { a with used := a.used ∪ idxs.toFinset, nUsed := a.nUsed + idxs.length }

variable {a : Allocr}

theorem marks_nil : a.marks [] = a := by
  unfold marks
  rw [List.toFinset_nil, Finset.union_empty, List.length_nil, Nat.add_zero]

theorem marks_marks (l r : List Nat) : (a.marks l).marks r = a.marks (l ++ r) := by
  unfold marks
  simp only [List.toFinset_append, Finset.union_assoc, List.length_append, Nat.add_assoc]

theorem marks_perm {l r : List Nat} (h : l.Perm r) : a.marks l = a.marks r := by
  unfold marks
  rw [List.toFinset_eq_of_perm l r h, h.length_eq]

theorem mark_eq {i : Nat} (h : i < a.tokens.length) : a.mark i = some (a.marks [i]) := by
  unfold mark marks
  rw [if_pos h, Finset.insert_eq, Finset.union_comm]
  rfl

theorem ubatchAdd_eq {idxs : List Nat} (h : ∀ i ∈ idxs, i < a.tokens.length) (nSeqs : Nat) (equalSeqs : Bool) :
    (a.marks idxs).ubatchAdd idxs nSeqs equalSeqs =
      some (⟨equalSeqs, idxs.length, idxs.length / nSeqs, nSeqs, idxs⟩, a.take idxs) := by
  unfold ubatchAdd
  rw [if_pos (show ∀ i ∈ idxs, i < (a.marks idxs).tokens.length from h)]
  rfl

end Allocr

namespace Source
variable {a : Allocr} {nUbatch : Nat}

/-! ## The simple splitter -/

theorem simpleLoop_eq : ∀ (fuel : Nat) (a : Allocr) (cur : Nat) (idxs : List Nat), cur < a.tokens.length →
    a.tokens.length ≤ fuel + cur →
    simpleLoop nUbatch fuel a cur idxs =
      some (idxs ++ List.range' cur (min (a.tokens.length - cur) (max 1 (nUbatch - idxs.length))),
        a.marks (List.range' cur (min (a.tokens.length - cur) (max 1 (nUbatch - idxs.length)))))
  | 0, a, cur, idxs, hcur, hfuel => by omega
  | fuel + 1, a, cur, idxs, hcur, hfuel => by
    rw [simpleLoop, Allocr.mark_eq hcur, Option.bind_some]
    change (if a.tokens.length ≤ cur + 1 then _ else _) = _
    rw [List.length_append, List.length_singleton]
    by_cases hend : a.tokens.length ≤ cur + 1
    · rw [if_pos hend, show min (a.tokens.length - cur) (max 1 (nUbatch - idxs.length)) = 1 by omega]
      rfl
    · rw [if_neg hend]
      by_cases hfull : nUbatch ≤ idxs.length + 1
      · rw [if_pos hfull, show min (a.tokens.length - cur) (max 1 (nUbatch - idxs.length)) = 1 by omega]
        rfl
      · rw [if_neg hfull, simpleLoop_eq fuel (a.marks [cur]) (cur + 1) (idxs ++ [cur]) (by change _ < a.tokens.length; omega)
          (by change a.tokens.length ≤ _; omega)]
        have hcount : min (a.tokens.length - cur) (max 1 (nUbatch - idxs.length)) =
            min (a.tokens.length - (cur + 1)) (max 1 (nUbatch - (idxs ++ [cur]).length)) + 1 := by
          rw [List.length_append, List.length_singleton]
          omega
        rw [hcount, List.range'_succ, List.append_assoc, Allocr.marks_marks]
        rfl

theorem splitSimple_eq : splitSimple a nUbatch =
    if a.splitSimple nUbatch = [] then some ({}, a)
    else some (⟨false, (a.splitSimple nUbatch).length, (a.splitSimple nUbatch).length / (a.splitSimple nUbatch).length,
      (a.splitSimple nUbatch).length, a.splitSimple nUbatch⟩, a.take (a.splitSimple nUbatch)) := by
  unfold splitSimple Allocr.splitSimple
  cases hcur : a.firstUnused with
  | none => rfl
  | some cur =>
      have hlt := (firstUnused_some hcur).1
      dsimp only
      rw [simpleLoop_eq (a.tokens.length + 1) a cur [] hlt (by omega), Option.bind_some, List.nil_append,
        List.length_nil, Nat.sub_zero, if_neg, Allocr.ubatchAdd_eq]
      · intro i hi
        have := List.mem_range'_1.mp hi
        omega
      · rw [List.range'_eq_nil_iff]
        omega

/-! ## One sequence set after the other -/

theorem seqRun_eq_find (count : Nat) (s : Finset Nat) : ∀ is : List Nat, a.seqRun nUbatch is count s =
    if nUbatch ≤ count then []
    else
      match is.dropWhile fun i => decide (i ∈ a.used ∨ ¬ a.seqSet i ⊆ s) with
      | [] => []
      | i :: is => i :: a.seqRun nUbatch is (count + 1) (a.seqSet i)
  | [] => by
    rw [Allocr.seqRun]
    split <;> rfl
  | i :: is => by
    rw [Allocr.seqRun]
    by_cases hfull : nUbatch ≤ count
    · rw [if_pos hfull, if_pos hfull]
    · rw [if_neg hfull, if_neg hfull, List.dropWhile_cons]
      by_cases hskip : i ∈ a.used ∨ ¬ a.seqSet i ⊆ s
      · rw [if_pos hskip, if_pos (decide_eq_true hskip), seqRun_eq_find count s is, if_neg hfull]
      · rw [if_neg hskip, if_neg (by simpa using hskip)]

/-- What is left behind the first index that is found. -/
theorem dropWhile_range' (q : Nat → Bool) : ∀ k m : Nat, (List.range' k m).dropWhile (fun i => !q i) =
    match (List.range' k m).find? q with
    | none => []
    | some j => j :: List.range' (j + 1) (k + m - (j + 1))
  | _, 0 => rfl
  | k, m + 1 => by
    rw [List.range'_succ, List.dropWhile_cons, List.find?_cons]
    cases hq : q k with
    | true =>
        rw [Bool.not_true, if_neg Bool.false_ne_true]
        dsimp only
        rw [show k + (m + 1) - (k + 1) = m by omega]
    | false =>
        rw [Bool.not_false, if_pos rfl]
        dsimp only
        rw [dropWhile_range' q (k + 1) m, show k + 1 + m = k + (m + 1) by omega]

theorem seqRun_marks {m : List Nat} (is : List Nat) (h : ∀ i ∈ is, i ∉ m) : ∀ (count : Nat) (s : Finset Nat),
    (a.marks m).seqRun nUbatch is count s = a.seqRun nUbatch is count s := by
  induction is with
  | nil => exact fun _ _ => rfl
  | cons i is ih =>
      intro count s
      have hi : i ∈ (a.marks m).used ↔ i ∈ a.used := by
        change i ∈ a.used ∪ m.toFinset ↔ _
        rw [Finset.mem_union, List.mem_toFinset]
        exact or_iff_left (h i List.mem_cons_self)
      have his : ∀ j ∈ is, j ∉ m := fun j hj => h j (List.mem_cons_of_mem _ hj)
      rw [Allocr.seqRun, Allocr.seqRun, ih his, ih his]
      simp only [hi]
      rfl

theorem seqLoop_eq : ∀ (fuel : Nat) (a : Allocr) (cur : Nat) (s : Finset Nat) (idxs : List Nat),
    cur < a.tokens.length → a.tokens.length ≤ fuel + cur →
    seqLoop nUbatch fuel a cur s idxs =
      some (idxs ++ cur :: a.seqRun nUbatch (List.range' (cur + 1) (a.tokens.length - (cur + 1))) (idxs.length + 1) s,
        a.marks (cur :: a.seqRun nUbatch (List.range' (cur + 1) (a.tokens.length - (cur + 1))) (idxs.length + 1) s))
  | 0, a, cur, s, idxs, hcur, hfuel => by omega
  | fuel + 1, a, cur, s, idxs, hcur, hfuel => by
    have hahead : ∀ i ∈ List.range' (cur + 1) (a.tokens.length - (cur + 1)), i ∉ [cur] := by
      intro i hi hc
      have hle := (List.mem_range'_1.mp hi).1
      rw [List.mem_singleton.mp hc] at hle
      omega
    rw [seqLoop, Allocr.mark_eq hcur, Option.bind_some, ← seqRun_marks _ hahead, seqRun_eq_find,
      List.length_append, List.length_singleton]
    by_cases hfull : nUbatch ≤ idxs.length + 1
    · rw [if_pos hfull, if_pos hfull]
    · rw [if_neg hfull, if_neg hfull]
      have hdrop := dropWhile_range' (fun i => decide (i ∉ (a.marks [cur]).used ∧ (a.marks [cur]).seqSet i ⊆ s))
        (cur + 1) (a.tokens.length - (cur + 1))
      have hfind : nextSeq (a.marks [cur]) s cur = (List.range' (cur + 1) (a.tokens.length - (cur + 1))).find?
          fun i => decide (i ∉ (a.marks [cur]).used ∧ (a.marks [cur]).seqSet i ⊆ s) := rfl
      simp only [not_and_or, not_not, ← decide_not] at hdrop
      rw [hdrop, ← hfind]
      cases hnext : nextSeq (a.marks [cur]) s cur with
      | none => rfl
      | some next =>
          rw [hfind] at hnext
          have hmem := List.mem_range'_1.mp (List.mem_of_find?_eq_some hnext)
          dsimp only
          rw [seqLoop_eq fuel (a.marks [cur]) next _ (idxs ++ [cur]) (by change next < a.tokens.length; omega)
            (by change a.tokens.length ≤ _; omega), Allocr.marks_marks, List.length_append, List.length_singleton,
            List.append_assoc, show cur + 1 + (a.tokens.length - (cur + 1)) = a.tokens.length by omega]
          rfl

theorem splitSeq_eq : splitSeq a nUbatch =
    if a.splitSeq nUbatch = [] then some ({}, a)
    else some (⟨true, (a.splitSeq nUbatch).length, (a.splitSeq nUbatch).length / 1, 1, a.splitSeq nUbatch⟩,
      a.take (a.splitSeq nUbatch)) := by
  have hlt : ∀ i ∈ a.splitSeq nUbatch, i < a.tokens.length := Fresh.splitSeq.lt
  unfold Allocr.splitSeq at hlt ⊢
  unfold splitSeq
  cases hcur : a.firstUnused with
  | none => rfl
  | some cur =>
      rw [hcur] at hlt
      dsimp only at hlt ⊢
      rw [seqLoop_eq (a.tokens.length + 1) a cur _ [] (firstUnused_some hcur).1 (by omega), Option.bind_some,
        if_neg (List.cons_ne_nil _ _)]
      exact Allocr.ubatchAdd_eq hlt 1 true

/-! ## Equal parts -/

/-- How many tokens of the set are used up before its first unused one. -/
def skipped (a : Allocr) (s : Finset Nat) : Nat := ((a.setIdxs s).takeWhile fun i => decide (i ∈ a.used)).length

/-- The cursor of a set after `r` rounds. -/
def cursorAt (a : Allocr) (r : Nat) (s : Finset Nat) : Cursor := ⟨s, skipped a s + r, (a.members s).take r⟩

theorem setIdxs_eq (s : Finset Nat) :
    a.setIdxs s = ((a.setIdxs s).takeWhile fun i => decide (i ∈ a.used)) ++ a.members s :=
  List.takeWhile_append_dropWhile.symm

theorem setIdxs_getElem? (s : Finset Nat) (r : Nat) : (a.setIdxs s)[skipped a s + r]? = (a.members s)[r]? := by
  conv_lhs => rw [setIdxs_eq]
  unfold skipped
  rw [List.getElem?_append_right (Nat.le_add_right _ _), Nat.add_sub_cancel_left]

theorem length_setIdxs (s : Finset Nat) : (a.setIdxs s).length = skipped a s + (a.members s).length := by
  conv_lhs => rw [setIdxs_eq]
  exact List.length_append

theorem length_setIdxs_le (s : Finset Nat) : (a.setIdxs s).length ≤ a.tokens.length := by
  have h := List.length_filter_le (fun i => decide (a.seqSet i = s)) (List.range a.tokens.length)
  rwa [List.length_range] at h

/-- The loop over the used tokens ends at the first unused one, which is there. -/
theorem skipUsed_eq {s : Finset Nat} (hne : a.members s ≠ []) : ∀ fuel k : Nat, k ≤ skipped a s →
    skipped a s < fuel + k → skipUsed a s fuel k = some (skipped a s)
  | 0, k, hk, hfuel => by omega
  | fuel + 1, k, hk, hfuel => by
    rw [skipUsed]
    by_cases hlt : k < skipped a s
    · have hget : (a.setIdxs s)[k]? = ((a.setIdxs s).takeWhile fun i => decide (i ∈ a.used))[k]? := by
        conv_lhs => rw [setIdxs_eq]
        exact List.getElem?_append_left hlt
      have hmem := List.getElem_mem (l := (a.setIdxs s).takeWhile fun i => decide (i ∈ a.used)) hlt
      have hused := List.all_eq_true.mp List.all_takeWhile _ hmem
      have hin := List.mem_filter.mp ((List.takeWhile_sublist _).subset hmem)
      rw [hget, List.getElem?_eq_getElem hlt, Option.bind_some, Allocr.usedAt, if_pos (List.mem_range.mp hin.1),
        Option.bind_some, if_pos hused]
      exact skipUsed_eq hne fuel (k + 1) hlt (by omega)
    · have hk' : k = skipped a s := by omega
      subst hk'
      have hget := setIdxs_getElem? (a := a) s 0
      rw [Nat.add_zero, ← List.head?_eq_getElem?] at hget
      have hhead := List.head_dropWhile_not (fun i => decide (i ∈ a.used)) hne
      have hin := (members_sub (List.head_mem hne)).1
      rw [hget, List.head?_eq_some_head hne, Option.bind_some, Allocr.usedAt, if_pos hin, Option.bind_some]
      change (if decide ((a.members s).head hne ∈ a.used) = true then _ else _) = _
      change decide ((a.members s).head hne ∈ a.used) = false at hhead
      rw [hhead, if_neg Bool.false_ne_true]

theorem cursors_eq : ∀ sets : List (Finset Nat), (∀ s ∈ sets, a.members s ≠ []) →
    cursors a sets = some (sets.map (cursorAt a 0))
  | [], _ => rfl
  | s :: sets, h => by
    have hskip : skipped a s < a.tokens.length + 1 + 0 := by
      have h1 := length_setIdxs (a := a) s
      have h2 := length_setIdxs_le (a := a) s
      omega
    rw [cursors, skipUsed_eq (h s List.mem_cons_self) _ 0 (Nat.zero_le _) hskip, Option.bind_some,
      cursors_eq sets fun t ht => h t (List.mem_cons_of_mem _ ht)]
    rfl

/-- One round gives each set its next token. -/
theorem expand_eq (r : Nat) : ∀ (sets : List (Finset Nat)) (m : List Nat), (∀ s ∈ sets, r < (a.members s).length) →
    expand (a.marks m) (sets.map (cursorAt a r)) =
      some (a.marks (m ++ sets.flatMap fun s => ((a.members s).drop r).take 1), sets.map (cursorAt a (r + 1)))
  | [], m, _ => by rw [List.flatMap_nil, List.append_nil]; rfl
  | s :: sets, m, h => by
    have hr := h s List.mem_cons_self
    have hget : ((a.marks m).setIdxs s)[skipped a s + r]? = some (a.members s)[r] := by
      rw [← List.getElem?_eq_getElem hr, ← setIdxs_getElem? s r]
      rfl
    have hlt : (a.members s)[r] < (a.marks m).tokens.length := (members_sub (List.getElem_mem hr)).1
    have htake : ((a.members s).drop r).take 1 = [(a.members s)[r]] := by
      rw [List.drop_eq_getElem_cons hr]
      rfl
    have hnext : cursorAt a (r + 1) s =
        { cursorAt a r s with idx := skipped a s + r + 1, idxs := (a.members s).take r ++ [(a.members s)[r]] } := by
      unfold cursorAt
      rw [List.take_concat_get' _ _ hr]
      rfl
    rw [List.map_cons, expand]
    change (((a.marks m).setIdxs s)[skipped a s + r]?.bind _) = _
    rw [hget, Option.bind_some, Allocr.mark_eq hlt, Option.bind_some, Allocr.marks_marks,
      expand_eq r sets _ fun t ht => h t (List.mem_cons_of_mem _ ht), List.map_cons, hnext, List.flatMap_cons, htake,
      List.append_assoc]
    rfl

theorem canExpand_eq (r : Nat) (m : List Nat) (sets : List (Finset Nat)) :
    canExpand (a.marks m) (sets.map (cursorAt a r)) = decide (∀ l ∈ sets.map a.members, r < l.length) := by
  have hiff : canExpand (a.marks m) (sets.map (cursorAt a r)) = true ↔ ∀ l ∈ sets.map a.members, r < l.length := by
    unfold canExpand
    simp only [List.all_map, List.all_eq_true, Function.comp_apply, decide_eq_true_eq, List.forall_mem_map]
    refine forall₂_congr fun s _ => ?_
    change skipped a s + r < (a.setIdxs s).length ↔ _
    rw [length_setIdxs]
    omega
  rw [Bool.eq_iff_iff, hiff, decide_eq_true_eq]

variable (nUbatch) in
theorem equalLoop_eq {sets : List (Finset Nat)} (hne : sets ≠ []) : ∀ fuel r : Nat,
    (∀ s ∈ sets, (a.members s).length ≤ r + fuel) →
    equalLoop nUbatch (fuel + 1) (a.marks (sets.flatMap fun s => (a.members s).take r)) (sets.map (cursorAt a r)) =
      some (a.marks (sets.flatMap fun s =>
          (a.members s).take (Allocr.rounds nUbatch (sets.map a.members) fuel r)),
        sets.map (cursorAt a (Allocr.rounds nUbatch (sets.map a.members) fuel r)))
  | 0, r, h => by
    obtain ⟨s, hs⟩ := List.exists_mem_of_ne_nil _ hne
    have hstop : ¬ ∀ l ∈ sets.map a.members, r < l.length := fun hall =>
      absurd (hall _ (List.mem_map_of_mem hs)) (not_lt.mpr (h s hs))
    rw [equalLoop, canExpand_eq, if_neg (by simpa using hstop)]
    rfl
  | fuel + 1, r, h => by
    rw [equalLoop, canExpand_eq, Allocr.rounds]
    by_cases hall : ∀ l ∈ sets.map a.members, r < l.length
    · have hall' : ∀ s ∈ sets, r < (a.members s).length := fun s hs => hall _ (List.mem_map_of_mem hs)
      have hperm : ((sets.flatMap fun s => (a.members s).take r) ++
          sets.flatMap fun s => ((a.members s).drop r).take 1).Perm
          (sets.flatMap fun s => (a.members s).take (r + 1)) := by
        refine (List.flatMap_append_perm sets _ _).trans (List.Perm.of_eq ?_)
        exact congrArg (sets.flatMap ·) (funext fun s => List.take_add.symm)
      obtain ⟨s, sets', rfl⟩ := List.exists_cons_of_ne_nil hne
      have hlen : ((a.members s).take (r + 1)).length = r + 1 := by
        rw [List.length_take, Nat.min_eq_left (hall' s List.mem_cons_self)]
      rw [if_pos (decide_eq_true hall), if_pos hall, expand_eq r _ _ hall', Option.bind_some,
        Allocr.marks_perm hperm]
      dsimp only
      rw [List.map_cons (f := cursorAt a (r + 1)), List.head?_cons, Option.bind_some, List.length_cons, List.length_map,
        List.length_map, List.length_cons]
      change (if nUbatch < (((a.members s).take (r + 1)).length + 1) * _ then _ else _) = _
      rw [hlen]
      by_cases hfull : nUbatch < (r + 1 + 1) * (sets'.length + 1)
      · rw [if_pos hfull, if_pos hfull]
        rfl
      · rw [if_neg hfull, if_neg hfull]
        exact equalLoop_eq hne fuel (r + 1) fun t ht => (h t ht).trans (by omega)
    · rw [if_neg (by simpa using hall), if_neg hall]

theorem members_length_le (s : Finset Nat) : (a.members s).length ≤ a.tokens.length := by
  have h1 := length_setIdxs (a := a) s
  have h2 := length_setIdxs_le (a := a) s
  omega

theorem flatten_take_ne_nil {lists : List (List Nat)} (hne : lists ≠ []) (h : ∀ l ∈ lists, l ≠ []) {r : Nat}
    (hr : 0 < r) : (lists.map (List.take r)).flatten ≠ [] := by
  obtain ⟨l, ls, rfl⟩ := List.exists_cons_of_ne_nil hne
  rw [List.map_cons, List.flatten_cons, Ne, List.append_eq_nil_iff, List.take_eq_nil_iff]
  rintro ⟨h0 | h0, -⟩
  · omega
  · exact h l List.mem_cons_self h0

variable (nUbatch) in
theorem equalLists_ne_nil (sequential : Bool) : ∀ l ∈ a.equalLists nUbatch sequential, l ≠ [] := by
  intro l hl
  obtain ⟨s, hs, rfl⟩ := List.mem_map.mp hl
  obtain ⟨i, hi, hu, rfl⟩ := (pickSets_spec nUbatch sequential (List.range a.tokens.length) [] 0
    List.Pairwise.nil (fun s hs => absurd hs List.not_mem_nil) (fun i hi => List.mem_range.mp hi)).2 s hs
  exact List.ne_nil_of_mem (mem_members_of_unused hi hu)

theorem splitEqual_eq (sequential : Bool) : splitEqual a nUbatch sequential =
    if a.splitEqual nUbatch sequential = [] then some ({}, a)
    else some (⟨true, (a.splitEqual nUbatch sequential).length,
      (a.splitEqual nUbatch sequential).length / (a.equalLists nUbatch sequential).length,
      (a.equalLists nUbatch sequential).length, a.splitEqual nUbatch sequential⟩,
      a.take (a.splitEqual nUbatch sequential)) := by
  unfold splitEqual Allocr.splitEqual
  by_cases hcpl : (sequential && a.hasCpl) = true
  · rw [if_pos hcpl, if_pos hcpl, if_pos rfl]
  · rw [if_neg hcpl, if_neg hcpl]
    have hlists := equalLists_ne_nil (a := a) nUbatch sequential
    unfold Allocr.equalLists at hlists ⊢
    dsimp only
    generalize a.pickSets nUbatch sequential (List.range a.tokens.length) [] 0 = sets at hlists ⊢
    by_cases hsets : sets = []
    · subst hsets
      rfl
    · have hpos : 0 < a.tokens.length := by
        obtain ⟨s, hs⟩ := List.exists_mem_of_ne_nil _ hsets
        obtain ⟨i, hi⟩ := List.exists_mem_of_ne_nil _ (hlists _ (List.mem_map_of_mem hs))
        exact (Nat.zero_le i).trans_lt (members_sub hi).1
      have hloop := equalLoop_eq (a := a) nUbatch hsets a.tokens.length 0
        fun s _ => (members_length_le s).trans (by omega)
      have hstart : (sets.flatMap fun s => (a.members s).take 0) = [] := by simp
      rw [hstart, Allocr.marks_nil] at hloop
      have hne : (sets.map a.members).map (List.take
        (Allocr.rounds nUbatch (sets.map a.members) a.tokens.length 0)) |>.flatten
          |> (· ≠ []) :=
        flatten_take_ne_nil (by simpa using hsets) hlists (rounds_pos nUbatch hlists hpos)
      rw [if_neg hsets, cursors_eq sets fun s hs => hlists _ (List.mem_map_of_mem hs), Option.bind_some, hloop,
        Option.bind_some, if_neg hne]
      have hidx : (sets.map (cursorAt a (Allocr.rounds nUbatch (sets.map a.members) a.tokens.length 0))).flatMap
          Cursor.idxs = ((sets.map a.members).map
            (List.take (Allocr.rounds nUbatch (sets.map a.members) a.tokens.length 0))).flatten := by
        rw [List.flatMap_def, List.map_map, List.map_map]
        rfl
      have hmarks : (sets.flatMap fun s => (a.members s).take
          (Allocr.rounds nUbatch (sets.map a.members) a.tokens.length 0)) = ((sets.map a.members).map
            (List.take (Allocr.rounds nUbatch (sets.map a.members) a.tokens.length 0))).flatten := by
        rw [List.flatMap_def, List.map_map]
        rfl
      dsimp only
      rw [hidx, hmarks, List.length_map]
      refine Allocr.ubatchAdd_eq (fun i hi => ?_) _ _
      obtain ⟨l, hl, hi⟩ := List.mem_flatten.mp hi
      obtain ⟨l', hl', rfl⟩ := List.mem_map.mp hl
      obtain ⟨s, -, rfl⟩ := List.mem_map.mp hl'
      exact (members_sub (List.mem_of_mem_take hi)).1

end Source

/-! ## Calls -/

section Calls
variable {a : Allocr} {nUbatch : Nat} {sp : Splitter}

/-- The ubatch of the tokens that a splitter takes: a simple one has as many sequence sets as tokens, one of a single set has
one. -/
def Splitter.ubatch (sp : Splitter) (nUbatch : Nat) (a : Allocr) : Ubatch :=
  let idxs := sp.idxs nUbatch a
  if idxs = [] then {}
  else
    match sp with
    | .simple => ⟨false, idxs.length, idxs.length / idxs.length, idxs.length, idxs⟩
    | .equal sequential =>
      ⟨true, idxs.length, idxs.length / (a.equalLists nUbatch sequential).length,
        (a.equalLists nUbatch sequential).length, idxs⟩
    | .seq => ⟨true, idxs.length, idxs.length / 1, 1, idxs⟩

theorem Allocr.take_nil : a.take [] = a := by
  unfold Allocr.take
  rw [List.toFinset_nil, Finset.union_empty, List.filter_nil, List.append_nil]
  rfl

/-- **The loops read nothing out of range, end, and take the tokens of the splitter.** -/
theorem call_eq (sp : Splitter) : sp.call nUbatch a = some (sp.ubatch nUbatch a, a.take (sp.idxs nUbatch a)) := by
  have hnil : ∀ {idxs : List Nat} {u : Ubatch}, (if idxs = [] then some (({} : Ubatch), a) else some (u, a.take idxs)) =
      some (if idxs = [] then {} else u, a.take idxs) := by
    intro idxs u
    split
    · rename_i hidxs
      rw [hidxs, Allocr.take_nil]
    · rfl
  cases sp with
  | simple => exact Source.splitSimple_eq.trans hnil
  | equal sequential => exact (Source.splitEqual_eq sequential).trans hnil
  | seq => exact Source.splitSeq_eq.trans hnil

theorem Splitter.idx_ubatch (sp : Splitter) : (sp.ubatch nUbatch a).idx = sp.idxs nUbatch a := by
  unfold Splitter.ubatch
  dsimp only
  split
  · rename_i hnil
    exact hnil.symm
  · cases sp <;> rfl

theorem Splitter.nTokens_ubatch (sp : Splitter) : (sp.ubatch nUbatch a).nTokens = (sp.idxs nUbatch a).length := by
  unfold Splitter.ubatch
  dsimp only
  split
  · rename_i hnil
    rw [hnil]
    rfl
  · cases sp <;> rfl

/-! ### Blocks -/

/-- A ubatch of equal parts: as many blocks as sequence sets, each of the tokens of one set, and no two of the sets
overlap. -/
structure Blocks (a : Allocr) (u : Ubatch) (blocks : List (List Nat)) : Prop where
  idx : u.idx = blocks.flatten
  nSeqs : blocks.length = u.nSeqs
  nSeqTokens : ∀ l ∈ blocks, l.length = u.nSeqTokens
  nTokens : u.nTokens = u.nSeqs * u.nSeqTokens
  same : ∀ l ∈ blocks, ∀ i ∈ l, ∀ j ∈ l, a.seqSet i = a.seqSet j
  disjoint : blocks.Pairwise fun l m => ∀ i ∈ l, ∀ j ∈ m, Disjoint (a.seqSet i) (a.seqSet j)

theorem rounds_le_length {lists : List (List Nat)} : ∀ (fuel m : Nat), (∀ l ∈ lists, m ≤ l.length) →
    ∀ l ∈ lists, Allocr.rounds nUbatch lists fuel m ≤ l.length
  | 0, _, h => h
  | fuel + 1, m, h => by
    rw [Allocr.rounds]
    split
    · rename_i hlt
      split
      · exact hlt
      · exact rounds_le_length fuel (m + 1) hlt
    · exact h

theorem length_flatten_take {lists : List (List Nat)} {r : Nat} (h : ∀ l ∈ lists, r ≤ l.length) :
    (lists.map (List.take r)).flatten.length = lists.length * r := by
  induction lists with
  | nil => rw [List.length_nil, Nat.zero_mul]; rfl
  | cons l ls ih =>
      rw [List.map_cons, List.flatten_cons, List.length_append, ih fun m hm => h m (List.mem_cons_of_mem _ hm),
        List.length_take, Nat.min_eq_left (h l List.mem_cons_self), List.length_cons, Nat.succ_mul, Nat.add_comm]

/-- The lists of the sets, all cut to as many tokens as they give. -/
def equalBlocks (a : Allocr) (nUbatch : Nat) (sequential : Bool) : List (List Nat) :=
  (a.equalLists nUbatch sequential).map
    (List.take (Allocr.rounds nUbatch (a.equalLists nUbatch sequential) a.tokens.length 0))

variable (nUbatch) in
theorem length_equalBlocks (sequential : Bool) : (equalBlocks a nUbatch sequential).flatten.length =
    (a.equalLists nUbatch sequential).length *
      Allocr.rounds nUbatch (a.equalLists nUbatch sequential) a.tokens.length 0 :=
  length_flatten_take (rounds_le_length _ 0 fun _ _ => Nat.zero_le _)

theorem idxs_equal {sequential : Bool} (hne : Splitter.idxs (.equal sequential) nUbatch a ≠ []) :
    Splitter.idxs (.equal sequential) nUbatch a = (equalBlocks a nUbatch sequential).flatten := by
  change a.splitEqual nUbatch sequential ≠ [] at hne
  change a.splitEqual nUbatch sequential = _
  unfold Allocr.splitEqual at hne ⊢
  split
  · rename_i hcpl
    rw [if_pos hcpl] at hne
    exact absurd rfl hne
  · rfl

theorem blocks_ubatch {sequential : Bool} (hne : Splitter.idxs (.equal sequential) nUbatch a ≠ []) :
    Blocks a (Splitter.ubatch (.equal sequential) nUbatch a) (equalBlocks a nUbatch sequential) := by
  have hidxs := idxs_equal hne
  have hlen := length_equalBlocks (a := a) nUbatch sequential
  have hk : 0 < (a.equalLists nUbatch sequential).length := by
    rw [List.length_pos_iff]
    intro hnil
    rw [hidxs] at hne
    unfold equalBlocks at hne
    rw [hnil] at hne
    exact hne rfl
  have hdiv : (equalBlocks a nUbatch sequential).flatten.length / (a.equalLists nUbatch sequential).length =
      Allocr.rounds nUbatch (a.equalLists nUbatch sequential) a.tokens.length 0 := by
    rw [hlen, Nat.mul_div_cancel_left _ hk]
  have hu : Splitter.ubatch (.equal sequential) nUbatch a =
      ⟨true, (equalBlocks a nUbatch sequential).flatten.length,
        Allocr.rounds nUbatch (a.equalLists nUbatch sequential) a.tokens.length 0,
        (a.equalLists nUbatch sequential).length, (equalBlocks a nUbatch sequential).flatten⟩ := by
    unfold Splitter.ubatch
    dsimp only
    rw [if_neg hne, hidxs, hdiv]
  have hset : ∀ l ∈ equalBlocks a nUbatch sequential,
      ∃ s ∈ a.pickSets nUbatch sequential (List.range a.tokens.length) [] 0, ∀ i ∈ l, a.seqSet i = s := by
    intro l hl
    obtain ⟨l', hl', rfl⟩ := List.mem_map.mp hl
    obtain ⟨s, hs, rfl⟩ := List.mem_map.mp hl'
    exact ⟨s, hs, fun i hi => (members_sub (List.mem_of_mem_take hi)).2⟩
  rw [hu]
  refine ⟨rfl, List.length_map .., fun l hl => ?_, hlen, fun l hl i hi j hj => ?_, ?_⟩
  · obtain ⟨l', hl', rfl⟩ := List.mem_map.mp hl
    rw [List.length_take, Nat.min_eq_left (rounds_le_length _ 0 (fun _ _ => Nat.zero_le _) l' hl')]
  · obtain ⟨s, -, hs⟩ := hset l hl
    rw [hs i hi, hs j hj]
  · have hpair := (pickSets_spec (a := a) nUbatch sequential (List.range a.tokens.length) [] 0
      List.Pairwise.nil (fun s hs => absurd hs List.not_mem_nil) (fun i hi => List.mem_range.mp hi)).1
    unfold equalBlocks Allocr.equalLists
    rw [List.map_map, List.pairwise_map]
    refine hpair.imp fun {s t} hst i hi j hj => ?_
    rw [(members_sub (List.mem_of_mem_take hi)).2, (members_sub (List.mem_of_mem_take hj)).2]
    exact Finset.disjoint_iff_inter_eq_empty.mpr hst

/-! ### The limit -/

namespace Allocr

/-- The sequence sets that `split_equal` would find without a limit: of the unused tokens in their order, each set that
overlaps with none of those before. -/
def openSets (a : Allocr) (sequential : Bool) : List Nat → List (Finset Nat) → Nat → List (Finset Nat)
  | [], sets, _ => sets
  | i :: is, sets, last =>
    if i ∉ a.used ∧ (∀ s ∈ sets, Disjoint s (a.seqSet i)) ∧ (sequential → sets = [] ∨ (a.token i).first = last + 1) then
      openSets a sequential is (sets ++ [a.seqSet i]) (a.token i).first
    else openSets a sequential is sets last

theorem sublist_openSets (sequential : Bool) : ∀ (is : List Nat) (sets : List (Finset Nat)) (last : Nat),
    ∃ more, a.openSets sequential is sets last = sets ++ more
  | [], sets, _ => ⟨[], (List.append_nil sets).symm⟩
  | i :: is, sets, last => by
    rw [openSets]
    split
    · obtain ⟨more, h⟩ := sublist_openSets sequential is (sets ++ [a.seqSet i]) (a.token i).first
      exact ⟨a.seqSet i :: more, by rw [h, List.append_assoc]; rfl⟩
    · exact sublist_openSets sequential is sets last

/-- The limit stops the search one set too late. -/
theorem pickSets_eq_take (sequential : Bool) : ∀ (is : List Nat) (sets : List (Finset Nat)) (last : Nat),
    sets.length ≤ nUbatch →
    a.pickSets nUbatch sequential is sets last = (a.openSets sequential is sets last).take (nUbatch + 1)
  | [], sets, _, h => (List.take_of_length_le (h.trans (Nat.le_succ _))).symm
  | i :: is, sets, last, h => by
    rw [pickSets]
    by_cases hused : i ∈ a.used
    · rw [if_pos hused, openSets, if_neg (fun hc => hc.1 hused), pickSets_eq_take sequential is sets last h]
    · rw [if_neg hused]
      simp only [← Finset.disjoint_iff_inter_eq_empty]
      by_cases hadd : (∀ s ∈ sets, Disjoint s (a.seqSet i)) ∧ (sequential → sets = [] ∨ (a.token i).first = last + 1)
      · have hlen : (sets ++ [a.seqSet i]).length = sets.length + 1 := by
          rw [List.length_append, List.length_singleton]
        have hopen : a.openSets sequential (i :: is) sets last =
            a.openSets sequential is (sets ++ [a.seqSet i]) (a.token i).first := by
          rw [openSets, if_pos ⟨hused, hadd⟩]
        rw [if_pos hadd, hopen]
        by_cases hfull : nUbatch < sets.length + 1
        · obtain ⟨more, hmore⟩ := sublist_openSets (a := a) sequential is (sets ++ [a.seqSet i]) (a.token i).first
          rw [if_pos hfull, hmore, List.take_append_of_le_length (by omega), List.take_of_length_le (by omega)]
        · rw [if_neg hfull, pickSets_eq_take sequential is _ _ (by omega)]
      · rw [if_neg hadd, openSets, if_neg (fun hc => hadd hc.2), pickSets_eq_take sequential is sets last h]

end Allocr

variable (nUbatch) in
theorem rounds_bound (lists : List (List Nat)) : ∀ (fuel m : Nat), Allocr.rounds nUbatch lists fuel m ≤ m + 1 ∨
    Allocr.rounds nUbatch lists fuel m * lists.length ≤ nUbatch
  | 0, m => .inl (Nat.le_succ m)
  | fuel + 1, m => by
    rw [Allocr.rounds]
    split
    · split
      · exact .inl le_rfl
      · rename_i hroom
        rcases rounds_bound lists fuel (m + 1) with hle | hle
        · exact .inr ((Nat.mul_le_mul_right _ hle).trans (not_lt.mp hroom))
        · exact .inr hle
    · exact .inl (Nat.le_succ m)

/-- A ubatch of equal parts is too large exactly when the search found more sets than the limit. -/
theorem length_idxs_equal {sequential : Bool} (hne : Splitter.idxs (.equal sequential) nUbatch a ≠ []) :
    (Splitter.idxs (.equal sequential) nUbatch a).length ≤ nUbatch ↔
      (a.openSets sequential (List.range a.tokens.length) [] 0).length ≤ nUbatch := by
  have hidxs := idxs_equal hne
  have hlen := length_equalBlocks (a := a) nUbatch sequential
  have hk : (a.equalLists nUbatch sequential).length =
      min (nUbatch + 1) (a.openSets sequential (List.range a.tokens.length) [] 0).length := by
    unfold Allocr.equalLists
    rw [List.length_map, Allocr.pickSets_eq_take sequential _ _ _ (Nat.zero_le _), List.length_take]
  have hbound := rounds_bound nUbatch (a.equalLists nUbatch sequential) a.tokens.length 0
  have hpos : 0 < Allocr.rounds nUbatch (a.equalLists nUbatch sequential) a.tokens.length 0 := by
    by_contra hzero
    rw [Nat.eq_zero_of_not_pos hzero, Nat.mul_zero] at hlen
    exact hne (hidxs.trans (List.length_eq_zero_iff.mp hlen))
  rw [hidxs, hlen]
  generalize Allocr.rounds nUbatch (a.equalLists nUbatch sequential) a.tokens.length 0 = r at hbound hpos ⊢
  constructor
  · intro hle
    have hkle := (Nat.le_mul_of_pos_right _ hpos).trans hle
    omega
  · intro hle
    rcases hbound with hr | hr
    · rw [show r = 1 by omega]
      omega
    · rwa [Nat.mul_comm]

variable (nUbatch) in
theorem length_seqRun_le : ∀ (is : List Nat) (count : Nat) (s : Finset Nat),
    count + (a.seqRun nUbatch is count s).length ≤ max count nUbatch
  | [], count, _ => Nat.le_max_left count nUbatch
  | i :: is, count, s => by
    rw [Allocr.seqRun]
    split
    · exact Nat.le_max_left count nUbatch
    · split
      · exact length_seqRun_le is count s
      · have hle := length_seqRun_le is (count + 1) (a.seqSet i)
        rw [List.length_cons]
        omega

/-! ## Whole batches -/

/-- What the calls start from, up to the one that returns nothing. -/
def splitStates (sp : Splitter) (nUbatch : Nat) : Nat → Allocr → List Allocr
  | 0, _ => []
  | fuel + 1, a =>
    if sp.idxs nUbatch a = [] then []
    else a :: splitStates sp nUbatch fuel (a.take (sp.idxs nUbatch a))

theorem splitStates_spec : ∀ (fuel : Nat) (a : Allocr), ∀ c ∈ splitStates sp nUbatch fuel a,
    c.tokens = a.tokens ∧ sp.idxs nUbatch c ≠ []
  | 0, _, c, hc => absurd hc List.not_mem_nil
  | fuel + 1, a, c, hc => by
    rw [splitStates] at hc
    split at hc
    · exact absurd hc List.not_mem_nil
    · rename_i hne
      rcases List.mem_cons.mp hc with rfl | hc
      · exact ⟨rfl, hne⟩
      · exact splitStates_spec fuel (a.take (sp.idxs nUbatch a)) c hc

variable (nUbatch) in
/-- The calls end, and they are those of `splitLoop`. -/
theorem ubatches_eq : ∀ (fuel : Nat) (a : Allocr), Splitting sp a → a.tokens.length < fuel + a.used.card →
    ubatches sp nUbatch fuel a =
        some ((splitStates sp nUbatch fuel a).map (sp.ubatch nUbatch), (splitLoop sp nUbatch fuel a).2) ∧
      (splitStates sp nUbatch fuel a).map (sp.idxs nUbatch) = (splitLoop sp nUbatch fuel a).1
  | 0, a, h, hfuel => by
    have hsub : a.used ⊆ Finset.range a.tokens.length := fun i hi => Finset.mem_range.mpr (h.lt i hi)
    have hcard := Finset.card_le_card hsub
    rw [Finset.card_range] at hcard
    omega
  | fuel + 1, a, h, hfuel => by
    rw [ubatches, call_eq, Option.bind_some, splitStates, splitLoop]
    dsimp only
    rw [Splitter.nTokens_ubatch]
    by_cases hne : sp.idxs nUbatch a = []
    · rw [if_pos hne, if_pos hne, if_pos (by rw [hne]; rfl), hne, Allocr.take_nil]
      exact ⟨rfl, rfl⟩
    · have hlen := List.length_pos_iff.mpr hne
      have hcount := (h.take nUbatch).count
      change a.nUsed + _ = _ at hcount
      have hcard := h.count
      obtain ⟨hrun, hidxs⟩ := ubatches_eq fuel _ (h.take nUbatch) (by change a.tokens.length < _; omega)
      rw [if_neg hne, if_neg hne, if_neg (by omega), hrun, List.map_cons, List.map_cons, hidxs]
      exact ⟨rfl, rfl⟩

theorem ubatches_mono : ∀ (fuel k : Nat) (a : Allocr) {r : List Ubatch × Allocr},
    ubatches sp nUbatch fuel a = some r → ubatches sp nUbatch (fuel + k) a = some r
  | 0, _, _, _, h => by cases h
  | fuel + 1, k, a, r, h => by
    rw [ubatches, call_eq, Option.bind_some] at h
    rw [Nat.add_right_comm, ubatches, call_eq, Option.bind_some]
    dsimp only at h ⊢
    split at h
    · rename_i hdone
      rwa [if_pos hdone]
    · rename_i hmore
      rw [if_neg hmore]
      obtain ⟨q, hq, rfl⟩ := Option.map_eq_some_iff.mp h
      rw [ubatches_mono fuel k _ hq]
      rfl

/-- The calls after `split_reset`, with what they return. -/
theorem ubatches_reset (sp : Splitter) (nUbatch : Nat) (a : Allocr) {fuel : Nat} (hfuel : a.tokens.length < fuel) :
    ubatches sp nUbatch fuel a.splitReset =
        some ((splitStates sp nUbatch (a.tokens.length + 1) a.splitReset).map (sp.ubatch nUbatch),
          (splitLoop sp nUbatch (a.tokens.length + 1) a.splitReset).2) ∧
      ((splitStates sp nUbatch (a.tokens.length + 1) a.splitReset).map (sp.ubatch nUbatch)).map Ubatch.idx =
        (splitLoop sp nUbatch (a.tokens.length + 1) a.splitReset).1 := by
  obtain ⟨hrun, hidxs⟩ := ubatches_eq nUbatch (a.tokens.length + 1) a.splitReset
    (Splitting.start sp a.tokens) (Nat.lt_add_right _ (Nat.lt_succ_self _))
  obtain ⟨k, rfl⟩ := Nat.exists_eq_add_of_le (Nat.succ_le_of_lt hfuel)
  refine ⟨ubatches_mono _ k _ hrun, ?_⟩
  rw [← hidxs, List.map_map]
  exact List.map_congr_left fun c _ => Splitter.idx_ubatch sp

end Calls

section Accepted
variable {nVocab nSeqMax : Nat} {memory : Option Positions} {outputAll : Bool} {b : Input} {a : Allocr}

/-- **No ubatch has more than `n_ubatch` tokens exactly when no call of `split_equal` finds more than `n_ubatch` sequence sets
that do not overlap.** -/
theorem ubatches_bounded (h : init nVocab memory nSeqMax outputAll b = some a) (nUbatch : Nat) (hn : 1 ≤ nUbatch)
    (sp : Splitter) : ∃ us a', (∀ fuel > b.nTokens, ubatches sp nUbatch fuel a.splitReset = some (us, a')) ∧
      ((∀ u ∈ us, u.nTokens ≤ nUbatch) ↔
        ∀ sequential, sp = .equal sequential → ∀ c ∈ splitStates sp nUbatch (b.nTokens + 1) a.splitReset,
          (c.openSets sequential (List.range b.nTokens) [] 0).length ≤ nUbatch) := by
  have hlen := (init_accepted h).length
  refine ⟨_, _, fun fuel hfuel => (ubatches_reset sp nUbatch a (hlen ▸ hfuel)).1, ?_⟩
  rw [hlen]
  simp only [List.forall_mem_map, Splitter.nTokens_ubatch]
  cases sp with
  | simple =>
      refine ⟨fun _ _ hsp => (by cases hsp), fun _ c hc => ?_⟩
      change (c.splitSimple nUbatch).length ≤ nUbatch
      unfold Allocr.splitSimple
      split
      · exact Nat.zero_le _
      · rw [List.length_range']
        omega
  | equal sequential =>
      have hiff : ∀ c ∈ splitStates (.equal sequential) nUbatch (b.nTokens + 1) a.splitReset,
          ((Splitter.idxs (.equal sequential) nUbatch c).length ≤ nUbatch ↔
            (c.openSets sequential (List.range b.nTokens) [] 0).length ≤ nUbatch) := by
        intro c hc
        obtain ⟨htok, hne⟩ := splitStates_spec _ _ c hc
        rw [length_idxs_equal hne, htok]
        exact hlen ▸ Iff.rfl
      constructor
      · intro hall seq' hsp c hc
        cases hsp
        exact (hiff c hc).mp (hall c hc)
      · exact fun hall c hc => (hiff c hc).mpr (hall sequential rfl c hc)
  | seq =>
      refine ⟨fun _ _ hsp => (by cases hsp), fun _ c hc => ?_⟩
      change (c.splitSeq nUbatch).length ≤ nUbatch
      unfold Allocr.splitSeq
      split
      · exact Nat.zero_le _
      · rename_i cur hcur
        have hle := length_seqRun_le (a := c) nUbatch
          (List.range' (cur + 1) (c.tokens.length - (cur + 1))) 1 (c.seqSet cur)
        rw [List.length_cons]
        omega

/-- Two tokens of different sequences. -/
def twoSeqs : Input := { nTokens := 2, token := some fun _ => 0, seqId := some fun i => [i] }

/-- For two tokens of different sequences a ubatch of one token is not enough. -/
theorem ubatches_bounded_twoSeqs : ∃ a, init 32 none 2 false twoSeqs = some a ∧
    ∃ us a', ubatches (.equal false) 2 3 a.splitReset = some (us, a') ∧
      ((∀ u ∈ us, u.nTokens ≤ 2) ↔
        ∀ sequential, Splitter.equal false = .equal sequential → ∀ c ∈ splitStates (.equal false) 2 3 a.splitReset,
          (c.openSets sequential (List.range 2) [] 0).length ≤ 2) := by
  obtain ⟨a, ha⟩ := Option.isSome_iff_exists.mp (by decide +kernel : (init 32 none 2 false twoSeqs).isSome)
  obtain ⟨us, a', hrun, hiff⟩ := ubatches_bounded ha 2 (by decide) (.equal false)
  exact ⟨a, ha, us, a', hrun 3 (by decide), hiff⟩

/-- With `n_ubatch` 1 both tokens are in one ubatch. -/
theorem splitEqual_exceeds : ∃ a, init 32 none 2 false twoSeqs = some a ∧
    ∃ us a', (∀ fuel > 2, ubatches (.equal false) 1 fuel a.splitReset = some (us, a')) ∧
      ¬ ∀ u ∈ us, u.nTokens ≤ 1 := by
  have hrun : ((init 32 none 2 false twoSeqs).bind fun a =>
      (ubatches (.equal false) 1 3 a.splitReset).map fun r => r.1.map Ubatch.nTokens) = some [2] := by decide +kernel
  obtain ⟨a, ha, hrun⟩ := Option.bind_eq_some_iff.mp hrun
  obtain ⟨⟨us, a'⟩, hus, hlens⟩ := Option.map_eq_some_iff.mp hrun
  refine ⟨a, ha, us, a', fun fuel hfuel => ?_, fun hall => ?_⟩
  · obtain ⟨k, rfl⟩ := Nat.exists_eq_add_of_le (Nat.succ_le_of_lt hfuel)
    exact ubatches_mono 3 k _ hus
  · have htwo : 2 ∈ us.map Ubatch.nTokens := by
      rw [hlens]
      exact List.mem_cons_self
    obtain ⟨u, hu, hlen⟩ := List.mem_map.mp htwo
    have hle := hall u hu
    omega

end Accepted

end S2Moe.Batch
