import S2Moe.Lib.Loop

/-!
# `llama_batch_allocr`: splitting a batch into ubatches

A ubatch is the list of the batch indices of its tokens; an empty one says that the splitter is done.

* `splitSimple`, `splitEqual`, `splitSeq` : the three splitters. Each marks the tokens it takes, and `ubatch_add` appends
  those of them that are outputs to `out_ids`;
* `splitLoop` : a splitter is called until it is done; `initBatch` : the part of `init_batch` that all memories share;
* `Fresh a idxs` : the tokens `idxs` are different and none of them was taken before;
* `initBatch_perm` : a batch that is split has each token in exactly one ubatch.
-/

namespace S2Moe.Batch
open S2Moe.Lib

/-- A token has at least one sequence, the first. -/
structure Token where
  pos : Int
  first : Nat
  others : List Nat := []
  output : Bool
deriving DecidableEq

def Token.ids (t : Token) : List Nat := t.first :: t.others

def Token.seqSet (t : Token) : Finset Nat := t.ids.toFinset

structure Allocr where
  tokens : List Token
  used : Finset Nat := ∅
  nUsed : Nat := 0
  outIds : List Nat := []

namespace Allocr

def token (a : Allocr) (i : Nat) : Token := a.tokens.getD i ⟨0, 0, [], false⟩

def seqSet (a : Allocr) (i : Nat) : Finset Nat := (a.token i).seqSet

/-- A token that belongs to several sequences couples them. -/
def hasCpl (a : Allocr) : Bool := a.tokens.any fun t => decide (t.others ≠ [])

def splitReset (a : Allocr) : Allocr := { tokens := a.tokens }

/-- The tokens are marked, and `ubatch_add` collects the outputs among them. -/
def take (a : Allocr) (idxs : List Nat) : Allocr :=
  { a with
    used := a.used ∪ idxs.toFinset
    nUsed := a.nUsed + idxs.length
    outIds := a.outIds ++ idxs.filter fun i => (a.token i).output }

def firstUnused (a : Allocr) : Option Nat := (List.range a.tokens.length).find? fun i => decide (i ∉ a.used)

/-- From the first unused token on, without looking at the marks again. -/
def splitSimple (a : Allocr) (nUbatch : Nat) : List Nat :=
  match a.firstUnused with
  | none => []
  | some cur => List.range' cur (min (a.tokens.length - cur) (max 1 nUbatch))

/-- The sequence sets of a ubatch, none of which overlaps with another. -/
def pickSets (a : Allocr) (nUbatch : Nat) (sequential : Bool) : List Nat → List (Finset Nat) → Nat → List (Finset Nat)
  | [], sets, _ => sets
  | i :: is, sets, last =>
    if i ∈ a.used then pickSets a nUbatch sequential is sets last
    else if (∀ s ∈ sets, s ∩ a.seqSet i = ∅) ∧ (sequential → sets = [] ∨ (a.token i).first = last + 1) then
      if nUbatch < sets.length + 1 then sets ++ [a.seqSet i]
      else pickSets a nUbatch sequential is (sets ++ [a.seqSet i]) (a.token i).first
    else pickSets a nUbatch sequential is sets last

/-- The tokens of a set, from the first unused one on. -/
def members (a : Allocr) (s : Finset Nat) : List Nat :=
  ((List.range a.tokens.length).filter fun i => decide (a.seqSet i = s)).dropWhile fun i => decide (i ∈ a.used)

/-- How many tokens each of the lists gives. -/
def rounds (nUbatch : Nat) (lists : List (List Nat)) : Nat → Nat → Nat
  | 0, m => m
  | fuel + 1, m =>
    if ∀ l ∈ lists, m < l.length then
      if nUbatch < (m + 2) * lists.length then m + 1 else rounds nUbatch lists fuel (m + 1)
    else m

def equalLists (a : Allocr) (nUbatch : Nat) (sequential : Bool) : List (List Nat) :=
  (a.pickSets nUbatch sequential (List.range a.tokens.length) [] 0).map a.members

def splitEqual (a : Allocr) (nUbatch : Nat) (sequential : Bool) : List Nat :=
  if sequential && a.hasCpl then []
  else
    let lists := a.equalLists nUbatch sequential
    (lists.map (List.take (rounds nUbatch lists a.tokens.length 0))).flatten

/-- Behind a token with the set `s`: the next unused token has a subset of it. -/
def seqRun (a : Allocr) (nUbatch : Nat) : List Nat → Nat → Finset Nat → List Nat
  | [], _, _ => []
  | i :: is, count, s =>
    if nUbatch ≤ count then []
    else if i ∈ a.used ∨ ¬ a.seqSet i ⊆ s then seqRun a nUbatch is count s
    else i :: seqRun a nUbatch is (count + 1) (a.seqSet i)

def splitSeq (a : Allocr) (nUbatch : Nat) : List Nat :=
  match a.firstUnused with
  | none => []
  | some cur =>
    cur :: a.seqRun nUbatch (List.range' (cur + 1) (a.tokens.length - (cur + 1))) 1 (a.seqSet cur)

end Allocr

/-- Unified caches split simply, caches with streams equally and sequentially, recurrent and hybrid memories equally, or by
sequence when all tokens are outputs. -/
inductive Splitter where
  | simple
  | equal (sequential : Bool)
  | seq
deriving DecidableEq

def Splitter.idxs (sp : Splitter) (nUbatch : Nat) (a : Allocr) : List Nat :=
  match sp with
  | .simple => a.splitSimple nUbatch
  | .equal sequential => a.splitEqual nUbatch sequential
  | .seq => a.splitSeq nUbatch

def splitLoop (sp : Splitter) (nUbatch : Nat) : Nat → Allocr → List (List Nat) × Allocr
  | 0, a => ([], a)
  | fuel + 1, a =>
    if sp.idxs nUbatch a = [] then ([], a)
    else
      let r := splitLoop sp nUbatch fuel (a.take (sp.idxs nUbatch a))
      (sp.idxs nUbatch a :: r.1, r.2)

/-- The ubatches and `out_ids`; nothing when some token is in none of them. -/
def initBatch (sp : Splitter) (nUbatch : Nat) (tokens : List Token) : Option (List (List Nat) × List Nat) :=
  let r := splitLoop sp nUbatch (tokens.length + 1) { tokens := tokens }
  if r.2.nUsed < tokens.length then none else some (r.1, r.2.outIds)

/-! ## What a splitter takes -/

structure Fresh (a : Allocr) (idxs : List Nat) : Prop where
  nodup : idxs.Nodup
  lt : ∀ i ∈ idxs, i < a.tokens.length
  unused : ∀ i ∈ idxs, i ∉ a.used

/-- Of the tokens with one sequence set the earlier ones are taken first. -/
def InOrder (a : Allocr) : Prop := ∀ i j, i < j → a.seqSet i = a.seqSet j → j ∈ a.used → i ∈ a.used

section Split
variable {a : Allocr} {nUbatch : Nat}

theorem firstUnused_some {cur : Nat} (h : a.firstUnused = some cur) :
    cur < a.tokens.length ∧ cur ∉ a.used ∧ ∀ j < cur, j ∈ a.used := by
  unfold Allocr.firstUnused at h
  have hcur := List.find?_range_eq_some.mp h
  refine ⟨List.mem_range.mp hcur.2.1, of_decide_eq_true hcur.1, fun j hj => ?_⟩
  have hj' := hcur.2.2 j hj
  simpa using hj'

theorem firstUnused_none (h : a.firstUnused = none) : ∀ i < a.tokens.length, i ∈ a.used := by
  intro i hi
  have hall := List.find?_eq_none.mp h i (List.mem_range.mpr hi)
  simpa using hall

/-- With the marks on an initial part of the batch, the tokens behind it are free. -/
theorem Fresh.splitSimple {k : Nat} (hused : a.used = Finset.range k) : Fresh a (a.splitSimple nUbatch) := by
  unfold Allocr.splitSimple
  cases hcur : a.firstUnused with
  | none => exact ⟨List.nodup_nil, fun i hi => absurd hi List.not_mem_nil, fun i hi => absurd hi List.not_mem_nil⟩
  | some cur =>
      obtain ⟨hlt, hnot, -⟩ := firstUnused_some hcur
      rw [hused, Finset.mem_range] at hnot
      refine ⟨List.nodup_range', fun i hi => ?_, fun i hi => ?_⟩
      · have := List.mem_range'_1.mp hi
        omega
      · have := List.mem_range'_1.mp hi
        rw [hused, Finset.mem_range]
        omega

theorem used_splitSimple {k : Nat} (hused : a.used = Finset.range k) (hk : k ≤ a.tokens.length) :
    ∃ l ≤ a.tokens.length, (a.take (a.splitSimple nUbatch)).used = Finset.range l := by
  unfold Allocr.splitSimple
  cases hcur : a.firstUnused with
  | none => exact ⟨k, hk, by simp [Allocr.take, hused]⟩
  | some cur =>
      obtain ⟨hlt, hnot, hbefore⟩ := firstUnused_some hcur
      rw [hused, Finset.mem_range] at hnot
      have hcurk : cur = k := by
        by_contra hne
        have hmem := hbefore k (by omega)
        rw [hused, Finset.mem_range] at hmem
        omega
      refine ⟨cur + min (a.tokens.length - cur) (max 1 nUbatch), by omega, ?_⟩
      ext i
      change i ∈ a.used ∪ _ ↔ _
      rw [hused, Finset.mem_union, List.mem_toFinset, List.mem_range'_1, Finset.mem_range, Finset.mem_range]
      omega

/-! ### Equal parts -/

theorem Token.seqSet_ne_empty (t : Token) : t.seqSet ≠ ∅ := by
  unfold Token.seqSet Token.ids
  simp

variable (nUbatch) in
/-- The sets picked are those of tokens, and no two of them overlap. -/
theorem pickSets_spec (sequential : Bool) : ∀ (is : List Nat) (sets : List (Finset Nat)) (last : Nat),
    sets.Pairwise (fun s t => s ∩ t = ∅) → (∀ s ∈ sets, ∃ i < a.tokens.length, i ∉ a.used ∧ a.seqSet i = s) →
    (∀ i ∈ is, i < a.tokens.length) →
    (a.pickSets nUbatch sequential is sets last).Pairwise (fun s t => s ∩ t = ∅) ∧
      ∀ s ∈ a.pickSets nUbatch sequential is sets last, ∃ i < a.tokens.length, i ∉ a.used ∧ a.seqSet i = s
  | [], sets, _, hpair, hsets, _ => ⟨hpair, hsets⟩
  | i :: is, sets, last, hpair, hsets, his => by
    have his' : ∀ j ∈ is, j < a.tokens.length := fun j hj => his j (List.mem_cons_of_mem _ hj)
    rw [Allocr.pickSets]
    split
    · exact pickSets_spec sequential is sets last hpair hsets his'
    · rename_i hunused
      split
      · rename_i hadd
        have hpair' : (sets ++ [a.seqSet i]).Pairwise (fun s t => s ∩ t = ∅) := by
          rw [List.pairwise_append]
          refine ⟨hpair, List.pairwise_singleton _ _, fun s hs t ht => ?_⟩
          rw [List.mem_singleton.mp ht]
          exact hadd.1 s hs
        have hsets' : ∀ s ∈ sets ++ [a.seqSet i], ∃ i < a.tokens.length, i ∉ a.used ∧ a.seqSet i = s := by
          intro s hs
          rcases List.mem_append.mp hs with hs | hs
          · exact hsets s hs
          · exact ⟨i, his i List.mem_cons_self, hunused, (List.mem_singleton.mp hs).symm⟩
        split
        · exact ⟨hpair', hsets'⟩
        · exact pickSets_spec sequential is _ _ hpair' hsets' his'
      · exact pickSets_spec sequential is sets last hpair hsets his'

/-- The first unused token gives the first set. -/
theorem pickSets_ne_nil (sequential : Bool) {i : Nat} (hi : i < a.tokens.length) (hu : i ∉ a.used) :
    a.pickSets nUbatch sequential (List.range a.tokens.length) [] 0 ≠ [] := by
  have hkeep : ∀ (is : List Nat) (sets : List (Finset Nat)) (last : Nat), sets ≠ [] →
      a.pickSets nUbatch sequential is sets last ≠ [] := by
    intro is
    induction is with
    | nil => exact fun sets _ h => h
    | cons j is ih =>
        intro sets last h
        rw [Allocr.pickSets]
        split
        · exact ih sets last h
        · split
          · split
            · simp
            · exact ih _ _ (by simp)
          · exact ih sets last h
  have hfind : ∀ is : List Nat, i ∈ is → a.pickSets nUbatch sequential is [] 0 ≠ [] := by
    intro is
    induction is with
    | nil => exact fun h => absurd h List.not_mem_nil
    | cons j is ih =>
        intro h
        rw [Allocr.pickSets]
        split
        · rename_i hj
          rcases List.mem_cons.mp h with rfl | h
          · exact absurd hj hu
          · exact ih h
        · rw [if_pos ⟨fun s hs => absurd hs List.not_mem_nil, fun _ => .inl rfl⟩]
          split
          · simp
          · exact hkeep _ _ _ (by simp)
  exact hfind _ (List.mem_range.mpr hi)

theorem members_sub {s : Finset Nat} {i : Nat} (h : i ∈ a.members s) : i < a.tokens.length ∧ a.seqSet i = s := by
  have hmem := (List.dropWhile_sublist _).subset h
  rw [List.mem_filter, List.mem_range] at hmem
  exact ⟨hmem.1, of_decide_eq_true hmem.2⟩

theorem members_pairwise (s : Finset Nat) : (a.members s).Pairwise (· < ·) :=
  (List.pairwise_lt_range.filter _).sublist (List.dropWhile_sublist _)

/-- Behind the first unused token of a set all of them are unused. -/
theorem InOrder.members_unused (h : InOrder a) {s : Finset Nat} {i : Nat} (hi : i ∈ a.members s) : i ∉ a.used := by
  have hhead : ∀ l : List Nat, l.Pairwise (· < ·) → (∀ j ∈ l, a.seqSet j = s) →
      ∀ j ∈ l.dropWhile (fun j => decide (j ∈ a.used)), j ∉ a.used := by
    intro l
    induction l with
    | nil => exact fun _ _ j hj => absurd hj List.not_mem_nil
    | cons x l ih =>
        intro hpair hset j hj
        rw [List.pairwise_cons] at hpair
        rw [List.dropWhile_cons] at hj
        split at hj
        · exact ih hpair.2 (fun k hk => hset k (List.mem_cons_of_mem _ hk)) j hj
        · rename_i hx
          have hxu : x ∉ a.used := by simpa using hx
          rcases List.mem_cons.mp hj with rfl | hj
          · exact hxu
          · intro hju
            refine hxu (h x j (hpair.1 j hj) ?_ hju)
            rw [hset x List.mem_cons_self, hset j (List.mem_cons_of_mem _ hj)]
  refine hhead _ (List.pairwise_lt_range.filter _) (fun j hj => ?_) i hi
  exact of_decide_eq_true (List.mem_filter.mp hj).2

theorem mem_members_of_unused {i : Nat} (hi : i < a.tokens.length) (hu : i ∉ a.used) :
    i ∈ a.members (a.seqSet i) := by
  have hmem : i ∈ (List.range a.tokens.length).filter fun j => decide (a.seqSet j = a.seqSet i) :=
    List.mem_filter.mpr ⟨List.mem_range.mpr hi, decide_eq_true rfl⟩
  have hsplit := List.takeWhile_append_dropWhile (p := fun j => decide (j ∈ a.used))
    (l := (List.range a.tokens.length).filter fun j => decide (a.seqSet j = a.seqSet i))
  rw [← hsplit] at hmem
  rcases List.mem_append.mp hmem with htake | hdrop
  · exact absurd (of_decide_eq_true (List.all_eq_true.mp List.all_takeWhile i htake)) hu
  · exact hdrop

theorem le_rounds (lists : List (List Nat)) : ∀ fuel m, m ≤ Allocr.rounds nUbatch lists fuel m
  | 0, _ => le_rfl
  | fuel + 1, m => by
    rw [Allocr.rounds]
    split
    · split
      · omega
      · exact (Nat.le_succ m).trans (le_rounds lists fuel (m + 1))
    · exact le_rfl

variable (nUbatch) in
/-- Lists that all have a token give at least one. -/
theorem rounds_pos {lists : List (List Nat)} (h : ∀ l ∈ lists, l ≠ []) {fuel : Nat} (hfuel : 0 < fuel) :
    0 < Allocr.rounds nUbatch lists fuel 0 := by
  obtain ⟨fuel, rfl⟩ : ∃ f, fuel = f + 1 := ⟨fuel - 1, by omega⟩
  rw [Allocr.rounds, if_pos fun l hl => List.length_pos_iff.mpr (h l hl)]
  split
  · omega
  · exact Nat.lt_of_lt_of_le Nat.one_pos (le_rounds lists fuel 1)

variable (nUbatch) in
/-- The sets of the ubatch, and with each of them the tokens that it may take. -/
theorem equalLists_spec (h : InOrder a) (sequential : Bool) {m : Nat} :
    Fresh a (((a.equalLists nUbatch sequential).map (List.take m)).flatten) ∧
      (∀ l ∈ a.equalLists nUbatch sequential, l ≠ []) ∧
      ∀ i j, i < j → a.seqSet i = a.seqSet j → i ∉ a.used →
        j ∈ ((a.equalLists nUbatch sequential).map (List.take m)).flatten →
        i ∈ ((a.equalLists nUbatch sequential).map (List.take m)).flatten := by
  obtain ⟨hpair, hsets⟩ := pickSets_spec nUbatch sequential (List.range a.tokens.length) [] 0
    List.Pairwise.nil (fun s hs => absurd hs List.not_mem_nil) (fun i hi => List.mem_range.mp hi)
  have hmem : ∀ i, i ∈ ((a.equalLists nUbatch sequential).map (List.take m)).flatten ↔
      ∃ s ∈ a.pickSets nUbatch sequential (List.range a.tokens.length) [] 0, i ∈ (a.members s).take m := by
    intro i
    unfold Allocr.equalLists
    simp only [List.map_map, List.mem_flatten, List.mem_map, Function.comp_apply]
    constructor
    · rintro ⟨l, ⟨s, hs, rfl⟩, hi⟩
      exact ⟨s, hs, hi⟩
    · rintro ⟨s, hs, hi⟩
      exact ⟨_, ⟨s, hs, rfl⟩, hi⟩
  refine ⟨⟨?_, fun i hi => ?_, fun i hi => ?_⟩, fun l hl => ?_, fun i j hij hset hiu hj => ?_⟩
  · unfold Allocr.equalLists
    rw [List.map_map, List.nodup_flatten]
    constructor
    · intro l hl
      obtain ⟨s, -, rfl⟩ := List.mem_map.mp hl
      exact ((members_pairwise s).sublist (List.take_sublist _ _)).imp fun h => h.ne
    · rw [List.pairwise_map]
      refine hpair.imp_of_mem fun {s t} hs ht hst => ?_
      intro i his hit
      obtain ⟨-, h1⟩ := members_sub (List.mem_of_mem_take his)
      obtain ⟨-, h2⟩ := members_sub (List.mem_of_mem_take hit)
      rw [← h1, ← h2, Finset.inter_self] at hst
      exact Token.seqSet_ne_empty _ hst
  · obtain ⟨s, -, hi⟩ := (hmem i).mp hi
    exact (members_sub (List.mem_of_mem_take hi)).1
  · obtain ⟨s, -, hi⟩ := (hmem i).mp hi
    exact h.members_unused (List.mem_of_mem_take hi)
  · unfold Allocr.equalLists at hl
    obtain ⟨s, hs, rfl⟩ := List.mem_map.mp hl
    obtain ⟨i, hi, hu, rfl⟩ := hsets s hs
    exact List.ne_nil_of_mem (mem_members_of_unused hi hu)
  · obtain ⟨s, hs, hjs⟩ := (hmem j).mp hj
    obtain ⟨hjlt, hjset⟩ := members_sub (List.mem_of_mem_take hjs)
    have hi : i ∈ a.members s := by
      rw [← hjset, ← hset]
      exact mem_members_of_unused (by omega) hiu
    refine (hmem i).mpr ⟨s, hs, ?_⟩
    -- the list is increasing, so that `i` comes before `j`
    rw [← List.take_append_drop m (a.members s)] at hi
    rcases List.mem_append.mp hi with hi | hi
    · exact hi
    · have hlt := members_pairwise (a := a) s
      rw [← List.take_append_drop m (a.members s), List.pairwise_append] at hlt
      have := hlt.2.2 j hjs i hi
      omega

/-! ### One sequence set at a time -/

variable (nUbatch) in
theorem seqRun_spec : ∀ (is : List Nat) (count : Nat) (s : Finset Nat),
    (a.seqRun nUbatch is count s).Sublist is ∧ ∀ i ∈ a.seqRun nUbatch is count s, i ∉ a.used
  | [], _, _ => ⟨List.nil_sublist _, fun i hi => absurd hi List.not_mem_nil⟩
  | i :: is, count, s => by
    rw [Allocr.seqRun]
    split
    · exact ⟨List.nil_sublist _, fun j hj => absurd hj List.not_mem_nil⟩
    · split
      · obtain ⟨hsub, hun⟩ := seqRun_spec is count s
        exact ⟨hsub.cons i, hun⟩
      · rename_i hfree
        rw [not_or] at hfree
        obtain ⟨hsub, hun⟩ := seqRun_spec is (count + 1) (a.seqSet i)
        refine ⟨hsub.cons_cons i, fun j hj => ?_⟩
        rcases List.mem_cons.mp hj with rfl | hj
        · exact hfree.1
        · exact hun j hj

theorem Fresh.splitSeq : Fresh a (a.splitSeq nUbatch) := by
  unfold Allocr.splitSeq
  cases hcur : a.firstUnused with
  | none => exact ⟨List.nodup_nil, fun i hi => absurd hi List.not_mem_nil, fun i hi => absurd hi List.not_mem_nil⟩
  | some cur =>
      obtain ⟨hlt, hnot, -⟩ := firstUnused_some hcur
      obtain ⟨hsub, hun⟩ := seqRun_spec nUbatch
        (List.range' (cur + 1) (a.tokens.length - (cur + 1))) 1 (a.seqSet cur)
      have hin : ∀ i ∈ a.seqRun nUbatch (List.range' (cur + 1) (a.tokens.length - (cur + 1))) 1 (a.seqSet cur),
          cur < i ∧ i < a.tokens.length := by
        intro i hi
        have := List.mem_range'_1.mp (hsub.subset hi)
        omega
      refine ⟨List.nodup_cons.mpr ⟨fun hc => ?_, hsub.nodup List.nodup_range'⟩, fun i hi => ?_, fun i hi => ?_⟩
      · exact lt_irrefl cur (hin cur hc).1
      · rcases List.mem_cons.mp hi with rfl | hi
        · exact hlt
        · exact (hin i hi).2
      · rcases List.mem_cons.mp hi with rfl | hi
        · exact hnot
        · exact hun i hi

/-! ## All ubatches -/

/-- What the calls of a splitter keep: the marks are counted, and they are where the splitter expects them. -/
structure Splitting (sp : Splitter) (a : Allocr) : Prop where
  lt : ∀ i ∈ a.used, i < a.tokens.length
  count : a.nUsed = a.used.card
  simple : sp = .simple → ∃ k ≤ a.tokens.length, a.used = Finset.range k
  equal : ∀ sequential, sp = .equal sequential → InOrder a

theorem Splitting.start (sp : Splitter) (tokens : List Token) : Splitting sp { tokens := tokens } where
  lt _ hi := absurd hi (Finset.notMem_empty _)
  count := rfl
  simple _ := ⟨0, Nat.zero_le _, rfl⟩
  equal _ _ _ j _ _ hj := absurd hj (Finset.notMem_empty j)

variable {sp : Splitter}

theorem Splitting.fresh (h : Splitting sp a) : Fresh a (sp.idxs nUbatch a) := by
  cases hsp : sp with
  | simple =>
      obtain ⟨k, -, hused⟩ := h.simple hsp
      exact Fresh.splitSimple hused
  | equal sequential =>
      change Fresh a (a.splitEqual nUbatch sequential)
      unfold Allocr.splitEqual
      split
      · exact ⟨List.nodup_nil, fun i hi => absurd hi List.not_mem_nil, fun i hi => absurd hi List.not_mem_nil⟩
      · exact (equalLists_spec nUbatch (h.equal sequential hsp) sequential).1
  | seq => exact Fresh.splitSeq

variable (nUbatch) in
theorem Splitting.take (h : Splitting sp a) : Splitting sp (a.take (sp.idxs nUbatch a)) := by
  have hf : Fresh a (sp.idxs nUbatch a) := h.fresh
  refine ⟨fun i hi => ?_, ?_, fun hsp => ?_, fun sequential hsp i j hij hset hj => ?_⟩
  · rcases Finset.mem_union.mp hi with hi | hi
    · exact h.lt i hi
    · exact hf.lt i (List.mem_toFinset.mp hi)
  · have hdisj : Disjoint a.used (sp.idxs nUbatch a).toFinset := by
      rw [Finset.disjoint_right]
      exact fun i hi => hf.unused i (List.mem_toFinset.mp hi)
    change a.nUsed + _ = (a.used ∪ _).card
    rw [Finset.card_union_of_disjoint hdisj, List.toFinset_card_of_nodup hf.nodup, h.count]
  · subst hsp
    obtain ⟨k, hk, hused⟩ := h.simple rfl
    exact used_splitSimple hused hk
  · subst hsp
    have hord := h.equal sequential rfl
    change i ∈ a.used ∪ (a.splitEqual nUbatch sequential).toFinset
    by_cases hiu : i ∈ a.used
    · exact Finset.mem_union_left _ hiu
    · rcases Finset.mem_union.mp hj with hj | hj
      · exact absurd (hord i j hij hset hj) hiu
      · refine Finset.mem_union_right _ (List.mem_toFinset.mpr ?_)
        have hj' : j ∈ a.splitEqual nUbatch sequential := List.mem_toFinset.mp hj
        unfold Allocr.splitEqual at hj' ⊢
        split at hj'
        · exact absurd hj' List.not_mem_nil
        · rename_i hcpl
          rw [if_neg hcpl]
          exact (equalLists_spec nUbatch hord sequential).2.2 i j hij hset hiu hj'

variable (nUbatch) in
theorem splitLoop_spec : ∀ (fuel : Nat) (a : Allocr), Splitting sp a →
    Splitting sp (splitLoop sp nUbatch fuel a).2 ∧
      (splitLoop sp nUbatch fuel a).2.tokens = a.tokens ∧
      Fresh a (splitLoop sp nUbatch fuel a).1.flatten ∧
      (splitLoop sp nUbatch fuel a).2.used = a.used ∪ (splitLoop sp nUbatch fuel a).1.flatten.toFinset ∧
      (splitLoop sp nUbatch fuel a).2.outIds =
        a.outIds ++ (splitLoop sp nUbatch fuel a).1.flatten.filter (fun i => (a.token i).output) ∧
      ∀ u ∈ (splitLoop sp nUbatch fuel a).1, u ≠ []
  | 0, a, h => by
    refine ⟨h, rfl, ⟨List.nodup_nil, ?_, ?_⟩, ?_, ?_, ?_⟩ <;> simp [splitLoop]
  | fuel + 1, a, h => by
    rw [splitLoop]
    split
    · refine ⟨h, rfl, ⟨List.nodup_nil, ?_, ?_⟩, ?_, ?_, ?_⟩ <;> simp
    · rename_i hne
      have hf : Fresh a (sp.idxs nUbatch a) := h.fresh
      obtain ⟨h1, h2, h3, h4, h5, h6⟩ := splitLoop_spec fuel (a.take (sp.idxs nUbatch a)) (h.take nUbatch)
      dsimp only
      rw [List.flatten_cons]
      refine ⟨h1, h2, ⟨?_, fun i hi => ?_, fun i hi => ?_⟩, ?_, ?_, fun u hu => ?_⟩
      · rw [List.nodup_append]
        refine ⟨hf.nodup, h3.nodup, fun i hi j hj hij => ?_⟩
        subst hij
        exact h3.unused i hj (Finset.mem_union_right _ (List.mem_toFinset.mpr hi))
      · rcases List.mem_append.mp hi with hi | hi
        · exact hf.lt i hi
        · exact h3.lt i hi
      · rcases List.mem_append.mp hi with hi | hi
        · exact hf.unused i hi
        · exact fun hc => h3.unused i hi (Finset.mem_union_left _ hc)
      · rw [h4, List.toFinset_append, ← Finset.union_assoc]
        rfl
      · rw [h5, List.filter_append, ← List.append_assoc]
        rfl
      · rcases List.mem_cons.mp hu with rfl | hu
        · exact hne
        · exact h6 u hu

/-- A splitter that is done has taken all tokens, or it refuses coupled sequences. -/
theorem Splitting.idxs_eq_nil (h : Splitting sp a) (hdone : sp.idxs nUbatch a = []) :
    (∀ i < a.tokens.length, i ∈ a.used) ∨ sp = .equal true ∧ a.hasCpl := by
  cases hsp : sp with
  | simple =>
      left
      rw [hsp] at hdone
      change a.splitSimple nUbatch = [] at hdone
      unfold Allocr.splitSimple at hdone
      cases hcur : a.firstUnused with
      | none => exact firstUnused_none hcur
      | some cur =>
          rw [hcur] at hdone
          have hlt := (firstUnused_some hcur).1
          have hlen := congrArg List.length hdone
          rw [List.length_range', List.length_nil] at hlen
          omega
  | equal sequential =>
      rw [hsp] at hdone
      change a.splitEqual nUbatch sequential = [] at hdone
      unfold Allocr.splitEqual at hdone
      split at hdone
      · rename_i hcpl
        rw [Bool.and_eq_true] at hcpl
        right
        exact ⟨by rw [hcpl.1], hcpl.2⟩
      · left
        intro i hi
        by_contra hiu
        obtain ⟨hf, hne, -⟩ := equalLists_spec nUbatch (m := 1) (h.equal sequential hsp) sequential
        have hpos := rounds_pos nUbatch hne (Nat.lt_of_le_of_lt (Nat.zero_le i) hi)
        cases hlists : a.equalLists nUbatch sequential with
        | nil => exact pickSets_ne_nil sequential hi hiu (List.map_eq_nil_iff.mp hlists)
        | cons l ls =>
            rw [hlists] at hdone hne hpos
            have hl := hne l List.mem_cons_self
            dsimp only at hdone
            rw [List.map_cons, List.flatten_cons, List.append_eq_nil_iff, List.take_eq_nil_iff] at hdone
            rcases hdone.1 with h0 | h0
            · omega
            · exact hl h0
  | seq =>
      left
      rw [hsp] at hdone
      change a.splitSeq nUbatch = [] at hdone
      unfold Allocr.splitSeq at hdone
      cases hcur : a.firstUnused with
      | none => exact firstUnused_none hcur
      | some cur =>
          rw [hcur] at hdone
          cases hdone

variable (nUbatch) in
/-- The loop ends because the splitter is done: each ubatch marks a token that was free. -/
theorem splitLoop_done : ∀ (fuel : Nat) (a : Allocr), Splitting sp a → a.tokens.length < fuel + a.used.card →
    sp.idxs nUbatch (splitLoop sp nUbatch fuel a).2 = []
  | 0, a, h, hfuel => by
    have hsub : a.used ⊆ Finset.range a.tokens.length := fun i hi => Finset.mem_range.mpr (h.lt i hi)
    have hcard := Finset.card_le_card hsub
    rw [Finset.card_range] at hcard
    omega
  | fuel + 1, a, h, hfuel => by
    rw [splitLoop]
    split
    · assumption
    · rename_i hne
      refine splitLoop_done fuel _ (h.take nUbatch) ?_
      have hcount := (h.take nUbatch).count
      have hlen := List.length_pos_iff.mpr hne
      change a.nUsed + _ = _ at hcount
      rw [← hcount, h.count]
      change a.tokens.length < _
      omega

/-- Every batch can be split, except one of coupled sequences into sequential parts. -/
theorem initBatch_isSome {tokens : List Token} (h : ¬ (sp = .equal true ∧ Allocr.hasCpl { tokens := tokens })) :
    (initBatch sp nUbatch tokens).isSome := by
  have hstart := Splitting.start sp tokens
  obtain ⟨h1, h2, -⟩ := splitLoop_spec nUbatch (tokens.length + 1) _ hstart
  have hdone := splitLoop_done nUbatch (tokens.length + 1) _ hstart (Nat.lt_add_right _ (Nat.lt_succ_self _))
  unfold initBatch
  dsimp only
  rw [if_neg]
  · rfl
  · rw [h1.count, not_lt]
    rcases h1.idxs_eq_nil hdone with hall | ⟨hsp, hcpl⟩
    · rw [h2] at hall
      have hsub := Finset.card_le_card fun i hi => hall i (Finset.mem_range.mp hi)
      rwa [Finset.card_range] at hsub
    · unfold Allocr.hasCpl at hcpl
      rw [h2] at hcpl
      exact absurd ⟨hsp, hcpl⟩ h

/-- **Each token is in exactly one ubatch, and `out_ids` are the outputs in the order of the ubatches.** -/
theorem initBatch_perm {tokens : List Token} {us : List (List Nat)} {outIds : List Nat}
    (h : initBatch sp nUbatch tokens = some (us, outIds)) :
    us.flatten.Perm (List.range tokens.length) ∧
      outIds = us.flatten.filter (fun i => (Allocr.token { tokens := tokens } i).output) ∧ ∀ u ∈ us, u ≠ [] := by
  unfold initBatch at h
  dsimp only at h
  split at h
  · cases h
  · rename_i hall
    cases h
    obtain ⟨h1, h2, h3, h4, h5, h6⟩ :=
      splitLoop_spec nUbatch (tokens.length + 1) _ (Splitting.start sp tokens)
    refine ⟨?_, by rw [h5, List.nil_append], h6⟩
    rw [List.perm_ext_iff_of_nodup h3.nodup List.nodup_range]
    intro i
    rw [List.mem_range]
    refine ⟨h3.lt i, fun hi => ?_⟩
    -- as many marks as tokens, and all of them on tokens
    have hused := h1.count
    rw [h4, Finset.empty_union] at hused
    have hsub : (splitLoop sp nUbatch (tokens.length + 1) { tokens := tokens }).1.flatten.toFinset ⊆
        Finset.range tokens.length :=
      fun j hj => Finset.mem_range.mpr (h3.lt j (List.mem_toFinset.mp hj))
    have heq := Finset.eq_of_subset_of_card_le hsub (by rw [Finset.card_range, ← hused]; omega)
    rw [← List.mem_toFinset, heq]
    exact Finset.mem_range.mpr hi

end Split

end S2Moe.Batch
