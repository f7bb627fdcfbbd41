import Mathlib.Data.List.GetD
import S2Moe.Batch.Ubatch

/-!
# The order of the tokens in the ubatches

* `Share a i j` : two tokens have a sequence in common; `Before a idxs` : those that do are taken in the order of the batch;
* `Nested a` : the tokens of a sequence are in ever fewer sequences; `Closed a` : a token is only taken after all earlier ones
  of its sequences;
* `idxs_closed` : one call of a splitter takes tokens in order and stays closed; `splitLoop_before` : so do all calls;
* `emitted` : the positions of a sequence in the order of the ubatches; `Causal` : they do not decrease;
* `ubatches_causal` : a batch that `Continues` is split causally, and one with nested sets is when its positions do not
  decrease and only then.
-/

namespace S2Moe.Batch
open S2Moe.Lib

section Order
variable {a : Allocr} {nUbatch : Nat}

/-- Two tokens have a sequence in common. -/
def Share (a : Allocr) (i j : Nat) : Prop := ∃ s, s ∈ a.seqSet i ∧ s ∈ a.seqSet j

/-- Tokens with a sequence in common are taken in the order of the batch. -/
def Before (a : Allocr) (idxs : List Nat) : Prop := idxs.Pairwise fun i j => Share a i j → i < j

/-- A token is in no sequence that an earlier token of a common sequence is not in. -/
def Nested (a : Allocr) : Prop := ∀ i j, i < j → j < a.tokens.length → Share a i j → a.seqSet j ⊆ a.seqSet i

/-- The marked tokens have all earlier tokens of their sequences among them. -/
def Closed (a : Allocr) : Prop := ∀ i j, i < j → Share a i j → j ∈ a.used → i ∈ a.used

/-- A call takes tokens in order, and none without the unused earlier ones of its sequences. -/
structure Takes (a : Allocr) (idxs : List Nat) : Prop where
  before : Before a idxs
  closed : ∀ i j, i < j → Share a i j → i ∉ a.used → j ∈ idxs → i ∈ idxs

theorem Takes.nil : Takes a [] := ⟨List.Pairwise.nil, fun _ _ _ _ _ h => absurd h List.not_mem_nil⟩

theorem before_of_sorted {idxs : List Nat} (h : idxs.Pairwise (· < ·)) : Before a idxs := by
  unfold Before
  exact List.Pairwise.imp (S := fun i j => Share a i j → i < j) (fun hlt _ => hlt) h

/-! ### The splitters -/

theorem Takes.splitSimple : Takes a (a.splitSimple nUbatch) := by
  unfold Allocr.splitSimple
  cases hcur : a.firstUnused with
  | none => exact Takes.nil
  | some cur =>
      obtain ⟨-, -, hbefore⟩ := firstUnused_some hcur
      refine ⟨before_of_sorted List.pairwise_lt_range', fun i j hij _ hi hj => ?_⟩
      have hcuri : cur ≤ i := by
        by_contra hlt
        exact hi (hbefore i (by omega))
      have hjm := List.mem_range'_1.mp hj
      exact List.mem_range'_1.mpr ⟨hcuri, by omega⟩

theorem seqRun_subset (nUbatch : Nat) : ∀ (is : List Nat) (count : Nat) (s : Finset Nat),
    ∀ j ∈ a.seqRun nUbatch is count s, a.seqSet j ⊆ s
  | [], _, _, _, hj => absurd hj List.not_mem_nil
  | i :: is, count, s, j, hj => by
    rw [Allocr.seqRun] at hj
    split at hj
    · exact absurd hj List.not_mem_nil
    · split at hj
      · exact seqRun_subset nUbatch is count s j hj
      · rename_i hfree
        rw [not_or, not_not] at hfree
        rcases List.mem_cons.mp hj with rfl | hj
        · exact hfree.2
        · exact (seqRun_subset nUbatch is (count + 1) (a.seqSet i) j hj).trans hfree.2

/-- Behind the token `c` no unused token is passed over that shares a sequence with a later one that is taken. -/
theorem seqRun_closed (hnest : Nested a) : ∀ (is : List Nat) (count c : Nat), is.Pairwise (· < ·) →
    (∀ i ∈ is, c < i ∧ i < a.tokens.length) → ∀ i ∈ is, ∀ j ∈ a.seqRun nUbatch is count (a.seqSet c),
    i < j → Share a i j → i ∉ a.used → i ∈ a.seqRun nUbatch is count (a.seqSet c)
  | [], _, _, _, _, i, hi, _, _, _, _, _ => absurd hi List.not_mem_nil
  | x :: is, count, c, hpair, hlt, i, hi, j, hj, hij, hshare, hiu => by
    rw [List.pairwise_cons] at hpair
    have hlt' : ∀ k ∈ is, c < k ∧ k < a.tokens.length := fun k hk => hlt k (List.mem_cons_of_mem _ hk)
    rw [Allocr.seqRun] at hj ⊢
    split at hj
    · exact absurd hj List.not_mem_nil
    · rename_i hroom
      rw [if_neg hroom]
      by_cases hskip : x ∈ a.used ∨ ¬ a.seqSet x ⊆ a.seqSet c
      · rw [if_pos hskip] at hj ⊢
        rcases List.mem_cons.mp hi with rfl | hi
        · -- the set of `j` is inside of that of `c`, so that `i` follows `c` in a sequence
          obtain ⟨s, hsi, hsj⟩ := hshare
          have hsc := seqRun_subset nUbatch is count (a.seqSet c) j hj hsj
          have hci := hlt i List.mem_cons_self
          rcases hskip with hused | hout
          · exact absurd hused hiu
          · exact absurd (hnest c i hci.1 hci.2 ⟨s, hsc, hsi⟩) hout
        · exact seqRun_closed hnest is count c hpair.2 hlt' i hi j hj hij hshare hiu
      · rw [if_neg hskip] at hj ⊢
        rcases List.mem_cons.mp hi with rfl | hi
        · exact List.mem_cons_self
        · have hxi := hpair.1 i hi
          rcases List.mem_cons.mp hj with rfl | hj
          · omega
          · exact List.mem_cons_of_mem _ (seqRun_closed hnest is (count + 1) x hpair.2
              (fun k hk => ⟨hpair.1 k hk, (hlt' k hk).2⟩) i hi j hj hij hshare hiu)

theorem Takes.splitSeq (hnest : Nested a) : Takes a (a.splitSeq nUbatch) := by
  unfold Allocr.splitSeq
  cases hcur : a.firstUnused with
  | none => exact Takes.nil
  | some cur =>
      obtain ⟨hlt, -, hbefore⟩ := firstUnused_some hcur
      have hsub := (seqRun_spec (a := a) nUbatch (List.range' (cur + 1) (a.tokens.length - (cur + 1))) 1
        (a.seqSet cur)).1
      have hmem : ∀ i ∈ List.range' (cur + 1) (a.tokens.length - (cur + 1)), cur < i ∧ i < a.tokens.length := by
        intro i hi
        have := List.mem_range'_1.mp hi
        omega
      refine ⟨before_of_sorted (List.pairwise_cons.mpr ⟨fun i hi => (hmem i (hsub.subset hi)).1,
        List.Pairwise.sublist hsub List.pairwise_lt_range'⟩), fun i j hij hshare hiu hj => ?_⟩
      have hcuri : cur ≤ i := by
        by_contra hgt
        exact hiu (hbefore i (by omega))
      rcases Nat.eq_or_lt_of_le hcuri with rfl | hgt
      · exact List.mem_cons_self
      · rcases List.mem_cons.mp hj with rfl | hj
        · omega
        · have hjlt := (hmem j (hsub.subset hj)).2
          have hi : i ∈ List.range' (cur + 1) (a.tokens.length - (cur + 1)) :=
            List.mem_range'_1.mpr ⟨hgt, by omega⟩
          exact List.mem_cons_of_mem _
            (seqRun_closed hnest _ 1 cur List.pairwise_lt_range' hmem i hi j hj hij hshare hiu)

/-- The sets found before the token `p` are sets of tokens before it, and none of its unused tokens overlaps with none of
them. -/
structure Covers (a : Allocr) (p : Nat) (sets : List (Finset Nat)) : Prop where
  source : ∀ s ∈ sets, ∃ k < p, a.seqSet k = s
  covered : ∀ i < p, i ∉ a.used → ∃ m ≤ i, a.seqSet m ∈ sets ∧ ¬ Disjoint (a.seqSet m) (a.seqSet i)

theorem Token.seqSet_not_disjoint (i : Nat) : ¬ Disjoint (a.seqSet i) (a.seqSet i) := by
  rw [disjoint_self]
  exact Token.seqSet_ne_empty _

theorem Covers.used {p : Nat} {sets : List (Finset Nat)} (h : Covers a p sets) (hp : p ∈ a.used) :
    Covers a (p + 1) sets := by
  refine ⟨fun s hs => ?_, fun i hi hiu => ?_⟩
  · obtain ⟨k, hk, hs⟩ := h.source s hs
    exact ⟨k, by omega, hs⟩
  · rcases Nat.lt_succ_iff_lt_or_eq.mp hi with hi | rfl
    · exact h.covered i hi hiu
    · exact absurd hp hiu

theorem Covers.add {p : Nat} {sets : List (Finset Nat)} (h : Covers a p sets) :
    Covers a (p + 1) (sets ++ [a.seqSet p]) := by
  refine ⟨fun s hs => ?_, fun i hi hiu => ?_⟩
  · rcases List.mem_append.mp hs with hs | hs
    · obtain ⟨k, hk, hs⟩ := h.source s hs
      exact ⟨k, by omega, hs⟩
    · exact ⟨p, Nat.lt_succ_self p, (List.mem_singleton.mp hs).symm⟩
  · rcases Nat.lt_succ_iff_lt_or_eq.mp hi with hi | rfl
    · obtain ⟨m, hm, hmem, hover⟩ := h.covered i hi hiu
      exact ⟨m, hm, List.mem_append_left _ hmem, hover⟩
    · exact ⟨i, le_rfl, List.mem_append_right _ (List.mem_singleton.mpr rfl), Token.seqSet_not_disjoint i⟩

theorem Covers.skip {p : Nat} {sets : List (Finset Nat)} (h : Covers a p sets)
    (hover : ¬ ∀ s ∈ sets, s ∩ a.seqSet p = ∅) : Covers a (p + 1) sets := by
  refine ⟨fun s hs => ?_, fun i hi hiu => ?_⟩
  · obtain ⟨k, hk, hs⟩ := h.source s hs
    exact ⟨k, by omega, hs⟩
  · rcases Nat.lt_succ_iff_lt_or_eq.mp hi with hi | rfl
    · exact h.covered i hi hiu
    · push Not at hover
      obtain ⟨s, hs, hne⟩ := hover
      obtain ⟨k, hk, rfl⟩ := h.source s hs
      refine ⟨k, hk.le, hs, fun hdisj => ?_⟩
      rw [Finset.disjoint_iff_inter_eq_empty.mp hdisj] at hne
      exact Finset.not_nonempty_empty hne

/-- Each set that is found is that of a token before which every unused token overlaps with some set. -/
theorem pickSets_covers (nUbatch : Nat) : ∀ (q p : Nat) (sets : List (Finset Nat)) (last : Nat), Covers a p sets →
    (∀ s ∈ sets, s ∈ a.pickSets nUbatch false (List.range' p q) sets last) ∧
      ∀ s ∈ a.pickSets nUbatch false (List.range' p q) sets last, s ∈ sets ∨
        ∃ k ≥ p, a.seqSet k = s ∧ ∀ i < k, i ∉ a.used →
          ∃ m ≤ i, a.seqSet m ∈ a.pickSets nUbatch false (List.range' p q) sets last ∧
            ¬ Disjoint (a.seqSet m) (a.seqSet i)
  | 0, p, sets, last, _ => ⟨fun _ hs => hs, fun _ hs => .inl hs⟩
  | q + 1, p, sets, last, h => by
    have hlater : ∀ {sets' : List (Finset Nat)} {last' : Nat}, Covers a (p + 1) sets' → (∀ s ∈ sets, s ∈ sets') →
        (∀ s ∈ sets', s ∈ sets ∨ s = a.seqSet p) →
        (∀ s ∈ sets, s ∈ a.pickSets nUbatch false (List.range' (p + 1) q) sets' last') ∧
          ∀ s ∈ a.pickSets nUbatch false (List.range' (p + 1) q) sets' last', s ∈ sets ∨
            ∃ k ≥ p, a.seqSet k = s ∧ ∀ i < k, i ∉ a.used →
              ∃ m ≤ i, a.seqSet m ∈ a.pickSets nUbatch false (List.range' (p + 1) q) sets' last' ∧
                ¬ Disjoint (a.seqSet m) (a.seqSet i) := by
      intro sets' last' hcov hsub hsup
      obtain ⟨hkeep, hfound⟩ := pickSets_covers nUbatch q (p + 1) sets' last' hcov
      refine ⟨fun s hs => hkeep s (hsub s hs), fun s hs => ?_⟩
      rcases hfound s hs with hs | ⟨k, hk, hset, hcov'⟩
      · rcases hsup s hs with hs | rfl
        · exact .inl hs
        · refine .inr ⟨p, le_rfl, rfl, fun i hi hiu => ?_⟩
          obtain ⟨m, hm, hmem, hover⟩ := h.covered i hi hiu
          exact ⟨m, hm, hkeep _ (hsub _ hmem), hover⟩
      · exact .inr ⟨k, by omega, hset, hcov'⟩
    rw [List.range'_succ, Allocr.pickSets]
    split
    · rename_i hused
      exact hlater (h.used hused) (fun _ hs => hs) fun _ hs => .inl hs
    · split
      · have hadd : ∀ s ∈ sets ++ [a.seqSet p], s ∈ sets ∨ s = a.seqSet p := fun s hs =>
          (List.mem_append.mp hs).imp id List.mem_singleton.mp
        split
        · refine ⟨fun s hs => List.mem_append_left _ hs, fun s hs => ?_⟩
          rcases hadd s hs with hs | rfl
          · exact .inl hs
          · refine .inr ⟨p, le_rfl, rfl, fun i hi hiu => ?_⟩
            obtain ⟨m, hm, hmem, hover⟩ := h.covered i hi hiu
            exact ⟨m, hm, List.mem_append_left _ hmem, hover⟩
        · exact hlater h.add (fun s hs => List.mem_append_left _ hs) hadd
      · rename_i hover
        refine hlater (h.skip fun hc => hover ⟨hc, fun hseq => (by cases hseq)⟩) (fun _ hs => hs) fun _ hs => .inl hs

/-- Without coupled sequences a token is in its first sequence only. -/
theorem seqSet_of_not_cpl (h : a.hasCpl = false) {i : Nat} (hi : i < a.tokens.length) :
    a.seqSet i = {(a.token i).first} := by
  have hmem : a.token i ∈ a.tokens := by
    unfold Allocr.token
    rw [List.getD_eq_getElem _ _ hi]
    exact List.getElem_mem hi
  have hothers : (a.token i).others = [] := by
    by_contra hne
    have hany := List.any_eq_false.mp h _ hmem
    exact hany (decide_eq_true hne)
  unfold Allocr.seqSet Token.seqSet Token.ids
  rw [hothers]
  rfl

/-- The set of a token that is taken is that of each unused token before it which shares a sequence with it. -/
theorem seqSet_eq_of_taken (hnest : Nested a) (nUbatch : Nat) {sequential : Bool} (hcpl : ¬ (sequential && a.hasCpl) = true)
    {i j : Nat} (hij : i < j) (hj : j < a.tokens.length) (hshare : Share a i j) (hiu : i ∉ a.used)
    (hset : a.seqSet j ∈ a.pickSets nUbatch sequential (List.range a.tokens.length) [] 0) :
    a.seqSet i = a.seqSet j := by
  have hji := hnest i j hij hj hshare
  cases sequential with
  | true =>
      have hfree : a.hasCpl = false := by simpa using hcpl
      obtain ⟨s, hsi, hsj⟩ := hshare
      rw [seqSet_of_not_cpl hfree (hij.trans hj), Finset.mem_singleton] at hsi
      rw [seqSet_of_not_cpl hfree hj, Finset.mem_singleton] at hsj
      rw [seqSet_of_not_cpl hfree (hij.trans hj), seqSet_of_not_cpl hfree hj, ← hsi, hsj]
  | false =>
      rw [List.range_eq_range'] at hset
      have hpair := (pickSets_spec (a := a) nUbatch false (List.range' 0 a.tokens.length) [] 0
        List.Pairwise.nil (fun s hs => absurd hs List.not_mem_nil)
        (fun k hk => by have := List.mem_range'_1.mp hk; omega)).1
      obtain ⟨-, hfound⟩ := pickSets_covers (a := a) nUbatch a.tokens.length 0 [] 0
        ⟨fun s hs => absurd hs List.not_mem_nil, fun i hi => absurd hi (Nat.not_lt_zero i)⟩
      have : Std.Symm fun s t : Finset Nat => s ∩ t = ∅ := ⟨fun s t h => (Finset.inter_comm t s).trans h⟩
      rcases hfound _ hset with hnil | ⟨k, -, hk, hcov⟩
      · exact absurd hnil List.not_mem_nil
      · rcases Nat.lt_trichotomy k i with hki | rfl | hik
        · -- `i` comes after a token with the set of `j`
          obtain ⟨s, hsi, hsj⟩ := hshare
          have hik := hnest k i hki (hij.trans hj) ⟨s, by rw [hk]; exact hsj, hsi⟩
          rw [hk] at hik
          exact Finset.Subset.antisymm hik hji
        · exact hk
        · -- a set found up to `i` overlaps with that of `i`, and so it is that of `j`
          obtain ⟨m, hm, hmem, hover⟩ := hcov i hik hiu
          obtain ⟨t, htm, hti⟩ := Finset.not_disjoint_iff.mp hover
          obtain ⟨s, hsi, hsj⟩ := hshare
          have him : a.seqSet i ⊆ a.seqSet m := by
            rcases Nat.eq_or_lt_of_le hm with rfl | hlt
            · exact subset_rfl
            · exact hnest m i hlt (hij.trans hj) ⟨t, htm, hti⟩
          have hmj : a.seqSet m = a.seqSet j := by
            by_contra hne
            have hdisj := hpair.forall hmem hset hne
            exact Finset.notMem_empty s (hdisj ▸ Finset.mem_inter.mpr ⟨him hsi, hsj⟩)
          rw [hmj] at him
          exact Finset.Subset.antisymm him hji

theorem Takes.splitEqual (hnest : Nested a) (hord : InOrder a) (sequential : Bool) :
    Takes a (a.splitEqual nUbatch sequential) := by
  unfold Allocr.splitEqual
  split
  · exact Takes.nil
  · rename_i hcpl
    dsimp only
    obtain ⟨hfresh, -, hclosed⟩ := equalLists_spec nUbatch hord sequential
      (m := Allocr.rounds nUbatch (a.equalLists nUbatch sequential) a.tokens.length 0)
    have hsets : ∀ j ∈ ((a.equalLists nUbatch sequential).map
        (List.take (Allocr.rounds nUbatch (a.equalLists nUbatch sequential) a.tokens.length 0))).flatten,
        a.seqSet j ∈ a.pickSets nUbatch sequential (List.range a.tokens.length) [] 0 := by
      intro j hj
      obtain ⟨l, hl, hjl⟩ := List.mem_flatten.mp hj
      obtain ⟨l', hl', rfl⟩ := List.mem_map.mp hl
      obtain ⟨s, hs, rfl⟩ := List.mem_map.mp hl'
      rw [(members_sub (List.mem_of_mem_take hjl)).2]
      exact hs
    refine ⟨?_, fun i j hij hshare hiu hj => ?_⟩
    · have hpair := (pickSets_spec (a := a) nUbatch sequential (List.range a.tokens.length) [] 0
        List.Pairwise.nil (fun s hs => absurd hs List.not_mem_nil) (fun i hi => List.mem_range.mp hi)).1
      unfold Before Allocr.equalLists
      rw [List.map_map, List.pairwise_flatten]
      constructor
      · intro l hl
        obtain ⟨s, -, rfl⟩ := List.mem_map.mp hl
        exact before_of_sorted ((members_pairwise s).sublist (List.take_sublist _ _))
      · rw [List.pairwise_map]
        refine hpair.imp fun {s t} hst i hi j hj hshare => ?_
        obtain ⟨r, hri, hrj⟩ := hshare
        rw [(members_sub (List.mem_of_mem_take hi)).2] at hri
        rw [(members_sub (List.mem_of_mem_take hj)).2] at hrj
        exact absurd (hst ▸ Finset.mem_inter.mpr ⟨hri, hrj⟩) (Finset.notMem_empty r)
    · exact hclosed i j hij (seqSet_eq_of_taken hnest nUbatch hcpl hij (hfresh.lt j hj) hshare hiu (hsets j hj)) hiu hj

/-! ### All calls -/

variable {sp : Splitter}

/-- A simple splitter needs nothing of the sets. -/
theorem Splitting.takes (h : Splitting sp a) (hnest : sp = .simple ∨ Nested a) : Takes a (sp.idxs nUbatch a) := by
  cases hsp : sp with
  | simple => exact Takes.splitSimple
  | equal sequential =>
      subst hsp
      exact Takes.splitEqual (hnest.resolve_left (by simp)) (h.equal sequential rfl) sequential
  | seq =>
      subst hsp
      exact Takes.splitSeq (hnest.resolve_left (by simp))

/-- All ubatches together keep tokens that share a sequence in the order of the batch. -/
theorem splitLoop_before : ∀ (fuel : Nat) (a : Allocr), Splitting sp a → (sp = .simple ∨ Nested a) →
    Before a (splitLoop sp nUbatch fuel a).1.flatten
  | 0, _, _, _ => List.Pairwise.nil
  | fuel + 1, a, h, hnest => by
    rw [splitLoop]
    split
    · exact List.Pairwise.nil
    · have ht : Takes a (sp.idxs nUbatch a) := h.takes hnest
      have hnext := h.take nUbatch
      obtain ⟨-, -, hfresh, -⟩ := splitLoop_spec nUbatch fuel _ hnext
      dsimp only
      rw [List.flatten_cons]
      refine List.pairwise_append.mpr ⟨ht.before, splitLoop_before fuel _ hnext hnest, fun i hi j hj hshare => ?_⟩
      have hjfree : j ∉ a.used ∪ (sp.idxs nUbatch a).toFinset := hfresh.unused j hj
      rw [Finset.mem_union, not_or, List.mem_toFinset] at hjfree
      rcases Nat.lt_trichotomy i j with hij | rfl | hji
      · exact hij
      · exact absurd hi hjfree.2
      · obtain ⟨s, hsi, hsj⟩ := hshare
        exact absurd (ht.closed j i hji ⟨s, hsj, hsi⟩ hjfree.1 hi) hjfree.2

end Order

/-! ## Accepted batches -/

section Accepted
variable {nVocab nSeqMax nUbatch : Nat} {memory : Option Positions} {outputAll : Bool} {b : Input} {a : Allocr}

theorem token_eq_getElem {i : Nat} (hi : i < a.tokens.length) : a.token i = a.tokens[i] := by
  unfold Allocr.token
  exact List.getD_eq_getElem _ _ hi

theorem nested_of_chain (h : ∀ s, ((carriers a.tokens s).map Token.seqSet).Pairwise (· ⊇ ·)) : Nested a := by
  intro i j hij hj hshare
  obtain ⟨s, hsi, hsj⟩ := hshare
  have hs := h s
  unfold carriers at hs
  rw [List.pairwise_map, List.pairwise_filter, List.pairwise_iff_getElem] at hs
  unfold Allocr.seqSet at hsi hsj ⊢
  rw [token_eq_getElem (hij.trans hj)] at hsi ⊢
  rw [token_eq_getElem hj] at hsj ⊢
  exact hs i j (hij.trans hj) hj hij (decide_eq_true (List.mem_toFinset.mp hsi)) (decide_eq_true (List.mem_toFinset.mp hsj))

/-- The positions of a sequence, ubatch after ubatch. -/
def emitted (a : Allocr) (us : List Ubatch) (s : Nat) : List Int :=
  ((us.flatMap Ubatch.idx).filter fun i => decide (s ∈ (a.token i).ids)).map fun i => (a.token i).pos

/-- The positions of a sequence do not decrease, so that all tokens of smaller positions are there when a token is
processed. -/
structure Causal (a : Allocr) (us : List Ubatch) : Prop where
  nondecreasing : ∀ s, (emitted a us s).Pairwise (· ≤ ·)
  earlier : ∀ before u after, us = before ++ u :: after → ∀ j ∈ u.idx, ∀ i < a.tokens.length, Share a i j →
    (a.token i).pos < (a.token j).pos → i ∈ (before ++ [u]).flatMap Ubatch.idx

theorem seqPos_eq (s : Nat) : seqPos a.tokens s =
    ((List.range a.tokens.length).filter fun i => decide (s ∈ (a.token i).ids)).map fun i => (a.token i).pos := by
  have htokens : a.tokens = (List.range a.tokens.length).map a.token := by
    refine List.ext_getElem (by simp) fun i hi _ => ?_
    rw [List.getElem_map, List.getElem_range, token_eq_getElem hi]
  unfold seqPos carriers
  conv_lhs => rw [htokens, List.filter_map, List.map_map]
  rfl

/-- When tokens that share a sequence keep their order, the ubatches show the positions of the batch. -/
theorem emitted_eq {us : List Ubatch} (hperm : (us.flatMap Ubatch.idx).Perm (List.range a.tokens.length))
    (hbefore : Before a (us.flatMap Ubatch.idx)) (s : Nat) : emitted a us s = seqPos a.tokens s := by
  have hleft : ((us.flatMap Ubatch.idx).filter fun i => decide (s ∈ (a.token i).ids)).Pairwise (· < ·) := by
    rw [List.pairwise_filter]
    exact hbefore.imp fun h hi hj => h ⟨s, List.mem_toFinset.mpr (of_decide_eq_true hi),
      List.mem_toFinset.mpr (of_decide_eq_true hj)⟩
  have hright : ((List.range a.tokens.length).filter fun i => decide (s ∈ (a.token i).ids)).Pairwise (· < ·) :=
    List.pairwise_lt_range.filter _
  rw [seqPos_eq]
  refine congrArg (List.map _) ((hperm.filter _).eq_of_pairwise (fun i j _ _ hij hji => ?_) hleft hright)
  exact absurd hij (not_lt.mpr hji.le)

theorem causal_iff {us : List Ubatch} (hperm : us = [] ∨ (us.flatMap Ubatch.idx).Perm (List.range a.tokens.length)) :
    Causal a us ↔ ∀ s, (emitted a us s).Pairwise (· ≤ ·) := by
  refine ⟨fun h => h.nondecreasing, fun h => ⟨h, fun before u after hus j hj i hi hshare hpos => ?_⟩⟩
  rcases hperm with rfl | hperm
  · exact absurd hus (by simp)
  · have hin : i ∈ us.flatMap Ubatch.idx := hperm.mem_iff.mpr (List.mem_range.mpr hi)
    have hsplit : us.flatMap Ubatch.idx = (before ++ [u]).flatMap Ubatch.idx ++ after.flatMap Ubatch.idx := by
      rw [hus, ← List.flatMap_append, List.append_assoc]
      rfl
    rw [hsplit] at hin
    rcases List.mem_append.mp hin with hin | hin
    · exact hin
    · -- `i` would come after `j`, which has the larger position
      obtain ⟨s, hsi, hsj⟩ := hshare
      have hs := h s
      unfold emitted at hs
      rw [hsplit, List.filter_append, List.map_append, List.pairwise_append] at hs
      have hju : j ∈ (before ++ [u]).flatMap Ubatch.idx :=
        List.mem_flatMap.mpr ⟨u, List.mem_append_right _ (List.mem_singleton.mpr rfl), hj⟩
      have hle := hs.2.2 _ (List.mem_map_of_mem (List.mem_filter.mpr
          ⟨hju, decide_eq_true (List.mem_toFinset.mp hsj)⟩))
        _ (List.mem_map_of_mem (List.mem_filter.mpr ⟨hin, decide_eq_true (List.mem_toFinset.mp hsi)⟩))
      omega

end Accepted

/-- The middle token is also one of sequence 1. -/
def detour : Input :=
  { nTokens := 3, token := some fun _ => 0, seqId := some fun i => [[0], [0, 1], [0]].getD i [] }

end S2Moe.Batch
