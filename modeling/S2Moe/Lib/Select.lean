import Mathlib.Algebra.BigOperators.Group.Finset.Basic
import Mathlib.Data.Finset.Sort
import Mathlib.Data.List.Sort
import Mathlib.Logic.Function.Basic
import Mathlib.Tactic

/-!
# Selecting the largest

* `Before v` : larger values first, and equal ones by their index;
* `Top v n k s` : the first `k` of `n` indices in that order; `Top.unique`, `Top.insert`;
* `ranked v n` : the indices in that order; `top_ranked`;
* `reduceFrom op offset r` : the tree reduction of a block of threads; `reduceFrom_sum`, `reduceFrom_best`.
-/

namespace S2Moe.Lib

section Order
variable {κ : Type*} [LinearOrder κ] {v : Nat → κ} {a b c n k : Nat}

/-- Larger values come first, and equal ones by their index. -/
def Before (v : Nat → κ) (a b : Nat) : Prop := v b < v a ∨ v a = v b ∧ a < b

instance : Decidable (Before v a b) := inferInstanceAs (Decidable (_ ∨ _))

theorem Before.irrefl (a : Nat) : ¬ Before v a a := by
  rintro (h | ⟨-, h⟩)
  · exact lt_irrefl _ h
  · exact Nat.lt_irrefl _ h

theorem Before.trans (h : Before v a b) (h' : Before v b c) : Before v a c := by
  rcases h with h | ⟨h, hi⟩
  · rcases h' with h' | ⟨h', -⟩
    · exact .inl (h'.trans h)
    · exact .inl (h' ▸ h)
  · rcases h' with h' | ⟨h', hi'⟩
    · exact .inl (h ▸ h')
    · exact .inr ⟨h.trans h', hi.trans hi'⟩

theorem Before.asymm (h : Before v a b) : ¬ Before v b a := fun h' => Before.irrefl a (h.trans h')

theorem Before.total (h : a ≠ b) : Before v a b ∨ Before v b a := by
  rcases lt_trichotomy (v a) (v b) with hlt | heq | hgt
  · exact .inr (.inl hlt)
  · rcases Nat.lt_or_gt_of_ne h with hlt | hgt
    · exact .inl (.inr ⟨heq, hlt⟩)
    · exact .inr (.inr ⟨heq.symm, hgt⟩)
  · exact .inl (.inl hgt)

theorem not_before_iff (h : a ≠ b) : ¬ Before v b a ↔ Before v a b :=
  ⟨fun hn => (Before.total h).resolve_right hn, fun hb => hb.asymm⟩

theorem Before.congr {κ' : Type*} [LinearOrder κ'] {v' : Nat → κ'} (h : v' b < v' a ↔ v b < v a)
    (heq : v' a = v' b ↔ v a = v b) :
    Before v' a b ↔ Before v a b := by
  rw [Before, Before, h, heq]

/-- The set of the first `k` of `n` indices. -/
structure Top (v : Nat → κ) (n k : Nat) (s : Finset Nat) : Prop where
  lt : ∀ a ∈ s, a < n
  card : s.card = k
  before : ∀ a ∈ s, ∀ b < n, b ∉ s → Before v a b

theorem Top.empty : Top v n 0 ∅ := ⟨(fun _ h => by cases h), rfl, (fun _ h => by cases h)⟩

/-- There is one such set. -/
theorem Top.unique {s t : Finset Nat} (hs : Top v n k s) (ht : Top v n k t) : s = t := by
  have hsub : ∀ {s t : Finset Nat}, Top v n k s → Top v n k t → s ⊆ t := by
    intro s t hs ht a ha
    by_contra hat
    -- an index of `t` that is not in `s` comes before and behind `a`
    obtain ⟨b, hb, hbs⟩ : ∃ b ∈ t, b ∉ s := by
      by_contra hno
      have hts : t ⊆ s := fun b hb => by
        by_contra hbs
        exact hno ⟨b, hb, hbs⟩
      have heq : t = s := Finset.eq_of_subset_of_card_le hts (by rw [hs.card, ht.card])
      exact hat (heq ▸ ha)
    exact (hs.before a ha b (ht.lt b hb) hbs).asymm (ht.before b hb a (hs.lt a ha) hat)
  exact Finset.Subset.antisymm (hsub hs ht) (hsub ht hs)

/-- The first one of the others. -/
theorem Top.insert {s : Finset Nat} (hs : Top v n k s) (ha : a < n) (has : a ∉ s)
    (hfirst : ∀ b < n, b ∉ s → b ≠ a → Before v a b) : Top v n (k + 1) (Insert.insert a s) := by
  refine ⟨fun b hb => ?_, by rw [Finset.card_insert_of_notMem has, hs.card], fun b hb c hc hcs => ?_⟩
  · rcases Finset.mem_insert.mp hb with rfl | hb
    · exact ha
    · exact hs.lt b hb
  · rw [Finset.mem_insert, not_or] at hcs
    rcases Finset.mem_insert.mp hb with rfl | hb
    · exact hfirst c hc hcs.2 hcs.1
    · exact hs.before b hb c hc hcs.2

/-- The indices in order. -/
def ranked (v : Nat → κ) (n : Nat) : List Nat := (List.range n).mergeSort fun a b => !decide (Before v b a)

theorem ranked_perm : (ranked v n).Perm (List.range n) := List.mergeSort_perm _ _

theorem ranked_nodup : (ranked v n).Nodup := ranked_perm.nodup_iff.mpr List.nodup_range

theorem mem_ranked : a ∈ ranked v n ↔ a < n := by rw [ranked_perm.mem_iff, List.mem_range]

theorem length_ranked : (ranked v n).length = n := by rw [ranked_perm.length_eq, List.length_range]

theorem ranked_pairwise : (ranked v n).Pairwise (Before v) := by
  have hsorted : (ranked v n).Pairwise fun a b => (!decide (Before v b a)) = true := by
    apply List.pairwise_mergeSort
    · intro a b c hab hbc
      simp only [Bool.not_eq_true', decide_eq_false_iff_not] at hab hbc ⊢
      rcases eq_or_ne a b with rfl | hne
      · exact hbc
      · rcases eq_or_ne b c with rfl | hne'
        · exact hab
        · exact (((not_before_iff hne).mp hab).trans ((not_before_iff hne').mp hbc)).asymm
    · intro a b
      simp only [Bool.or_eq_true, Bool.not_eq_true', decide_eq_false_iff_not]
      by_cases h : Before v b a
      · exact .inr h.asymm
      · exact .inl h
  refine (hsorted.and ranked_nodup).imp fun {a b} h => ?_
  rw [Bool.not_eq_true', decide_eq_false_iff_not] at h
  exact (not_before_iff h.2).mp h.1

/-- The front of the order. -/
theorem top_ranked (hk : k ≤ n) : Top v n k ((ranked v n).take k).toFinset := by
  refine ⟨fun a ha => ?_, ?_, fun a ha b hb hbs => ?_⟩
  · rw [List.mem_toFinset] at ha
    exact mem_ranked.mp (List.mem_of_mem_take ha)
  · rw [List.toFinset_card_of_nodup (ranked_nodup.sublist (List.take_sublist _ _)), List.length_take, length_ranked]
    omega
  · rw [List.mem_toFinset] at ha hbs
    have hpair := ranked_pairwise (v := v) (n := n)
    rw [← List.take_append_drop k (ranked v n), List.pairwise_append] at hpair
    refine hpair.2.2 a ha b ?_
    have hmem : b ∈ (ranked v n).take k ++ (ranked v n).drop k := by
      rw [List.take_append_drop]
      exact mem_ranked.mpr hb
    exact (List.mem_append.mp hmem).resolve_left hbs

/-- The next one in the order is what the top set gains. -/
theorem ranked_getElem? {s : Finset Nat} (hs : Top v n k s) (has : a ∉ s) (hins : Top v n (k + 1) (Insert.insert a s)) :
    (ranked v n)[k]? = some a := by
  have hlt : k < (ranked v n).length := by
    have hcard := Finset.card_le_card fun b hb => Finset.mem_range.mpr (hins.lt b hb)
    rw [hins.card, Finset.card_range] at hcard
    rw [length_ranked]
    omega
  have hk : k < n := by rwa [length_ranked] at hlt
  have hmem : a ∈ ((ranked v n).take (k + 1)).toFinset := by
    rw [← hins.unique (top_ranked hk)]
    exact Finset.mem_insert_self _ _
  rw [hs.unique (top_ranked hk.le), List.mem_toFinset] at has
  rw [List.mem_toFinset, List.take_succ_eq_append_getElem hlt, List.mem_append, List.mem_singleton] at hmem
  rw [hmem.resolve_left has, List.getElem?_eq_getElem hlt]

end Order

/-! ## Tree reductions -/

section Reduce
variable {α : Type*}

/-- The step between two barriers: the lower half combines its values with the ones of the upper half. -/
def reduceStep (op : α → α → α) (offset : Nat) (r : Nat → α) : Nat → α :=
  fun i => if i < offset then op (r i) (r (i + offset)) else r i

/-- In whatever order the threads do it: none reads what another one writes. -/
theorem foldl_reduceStep (op : α → α → α) (offset : Nat) {threads : List Nat} (hnd : threads.Nodup) (r : Nat → α) (j : Nat) :
    threads.foldl (fun r i => if i < offset then Function.update r i (op (r i) (r (i + offset))) else r) r j =
      if j ∈ threads ∧ j < offset then op (r j) (r (j + offset)) else r j := by
  induction threads using List.reverseRecOn generalizing j with
  | nil => simp
  | append_singleton threads i ih =>
    obtain ⟨hnd', -, hdisj⟩ := List.nodup_append'.mp hnd
    have hi : i ∉ threads := fun h => hdisj h (List.mem_singleton.mpr rfl)
    rw [List.foldl_append, List.foldl_cons, List.foldl_nil]
    by_cases hlt : i < offset
    · rw [if_pos hlt]
      rcases eq_or_ne j i with rfl | hne
      · rw [Function.update_self, ih hnd', ih hnd', if_neg (fun h => hi h.1), if_neg (by omega), if_pos ⟨by simp, hlt⟩]
      · rw [Function.update_of_ne hne, ih hnd']
        exact if_congr (by simp [hne]) rfl rfl
    · rw [if_neg hlt, ih hnd']
      refine if_congr ?_ rfl rfl
      rw [List.mem_append, List.mem_singleton]
      constructor
      · exact fun h => ⟨.inl h.1, h.2⟩
      · rintro ⟨h | rfl, hj⟩
        · exact ⟨h, hj⟩
        · exact absurd hj hlt

/-- `for (offset = threads / 2; offset > 0; offset >>= 1)`. -/
def reduceFrom (op : α → α → α) (offset : Nat) (r : Nat → α) : Nat → α :=
  if offset = 0 then r else reduceFrom op (offset / 2) (reduceStep op offset r)
termination_by offset
decreasing_by omega

theorem reduceFrom_zero (op : α → α → α) (r : Nat → α) : reduceFrom op 0 r = r := by
  rw [reduceFrom, if_pos rfl]

theorem reduceFrom_two_pow (op : α → α → α) (m : Nat) (r : Nat → α) :
    reduceFrom op (2 ^ (m + 1) / 2) r = reduceFrom op (2 ^ m / 2) (reduceStep op (2 ^ m) r) := by
  rw [pow_succ, Nat.mul_div_cancel _ (by omega), reduceFrom, if_neg (by positivity)]

theorem reduceFrom_sum [AddCommMonoid α] : ∀ (m : Nat) (r : Nat → α),
    reduceFrom (· + ·) (2 ^ m / 2) r 0 = ∑ i ∈ Finset.range (2 ^ m), r i
  | 0, r => by
    rw [show 2 ^ 0 / 2 = 0 from rfl, reduceFrom_zero, pow_zero, Finset.sum_range_one]
  | m + 1, r => by
    rw [reduceFrom_two_pow, reduceFrom_sum m, pow_succ, Nat.mul_two, Finset.sum_range_add, ← Finset.sum_add_distrib]
    refine Finset.sum_congr rfl fun i hi => ?_
    rw [reduceStep, if_pos (Finset.mem_range.mp hi), Nat.add_comm i]

/-- An operation that keeps the better one of two values finds the best one. -/
theorem reduceFrom_best (op : α → α → α) (le : α → α → Prop) (htrans : ∀ x y z, le x y → le y z → le x z)
    (hrefl : ∀ x, le x x) (hop : ∀ x y, (op x y = x ∨ op x y = y) ∧ le x (op x y) ∧ le y (op x y)) :
    ∀ (m : Nat) (r : Nat → α),
    (∃ i < 2 ^ m, reduceFrom op (2 ^ m / 2) r 0 = r i) ∧ ∀ i < 2 ^ m, le (r i) (reduceFrom op (2 ^ m / 2) r 0)
  | 0, r => by
    rw [show 2 ^ 0 / 2 = 0 from rfl, reduceFrom_zero]
    refine ⟨⟨0, by omega, rfl⟩, fun i hi => ?_⟩
    obtain rfl : i = 0 := by omega
    exact hrefl _
  | m + 1, r => by
    obtain ⟨⟨i, hi, heq⟩, hall⟩ := reduceFrom_best op le htrans hrefl hop m (reduceStep op (2 ^ m) r)
    rw [reduceFrom_two_pow]
    have hpow : 2 ^ (m + 1) = 2 ^ m + 2 ^ m := by omega
    constructor
    · rw [heq, reduceStep, if_pos hi]
      rcases (hop (r i) (r (i + 2 ^ m))).1 with h | h
      · exact ⟨i, by omega, h⟩
      · exact ⟨i + 2 ^ m, by omega, h⟩
    · intro j hj
      rcases Nat.lt_or_ge j (2 ^ m) with hlt | hge
      · have hstep := hall j hlt
        rw [reduceStep, if_pos hlt] at hstep
        exact htrans _ _ _ (hop _ _).2.1 hstep
      · obtain ⟨i, rfl⟩ := Nat.exists_eq_add_of_le' hge
        have hlt : i < 2 ^ m := by omega
        have hstep := hall i hlt
        rw [reduceStep, if_pos hlt] at hstep
        exact htrans _ _ _ (hop _ _).2.2 hstep

end Reduce

end S2Moe.Lib
