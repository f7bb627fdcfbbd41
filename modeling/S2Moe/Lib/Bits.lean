import Mathlib

/-!
# Rows of words as sets of numbers

Number `i` is in the set when bit `i % w` of word `i / w` is set; words behind the row count as zero.

* `bitOf`, `denote` : the set;
* `zipWords` : an operation on two rows that goes along the first, and does not return when the second is shorter;
* `denote_or`, `denote_andNot` : union and difference, with the condition under which the first is one;
* `sum_popCount` : the number of elements;
* `clearLowest` : `v & (v - 1)` takes away the lowest bit; `setBits` : the loop that takes a word apart.
-/

namespace S2Moe.Lib

variable {w : Nat}

/-! ## The set of a row -/

section Denote

def bitOf (ws : List (BitVec w)) (i : Nat) : Bool := (ws.getD (i / w) 0#w).getLsbD (i % w)

def denote (ws : List (BitVec w)) : Finset Nat := (Finset.range (w * ws.length)).filter fun i => bitOf ws i

theorem lt_of_bitOf {ws : List (BitVec w)} {i : Nat} (hw : 0 < w) (h : bitOf ws i = true) : i < w * ws.length := by
  by_contra hge
  have hlen : ws.length ≤ i / w := by
    rw [Nat.le_div_iff_mul_le hw, Nat.mul_comm]
    omega
  rw [bitOf, List.getD_eq_getElem?_getD, List.getElem?_eq_none hlen] at h
  simp at h

theorem mem_denote {ws : List (BitVec w)} {i : Nat} (hw : 0 < w) : i ∈ denote ws ↔ bitOf ws i = true := by
  rw [denote, Finset.mem_filter, Finset.mem_range]
  exact and_iff_right_of_imp fun h => lt_of_bitOf hw h

theorem bitOf_replicate (n i : Nat) : bitOf (List.replicate n 0#w) i = false := by
  rw [bitOf, List.getD_eq_getElem?_getD, List.getElem?_replicate]
  split <;> simp

theorem denote_replicate (n : Nat) : denote (List.replicate n 0#w) = ∅ := by
  simp [denote, bitOf_replicate]

/-- More words of zeros. -/
theorem bitOf_append_replicate (ws : List (BitVec w)) (n i : Nat) : bitOf (ws ++ List.replicate n 0#w) i = bitOf ws i := by
  rw [bitOf, bitOf, List.getD_eq_getElem?_getD, List.getD_eq_getElem?_getD]
  rcases Nat.lt_or_ge (i / w) ws.length with h | h
  · rw [List.getElem?_append_left h]
  · rw [List.getElem?_append_right h, List.getElem?_eq_none h, List.getElem?_replicate]
    split <;> rfl

/-- Setting a bit of a word that is there. -/
theorem bitOf_set {ws : List (BitVec w)} {id : Nat} (hw : 0 < w) (hlen : id / w < ws.length) (i : Nat) :
    bitOf (ws.set (id / w) (ws.getD (id / w) 0#w ||| 1#w <<< (id % w))) i = (bitOf ws i || decide (i = id)) := by
  have hmod : i % w < w := Nat.mod_lt _ hw
  have hmod' : id % w < w := Nat.mod_lt _ hw
  rw [bitOf, bitOf, List.getD_eq_getElem?_getD (l := ws.set _ _), List.getElem?_set]
  by_cases hword : id / w = i / w
  · rw [if_pos hword, if_pos hlen, Option.getD_some, BitVec.getLsbD_or, hword]
    congr 1
    rw [BitVec.getLsbD_shiftLeft, BitVec.getLsbD_one]
    have hiff : i % w = id % w ↔ i = id := by
      constructor
      · intro h
        rw [← Nat.div_add_mod i w, ← Nat.div_add_mod id w, hword, h]
      · rintro rfl
        rfl
    by_cases heq : i = id
    · subst heq
      simp [hmod]
      omega
    · have hne : i % w ≠ id % w := fun h => heq (hiff.mp h)
      simp only [heq, decide_false]
      by_cases hlt : i % w < id % w
      · simp [hlt]
      · have : i % w - id % w ≠ 0 := by omega
        simp [this]
  · have hne : i ≠ id := by
      rintro rfl
      exact hword rfl
    rw [if_neg hword, ← List.getD_eq_getElem?_getD]
    simp [hne]

end Denote

/-! ## Two rows -/

section Zip

def zipWords (f : BitVec w → BitVec w → BitVec w) : List (BitVec w) → List (BitVec w) → Option (List (BitVec w))
  | [], _ => some []
  | _ :: _, [] => none
  | v :: vs, u :: us => (zipWords f vs us).map (f v u :: ·)

theorem zipWords_eq (f : BitVec w → BitVec w → BitVec w) : ∀ vs us : List (BitVec w),
    zipWords f vs us = if vs.length ≤ us.length then some (List.zipWith f vs us) else none
  | [], us => by simp [zipWords]
  | v :: vs, [] => by simp [zipWords]
  | v :: vs, u :: us => by
    rw [zipWords, zipWords_eq f vs us]
    by_cases h : vs.length ≤ us.length
    · rw [if_pos h, if_pos (by simpa using h)]
      rfl
    · rw [if_neg h, if_neg (by simpa using h)]
      rfl

variable {vs us : List (BitVec w)}

theorem bitOf_zipWith {f : BitVec w → BitVec w → BitVec w} (hlen : vs.length ≤ us.length) (i : Nat) :
    bitOf (List.zipWith f vs us) i =
      if i / w < vs.length then (f (vs.getD (i / w) 0#w) (us.getD (i / w) 0#w)).getLsbD (i % w) else false := by
  rw [bitOf, List.getD_eq_getElem?_getD]
  split
  · rename_i h
    rw [List.getElem?_eq_getElem (by rw [List.length_zipWith]; omega), List.getElem_zipWith,
      List.getD_eq_getElem?_getD, List.getD_eq_getElem?_getD, List.getElem?_eq_getElem h,
      List.getElem?_eq_getElem (Nat.lt_of_lt_of_le h hlen)]
    rfl
  · rename_i h
    rw [List.getElem?_eq_none (by rw [List.length_zipWith]; omega)]
    simp

theorem div_lt_length (hw : 0 < w) {i : Nat} : i / w < vs.length ↔ i < w * vs.length := by
  rw [Nat.div_lt_iff_lt_mul hw, Nat.mul_comm]

/-- What the first row has no room for is lost. -/
theorem mem_denote_or (hw : 0 < w) (hlen : vs.length ≤ us.length) {i : Nat} :
    i ∈ denote (List.zipWith (· ||| ·) vs us) ↔ i ∈ denote vs ∨ (i ∈ denote us ∧ i < w * vs.length) := by
  rw [mem_denote hw, mem_denote hw, mem_denote hw, bitOf_zipWith hlen, ← div_lt_length hw]
  by_cases h : i / w < vs.length
  · rw [if_pos h]
    simp [bitOf, h]
  · have hno : ¬ bitOf vs i = true := fun hi => h ((div_lt_length hw).mpr (lt_of_bitOf hw hi))
    rw [if_neg h]
    simp [h, hno]

theorem denote_or_eq_iff (hw : 0 < w) (hlen : vs.length ≤ us.length) :
    denote (List.zipWith (· ||| ·) vs us) = denote vs ∪ denote us ↔ ∀ i ∈ denote us, i < w * vs.length := by
  constructor
  · intro h i hi
    have hmem : i ∈ denote (List.zipWith (· ||| ·) vs us) := by
      rw [h]
      exact Finset.mem_union_right _ hi
    rcases (mem_denote_or hw hlen).mp hmem with hi' | ⟨_, hlt⟩
    · exact lt_of_bitOf hw ((mem_denote hw).mp hi')
    · exact hlt
  · intro h
    ext i
    rw [mem_denote_or hw hlen, Finset.mem_union]
    exact or_congr Iff.rfl (and_iff_left_of_imp (h i))

theorem denote_andNot (hw : 0 < w) (hlen : vs.length ≤ us.length) :
    denote (List.zipWith (fun v u => v &&& ~~~u) vs us) = denote vs \ denote us := by
  ext i
  rw [Finset.mem_sdiff, mem_denote hw, mem_denote hw, mem_denote hw, bitOf_zipWith hlen]
  have hmod : i % w < w := Nat.mod_lt _ hw
  by_cases h : i / w < vs.length
  · rw [if_pos h]
    simp [bitOf, hmod]
  · have hno : ¬ bitOf vs i = true := fun hi => h ((div_lt_length hw).mpr (lt_of_bitOf hw hi))
    rw [if_neg h]
    simp [hno]

end Zip

/-! ## The number of elements -/

section Count

/-- The number of set bits. -/
def popCount (v : BitVec w) : Nat := v.cpopNatRec w 0

theorem popCount_eq_card (v : BitVec w) : popCount v = ((Finset.range w).filter fun i => v.getLsbD i).card := by
  have hrec : ∀ n, v.cpopNatRec n 0 = ((Finset.range n).filter fun i => v.getLsbD i).card := by
    intro n
    induction n with
    | zero => simp
    | succ n ih =>
        rw [BitVec.cpopNatRec_succ, BitVec.cpopNatRec_add, ih, Finset.range_add_one, Finset.filter_insert]
        cases h : v.getLsbD n
        · simp
        · simp [Finset.card_insert_of_notMem]
  exact hrec w

theorem bitOf_cons {v : BitVec w} {vs : List (BitVec w)} (hw : 0 < w) (i : Nat) :
    bitOf (v :: vs) i = if i < w then v.getLsbD i else bitOf vs (i - w) := by
  split
  · rename_i h
    rw [bitOf, Nat.div_eq_of_lt h, Nat.mod_eq_of_lt h]
    rfl
  · rename_i h
    obtain ⟨j, rfl⟩ := Nat.exists_eq_add_of_le (Nat.le_of_not_lt h)
    rw [bitOf, bitOf, Nat.add_sub_cancel_left, Nat.add_div_left j hw, Nat.add_mod_left]
    rfl

theorem denote_cons (hw : 0 < w) (v : BitVec w) (vs : List (BitVec w)) :
    denote (v :: vs) = ((Finset.range w).filter fun i => v.getLsbD i) ∪ (denote vs).map (addLeftEmbedding w) := by
  ext i
  rw [mem_denote hw, bitOf_cons hw, Finset.mem_union, Finset.mem_filter, Finset.mem_range, Finset.mem_map]
  split
  · rename_i h
    constructor
    · exact fun hv => .inl ⟨h, hv⟩
    · rintro (⟨_, hv⟩ | ⟨j, _, rfl⟩)
      · exact hv
      · exact absurd h (by simp)
  · rename_i h
    constructor
    · intro hv
      exact .inr ⟨i - w, (mem_denote hw).mpr hv, by show w + (i - w) = i; omega⟩
    · rintro (⟨hlt, _⟩ | ⟨j, hj, rfl⟩)
      · exact absurd hlt h
      · rw [show (addLeftEmbedding w) j - w = j by show w + j - w = j; omega]
        exact (mem_denote hw).mp hj

theorem sum_popCount (hw : 0 < w) : ∀ ws : List (BitVec w), (ws.map popCount).sum = (denote ws).card
  | [] => by simp [denote]
  | v :: vs => by
    rw [List.map_cons, List.sum_cons, sum_popCount hw vs, popCount_eq_card, denote_cons hw, Finset.card_union_of_disjoint,
      Finset.card_map]
    rw [Finset.disjoint_left]
    intro i hi hi'
    obtain ⟨j, _, rfl⟩ := Finset.mem_map.mp hi'
    exact absurd (Finset.mem_range.mp (Finset.mem_filter.mp hi).1) (by simp)

end Count

/-! ## Taking a word apart -/

section SetBits

/-- The bits of a number behind its lowest one. -/
theorem testBit_and_pred {x k i : Nat} (hlow : ∀ j < k, x.testBit j = false) (hk : x.testBit k = true) :
    (x &&& (x - 1)).testBit i = (x.testBit i && decide (i ≠ k)) := by
  have hdvd : 2 ^ k * (x / 2 ^ k) = x := by
    have hmod : x % 2 ^ k = 0 := by
      apply Nat.eq_of_testBit_eq
      intro j
      rw [Nat.testBit_mod_two_pow, Nat.zero_testBit]
      by_cases hj : j < k
      · simp [hlow j hj]
      · simp [hj]
    have := Nat.div_add_mod x (2 ^ k)
    omega
  have hodd : (x / 2 ^ k) % 2 = 1 := by
    have hbit : (x / 2 ^ k).testBit 0 = true := by
      rw [Nat.testBit_div_two_pow, Nat.zero_add]
      exact hk
    simpa [Nat.testBit_zero] using hbit
  obtain ⟨m, hm⟩ : ∃ m, x / 2 ^ k = 2 * m + 1 := ⟨x / 2 ^ k / 2, by omega⟩
  have hx : x = 2 ^ k * (2 * m + 1) := by rw [← hm, hdvd]
  have hpos : 0 < 2 ^ k := Nat.two_pow_pos k
  have hpred : x - 1 = 2 ^ k * (2 * m) + (2 ^ k - 1) := by
    rw [hx, Nat.mul_add, Nat.mul_one]
    omega
  rw [Nat.testBit_and]
  rcases Nat.lt_trichotomy i k with hik | rfl | hik
  · simp [hlow i hik]
  · have hbit : (x - 1).testBit i = false := by
      rw [hpred, Nat.testBit_two_pow_mul_add _ (by omega), if_neg (by omega), Nat.sub_self]
      simp [Nat.testBit_zero]
    simp [hbit]
  · have hbit : (x - 1).testBit i = x.testBit i := by
      rw [hpred, Nat.testBit_two_pow_mul_add _ (by omega), if_neg (by omega)]
      rw [hx, Nat.testBit_two_pow_mul, decide_eq_true hik.le, Bool.true_and]
      obtain ⟨d, hd⟩ : ∃ d, i - k = d + 1 := ⟨i - k - 1, by omega⟩
      rw [hd, Nat.testBit_succ, Nat.testBit_succ]
      congr 1
      omega
    rw [hbit, Bool.and_self, decide_eq_true (by omega), Bool.and_true]

/-- `v & (v - 1)`. -/
def clearLowest (v : BitVec w) : BitVec w := v &&& (v - 1#w)

theorem getLsbD_clearLowest {v : BitVec w} (hv : v ≠ 0#w) (i : Nat) :
    (clearLowest v).getLsbD i = (v.getLsbD i && decide (i ≠ v.ctz.toNat)) := by
  have hpos : 0 < v.toNat := by
    rw [Nat.pos_iff_ne_zero]
    intro h
    exact hv (BitVec.eq_of_toNat_eq (by simpa using h))
  have hw : 1 < 2 ^ w := Nat.lt_of_le_of_lt hpos v.isLt
  have hsub : (v - 1#w).toNat = v.toNat - 1 := by
    rw [BitVec.toNat_sub, BitVec.toNat_ofNat, Nat.mod_eq_of_lt hw]
    have hlt := v.isLt
    rw [show 2 ^ w - 1 + v.toNat = v.toNat - 1 + 2 ^ w by omega, Nat.add_mod_right, Nat.mod_eq_of_lt (by omega)]
  show (v &&& (v - 1#w)).toNat.testBit i = _
  rw [BitVec.toNat_and, hsub]
  exact testBit_and_pred (fun j hj => BitVec.getLsbD_false_of_lt_ctz hj) (BitVec.getLsbD_true_ctz_of_ne_zero hv)

/-- The lowest bit, again and again, until none is left. -/
def setBits : Nat → BitVec w → List Nat
  | 0, _ => []
  | fuel + 1, v => if v = 0#w then [] else v.ctz.toNat :: setBits fuel (clearLowest v)

theorem popCount_clearLowest {v : BitVec w} (hv : v ≠ 0#w) : popCount (clearLowest v) + 1 = popCount v := by
  have hbit := BitVec.getLsbD_true_ctz_of_ne_zero hv
  have hmem : v.ctz.toNat ∈ (Finset.range w).filter fun i => v.getLsbD i := by
    rw [Finset.mem_filter, Finset.mem_range]
    exact ⟨BitVec.lt_of_getLsbD hbit, hbit⟩
  have herase : ((Finset.range w).filter fun i => (clearLowest v).getLsbD i) =
      ((Finset.range w).filter fun i => v.getLsbD i).erase v.ctz.toNat := by
    ext i
    rw [Finset.mem_erase, Finset.mem_filter, Finset.mem_filter, getLsbD_clearLowest hv]
    simp only [Bool.and_eq_true, decide_eq_true_eq]
    tauto
  rw [popCount_eq_card, popCount_eq_card, herase, Finset.card_erase_add_one hmem]

/-- As many turns as there are bits are enough. -/
theorem mem_setBits : ∀ (fuel : Nat) (v : BitVec w), popCount v ≤ fuel → ∀ {i : Nat}, i ∈ setBits fuel v ↔ v.getLsbD i = true
  | 0, v, h, i => by
    have hempty : (Finset.range w).filter (fun i => v.getLsbD i) = ∅ := by
      rw [← Finset.card_eq_zero, ← popCount_eq_card]
      omega
    constructor
    · intro hi
      cases hi
    · intro hi
      have hmem : i ∈ (Finset.range w).filter fun i => v.getLsbD i := by
        rw [Finset.mem_filter, Finset.mem_range]
        exact ⟨BitVec.lt_of_getLsbD hi, hi⟩
      rw [hempty] at hmem
      cases hmem
  | fuel + 1, v, h, i => by
    rw [setBits]
    split
    · rename_i hv
      subst hv
      simp
    · rename_i hv
      have hpop := popCount_clearLowest hv
      rw [List.mem_cons, mem_setBits fuel _ (by omega), getLsbD_clearLowest hv]
      by_cases hi : i = v.ctz.toNat
      · subst hi
        simp [BitVec.getLsbD_true_ctz_of_ne_zero hv]
      · simp [hi]

theorem popCount_le (v : BitVec w) : popCount v ≤ w := by
  rw [popCount_eq_card]
  exact (Finset.card_filter_le _ _).trans (Finset.card_range w).le

end SetBits

end S2Moe.Lib
