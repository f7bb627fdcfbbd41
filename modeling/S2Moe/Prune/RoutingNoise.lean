import Mathlib
import S2Moe.Prune.ExpertSet

/-!
# Routing noise

Some of the predicted experts are replaced by others, chosen at random. What the generator does is left open: a shuffle is any
permutation, and a choice any element of what it is made from. The rate is exact.

* `perturbExpertIds` : one set; the new ids come from those that are not in it, each at most once;
* `perturbLayeredExpertIds` : a set for each layer; what is unused is looked up again before each replacement;
* `card_replace` : one replacement; `replaceAll_spec`, `Noisy` : what the loops keep;
* `perturb_counts` : the sets keep their sizes, their new ids are experts, no more pairs are missing than were to be replaced.
-/

namespace S2Moe.Prune

/-- `std::llround` of a rate of `n`, as a `size_t`. -/
def llround (noiseRate : ℚ) (n : Nat) : Nat := ⌊noiseRate * n + 1 / 2⌋.toNat

/-- How many are to be replaced. -/
def replaceCount (noiseRate : ℚ) (n : Nat) : Nat := min n (llround noiseRate n)

/-- The ids below `expert_count` that are not in use. -/
def unused (expertCount : Int) (used : Finset Int) : List Int :=
  ((List.range expertCount.toNat).map fun i : Nat => (i : Int)).filter fun expert => expert ∉ used

/-- `result.erase(old); result.insert(fresh)`. -/
def replace (result : Finset Int) (old fresh : Int) : Finset Int := insert fresh (result.erase old)

section OneSet

/-- The loop of `perturb_expert_ids`. -/
def replaceAll : List (Int × Int) → Finset Int → Finset Int
  | [], result => result
  | (old, fresh) :: pairs, result => replaceAll pairs (replace result old fresh)

/-- `perturb_expert_ids`, with the number of replacements. The two shuffles are those of the positions and of the unused
ids. -/
def perturbExpertIds (experts : Finset Int) (noiseRate : ℚ) (expertCount : Int) (shufflePositions : List Nat → List Nat)
    (shuffleAvailable : List Int → List Int) : Finset Int × Nat :=
  if experts = ∅ ∨ noiseRate ≤ 0 ∨ expertCount ≤ 0 then (experts, 0)
  else
    let original := ascending experts
    let positions := shufflePositions (List.range original.length)
    let available := shuffleAvailable (unused expertCount experts)
    let actualCount := min (replaceCount noiseRate original.length) available.length
    let pairs := (List.range actualCount).map fun i => (original.getD (positions.getD i 0) 0, available.getD i 0)
    (replaceAll pairs experts, actualCount)

end OneSet

section Layers

/-- `Position`. -/
structure Position where
  layer : Nat
  expert : Int
deriving DecidableEq

def allPositions (layers : List (Finset Int)) : List Position :=
  layers.zipIdx.flatMap fun sl => (ascending sl.1).map fun expert => ⟨sl.2, expert⟩

/-- The result so far and the number of replacements. -/
structure Noise where
  result : List (Finset Int)
  replaced : Nat

def Noise.layer (s : Noise) (l : Nat) : Finset Int := s.result.getD l ∅

/-- One turn of the loop; `pick` is the choice from what is available. -/
def replaceAt (expertCount : Int) (pick : Nat → List Int → Int) (s : Noise) (i : Nat) (pos : Position) : Noise :=
  let available := unused expertCount (s.layer pos.layer)
  if available = [] then s
  else ⟨s.result.set pos.layer (replace (s.layer pos.layer) pos.expert (pick i available)), s.replaced + 1⟩

/-- The loop over the positions from number `i` on. -/
def replaceFrom (expertCount : Int) (pick : Nat → List Int → Int) : Nat → List Position → Noise → Noise
  | _, [], s => s
  | i, pos :: positions, s => replaceFrom expertCount pick (i + 1) positions (replaceAt expertCount pick s i pos)

/-- The loop of `perturb_layered_expert_ids` after `n` turns. -/
def noiseAfter (layers : List (Finset Int)) (expertCount : Int) (shuffle : List Position → List Position)
    (pick : Nat → List Int → Int) (n : Nat) : Noise :=
  replaceFrom expertCount pick 0 ((shuffle (allPositions layers)).take n) ⟨layers, 0⟩

/-- `perturb_layered_expert_ids`, with the number of replacements. -/
def perturbLayeredExpertIds (layers : List (Finset Int)) (noiseRate : ℚ) (expertCount : Int)
    (shuffle : List Position → List Position) (pick : Nat → List Int → Int) : Noise :=
  if noiseRate ≤ 0 ∨ expertCount ≤ 0 then ⟨layers, 0⟩
  else if allPositions layers = [] then ⟨layers, 0⟩
  else noiseAfter layers expertCount shuffle pick (replaceCount noiseRate (allPositions layers).length)

/-- The pairs of the input that the output does not have. -/
def missing (layers result : List (Finset Int)) : List Position :=
  (allPositions layers).filter fun p => p.expert ∉ result.getD p.layer ∅

end Layers

section Counting

theorem mem_unused {expertCount : Int} {used : Finset Int} {id : Int} :
    id ∈ unused expertCount used ↔ (0 ≤ id ∧ id < expertCount) ∧ id ∉ used := by
  rw [unused, List.mem_filter, List.mem_map]
  simp only [List.mem_range, decide_eq_true_eq]
  apply and_congr_left'
  constructor
  · rintro ⟨i, hi, rfl⟩
    omega
  · rintro ⟨h1, h2⟩
    exact ⟨id.toNat, by omega, by omega⟩

theorem nodup_unused (expertCount : Int) (used : Finset Int) : (unused expertCount used).Nodup :=
  (List.nodup_range.map fun _ _ h => Int.natCast_inj.mp h).filter _

theorem llround_of_nonpos {noiseRate : ℚ} (h : noiseRate ≤ 0) (n : Nat) : llround noiseRate n = 0 := by
  have hprod : noiseRate * n ≤ 0 := mul_nonpos_of_nonpos_of_nonneg h (Nat.cast_nonneg n)
  have hlt : ⌊noiseRate * n + 1 / 2⌋ < 1 := by
    rw [Int.floor_lt]
    push_cast
    linarith
  rw [llround]
  omega

theorem replaceCount_of_nonpos {noiseRate : ℚ} (h : noiseRate ≤ 0) (n : Nat) : replaceCount noiseRate n = 0 := by
  rw [replaceCount, llround_of_nonpos h, Nat.min_zero]

/-- A replacement of what is there by what is not there. -/
theorem card_replace {result : Finset Int} {old fresh : Int} (hold : old ∈ result) (hfresh : fresh ∉ result) :
    (replace result old fresh).card = result.card := by
  have hno : fresh ∉ result.erase old := fun h => hfresh (Finset.mem_of_mem_erase h)
  rw [replace, Finset.card_insert_of_notMem hno, Finset.card_erase_add_one hold]

theorem mem_replace {result : Finset Int} {old fresh id : Int} :
    id ∈ replace result old fresh ↔ id = fresh ∨ (id ≠ old ∧ id ∈ result) := by
  rw [replace, Finset.mem_insert, Finset.mem_erase]

end Counting

section OneSet

/-- Different ids that are there, replaced by different ids that are not. -/
theorem replaceAll_spec : ∀ (pairs : List (Int × Int)) (s : Finset Int), (pairs.map Prod.fst).Nodup →
    (pairs.map Prod.snd).Nodup → (∀ q ∈ pairs, q.1 ∈ s) → (∀ q ∈ pairs, q.2 ∉ s) →
      (replaceAll pairs s).card = s.card ∧ (∀ id ∈ replaceAll pairs s, id ∈ s ∨ id ∈ pairs.map Prod.snd) ∧
        ∀ id ∈ s, id ∉ replaceAll pairs s → id ∈ pairs.map Prod.fst
  | [], s, _, _, _, _ => ⟨rfl, fun _ h => .inl h, fun _ h h' => absurd h h'⟩
  | (old, fresh) :: pairs, s, hold, hfresh, hin, hout => by
    rw [List.map_cons, List.nodup_cons] at hold hfresh
    have hold' := hin _ List.mem_cons_self
    have hfresh' := hout _ List.mem_cons_self
    obtain ⟨hcard, hids, hmissing⟩ := replaceAll_spec pairs (replace s old fresh) hold.2 hfresh.2
      (fun q hq => by
        have hne : q.1 ≠ old := by
          intro h
          have hmem := List.mem_map_of_mem (f := Prod.fst) hq
          rw [h] at hmem
          exact hold.1 hmem
        exact mem_replace.mpr (.inr ⟨hne, hin q (List.mem_cons_of_mem _ hq)⟩))
      (fun q hq h => by
        rcases mem_replace.mp h with h | ⟨_, h⟩
        · have hmem := List.mem_map_of_mem (f := Prod.snd) hq
          rw [h] at hmem
          exact hfresh.1 hmem
        · exact hout q (List.mem_cons_of_mem _ hq) h)
    rw [replaceAll]
    refine ⟨hcard.trans (card_replace hold' hfresh'), fun id hid => ?_, fun id hid hno => ?_⟩
    · rw [List.map_cons]
      rcases hids id hid with h | h
      · rcases mem_replace.mp h with rfl | ⟨_, h⟩
        · exact .inr List.mem_cons_self
        · exact .inl h
      · exact .inr (List.mem_cons_of_mem _ h)
    · rw [List.map_cons, List.mem_cons]
      by_cases h : id = old
      · exact .inl h
      · exact .inr (hmissing id (mem_replace.mpr (.inr ⟨h, hid⟩)) hno)

variable {experts : Finset Int} {noiseRate : ℚ} {expertCount : Int} {shufflePositions : List Nat → List Nat}
  {shuffleAvailable : List Int → List Int}

/-- The chosen positions are those of different experts of the set. -/
theorem nodup_chosen (hpos : (shufflePositions (List.range (ascending experts).length)).Perm
      (List.range (ascending experts).length)) {k : Nat} (hk : k ≤ (ascending experts).length) :
    ((List.range k).map fun i => (ascending experts).getD
        ((shufflePositions (List.range (ascending experts).length)).getD i 0) 0).Nodup ∧
      ∀ i < k, (ascending experts).getD
        ((shufflePositions (List.range (ascending experts).length)).getD i 0) 0 ∈ experts := by
  generalize hl : ascending experts = l at *
  generalize hp : shufflePositions (List.range l.length) = p at *
  have hnodup : l.Nodup := hl ▸ experts.sort_nodup _
  have hlen : p.length = l.length := by rw [hpos.length_eq, List.length_range]
  have hget : ∀ i < k, ∃ (h : i < p.length) (h' : p[i] < l.length), l.getD (p.getD i 0) 0 = l[p[i]] := by
    intro i hi
    have h : i < p.length := by omega
    have h' : p[i] < l.length := List.mem_range.mp (hpos.mem_iff.mp (List.getElem_mem h))
    refine ⟨h, h', ?_⟩
    rw [List.getD_eq_getElem?_getD (l := p), List.getElem?_eq_getElem h, Option.getD_some, List.getD_eq_getElem?_getD,
      List.getElem?_eq_getElem h', Option.getD_some]
  constructor
  · apply List.Nodup.map_on _ List.nodup_range
    intro i hi j hj heq
    obtain ⟨h1, h1', e1⟩ := hget i (List.mem_range.mp hi)
    obtain ⟨h2, h2', e2⟩ := hget j (List.mem_range.mp hj)
    rw [e1, e2, hnodup.getElem_inj_iff, (hpos.nodup_iff.mpr List.nodup_range).getElem_inj_iff] at heq
    exact heq
  · intro i hi
    obtain ⟨h, h', e⟩ := hget i hi
    rw [e, ← mem_ascending, hl]
    exact List.getElem_mem h'

theorem map_range_getD (l : List Int) {k : Nat} (hk : k ≤ l.length) : (List.range k).map (fun i => l.getD i 0) =
    l.take k := by
  apply List.ext_getElem
  · rw [List.length_map, List.length_range, List.length_take]
    omega
  · intro i h1 h2
    have hi : i < l.length := by
      rw [List.length_map, List.length_range] at h1
      omega
    rw [List.getElem_map, List.getElem_range, List.getElem_take, List.getD_eq_getElem?_getD, List.getElem?_eq_getElem hi,
      Option.getD_some]

/-- One set. -/
theorem perturbExpertIds_spec (hpos : ∀ l, (shufflePositions l).Perm l) (havail : ∀ l, (shuffleAvailable l).Perm l) :
    let out := perturbExpertIds experts noiseRate expertCount shufflePositions shuffleAvailable
    out.1.card = experts.card ∧ (∀ id ∈ out.1, id ∈ experts ∨ 0 ≤ id ∧ id < expertCount) ∧
      (experts \ out.1).card ≤ replaceCount noiseRate experts.card ∧
      out.2 = min (replaceCount noiseRate experts.card) (unused expertCount experts).length := by
  intro out
  by_cases hearly : experts = ∅ ∨ noiseRate ≤ 0 ∨ expertCount ≤ 0
  · have hout : out = (experts, 0) := if_pos hearly
    rw [hout]
    refine ⟨rfl, fun id h => .inl h, by simp, ?_⟩
    rcases hearly with h | h | h
    · rw [h]
      simp [replaceCount]
    · rw [replaceCount_of_nonpos h, Nat.zero_min]
    · have hnil : unused expertCount experts = [] := by
        apply List.eq_nil_iff_forall_not_mem.mpr
        intro id hid
        have := (mem_unused.mp hid).1
        omega
      rw [hnil]
      simp
  · have hlen : (ascending experts).length = experts.card := length_ascending _
    have hav := havail (unused expertCount experts)
    obtain ⟨k, hk⟩ : ∃ k, k = min (replaceCount noiseRate experts.card) (unused expertCount experts).length := ⟨_, rfl⟩
    have hk1 : k ≤ experts.card := by
      rw [hk, replaceCount]
      omega
    have hk2 : k ≤ (shuffleAvailable (unused expertCount experts)).length := by
      rw [hav.length_eq, hk]
      omega
    obtain ⟨pairs, hpairs⟩ : ∃ pairs, pairs = (List.range k).map fun i => ((ascending experts).getD
        ((shufflePositions (List.range (ascending experts).length)).getD i 0) 0,
          (shuffleAvailable (unused expertCount experts)).getD i 0) := ⟨_, rfl⟩
    have hout : out = (replaceAll pairs experts, k) := by
      show perturbExpertIds _ _ _ _ _ = _
      rw [perturbExpertIds, if_neg hearly, hpairs, hk]
      dsimp only
      rw [hav.length_eq, hlen]
    have hfst : pairs.map Prod.fst = (List.range k).map fun i => (ascending experts).getD
        ((shufflePositions (List.range (ascending experts).length)).getD i 0) 0 := by
      rw [hpairs, List.map_map]
      rfl
    have hsnd : pairs.map Prod.snd = (shuffleAvailable (unused expertCount experts)).take k := by
      rw [← map_range_getD _ hk2, hpairs, List.map_map]
      rfl
    have hfresh : ∀ id ∈ pairs.map Prod.snd, id ∈ unused expertCount experts := by
      intro id hid
      rw [hsnd] at hid
      exact hav.mem_iff.mp (List.mem_of_mem_take hid)
    obtain ⟨hchosen, hin⟩ := nodup_chosen (hpos _) (show k ≤ (ascending experts).length by rw [hlen]; exact hk1)
    obtain ⟨hcard, hids, hmissing⟩ := replaceAll_spec pairs experts (hfst ▸ hchosen)
      (hsnd ▸ (hav.nodup_iff.mpr (nodup_unused _ _)).sublist (List.take_sublist k _))
      (fun q hq => by
        rw [hpairs] at hq
        obtain ⟨i, hi, rfl⟩ := List.mem_map.mp hq
        exact hin i (List.mem_range.mp hi))
      (fun q hq => (mem_unused.mp (hfresh _ (List.mem_map_of_mem hq))).2)
    rw [hout]
    refine ⟨hcard, fun id hid => ?_, ?_, hk⟩
    · exact (hids id hid).imp_right fun h => (mem_unused.mp (hfresh id h)).1
    · have hsub : experts \ replaceAll pairs experts ⊆ (pairs.map Prod.fst).toFinset := by
        intro id hid
        rw [Finset.mem_sdiff] at hid
        exact List.mem_toFinset.mpr (hmissing id hid.1 hid.2)
      have hle := (Finset.card_le_card hsub).trans (List.toFinset_card_le _)
      rw [hfst, List.length_map, List.length_range] at hle
      show (experts \ replaceAll pairs experts).card ≤ _
      omega

end OneSet

section Layers

theorem mem_allPositions {layers : List (Finset Int)} {p : Position} : p ∈ allPositions layers ↔
    p.expert ∈ layers.getD p.layer ∅ := by
  rw [allPositions, List.mem_flatMap]
  constructor
  · rintro ⟨⟨s, l⟩, hsl, hp⟩
    obtain ⟨expert, hexpert, rfl⟩ := List.mem_map.mp hp
    rw [List.mem_zipIdx_iff_getElem?] at hsl
    show expert ∈ layers.getD l ∅
    rw [List.getD_eq_getElem?_getD, show layers[l]? = some s from hsl]
    exact (Finset.mem_sort _).mp hexpert
  · intro hp
    rw [List.getD_eq_getElem?_getD] at hp
    rcases h : layers[p.layer]? with _ | s
    · rw [h] at hp
      exact absurd hp (Finset.notMem_empty _)
    · rw [h] at hp
      exact ⟨(s, p.layer), List.mem_zipIdx_iff_getElem?.mpr h, List.mem_map.mpr ⟨p.expert, (Finset.mem_sort _).mpr hp, rfl⟩⟩

theorem nodup_allPositions (layers : List (Finset Int)) : (allPositions layers).Nodup := by
  rw [allPositions, List.nodup_flatMap]
  constructor
  · intro sl _
    apply List.Nodup.map_on _ (Finset.sort_nodup _ _)
    intro a _ b _ h
    exact congrArg Position.expert h
  · have hidx : (layers.zipIdx.map Prod.snd).Nodup := by
      rw [List.zipIdx_map_snd]
      exact List.nodup_range'
    refine (List.pairwise_map.mp hidx).imp fun {a b} hne => ?_
    intro p hp hq
    obtain ⟨_, _, rfl⟩ := List.mem_map.mp hp
    obtain ⟨_, _, h⟩ := List.mem_map.mp hq
    exact hne (congrArg Position.layer h).symm

theorem layer_lt {layers : List (Finset Int)} {p : Position} (h : p ∈ allPositions layers) : p.layer < layers.length := by
  rw [mem_allPositions, List.getD_eq_getElem?_getD] at h
  by_contra hlt
  rw [List.getElem?_eq_none (by omega)] at h
  exact Finset.notMem_empty _ h

/-- What the loop keeps: `done` is behind it, `todo` ahead. -/
structure Noisy (layers : List (Finset Int)) (expertCount : Int) (done todo : List Position) (s : Noise) : Prop where
  length : s.result.length = layers.length
  card : ∀ l, (s.layer l).card = (layers.getD l ∅).card
  ids : ∀ l, ∀ id ∈ s.layer l, id ∈ layers.getD l ∅ ∨ 0 ≤ id ∧ id < expertCount
  still : ∀ p ∈ todo, p.expert ∈ s.layer p.layer
  gone : ∀ l, ∀ id ∈ layers.getD l ∅, id ∉ s.layer l → ⟨l, id⟩ ∈ done

theorem layer_set {s : Noise} {l : Nat} (h : l < s.result.length) (new : Finset Int) (n l' : Nat) :
    Noise.layer ⟨s.result.set l new, n⟩ l' = if l' = l then new else s.layer l' := by
  rw [Noise.layer, Noise.layer, List.getD_eq_getElem?_getD, List.getD_eq_getElem?_getD, List.getElem?_set]
  by_cases hl : l' = l
  · rw [if_pos hl.symm, if_pos h, if_pos hl]
    rfl
  · rw [if_neg (Ne.symm hl), if_neg hl]

/-- An expert that is still to be replaced is not among the new ones: those were not there. -/
theorem replaceAt_noisy {layers : List (Finset Int)} {expertCount : Int} {pick : Nat → List Int → Int}
    (hpick : ∀ i l, l ≠ [] → pick i l ∈ l) {done todo : List Position} {s : Noise} {pos : Position} (i : Nat)
    (hpos : pos ∈ allPositions layers) (hnodup : pos ∉ todo) (h : Noisy layers expertCount done (pos :: todo) s) :
    Noisy layers expertCount (done ++ [pos]) todo (replaceAt expertCount pick s i pos) := by
  rw [replaceAt]
  split_ifs with hnil
  · exact ⟨h.length, h.card, h.ids, fun p hp => h.still p (List.mem_cons_of_mem _ hp),
      fun l id hid hno => List.mem_append_left _ (h.gone l id hid hno)⟩
  · have hlt : pos.layer < s.result.length := h.length ▸ layer_lt hpos
    have hold := h.still pos List.mem_cons_self
    obtain ⟨hrange, hfresh⟩ := mem_unused.mp (hpick i _ hnil)
    constructor
    · show (s.result.set _ _).length = _
      rw [List.length_set, h.length]
    · intro l
      rw [layer_set hlt]
      split_ifs with hl
      · rw [card_replace hold hfresh, h.card, hl]
      · exact h.card l
    · intro l id hid
      rw [layer_set hlt] at hid
      split_ifs at hid with hl
      · rcases mem_replace.mp hid with rfl | ⟨_, hid⟩
        · exact .inr hrange
        · exact hl ▸ h.ids _ id hid
      · exact h.ids l id hid
    · intro p hp
      rw [layer_set hlt]
      split_ifs with hl
      · have hne : p.expert ≠ pos.expert := by
          intro he
          have : p = pos := by
            cases p
            cases pos
            simp_all
          exact hnodup (this ▸ hp)
        exact mem_replace.mpr (.inr ⟨hne, hl ▸ h.still p (List.mem_cons_of_mem _ hp)⟩)
      · exact h.still p (List.mem_cons_of_mem _ hp)
    · intro l id hid hno
      rw [layer_set hlt] at hno
      split_ifs at hno with hl
      · by_cases he : id = pos.expert
        · exact List.mem_append_right _ (by rw [hl, he]; exact List.mem_cons_self)
        · have hno' : id ∉ s.layer l := fun h' => hno (mem_replace.mpr (.inr ⟨he, hl ▸ h'⟩))
          exact List.mem_append_left _ (h.gone l id hid hno')
      · exact List.mem_append_left _ (h.gone l id hid hno)

theorem replaceFrom_noisy {layers : List (Finset Int)} {expertCount : Int} {pick : Nat → List Int → Int}
    (hpick : ∀ i l, l ≠ [] → pick i l ∈ l) (todo : List Position) (hpos : ∀ p ∈ todo, p ∈ allPositions layers)
    (hnodup : todo.Nodup) (done : List Position) (i : Nat) (s : Noise) (h : Noisy layers expertCount done todo s) :
    Noisy layers expertCount (done ++ todo) [] (replaceFrom expertCount pick i todo s) := by
  induction todo generalizing done i s with
  | nil => rwa [List.append_nil]
  | cons pos todo ih =>
    rw [List.nodup_cons] at hnodup
    have hstep := replaceAt_noisy hpick i (hpos pos List.mem_cons_self) hnodup.1 h
    have hrest := ih (fun p hp => hpos p (List.mem_cons_of_mem _ hp)) hnodup.2 (done ++ [pos]) (i + 1) _ hstep
    rwa [List.append_assoc, List.singleton_append] at hrest

theorem replaceFrom_append (expertCount : Int) (pick : Nat → List Int → Int) (a b : List Position) (i : Nat) (s : Noise) :
    replaceFrom expertCount pick i (a ++ b) s =
      replaceFrom expertCount pick (i + a.length) b (replaceFrom expertCount pick i a s) := by
  induction a generalizing i s with
  | nil => rfl
  | cons pos a ih =>
    rw [List.cons_append, replaceFrom, ih, replaceFrom, List.length_cons]
    congr 1
    omega

variable {layers : List (Finset Int)} {noiseRate : ℚ} {expertCount : Int} {shuffle : List Position → List Position}
  {pick : Nat → List Int → Int}

theorem noiseAfter_succ {n : Nat} (hn : n < (shuffle (allPositions layers)).length) :
    noiseAfter layers expertCount shuffle pick (n + 1) =
      replaceAt expertCount pick (noiseAfter layers expertCount shuffle pick n) n (shuffle (allPositions layers))[n] := by
  rw [noiseAfter, List.take_succ_eq_append_getElem hn, replaceFrom_append, List.length_take, Nat.min_eq_left hn.le,
    Nat.zero_add]
  rfl

/-- As long as the layers have unused ids, each turn is a replacement. -/
theorem replaced_noiseAfter (hshuffle : ∀ l, (shuffle l).Perm l) (n : Nat) (hn : n ≤ (allPositions layers).length)
    (hunused : ∀ i < n, ∀ l < layers.length, ∃ id, (0 ≤ id ∧ id < expertCount) ∧
      id ∉ (noiseAfter layers expertCount shuffle pick i).layer l) :
    (noiseAfter layers expertCount shuffle pick n).replaced = n := by
  induction n with
  | zero => rfl
  | succ n ih =>
    have hlen : n < (shuffle (allPositions layers)).length := by
      rw [(hshuffle _).length_eq]
      omega
    have hmem : (shuffle (allPositions layers))[n] ∈ allPositions layers := (hshuffle _).mem_iff.mp (List.getElem_mem hlen)
    obtain ⟨id, hid⟩ := hunused n (Nat.lt_succ_self n) _ (layer_lt hmem)
    have hne := List.ne_nil_of_mem (mem_unused.mpr hid)
    rw [noiseAfter_succ hlen, replaceAt, if_neg hne]
    show _ + 1 = n + 1
    rw [ih (by omega) fun i hi => hunused i (by omega)]

theorem noisy_start : Noisy layers expertCount [] (allPositions layers) ⟨layers, 0⟩ where
  length := rfl
  card _ := rfl
  ids _ _ h := .inl h
  still _ h := mem_allPositions.mp h
  gone _ _ h h' := absurd h h'

/-- A set for each layer. -/
theorem perturbLayeredExpertIds_spec (hshuffle : ∀ l, (shuffle l).Perm l) (hpick : ∀ i l, l ≠ [] → pick i l ∈ l) :
    ∃ done, done.length ≤ replaceCount noiseRate (allPositions layers).length ∧
      Noisy layers expertCount done [] (perturbLayeredExpertIds layers noiseRate expertCount shuffle pick) := by
  have hunchanged : Noisy layers expertCount [] [] ⟨layers, 0⟩ :=
    ⟨rfl, fun _ => rfl, fun _ _ h => .inl h, fun _ h => absurd h List.not_mem_nil, fun _ _ h h' => absurd h h'⟩
  rw [perturbLayeredExpertIds]
  split_ifs
  · exact ⟨[], Nat.zero_le _, hunchanged⟩
  · exact ⟨[], Nat.zero_le _, hunchanged⟩
  · have hperm := hshuffle (allPositions layers)
    have hnodup := hperm.nodup_iff.mpr (nodup_allPositions layers)
    have hsub := List.take_sublist (replaceCount noiseRate (allPositions layers).length) (shuffle (allPositions layers))
    have hstart : Noisy layers expertCount [] ((shuffle (allPositions layers)).take _) ⟨layers, 0⟩ :=
      { noisy_start with still := fun p hp => mem_allPositions.mp (hperm.mem_iff.mp (hsub.subset hp)) }
    have hrun := replaceFrom_noisy hpick _ (fun p hp => hperm.mem_iff.mp (hsub.subset hp)) (hnodup.sublist hsub) [] 0 _ hstart
    rw [List.nil_append] at hrun
    exact ⟨_, List.length_take_le _ _, hrun⟩

/-- Each missing pair was replaced. -/
theorem length_missing {done : List Position} {s : Noise} (h : Noisy layers expertCount done [] s) :
    (missing layers s.result).length ≤ done.length := by
  apply List.Subperm.length_le
  apply List.subperm_of_subset ((nodup_allPositions layers).filter _)
  intro p hp
  rw [List.mem_filter, decide_eq_true_eq] at hp
  exact h.gone p.layer p.expert (mem_allPositions.mp hp.1) hp.2

theorem replaced_eq (hshuffle : ∀ l, (shuffle l).Perm l)
    (hunused : ∀ i < replaceCount noiseRate (allPositions layers).length, ∀ l < layers.length,
      ∃ id, (0 ≤ id ∧ id < expertCount) ∧ id ∉ (noiseAfter layers expertCount shuffle pick i).layer l) :
    (perturbLayeredExpertIds layers noiseRate expertCount shuffle pick).replaced =
      replaceCount noiseRate (allPositions layers).length := by
  have hle : replaceCount noiseRate (allPositions layers).length ≤ (allPositions layers).length := Nat.min_le_left _ _
  rw [perturbLayeredExpertIds]
  split_ifs with hearly hnil
  · rcases hearly with h | h
    · exact (replaceCount_of_nonpos h _).symm
    · -- without experts there is no unused id, so nothing was to be replaced
      by_contra hne
      have hpos : 0 < replaceCount noiseRate (allPositions layers).length := Nat.pos_of_ne_zero (Ne.symm hne)
      obtain ⟨p, hp⟩ := List.exists_mem_of_length_pos (hpos.trans_le hle)
      obtain ⟨id, hid, _⟩ := hunused 0 hpos p.layer (layer_lt hp)
      omega
  · rw [hnil]
    rfl
  · exact replaced_noiseAfter hshuffle _ hle hunused

end Layers

end S2Moe.Prune
