import Mathlib.Algebra.BigOperators.Fin
import Mathlib.Data.Finset.Sigma
import S2Moe.Prune.ExpertSet

/-!
# The sizes of the sets of experts

The sets that `draft_tree_prune` keeps are made before any other, so that no right operand is shorter than they are.

* `Shape n w`, `Wide n w` : `n` layers of `w` words each, or of at least so many;
* `orWith_spec`, `andnotWith_spec` : the operations return, and the shape stays;
* `pairs` : a set of experts as pairs of a layer and an id; `card_pairs`.
-/

namespace S2Moe.Prune
open S2Moe.Lib

/-- `n` layers of `w` words each. -/
structure Shape (n w : Nat) (l : ExpertLayers) : Prop where
  layers : l.layers.length = n
  words : ∀ s ∈ l.layers, s.bits.length = w

structure Wide (n w : Nat) (l : ExpertLayers) : Prop where
  layers : l.layers.length = n
  words : ∀ s ∈ l.layers, w ≤ s.bits.length

/-- The pairs of a layer and an id. -/
def ExpertLayers.pairs (l : ExpertLayers) : Finset (Σ _ : Nat, Nat) := (Finset.range l.layers.length).sigma l.ids

section Sizes
variable {n w : Nat} {l other : ExpertLayers}

theorem Shape.wide (h : Shape n w l) : Wide n w l := ⟨h.layers, fun s hs => (h.words s hs).ge⟩

theorem Shape.covers (h : Shape n w l) (hother : Wide n w other) : Covers l other := by
  refine ⟨(h.layers.trans hother.layers.symm).le, fun i s t hs ht => ?_⟩
  rw [h.words s (List.mem_of_getElem? hs)]
  exact hother.words t (List.mem_of_getElem? ht)

/-! ## Making and filling -/

/-- The words of a new set. -/
def wordsFor (expertMax : Int) : Nat := ((expertMax + 63).tdiv 64).toNat

theorem resize_isSome {nLayers expertMax m : Int} (h : 0 ≤ (expertMax + 63).tdiv 64) (hle : expertMax ≤ m) :
    ∃ r, ExpertLayers.resize nLayers m = some r := by
  have hmono : (expertMax + 63).tdiv 64 ≤ (m + 63).tdiv 64 := Int.tdiv_le_tdiv (by decide) (by omega)
  have hnew : ExpertSet.new m = some ⟨List.replicate ((m + 63).tdiv 64).toNat 0#64⟩ := if_pos (h.trans hmono)
  exact ⟨_, Option.map_eq_some_iff.mpr ⟨_, hnew, rfl⟩⟩

theorem resize_shape {nLayers m : Int} (h : ExpertLayers.resize nLayers m = some l) : Shape nLayers.toNat (wordsFor m) l := by
  obtain ⟨s, hs, rfl⟩ := Option.map_eq_some_iff.mp h
  rw [ExpertSet.new] at hs
  split_ifs at hs
  cases hs
  refine ⟨?_, fun t ht => ?_⟩
  · rw [List.length_replicate]
    omega
  · rw [List.eq_of_mem_replicate ht, List.length_replicate]
    rfl

theorem resize_wide {nLayers expertMax m : Int} (hle : expertMax ≤ m) (h : ExpertLayers.resize nLayers m = some l) :
    Wide nLayers.toNat (wordsFor expertMax) l := by
  have hmono : (expertMax + 63).tdiv 64 ≤ (m + 63).tdiv 64 := Int.tdiv_le_tdiv (by decide) (by omega)
  have hshape := resize_shape h
  refine ⟨hshape.layers, fun s hs => ?_⟩
  rw [hshape.words s hs, wordsFor, wordsFor]
  omega

theorem Shape.clear (h : Shape n w l) : Shape n w l.clear := by
  refine ⟨(List.length_map _).trans h.layers, fun s hs => ?_⟩
  obtain ⟨t, ht, rfl⟩ := List.mem_map.mp hs
  rw [ExpertSet.clear, List.length_replicate]
  exact h.words t ht

theorem Wide.clear (h : Wide n w l) : Wide n w l.clear := by
  refine ⟨(List.length_map _).trans h.layers, fun s hs => ?_⟩
  obtain ⟨t, ht, rfl⟩ := List.mem_map.mp hs
  rw [ExpertSet.clear, List.length_replicate]
  exact h.words t ht

/-- A set only grows, and so does `expert_max`. -/
theorem length_set (s : ExpertSet) (id expertMax : Int) :
    s.bits.length ≤ (s.set id expertMax).1.bits.length ∧ expertMax ≤ (s.set id expertMax).2 := by
  rw [ExpertSet.set]
  by_cases hid : id < 0
  · rw [if_pos hid]
    exact ⟨le_rfl, le_rfl⟩
  · rw [if_neg hid]
    dsimp only
    refine ⟨?_, ?_⟩
    · rw [List.length_set, List.length_append]
      exact Nat.le_add_right _ _
    · split_ifs <;> omega

theorem Wide.set (h : Wide n w l) (layer expertId expertMax : Int) :
    Wide n w (l.set layer expertId expertMax).1 ∧ expertMax ≤ (l.set layer expertId expertMax).2 := by
  rw [ExpertLayers.set]
  split_ifs
  · exact ⟨h, le_rfl⟩
  · cases hs : l.layers[layer.toNat]? with
    | none => exact ⟨h, le_rfl⟩
    | some s =>
      obtain ⟨hlen, hmax⟩ := length_set s expertId expertMax
      refine ⟨⟨List.length_set.trans h.layers, fun t ht => ?_⟩, hmax⟩
      rcases List.mem_or_eq_of_mem_set ht with ht | rfl
      · exact h.words t ht
      · exact (h.words s (List.mem_of_getElem? hs)).trans hlen

/-- `expert_sets_to_layers` makes sets of its own, which are no smaller. -/
theorem setsToLayers_isSome {expertMax m : Int} (h : 0 ≤ (expertMax + 63).tdiv 64) (hle : expertMax ≤ m)
    (experts : List (Finset Int)) :
    ∃ r, setsToLayers experts m = some r ∧ Wide experts.length (wordsFor expertMax) r.1 ∧ expertMax ≤ r.2 := by
  obtain ⟨l, hl⟩ := @resize_isSome experts.length expertMax m h hle
  refine ⟨_, Option.map_eq_some_iff.mpr ⟨l, hl, rfl⟩, ?_⟩
  have hwide : Wide experts.length (wordsFor expertMax) (l, m).1 ∧ expertMax ≤ (l, m).2 := by
    have hwide := resize_wide hle hl
    rw [Int.toNat_natCast] at hwide
    exact ⟨hwide, hle⟩
  have hset : ∀ (ids : List Int) (layer : Nat) (r : ExpertLayers × Int),
      Wide experts.length (wordsFor expertMax) r.1 ∧ expertMax ≤ r.2 →
      Wide experts.length (wordsFor expertMax) (ids.foldl (fun r expert => r.1.set layer expert r.2) r).1 ∧
        expertMax ≤ (ids.foldl (fun r expert => r.1.set layer expert r.2) r).2 := by
    intro ids
    induction ids with
    | nil => exact fun _ _ hr => hr
    | cons id ids ih =>
      intro layer r hr
      obtain ⟨hwide, hmax⟩ := hr.1.set layer id r.2
      exact ih layer _ ⟨hwide, hr.2.trans hmax⟩
  generalize experts.zipIdx = xs
  generalize (l, m) = r at hwide
  induction xs generalizing r with
  | nil => exact hwide
  | cons x xs ih => exact ih _ (hset _ _ _ hwide)

/-! ## Unions and differences -/

theorem length_zipWith_le {f : Word → Word → Word} {s t : List Word} (h : s.length ≤ t.length) :
    (List.zipWith f s t).length = s.length := by
  rw [List.length_zipWith]
  exact Nat.min_eq_left h

/-- Along the left operand, layer by layer and word by word. -/
theorem Shape.zipWith (h : Shape n w l) (hother : Wide n w other) (f : Word → Word → Word) :
    Shape n w ⟨List.zipWith (fun s t => ⟨List.zipWith f s.bits t.bits⟩) l.layers other.layers⟩ := by
  refine ⟨?_, fun s hs => ?_⟩
  · rw [List.length_zipWith, h.layers, hother.layers]
    exact Nat.min_self n
  · obtain ⟨i, hi⟩ := List.mem_iff_getElem?.mp hs
    rw [List.getElem?_zipWith_eq_some] at hi
    obtain ⟨a, b, ha, hb, rfl⟩ := hi
    have hwords := h.words a (List.mem_of_getElem? ha)
    have hle := hother.words b (List.mem_of_getElem? hb)
    exact (length_zipWith_le (by omega)).trans hwords

/-- A union returns; it is one if the operands have the same shape. -/
theorem Shape.orWith (h : Shape n w l) (hother : Wide n w other) :
    ∃ r, l.orWith other = some r ∧ Shape n w r ∧ (Shape n w other →
      r.sets = ⟨l.layers.length, fun i => l.ids i ∪ other.ids i⟩) := by
  have hcovers := h.covers hother
  refine ⟨_, Option.map_eq_some_iff.mpr ⟨_, (zipLayers_eq orWith_eq _ _ _).mpr ⟨hcovers, rfl⟩, rfl⟩, h.zipWith hother _, ?_⟩
  intro hsame
  have hholds : Holds l other := by
    intro i id hid
    have hlt : i < l.layers.length := by
      by_contra hge
      rw [ids_eq_empty (List.getElem?_eq_none (by rw [hsame.layers]; rw [h.layers] at hge; omega))] at hid
      cases hid
    refine ⟨_, List.getElem?_eq_getElem hlt, ?_⟩
    have hlt' : i < other.layers.length := by
      rw [hsame.layers, ← h.layers]
      exact hlt
    rw [ids_eq (List.getElem?_eq_getElem hlt'), ExpertSet.ids, mem_denote (by decide)] at hid
    have hbit := lt_of_bitOf (by decide) hid
    rw [h.words _ (List.getElem_mem hlt)]
    rwa [hsame.words _ (List.getElem_mem hlt')] at hbit
  obtain ⟨r, hr, hsets⟩ := (orWith_iff l other).mpr ⟨hcovers, hholds⟩
  obtain ⟨rs, hrs, rfl⟩ := Option.map_eq_some_iff.mp hr
  rw [((zipLayers_eq orWith_eq _ _ _).mp hrs).2] at hsets
  exact hsets

/-- A difference returns, and is one. -/
theorem Shape.andnotWith (h : Shape n w l) (hother : Wide n w other) :
    ∃ r, l.andnotWith other = some r ∧ Shape n w r ∧ r.sets = ⟨l.layers.length, fun i => l.ids i \ other.ids i⟩ := by
  obtain ⟨r, hr, hsets⟩ := (andnotWith_iff l other).mpr (h.covers hother)
  obtain ⟨rs, hrs, rfl⟩ := Option.map_eq_some_iff.mp hr
  refine ⟨_, hr, ?_, hsets⟩
  rw [((zipLayers_eq andnotWith_eq _ _ _).mp hrs).2]
  exact h.zipWith hother _

/-! ## Counting -/

theorem card_pairs (l : ExpertLayers) : l.popcount = l.pairs.card := by
  rw [ExpertLayers.popcount, ExpertLayers.pairs, Finset.card_sigma, Finset.sum_range]
  rw [← List.sum_ofFn]
  congr 1
  apply List.ext_getElem
  · rw [List.length_map, List.length_ofFn]
  · intro i hi _
    rw [List.length_map] at hi
    rw [List.getElem_map, List.getElem_ofFn, popcount_eq_card, ids_eq (List.getElem?_eq_getElem hi)]

/-- What a layer has, the pairs have. -/
theorem mem_pairs {x : Σ _ : Nat, Nat} : x ∈ l.pairs ↔ x.2 ∈ l.ids x.1 := by
  rw [ExpertLayers.pairs, Finset.mem_sigma, Finset.mem_range, and_iff_right_iff_imp]
  intro hx
  by_contra hge
  rw [ids_eq_empty (List.getElem?_eq_none (not_lt.mp hge))] at hx
  cases hx

theorem pairs_union {r : ExpertLayers} (h : r.sets = ⟨l.layers.length, fun i => l.ids i ∪ other.ids i⟩) :
    r.pairs = l.pairs ∪ other.pairs := by
  have hids := congrArg Sets.ids h
  ext x
  rw [Finset.mem_union, mem_pairs, mem_pairs, mem_pairs, ← Finset.mem_union]
  exact iff_of_eq (congrArg (x.2 ∈ ·) (congrFun hids x.1))

end Sizes

end S2Moe.Prune
