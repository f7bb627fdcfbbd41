import Mathlib

/-!
# Filling a capacity greedily

The items of a list are taken in turn as long as they fit into what is left; an item that does not fit is passed over.

* `fill` : the items taken;
* `sum_fill_le`, `lt_sum_fill` : they fit, and none that was passed over fits beside them;
* `fill_eq_take` : of items of one weight it is an initial part that is taken;
* `card_row_le` : a part of a grid that is closed under earlier columns has rows of the same length, up to one.
-/

namespace S2Moe.Lib

section Fill
variable {α : Type*} (w : α → Nat)

def fill (room : Nat) : List α → List α
  | [] => []
  | x :: xs => if w x ≤ room then x :: fill (room - w x) xs else fill room xs

theorem fill_sublist : ∀ (room : Nat) (xs : List α), (fill w room xs).Sublist xs
  | _, [] => List.nil_sublist _
  | room, x :: xs => by
    rw [fill]
    split
    · exact (fill_sublist (room - w x) xs).cons_cons x
    · exact (fill_sublist room xs).cons x

theorem sum_fill_le : ∀ (room : Nat) (xs : List α), ((fill w room xs).map w).sum ≤ room
  | _, [] => Nat.zero_le _
  | room, x :: xs => by
    rw [fill]
    split
    · have hle := sum_fill_le (room - w x) xs
      rw [List.map_cons, List.sum_cons]
      omega
    · exact sum_fill_le room xs

/-- An item that was passed over does not fit beside those that were taken. -/
theorem lt_sum_fill : ∀ (room : Nat) (xs : List α) {x : α}, x ∈ xs → x ∉ fill w room xs →
    room < ((fill w room xs).map w).sum + w x
  | _, [], _, hx, _ => absurd hx List.not_mem_nil
  | room, y :: ys, x, hx, hnot => by
    rw [fill] at hnot ⊢
    by_cases hfit : w y ≤ room
    · rw [if_pos hfit] at hnot ⊢
      rw [List.mem_cons, not_or] at hnot
      have hlt := lt_sum_fill (room - w y) ys ((List.mem_cons.mp hx).resolve_left hnot.1) hnot.2
      rw [List.map_cons, List.sum_cons]
      omega
    · rw [if_neg hfit] at hnot ⊢
      rcases List.mem_cons.mp hx with rfl | hx
      · omega
      · exact lt_sum_fill room ys hx hnot

theorem fill_eq_nil : ∀ (room : Nat) (xs : List α), (∀ x ∈ xs, room < w x) → fill w room xs = []
  | _, [], _ => rfl
  | room, x :: xs, h => by
    rw [fill, if_neg (not_le.mpr (h x List.mem_cons_self))]
    exact fill_eq_nil room xs fun y hy => h y (List.mem_cons_of_mem _ hy)

/-- Items of one weight are taken until the room is used up. -/
theorem fill_eq_take {c : Nat} : ∀ (room : Nat) (xs : List α), (∀ x ∈ xs, w x = c) →
    ∃ k, fill w room xs = xs.take k
  | _, [], _ => ⟨0, rfl⟩
  | room, x :: xs, h => by
    have hxs : ∀ y ∈ xs, w y = c := fun y hy => h y (List.mem_cons_of_mem _ hy)
    rw [fill]
    split
    · obtain ⟨k, hk⟩ := fill_eq_take (room - w x) xs hxs
      exact ⟨k + 1, by rw [hk, List.take_succ_cons]⟩
    · rename_i hfull
      refine ⟨0, fill_eq_nil w room xs fun y hy => ?_⟩
      rw [hxs y hy, ← h x List.mem_cons_self]
      exact not_le.mp hfull

end Fill

section Grid
variable {ι κ : Type*} [DecidableEq ι] [LinearOrder κ]

/-- Every column of the first row but the last one is a column of the second. -/
theorem card_row_le {s : Finset (ι × κ)} {l m : ι} (h : ∀ e ∈ s, e.1 = l → ∀ f, (l, f) ∈ s → f < e.2 → (m, f) ∈ s) :
    (s.filter fun e => e.1 = l).card ≤ (s.filter fun e => e.1 = m).card + 1 := by
  have hmem : ∀ f, f ∈ (s.filter fun e => e.1 = l).image Prod.snd ↔ (l, f) ∈ s := by
    intro f
    rw [Finset.mem_image]
    constructor
    · rintro ⟨⟨e, f⟩, he, rfl⟩
      obtain ⟨hin, rfl⟩ := Finset.mem_filter.mp he
      exact hin
    · exact fun hf => ⟨(l, f), Finset.mem_filter.mpr ⟨hf, rfl⟩, rfl⟩
  have hcard : ((s.filter fun e => e.1 = l).image Prod.snd).card = (s.filter fun e => e.1 = l).card := by
    refine Finset.card_image_of_injOn fun e he e' he' heq => Prod.ext ?_ heq
    rw [(Finset.mem_filter.mp he).2, (Finset.mem_filter.mp he').2]
  rw [← hcard]
  rcases ((s.filter fun e => e.1 = l).image Prod.snd).eq_empty_or_nonempty with hnil | hne
  · rw [hnil, Finset.card_empty]
    exact Nat.zero_le _
  · have hlast := Finset.max'_mem _ hne
    have hsub : (((s.filter fun e => e.1 = l).image Prod.snd).erase
        (((s.filter fun e => e.1 = l).image Prod.snd).max' hne)).map ⟨fun f => (m, f), fun _ _ h => (Prod.mk.inj h).2⟩ ⊆
        s.filter fun e => e.1 = m := by
      intro e he
      obtain ⟨f, hf, rfl⟩ := Finset.mem_map.mp he
      obtain ⟨hfne, hf⟩ := Finset.mem_erase.mp hf
      have hlt := lt_of_le_of_ne (Finset.le_max' _ f hf) hfne
      exact Finset.mem_filter.mpr ⟨h _ ((hmem _).mp hlast) rfl f ((hmem f).mp hf) hlt, rfl⟩
    have hle := Finset.card_le_card hsub
    rw [Finset.card_map, Finset.card_erase_of_mem hlast] at hle
    omega

end Grid

end S2Moe.Lib
