import Mathlib
import S2Moe.Lib.Repeat

/-!
# Beginnings of words

* `begins L` : what the words of a language start with, nothing apart;
* `cuts Ls` : words of the first languages of a list, of one at least, behind each other;
* `begins_mul`, `begins_repeats` : where a word behind another, or a word that is repeated, may be broken off;
* `begins_prod_le_cuts` : a word of languages behind each other that is broken off is a word of the first ones, where each
of them may be broken off.
-/

namespace S2Moe.Lib

section Begins
variable {α : Type*} {L M : Language α}

/-- What the words of the language start with, nothing apart. -/
def begins (L : Language α) : Language α := {u | u ≠ [] ∧ ∃ w ∈ L, u <+: w}

theorem mem_begins {u : List α} : u ∈ begins L ↔ u ≠ [] ∧ ∃ w ∈ L, u <+: w := Iff.rfl

theorem begins_one : begins (1 : Language α) = 0 := by
  ext u
  rw [mem_begins]
  constructor
  · rintro ⟨hne, w, rfl, hu⟩
    exact absurd (List.prefix_nil.mp hu) hne
  · intro h
    exact absurd h (Language.notMem_zero u)

theorem begins_add : begins (L + M) = begins L + begins M := by
  ext u
  simp only [Language.mem_add, mem_begins, or_and_right, exists_or, and_or_left]

/-- A word behind another is broken off in the first or behind it. -/
theorem begins_mul {u : List α} (h : u ∈ begins (L * M)) : u ∈ begins L ∨ u ∈ L * begins M := by
  obtain ⟨hne, w, hw, t, ht⟩ := h
  obtain ⟨a, ha, b, hb, rfl⟩ := Language.mem_mul.mp hw
  rcases List.append_eq_append_iff.mp ht with ⟨c, rfl, -⟩ | ⟨c, rfl, rfl⟩
  · exact .inl ⟨hne, _, ha, List.prefix_append u c⟩
  · by_cases hc : c = []
    · subst hc
      rw [List.append_nil] at hne ⊢
      exact .inl ⟨hne, a, ha, List.prefix_refl a⟩
    · exact .inr (Language.append_mem_mul ha ⟨hc, _, hb, List.prefix_append c t⟩)

theorem pow_subset (h : ∀ w ∈ L, w ∈ M) (n : Nat) : ∀ w ∈ L ^ n, w ∈ M ^ n := by
  induction n with
  | zero => exact fun w hw => hw
  | succ n ih =>
      intro w hw
      rw [pow_succ'] at hw ⊢
      obtain ⟨a, ha, b, hb, rfl⟩ := Language.mem_mul.mp hw
      exact Language.append_mem_mul (h a ha) (ih b hb)

theorem repeats_subset (h : ∀ w ∈ L, w ∈ M) (lo : Nat) (hi : Option Nat) : ∀ w ∈ repeats L lo hi, w ∈ repeats M lo hi := by
  rintro w ⟨k, hlo, hhi, hw⟩
  exact ⟨k, hlo, hhi, pow_subset h k w hw⟩

/-- A word that is repeated is broken off in one of its repetitions. -/
theorem begins_pow (h : ∀ w ∈ L, w ∈ M) (hbegins : ∀ u ∈ begins L, u ∈ M) (n : Nat) :
    ∀ u ∈ begins (L ^ n), ∃ k, 1 ≤ k ∧ k ≤ n ∧ u ∈ M ^ k := by
  induction n with
  | zero =>
      intro u hu
      rw [pow_zero, begins_one] at hu
      exact absurd hu (Language.notMem_zero u)
  | succ n ih =>
      intro u hu
      rw [pow_succ'] at hu
      rcases begins_mul hu with hu | hu
      · refine ⟨1, le_rfl, Nat.le_add_left 1 n, ?_⟩
        rw [pow_one]
        exact hbegins u hu
      · obtain ⟨a, ha, b, hb, rfl⟩ := Language.mem_mul.mp hu
        obtain ⟨k, -, hk, hmem⟩ := ih b hb
        refine ⟨k + 1, Nat.le_add_left 1 k, Nat.succ_le_succ hk, ?_⟩
        rw [pow_succ']
        exact Language.append_mem_mul (h a ha) hmem

theorem begins_repeats {lo : Nat} {hi : Option Nat} (h : ∀ w ∈ L, w ∈ M) (hbegins : ∀ u ∈ begins L, u ∈ M) (hlo : lo ≤ 1) :
    ∀ u ∈ begins (repeats L lo hi), u ∈ repeats M lo hi := by
  rintro u ⟨hne, w, ⟨n, -, hhi, hw⟩, hu⟩
  obtain ⟨k, hk, hkn, hmem⟩ := begins_pow h hbegins n u ⟨hne, w, hw, hu⟩
  exact ⟨k, hlo.trans hk, fun b hb => hkn.trans (hhi b hb), hmem⟩

theorem reverse_repeats (lo : Nat) (hi : Option Nat) : (repeats L lo hi).reverse = repeats L.reverse lo hi := by
  ext w
  rw [Language.mem_reverse, mem_repeats, mem_repeats]
  simp only [← Language.reverse_pow, Language.mem_reverse]

end Begins

section Cuts
variable {α : Type*}

/-- Words of the first languages, of one at least, behind each other. -/
def cuts : List (Language α) → Language α
  | [] => 0
  | L :: Ls => L + L * cuts Ls

theorem cuts_singleton (L : Language α) : cuts [L] = L := by
  rw [cuts, cuts, mul_zero, add_zero]

theorem prod_subset_cuts {Ls : List (Language α)} (hne : Ls ≠ []) : ∀ w ∈ Ls.prod, w ∈ cuts Ls := by
  induction Ls with
  | nil => exact absurd rfl hne
  | cons L Ls ih =>
      intro w hw
      rw [List.prod_cons] at hw
      by_cases hnil : Ls = []
      · subst hnil
        rw [List.prod_nil, mul_one] at hw
        exact .inl hw
      · obtain ⟨a, ha, b, hb, rfl⟩ := Language.mem_mul.mp hw
        exact .inr (Language.append_mem_mul ha (ih hnil b hb))

theorem prod_subset {Ls Ms : List (Language α)} (h : List.Forall₂ (fun L M => ∀ w ∈ L, w ∈ M) Ls Ms) :
    ∀ w ∈ Ls.prod, w ∈ Ms.prod := by
  induction h with
  | nil => exact fun w hw => hw
  | cons h _ ih =>
      intro w hw
      rw [List.prod_cons] at hw ⊢
      obtain ⟨a, ha, b, hb, rfl⟩ := Language.mem_mul.mp hw
      exact Language.append_mem_mul (h a ha) (ih b hb)

/-- **A word of languages behind each other that is broken off** is a word of the first ones. -/
theorem begins_prod_subset_cuts {Ls Ms : List (Language α)}
    (h : List.Forall₂ (fun L M => (∀ w ∈ L, w ∈ M) ∧ ∀ u ∈ begins L, u ∈ M) Ls Ms) : ∀ u ∈ begins Ls.prod, u ∈ cuts Ms := by
  induction h with
  | nil =>
      intro u hu
      rw [List.prod_nil, begins_one] at hu
      exact absurd hu (Language.notMem_zero u)
  | cons h _ ih =>
      intro u hu
      rw [List.prod_cons] at hu
      rcases begins_mul hu with hu | hu
      · exact .inl (h.2 u hu)
      · obtain ⟨a, ha, b, hb, rfl⟩ := Language.mem_mul.mp hu
        exact .inr (Language.append_mem_mul (h.1 a ha) (ih b hb))

/-- Where each language has a word, words of the first ones can be gone on with. -/
theorem exists_prod_of_cuts {Ls : List (Language α)} (h : ∀ L ∈ Ls, ∃ w, w ∈ L) : ∀ u ∈ cuts Ls, ∃ w ∈ Ls.prod, u <+: w := by
  induction Ls with
  | nil => exact fun u hu => absurd hu (Language.notMem_zero u)
  | cons L Ls ih =>
      have hrest : ∀ M ∈ Ls, ∃ w, w ∈ M := fun M hM => h M (List.mem_cons_of_mem L hM)
      have hword : ∃ w, w ∈ Ls.prod := by
        clear ih h
        induction Ls with
        | nil => exact ⟨[], rfl⟩
        | cons M Ms ih =>
            obtain ⟨a, ha⟩ := hrest M List.mem_cons_self
            obtain ⟨b, hb⟩ := ih fun N hN => hrest N (List.mem_cons_of_mem M hN)
            exact ⟨a ++ b, Language.append_mem_mul ha hb⟩
      intro u hu
      rw [List.prod_cons]
      rcases hu with hu | hu
      · obtain ⟨w, hw⟩ := hword
        exact ⟨u ++ w, Language.append_mem_mul hu hw, List.prefix_append u w⟩
      · obtain ⟨a, ha, b, hb, rfl⟩ := Language.mem_mul.mp hu
        obtain ⟨w, hw, hprefix⟩ := ih hrest b hb
        exact ⟨a ++ w, Language.append_mem_mul ha hw, (List.prefix_append_right_inj a).mpr hprefix⟩

/-- Nothing is read of the first languages only if nothing is a word of the first one. -/
theorem nil_mem_cuts {L : Language α} {Ls : List (Language α)} (h : [] ∈ cuts (L :: Ls)) : [] ∈ L := by
  rcases h with h | h
  · exact h
  · obtain ⟨a, ha, b, -, hab⟩ := Language.mem_mul.mp h
    rwa [(List.append_eq_nil_iff.mp hab).1] at ha

end Cuts

end S2Moe.Lib
