import Mathlib.Data.List.Basic
import Mathlib.Data.List.Infix
import Mathlib.Tactic.SplitIfs

/-!
# Text

`find` and `replace` of `std::string`, over any characters.

* `find` : the first occurrence from a position on;
* `splice` : a part of the text exchanged for another text.
-/

namespace S2Moe.Lib

section Text
variable {α : Type}

/-- The text `new` in the place of the `len` characters from `pos` on. -/
def splice (s : List α) (pos len : Nat) (new : List α) : List α := s.take pos ++ new ++ s.drop (pos + len)

/-- What stands behind the new text is as it was. -/
theorem drop_splice {s new : List α} {pos len : Nat} (h : pos ≤ s.length) :
    (splice s pos len new).drop (pos + new.length) = s.drop (pos + len) := by
  have hlen : (s.take pos ++ new).length = pos + new.length := by
    rw [List.length_append, List.length_take_of_le h]
  rw [splice, ← hlen, List.drop_left]

variable [DecidableEq α]

/-- The first position from `pos` on where `pat` stands in `s`. -/
def find (s pat : List α) (pos : Nat) : Option Nat :=
  (List.range (s.length + 1)).find? fun i => decide (pos ≤ i ∧ pat <+: s.drop i)

variable {s pat : List α} {pos i : Nat}

theorem find_eq_some : find s pat pos = some i ↔
    (i ≤ s.length ∧ pos ≤ i ∧ pat <+: s.drop i) ∧ ∀ j, pos ≤ j → j < i → ¬ pat <+: s.drop j := by
  rw [find, List.find?_range_eq_some]
  simp only [decide_eq_true_eq, List.mem_range, Bool.not_eq_true', decide_eq_false_iff_not, not_and]
  constructor
  · rintro ⟨⟨hpos, hpat⟩, hlt, hmin⟩
    exact ⟨⟨by omega, hpos, hpat⟩, fun j hj hji => hmin j hji hj⟩
  · rintro ⟨⟨hlt, hpos, hpat⟩, hmin⟩
    exact ⟨⟨hpos, hpat⟩, by omega, fun j hji hj => hmin j hj hji⟩

/-- A text with nothing in it stands everywhere. -/
theorem find_nil (h : pos ≤ s.length) : find s [] pos = some pos := by
  rw [find_eq_some]
  exact ⟨⟨h, le_rfl, List.nil_prefix⟩, fun j hj hlt => absurd hlt (by omega)⟩

theorem find_length_le (h : find s pat pos = some i) : pos ≤ i ∧ i + pat.length ≤ s.length := by
  obtain ⟨⟨hle, hpos, hpat⟩, -⟩ := find_eq_some.mp h
  have := hpat.length_le
  rw [List.length_drop] at this
  exact ⟨hpos, by omega⟩

end Text

end S2Moe.Lib
