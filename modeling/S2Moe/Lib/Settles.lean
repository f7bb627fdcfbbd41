import Mathlib
import S2Moe.Lib.Run

/-!
# Computations that are given fuel

* `Settles f r` : from some fuel on `f` has the result `r`;
* `Settles.bind` : steps that settle, one behind the other;
* `Settles.unique` : there is one such result;
* `Agree f g` : from some fuel on `f` and `g` have the same result.
-/

namespace S2Moe.Lib

variable {ε α β : Type}

def Settles (f : Nat → Except ε α) (r : Except ε α) : Prop := ∃ bound, ∀ fuel ≥ bound, f fuel = r

namespace Settles
variable {f : Nat → Except ε α} {r r' : Except ε α}

theorem const (r : Except ε α) : Settles (fun _ => r) r := ⟨0, fun _ _ => rfl⟩

theorem unique (h : Settles f r) (h' : Settles f r') : r = r' := by
  obtain ⟨bound, hf⟩ := h
  obtain ⟨bound', hf'⟩ := h'
  rw [← hf _ (le_max_left bound bound'), hf' _ (le_max_right bound bound')]

/-- Both from the same fuel on. -/
theorem both {g : Nat → Except ε β} {s : Except ε β} (h : Settles f r) (h' : Settles g s) :
    ∃ bound, ∀ fuel ≥ bound, f fuel = r ∧ g fuel = s := by
  obtain ⟨bound, hf⟩ := h
  obtain ⟨bound', hg⟩ := h'
  exact ⟨max bound bound', fun fuel hfuel =>
    ⟨hf fuel ((le_max_left _ _).trans hfuel), hg fuel ((le_max_right _ _).trans hfuel)⟩⟩

/-- What follows is asked only where the first step has returned. -/
theorem bind {g : Nat → α → Except ε β} {k : α → Except ε β} (h : Settles f r)
    (hk : ∀ a, r = .ok a → Settles (fun fuel => g fuel a) (k a)) : Settles (fun fuel => f fuel >>= g fuel) (r >>= k) := by
  cases r with
  | error e =>
      obtain ⟨bound, hf⟩ := h
      refine ⟨bound, fun fuel hfuel => ?_⟩
      show f fuel >>= g fuel = _
      rw [hf fuel hfuel]
      rfl
  | ok a =>
      obtain ⟨bound, hrun⟩ := h.both (hk a rfl)
      refine ⟨bound, fun fuel hfuel => ?_⟩
      obtain ⟨hf, hg⟩ := hrun fuel hfuel
      show f fuel >>= g fuel = _
      rw [hf]
      exact hg

theorem bind_error {g : Nat → α → Except ε β} {e : ε} (h : Settles f (.error e)) :
    Settles (fun fuel => f fuel >>= g fuel) (.error e) := h.bind (k := fun _ => .error e) fun _ ha => by cases ha

/-- What follows a step that returns. -/
theorem bind_ok {g : Nat → α → Except ε β} {a : α} {r : Except ε β} (h : Settles f (.ok a))
    (hg : Settles (fun fuel => g fuel a) r) : Settles (fun fuel => f fuel >>= g fuel) r :=
  h.bind (k := fun _ => r) fun _ ha => Except.ok.inj ha ▸ hg

theorem map (h : Settles f r) (k : α → β) : Settles (fun fuel => k <$> f fuel) (k <$> r) := by
  obtain ⟨bound, hf⟩ := h
  exact ⟨bound, fun fuel hfuel => congrArg (fun x => k <$> x) (hf fuel hfuel)⟩

theorem mapError {δ : Type} (h : Settles f r) (k : ε → δ) : Settles (fun fuel => (f fuel).mapError k) (r.mapError k) := by
  obtain ⟨bound, hf⟩ := h
  exact ⟨bound, fun fuel hfuel => congrArg (fun x => Except.mapError k x) (hf fuel hfuel)⟩

end Settles

def Agree (f g : Nat → Except ε α) : Prop := ∃ bound, ∀ fuel ≥ bound, f fuel = g fuel

namespace Agree
variable {f g : Nat → Except ε α}

theorem refl (f : Nat → Except ε α) : Agree f f := ⟨0, fun _ _ => rfl⟩

theorem of_settles {r : Except ε α} (hf : Settles f r) (hg : Settles g r) : Agree f g := by
  obtain ⟨bound, hrun⟩ := hf.both hg
  exact ⟨bound, fun fuel hfuel => (hrun fuel hfuel).1.trans (hrun fuel hfuel).2.symm⟩

/-- What follows has to agree only where the first step returns. -/
theorem bind {h k : Nat → α → Except ε β} {r : Except ε α} (hfg : Agree f g) (hf : Settles f r)
    (hhk : ∀ a, r = .ok a → Agree (fun fuel => h fuel a) (fun fuel => k fuel a)) :
    Agree (fun fuel => f fuel >>= h fuel) (fun fuel => g fuel >>= k fuel) := by
  obtain ⟨bound, hfg⟩ := hfg
  obtain ⟨bound', hf⟩ := hf
  cases r with
  | error e =>
      refine ⟨max bound bound', fun fuel hfuel => ?_⟩
      show f fuel >>= h fuel = g fuel >>= k fuel
      rw [← hfg fuel ((le_max_left _ _).trans hfuel), hf fuel ((le_max_right _ _).trans hfuel)]
      rfl
  | ok a =>
      obtain ⟨bound'', hhk⟩ := hhk a rfl
      refine ⟨max bound (max bound' bound''), fun fuel hfuel => ?_⟩
      show f fuel >>= h fuel = g fuel >>= k fuel
      rw [← hfg fuel ((le_max_left _ _).trans hfuel),
        hf fuel (((le_max_left _ _).trans (le_max_right _ _)).trans hfuel)]
      exact hhk fuel (((le_max_right _ _).trans (le_max_right _ _)).trans hfuel)

theorem map (h : Agree f g) (k : α → β) : Agree (fun fuel => k <$> f fuel) (fun fuel => k <$> g fuel) := by
  obtain ⟨bound, hfg⟩ := h
  exact ⟨bound, fun fuel hfuel => congrArg (fun x => k <$> x) (hfg fuel hfuel)⟩

end Agree

end S2Moe.Lib
