import Mathlib.Logic.Basic

/-!
# Runs of a partial state machine

`step op s` is the state after `op`, or nothing if the operation does not return. A run may be restricted to steps that
satisfy a condition on the state they start from.

* `Reaches step ok s t` : `t` is reached from `s` by operations that are each `ok` where they are applied;
* `Reaches.invariant` : what such steps preserve holds in every state reached;
* `runList` : the operations of a list in turn;
* `bind_eq_ok`, `map_eq_ok` : what a computation that goes on has returned.
-/

namespace S2Moe.Lib

/-- Keys of two numbers. -/
instance lawfulBEq_pair : LawfulBEq (Int × Int) := inferInstance

variable {Op S : Type*}

inductive Reaches (step : Op → S → Option S) (ok : S → Op → Prop) (s : S) : S → Prop
  | start : Reaches step ok s s
  | step {t u : S} (op : Op) (h : Reaches step ok s t) (hok : ok t op) (hstep : step op t = some u) :
      Reaches step ok s u

theorem Reaches.invariant {step : Op → S → Option S} {ok : S → Op → Prop} {s t : S} {I : S → Prop}
    (h : Reaches step ok s t) (hs : I s)
    (hI : ∀ t u op, I t → ok t op → step op t = some u → I u) : I t := by
  induction h with
  | start => exact hs
  | step op _ hok hstep ih => exact hI _ _ op ih hok hstep

theorem Reaches.mono {step : Op → S → Option S} {ok ok' : S → Op → Prop} {s t : S} (h : Reaches step ok s t)
    (hok : ∀ t op, ok t op → ok' t op) : Reaches step ok' s t := by
  induction h with
  | start => exact .start
  | step op _ h hstep ih => exact .step op ih (hok _ op h) hstep

def runList (step : Op → S → Option S) : List Op → S → Option S
  | [], s => some s
  | op :: ops, s =>
    match step op s with
    | none => none
    | some s => runList step ops s

theorem Reaches.runList {step : Op → S → Option S} {ok : S → Op → Prop} {s : S} :
    ∀ {ops : List Op} {t u : S}, Reaches step ok s t → (∀ op ∈ ops, ∀ v, ok v op) → runList step ops t = some u →
      Reaches step ok s u
  | [], t, u, h, _, hrun => by
    cases hrun
    exact h
  | op :: ops, t, u, h, hok, hrun => by
    rw [Lib.runList] at hrun
    cases hstep : step op t with
    | none =>
        rw [hstep] at hrun
        cases hrun
    | some v =>
        rw [hstep] at hrun
        exact Reaches.runList (h.step op (hok op List.mem_cons_self t) hstep)
          (fun o ho => hok o (List.mem_cons_of_mem _ ho)) hrun

/-- A run that checks each operation before it is applied. -/
theorem Reaches.checked {step : Op → S → Option S} {ok : S → Op → Prop} [∀ s op, Decidable (ok s op)] {s : S} :
    ∀ (ops : List Op) {t u : S}, Reaches step ok s t →
      Lib.runList (fun op s => if ok s op then step op s else none) ops t = some u → Reaches step ok s u
  | [], t, u, h, hrun => by
    cases hrun
    exact h
  | op :: ops, t, u, h, hrun => by
    rw [Lib.runList] at hrun
    by_cases hok : ok t op
    · rw [if_pos hok] at hrun
      cases hstep : step op t with
      | none =>
          rw [hstep] at hrun
          cases hrun
      | some v =>
          rw [hstep] at hrun
          exact Reaches.checked ops (h.step op hok hstep) hrun
    · rw [if_neg hok] at hrun
      cases hrun

section Except
variable {ε α β : Type}

theorem bind_eq_ok {x : Except ε α} {f : α → Except ε β} {b : β} (h : (x >>= f) = .ok b) : ∃ a, x = .ok a ∧ f a = .ok b := by
  cases x with
  | error e => cases h
  | ok a => exact ⟨a, rfl, h⟩

theorem map_eq_ok {x : Except ε α} {f : α → β} {b : β} (h : f <$> x = .ok b) : ∃ a, x = .ok a ∧ f a = b := by
  cases x with
  | error e => cases h
  | ok a => exact ⟨a, rfl, by cases h; rfl⟩

end Except

end S2Moe.Lib
