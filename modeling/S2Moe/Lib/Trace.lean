import Mathlib

/-!
# Runs of two machines in step

A step relates the state before and the state behind an operation; a trace has the operations of a run, the last one first.

* `Trace step s ops t` : `t` is reached from `s` by `ops`;
* `Trace.invariant` : what every step preserves;
* `Trace.simulate` : where each step of one machine is one of the other, for the same operation, the runs are in step.
-/

namespace S2Moe.Lib

variable {Op S T : Type*}

inductive Trace (step : Op → S → S → Prop) (s : S) : List Op → S → Prop
  | start : Trace step s [] s
  | step {ops : List Op} {t u : S} (op : Op) (h : Trace step s ops t) (hstep : step op t u) : Trace step s (op :: ops) u

namespace Trace
variable {step : Op → S → S → Prop} {step' : Op → T → T → Prop} {s t : S} {ops : List Op}

theorem invariant {I : S → Prop} (h : Trace step s ops t) (hs : I s) (hI : ∀ op t u, I t → step op t u → I u) : I t := by
  induction h with
  | start => exact hs
  | step op _ hstep ih => exact hI op _ _ ih hstep

/-- The invariant `I` is what the steps rely on, `view` is the other machine's state. -/
theorem simulate {I : S → Prop} {view : S → T} (h : Trace step s ops t) (hs : I s)
    (hI : ∀ op t u, I t → step op t u → I u) (hview : ∀ op t u, I t → step op t u → step' op (view t) (view u)) :
    Trace step' (view s) ops (view t) := by
  induction h with
  | start => exact .start
  | step op h hstep ih => exact .step op ih (hview op _ _ (h.invariant hs hI) hstep)

end Trace

end S2Moe.Lib
