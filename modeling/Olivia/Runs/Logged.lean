import Mathlib.Data.List.Basic

/-! # Runs that keep a log

Every step of a transition relation adds a few entries to a log, newest first. The log is
not part of the state: no step can depend on it, and a condition on a run is a condition on
its log.
-/
namespace Runs
variable {σ α : Type*}

inductive Logged (Step : σ → List α → σ → Prop) (init : σ) : σ → List α → Prop
  | start : Logged Step init init []
  | step {s t log entries} (h : Logged Step init s log) (hst : Step s entries t) :
      Logged Step init t (entries ++ log)

namespace Logged
variable {Step : σ → List α → σ → Prop} {init s t : σ} {log entries : List α}

/-- An invariant of states and logs that every step preserves. -/
theorem invariant {I : σ → List α → Prop} (hinit : I init [])
    (hstep : ∀ {s log entries t}, I s log → Step s entries t → I t (entries ++ log))
    (h : Logged Step init s log) : I s log := by
  induction h with
  | start => exact hinit
  | step _ hst ih => exact hstep ih hst

end Logged

end Runs
