import Mathlib

/-!
# Support — Runs — machines that act one step at a time

A machine is a partial step on states and actions.  `Reached` are the states its runs come to, where
each step met a condition on the state before it and the action; `Reached.keeps` is the induction
every invariant goes by, and `reached_run` runs a list of actions.
-/

namespace Runs
variable {σ α : Type} {start : σ → Prop} {step : σ → α → Option σ} {C : σ → α → Prop}

/-- The states reached, where every step met `C`. -/
inductive Reached (start : σ → Prop) (step : σ → α → Option σ) (C : σ → α → Prop) : σ → Prop where
  | start {s : σ} (h : start s) : Reached start step C s
  | step {s s' : σ} {a : α} (h : Reached start step C s) (hC : C s a) (hs : step s a = some s') :
      Reached start step C s'

theorem Reached.keeps {I : σ → Prop} {s : σ} (h : Reached start step C s)
    (hstart : ∀ s, start s → I s)
    (hstep : ∀ s a s', I s → C s a → step s a = some s' → I s') : I s := by
  induction h with
  | start h => exact hstart _ h
  | step _ hC hs ih => exact hstep _ _ _ ih hC hs

variable [∀ s a, Decidable (C s a)]

/-- The state after some actions, where each is one the machine takes and meets `C`. -/
def run (step : σ → α → Option σ) (C : σ → α → Prop) [∀ s a, Decidable (C s a)] :
    σ → List α → Option σ
  | s, [] => some s
  | s, a :: rest =>
    if C s a then
      match step s a with
      | some s' => run step C s' rest
      | none => none
    else none

theorem reached_run {s s' : σ} (h : Reached start step C s) {actions : List α}
    (hrun : run step C s actions = some s') : Reached start step C s' := by
  induction actions generalizing s with
  | nil => exact Option.some.inj hrun ▸ h
  | cons a rest ih =>
    rw [run] at hrun
    split at hrun
    · rename_i hC
      split at hrun
      · rename_i next hs
        exact ih (h.step hC hs) hrun
      · cases hrun
    · cases hrun

end Runs
