import Mathlib.Logic.Function.Iterate
import Mathlib.Data.List.Basic

/-! Threads that take turns on a shared state: a schedule names who moves next, and each move
is one atomic step. -/
namespace Bootstrap.Interleaving

variable {τ σ κ : Type} [DecidableEq τ]

structure State (τ σ κ : Type) where
  threads : τ → σ
  shared : κ

def move (step : κ → σ → σ × κ) (s : State τ σ κ) (t : τ) : State τ σ κ :=
  ⟨Function.update s.threads t (step s.shared (s.threads t)).1, (step s.shared (s.threads t)).2⟩

def run (step : κ → σ → σ × κ) (s : State τ σ κ) (schedule : List τ) : State τ σ κ := schedule.foldl (move step) s

variable {step : κ → σ → σ × κ}

@[simp] theorem moveHere (s : State τ σ κ) (t : τ) : (move step s t).threads t = (step s.shared (s.threads t)).1 :=
  Function.update_self _ _ _

theorem moveOther (s : State τ σ κ) {t other : τ} (apart : other ≠ t) :
    (move step s t).threads other = s.threads other := Function.update_of_ne apart _ _

theorem runCons (s : State τ σ κ) (t : τ) (schedule : List τ) :
    run step s (t :: schedule) = run step (move step s t) schedule := rfl

theorem runInvariant (inv : State τ σ κ → Prop) (each : ∀ s t, inv s → inv (move step s t)) {s : State τ σ κ}
    (start : inv s) (schedule : List τ) : inv (run step s schedule) := by
  induction schedule generalizing s with
  | nil => exact start
  | cons t schedule ih => exact ih (each s t start)

theorem runKeeps {good : σ → Prop} (each : ∀ k a, good a → good (step k a).1) {s : State τ σ κ} {t : τ}
    (start : good (s.threads t)) (schedule : List τ) : good ((run step s schedule).threads t) := by
  have own : ∀ (s : State τ σ κ) (other : τ), good (s.threads t) → good ((move step s other).threads t) := by
    intro s other kept
    by_cases here : t = other
    · subst here
      rw [moveHere]
      exact each _ _ kept
    · rw [moveOther s here]
      exact kept
  exact runInvariant _ own start schedule

theorem runAlone (s : State τ σ κ) (t : τ) (n : Nat) :
    (run step s (List.replicate n t)).shared = ((fun x : σ × κ => step x.2 x.1)^[n] (s.threads t, s.shared)).2 ∧
    (run step s (List.replicate n t)).threads t =
      ((fun x : σ × κ => step x.2 x.1)^[n] (s.threads t, s.shared)).1 := by
  induction n generalizing s with
  | zero => exact ⟨rfl, rfl⟩
  | succ n ih =>
    have next := ih (move step s t)
    rw [moveHere] at next
    exact next

end Bootstrap.Interleaving
