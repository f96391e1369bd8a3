import Mathlib.Data.List.Basic
import Mathlib.Tactic.Common

/-!
# Amethyst.Interleave

A program that runs while devices do something of their own: a sequence of its steps and their events, in
any order. What the events do not change depends on the steps alone.
-/

namespace Amethyst
namespace Interleave

variable {α ε σ τ : Type*}

def run (step : α → σ → σ) (event : ε → σ → σ) (es : List (α ⊕ ε)) (s : σ) : σ :=
  es.foldl (fun s e => e.elim (step · s) (event · s)) s

/-- The steps among a sequence of steps and events. -/
def steps (es : List (α ⊕ ε)) : List α := es.filterMap Sum.getLeft?

theorem steps_map_inl (l : List α) : steps (l.map Sum.inl : List (α ⊕ ε)) = l := by
  induction l with
  | nil => rfl
  | cons a l ih => exact congrArg (a :: ·) ih

/-- By induction on the sequence, for any state that it starts from. -/
theorem view_run {step : α → σ → σ} {event : ε → σ → σ} (view : σ → τ) {step' : α → τ → τ}
    (hstep : ∀ a s, view (step a s) = step' a (view s)) (hevent : ∀ e s, view (event e s) = view s)
    (es : List (α ⊕ ε)) (s : σ) :
    view (run step event es s) = (steps es).foldl (fun t a => step' a t) (view s) := by
  induction es generalizing s with
  | nil => rfl
  | cons e es ih =>
    cases e with
    | inl a =>
      have hrun : run step event (.inl a :: es) s = run step event es (step a s) := rfl
      have hsteps : steps (.inl a :: es : List (α ⊕ ε)) = a :: steps es := rfl
      rw [hrun, ih, hsteps, List.foldl_cons, hstep]
    | inr e =>
      have hrun : run step event (.inr e :: es) s = run step event es (event e s) := rfl
      have hsteps : steps (.inr e :: es : List (α ⊕ ε)) = steps es := rfl
      rw [hrun, ih, hsteps, hevent]

end Interleave
end Amethyst
