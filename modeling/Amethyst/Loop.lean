/-!
# Amethyst.Loop

A loop whose passes go round with a new state or leave with a result, such as a `while (1)` with
`break`, `return` and `goto`. `Loop.leaves` is the rule for it: an invariant that every pass keeps and
a measure that every pass lowers give a last pass, from a state with the invariant.

`Loop.times` is a `for` loop that counts its passes, with the rule `Loop.times_rule`; `Loop.tryTimes`
is one with passes that may stop the machine, as `Loop.tryRun` is of `Loop.run`.
-/

namespace Amethyst

/-- What one pass does. -/
inductive Pass (σ ρ : Type) where
  | next (s : σ)
  | leave (r : ρ)

namespace Loop

variable {σ ρ : Type}

/-- The loop, for at most `n` passes. -/
def run (pass : σ → Pass σ ρ) : Nat → σ → Option ρ
  | 0, _ => none
  | n + 1, s =>
    match pass s with
    | .leave r => some r
    | .next s => run pass n s

/-- The state in which its last pass starts. -/
def last (pass : σ → Pass σ ρ) : Nat → σ → σ
  | 0, s => s
  | n + 1, s =>
    match pass s with
    | .leave _ => s
    | .next s => last pass n s

section

variable {pass : σ → Pass σ ρ} {n : Nat} {s s' : σ} {r : ρ}

theorem run_leave (h : pass s = .leave r) : run pass (n + 1) s = some r := by simp [run, h]

theorem last_leave (h : pass s = .leave r) : last pass (n + 1) s = s := by simp [last, h]

theorem run_next (h : pass s = .next s') : run pass (n + 1) s = run pass n s' := by simp [run, h]

theorem last_next (h : pass s = .next s') : last pass (n + 1) s = last pass n s' := by simp [last, h]

end

/-- By induction on the passes. -/
theorem leaves {pass : σ → Pass σ ρ} {inv : σ → Prop} (measure : σ → Nat)
    (step : ∀ s s', inv s → pass s = .next s' → inv s' ∧ measure s' < measure s) :
    ∀ n s, inv s → measure s < n → inv (last pass n s) ∧
      ∃ r, pass (last pass n s) = .leave r ∧ run pass n s = some r := by
  intro n
  induction n with
  | zero =>
    intro s _ hlt
    exact absurd hlt (Nat.not_lt_zero _)
  | succ n ih =>
    intro s hs hlt
    cases hp : pass s with
    | leave r =>
      rw [last_leave hp, run_leave hp]
      exact ⟨hs, r, hp, rfl⟩
    | next s' =>
      obtain ⟨hs', hless⟩ := step s s' hs hp
      rw [last_next hp, run_next hp]
      exact ih s' hs' (by omega)

/-- `for (i = 0; i < n; ++i)` -/
def times (body : Nat → σ → σ) : Nat → σ → σ
  | 0, s => s
  | n + 1, s => body n (times body n s)

/-- By induction on the passes. -/
theorem times_rule {f : Nat → σ → σ} {I : Nat → σ → Prop} {n : Nat} {s : σ} (start : I 0 s)
    (step : ∀ i < n, ∀ s, I i s → I (i + 1) (f i s)) : I n (times f n s) := by
  induction n with
  | zero => exact start
  | succ n ih => exact step n (Nat.lt_succ_self n) _ (ih fun i hi => step i (Nat.lt_succ_of_lt hi))

/-- The same with passes that may stop the machine. -/
def tryTimes (body : Nat → σ → Option σ) : Nat → σ → Option σ
  | 0, s => some s
  | n + 1, s => (tryTimes body n s).bind (body n)

theorem tryTimes_rule {f : Nat → σ → Option σ} {I : Nat → σ → Prop} {n : Nat} {s : σ}
    (start : I 0 s) (step : ∀ i < n, ∀ s, I i s → ∃ s', f i s = some s' ∧ I (i + 1) s') :
    ∃ s', tryTimes f n s = some s' ∧ I n s' := by
  induction n with
  | zero => exact ⟨s, rfl, start⟩
  | succ n ih =>
    obtain ⟨s₁, h1, hinv⟩ := ih fun i hi => step i (Nat.lt_succ_of_lt hi)
    obtain ⟨s', h2, hinv'⟩ := step n (Nat.lt_succ_self n) s₁ hinv
    exact ⟨s', by rw [tryTimes, h1, Option.bind_some, h2], hinv'⟩

/-- `run` with passes that may stop the machine. -/
def tryRun (pass : σ → Option (Pass σ ρ)) : Nat → σ → Option ρ
  | 0, _ => none
  | n + 1, s =>
    match pass s with
    | none => none
    | some (.leave r) => some r
    | some (.next s) => tryRun pass n s

section

variable {pass : σ → Option (Pass σ ρ)} {n : Nat} {s s' : σ} {r : ρ}

theorem tryRun_leave (h : pass s = some (.leave r)) : tryRun pass (n + 1) s = some r := by
  simp [tryRun, h]

theorem tryRun_next (h : pass s = some (.next s')) : tryRun pass (n + 1) s = tryRun pass n s' := by
  simp [tryRun, h]

end

end Loop
end Amethyst
