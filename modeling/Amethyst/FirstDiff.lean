import Mathlib.Data.List.Lex

/-!
# Amethyst.FirstDiff

The first position where two lists differ, with an element `e` behind the end of each. A lexicographic
order with least element `e` asks for the two elements at that position only (`lex_iff_firstDiff`).

`firstDiff_three`: of three lists, the third pair differs first where one of the other two does, with the
same elements, or all three differ at one position.
-/

namespace Amethyst

variable {α : Type*} [DecidableEq α]

/-- The elements at the first position where the lists differ. -/
def firstDiff (e : α) : List α → List α → Option (α × α)
  | [], [] => none
  | [], y :: _ => some (e, y)
  | x :: _, [] => some (x, e)
  | x :: a, y :: b => if x = y then firstDiff e a b else some (x, y)

variable {e x y : α} {a b : List α}

theorem firstDiff_cons_self : firstDiff e (x :: a) (x :: b) = firstDiff e a b := if_pos rfl

theorem firstDiff_cons_ne (h : x ≠ y) : firstDiff e (x :: a) (y :: b) = some (x, y) := if_neg h

theorem firstDiff_swap (a b : List α) : firstDiff e b a = (firstDiff e a b).map Prod.swap := by
  induction a generalizing b with
  | nil => cases b <;> rfl
  | cons x a ih =>
    cases b with
    | nil => rfl
    | cons y b =>
      by_cases h : x = y
      · subst h
        rw [firstDiff_cons_self, firstDiff_cons_self, ih]
      · rw [firstDiff_cons_ne h, firstDiff_cons_ne (Ne.symm h)]
        rfl

/-- What holds of the exchanged elements holds of the lists exchanged. -/
theorem exists_firstDiff_swap {P : α → α → Prop} :
    (∃ p ∈ firstDiff e b a, P p.1 p.2) ↔ ∃ p ∈ firstDiff e a b, P p.2 p.1 := by
  rw [firstDiff_swap]
  cases firstDiff e a b with
  | none => simp
  | some p => simp

theorem firstDiff_ne (ha : e ∉ a) (hb : e ∉ b) (h : firstDiff e a b = some (x, y)) : x ≠ y := by
  induction a generalizing b with
  | nil =>
    cases b with
    | nil => cases h
    | cons w b =>
      cases h
      exact List.ne_of_not_mem_cons hb
  | cons u a ih =>
    cases b with
    | nil =>
      cases h
      exact (List.ne_of_not_mem_cons ha).symm
    | cons w b =>
      by_cases huw : u = w
      · subst huw
        rw [firstDiff_cons_self] at h
        exact ih (List.not_mem_of_not_mem_cons ha) (List.not_mem_of_not_mem_cons hb) h
      · rw [firstDiff_cons_ne huw] at h
        cases h
        exact huw

/-- A lexicographic order compares the two elements. -/
theorem lex_iff_firstDiff {r : α → α → Prop} (hirr : ∀ x, ¬ r x x) (hbot : ∀ x, ¬ r x e)
    (hleast : ∀ x, x ≠ e → r e x) (hb : e ∉ b) :
    List.Lex r a b ↔ ∃ p ∈ firstDiff e a b, r p.1 p.2 := by
  induction a generalizing b with
  | nil =>
    cases b with
    | nil => simp [firstDiff]
    | cons y b =>
      have hy : y ≠ e := fun h => hb (by simp [h])
      exact iff_of_true .nil ⟨(e, y), rfl, hleast y hy⟩
  | cons x a ih =>
    cases b with
    | nil => simp [firstDiff, hbot]
    | cons y b =>
      have hb' : e ∉ b := fun h => hb (List.mem_cons_of_mem _ h)
      by_cases h : x = y
      · subst h
        rw [firstDiff_cons_self, ← ih hb', List.cons_lex_cons_iff]
        simp [hirr]
      · rw [List.cons_lex_cons_iff, firstDiff_cons_ne h]
        simp [h]

/-- By induction on the lists. Where all three differ at one position and two of them end there, these
are the same. -/
theorem firstDiff_three {c : List α} {y' z : α} (ha : e ∉ a) (hb : e ∉ b) (hc : e ∉ c)
    (hab : firstDiff e a b = some (x, y)) (hbc : firstDiff e b c = some (y', z)) :
    firstDiff e a c = some (x, y) ∨ firstDiff e a c = some (y', z) ∨
      y = y' ∧ (x ≠ z → firstDiff e a c = some (x, z)) ∧ (x = e → z = e → a = c) := by
  induction a generalizing b c with
  | nil =>
    cases b with
    | nil => cases hab
    | cons w b =>
      cases hab
      cases c with
      | nil =>
        cases hbc
        exact .inr (.inr ⟨rfl, fun h => absurd rfl h, fun _ _ => rfl⟩)
      | cons v c =>
        by_cases h : y = v
        · subst h
          exact .inl rfl
        · rw [firstDiff_cons_ne h] at hbc
          cases hbc
          exact .inr (.inr ⟨rfl, fun _ => rfl, fun _ he => absurd he (List.ne_of_not_mem_cons hc).symm⟩)
  | cons u a ih =>
    have hu : u ≠ e := (List.ne_of_not_mem_cons ha).symm
    cases b with
    | nil =>
      cases hab
      cases c with
      | nil => cases hbc
      | cons v c =>
        cases hbc
        exact .inr (.inr ⟨rfl, fun h => firstDiff_cons_ne h, fun he => absurd he hu⟩)
    | cons w b =>
      cases c with
      | nil =>
        cases hbc
        by_cases h : u = y'
        · subst h
          exact .inr (.inl rfl)
        · rw [firstDiff_cons_ne h] at hab
          cases hab
          exact .inr (.inr ⟨rfl, fun _ => rfl, fun he => absurd he hu⟩)
      | cons v c =>
        by_cases h₁ : u = w
        · subst h₁
          rw [firstDiff_cons_self] at hab
          by_cases h₂ : u = v
          · subst h₂
            rw [firstDiff_cons_self] at hbc ⊢
            have h := ih (List.not_mem_of_not_mem_cons ha) (List.not_mem_of_not_mem_cons hb)
              (List.not_mem_of_not_mem_cons hc) hab hbc
            rwa [List.cons.injEq, eq_self, true_and]
          · rw [firstDiff_cons_ne h₂] at hbc ⊢
            exact .inr (.inl hbc)
        · rw [firstDiff_cons_ne h₁] at hab
          cases hab
          by_cases h₂ : y = v
          · subst h₂
            exact .inl (firstDiff_cons_ne h₁)
          · rw [firstDiff_cons_ne h₂] at hbc
            cases hbc
            exact .inr (.inr ⟨rfl, fun h => firstDiff_cons_ne h, fun he => absurd he hu⟩)

end Amethyst
