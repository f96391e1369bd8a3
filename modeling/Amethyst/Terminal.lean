import Mathlib.Logic.Function.Basic
import Mathlib.Tactic.Common

/-!
# Amethyst.Terminal

A screen of text: a grid of cells, and a cursor that may stand one past the last column or row until the
next character is written. When the rows are used up, writing goes on in the first one; nothing scrolls.
-/

namespace Amethyst

structure Terminal (α : Type*) where
  col : Nat
  row : Nat
  cells : Nat → Nat → Option α

namespace Terminal

variable {α : Type*} (cols rows : Nat)

def home : Terminal α := ⟨0, 0, fun _ _ => none⟩

/-- The cell that is written next. -/
def wrap (t : Terminal α) : Terminal α :=
  let t := if t.col < cols then t else { t with col := 0, row := t.row + 1 }
  if t.row < rows then t else { t with row := 0 }

def put (x : α) (t : Terminal α) : Terminal α :=
  let t := t.wrap cols rows
  { t with
    col := t.col + 1
    cells := fun col row => if col = t.col ∧ row = t.row then some x else t.cells col row }

def newline (t : Terminal α) : Terminal α :=
  let t := t.wrap cols rows
  { t with col := 0, row := t.row + 1 }

/-- The start of the line. -/
def lineStart (t : Terminal α) : Terminal α := { t.wrap cols rows with col := 0 }

/-- Nothing is written anywhere, and the cursor stays. -/
def wipe (t : Terminal α) : Terminal α := { t with cells := fun _ _ => none }

/-- What is written is in the grid. -/
structure Within (t : Terminal α) : Prop where
  col : ∀ col row x, t.cells col row = some x → col < cols
  row : ∀ col row x, t.cells col row = some x → row < rows

section

variable {cols rows} {t : Terminal α}

@[simp] theorem wrap_cells : (t.wrap cols rows).cells = t.cells := by
  simp only [wrap]
  split <;> split <;> rfl

theorem wrap_lt (hcols : 0 < cols) (hrows : 0 < rows) :
    (t.wrap cols rows).col < cols ∧ (t.wrap cols rows).row < rows := by
  simp only [wrap]
  split
  · next hc =>
    split
    · next hr => exact ⟨hc, hr⟩
    · exact ⟨hc, hrows⟩
  · split
    · next hr => exact ⟨hcols, hr⟩
    · exact ⟨hcols, hrows⟩

theorem home_within : (home : Terminal α).Within cols rows where
  col _ _ _ h := by cases h
  row _ _ _ h := by cases h

theorem Within.put (h : t.Within cols rows) (hcols : 0 < cols) (hrows : 0 < rows) (x : α) :
    (t.put cols rows x).Within cols rows := by
  obtain ⟨hcol, hrow⟩ := @wrap_lt α cols rows t hcols hrows
  have hcell : ∀ col row y, (t.put cols rows x).cells col row = some y → col < cols ∧ row < rows := by
    intro col row y hy
    simp only [Terminal.put, wrap_cells] at hy
    split at hy
    · next he => exact ⟨he.1 ▸ hcol, he.2 ▸ hrow⟩
    · exact ⟨h.col col row y hy, h.row col row y hy⟩
  exact ⟨fun col row y hy => (hcell col row y hy).1, fun col row y hy => (hcell col row y hy).2⟩

theorem Within.newline (h : t.Within cols rows) : (t.newline cols rows).Within cols rows := by
  have hcells : (t.newline cols rows).cells = t.cells := wrap_cells
  exact ⟨hcells ▸ h.col, hcells ▸ h.row⟩

theorem Within.lineStart (h : t.Within cols rows) : (t.lineStart cols rows).Within cols rows := by
  have hcells : (t.lineStart cols rows).cells = t.cells := wrap_cells
  exact ⟨hcells ▸ h.col, hcells ▸ h.row⟩

theorem wipe_within : t.wipe.Within cols rows where
  col _ _ _ h := by cases h
  row _ _ _ h := by cases h

end

end Terminal
end Amethyst
