import Mathlib.Data.List.Basic

/-!
# Amethyst.Packed12

Twelve-bit values packed two to three bytes, little endian. Value `c` starts in byte `c + c / 2`: an
even one has its low eight bits there and its high four bits in the low half of the next byte, an
odd one has its low four bits in the high half and its high eight bits in the next byte.

`Packed12 n v b` says that the bytes `b` hold the values `v 0`, .., `v (n - 1)`. The half byte after
an odd number of values is free. `pack12` writes such bytes, `entry12` reads a value back.
-/

namespace Amethyst

def pack12 : List (BitVec 12) → List (BitVec 8)
  | [] => []
  | [u] => [u.extractLsb' 0 8, (0 : BitVec 4) ++ u.extractLsb' 8 4]
  | u :: v :: vs =>
    u.extractLsb' 0 8 :: (v.extractLsb' 0 4 ++ u.extractLsb' 8 4) :: v.extractLsb' 4 8 :: pack12 vs

def entry12 (b : Nat → BitVec 8) (c : Nat) : BitVec 12 :=
  if c % 2 = 0 then (b (c + c / 2 + 1)).extractLsb' 0 4 ++ b (c + c / 2)
  else b (c + c / 2 + 1) ++ (b (c + c / 2)).extractLsb' 4 4

structure Packed12 (n : Nat) (v : Nat → BitVec 12) (b : Nat → BitVec 8) : Prop where
  even : ∀ c < n, c % 2 = 0 → b (c + c / 2) = (v c).extractLsb' 0 8 ∧
    (b (c + c / 2 + 1)).extractLsb' 0 4 = (v c).extractLsb' 8 4
  odd : ∀ c < n, c % 2 = 1 → (b (c + c / 2)).extractLsb' 4 4 = (v c).extractLsb' 0 4 ∧
    b (c + c / 2 + 1) = (v c).extractLsb' 4 8

theorem append_eq_iff {k m : Nat} {x : BitVec k} {y : BitVec m} {z : BitVec (k + m)} :
    x ++ y = z ↔ y = z.extractLsb' 0 m ∧ x = z.extractLsb' m k := by
  constructor
  · intro h
    subst h
    constructor
    · apply BitVec.eq_of_getLsbD_eq
      intro i hi
      simp [BitVec.getLsbD_append, hi]
    · apply BitVec.eq_of_getLsbD_eq
      intro i hi
      simp [BitVec.getLsbD_append, hi]
  · intro ⟨hy, hx⟩
    rw [hx, hy]
    simp

/-- Reading a value back undoes the packing, and nothing else does. -/
theorem packed12_iff {n : Nat} {v : Nat → BitVec 12} {b : Nat → BitVec 8} :
    Packed12 n v b ↔ ∀ c < n, entry12 b c = v c := by
  constructor
  · intro h c hc
    rw [entry12]
    split
    · rename_i hp
      exact append_eq_iff.mpr (h.even c hc hp)
    · rename_i hp
      exact append_eq_iff.mpr (h.odd c hc (by omega))
  · intro h
    constructor
    · intro c hc hp
      have he := h c hc
      rw [entry12, if_pos hp] at he
      exact append_eq_iff.mp he
    · intro c hc hp
      have he := h c hc
      rw [entry12, if_neg (by omega)] at he
      exact append_eq_iff.mp he

theorem Packed12.congr {n : Nat} {v : Nat → BitVec 12} {b b' : Nat → BitVec 8}
    (h : Packed12 n v b) (he : ∀ i < n + n / 2 + 1, b' i = b i) : Packed12 n v b' := by
  constructor
  · intro c hc hp
    rw [he _ (by omega), he _ (by omega)]
    exact h.even c hc hp
  · intro c hc hp
    rw [he _ (by omega), he _ (by omega)]
    exact h.odd c hc hp

theorem packed12_pack12 (vs : List (BitVec 12)) :
    Packed12 vs.length (fun c => vs.getD c 0) fun i => (pack12 vs).getD i 0 := by
  rw [packed12_iff]
  fun_induction pack12 vs with
  | case1 => exact fun c hc => absurd hc (Nat.not_lt_zero c)
  | case2 u =>
    intro c hc
    have : c = 0 := by simpa using hc
    subst this
    exact append_eq_iff.mpr ⟨rfl, (append_eq_iff.mp rfl).1.symm⟩
  | case3 u v vs ih =>
    intro c hc
    match c, hc with
    | 0, _ => exact append_eq_iff.mpr ⟨rfl, (append_eq_iff.mp rfl).1.symm⟩
    | 1, _ => exact append_eq_iff.mpr ⟨(append_eq_iff.mp rfl).2.symm, rfl⟩
    | c + 2, hc =>
      have hoff : c + 2 + (c + 2) / 2 = c + c / 2 + 3 := by omega
      have hpar : (c + 2) % 2 = c % 2 := by omega
      have := ih c (by simpa using hc)
      simp only [entry12, hoff, hpar] at this ⊢
      exact this

end Amethyst
