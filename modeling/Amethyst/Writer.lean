import Amethyst.Memory

/-!
# Amethyst.Writer

A pointer that stores and steps, `*str++ = c`, and the memory it stores to. `write` is what storing
a text byte after byte leaves, so that the loops of a formatter come down to the text they write.

* `write_append`: texts are written one after the other.
* `write_holds`, `write_frame`: the text is in memory where the pointer was, and nothing else has
  changed.
-/

namespace Amethyst

structure Writer (w : Nat) where
  str : BitVec w
  mem : Mem w

namespace Writer

variable {w : Nat} {o : Writer w} {c : BitVec 8} {s t text : List (BitVec 8)} {x : BitVec w}

/-- `*str++ = c` -/
def put (o : Writer w) (c : BitVec 8) : Writer w := ⟨o.str + 1, Function.update o.mem o.str c⟩

def write (o : Writer w) (text : List (BitVec 8)) : Writer w := text.foldl put o

@[simp] theorem write_nil : o.write [] = o := rfl

@[simp] theorem write_cons : o.write (c :: text) = (o.put c).write text := rfl

theorem write_append : o.write (s ++ t) = (o.write s).write t := List.foldl_append

theorem write_str : (o.write text).str = o.str + BitVec.ofNat w text.length := by
  induction text generalizing o with
  | nil => simp
  | cons c text ih =>
    rw [write_cons, ih, put, List.length_cons, Nat.add_comm, ← add_add_ofNat]
    rfl

/-- The first byte of a block and the rest. -/
theorem inRange_succ {a x : BitVec w} {n : Nat} :
    InRange a (n + 1) x ↔ x = a ∨ InRange (a + BitVec.ofNat w 1) n x := by
  obtain ⟨k, hk, rfl⟩ : ∃ k < 2 ^ w, x = a + BitVec.ofNat w k :=
    ⟨_, (x - a).isLt, (add_ofNat_sub a x).symm⟩
  cases k with
  | zero => simp [InRange]
  | succ k =>
    have hne : a + BitVec.ofNat w (k + 1) ≠ a := by
      intro h
      have := add_ofNat_inj (a := a) hk (Nat.two_pow_pos w) (h.trans (BitVec.add_zero a).symm)
      omega
    have hstep : a + BitVec.ofNat w (k + 1) = a + BitVec.ofNat w 1 + BitVec.ofNat w k := by
      rw [add_add_ofNat, Nat.add_comm]
    rw [inRange_add hk, or_iff_right hne, hstep, inRange_add (by omega)]
    omega

theorem write_frame (h : ¬ InRange o.str text.length x) : (o.write text).mem x = o.mem x := by
  induction text generalizing o with
  | nil => rfl
  | cons c text ih =>
    rw [List.length_cons, inRange_succ, not_or] at h
    have hrest : ¬ InRange (o.put c).str text.length x := h.2
    rw [write_cons, ih hrest]
    exact Function.update_of_ne h.1 _ _

theorem write_holds (h : text.length ≤ 2 ^ w) :
    (o.write text).mem.Holds o.str text.length fun i => text.getD i 0 := by
  induction text generalizing o with
  | nil => exact Mem.holds_zero
  | cons c text ih =>
    rw [List.length_cons] at h ⊢
    rw [Mem.holds_succ]
    refine ⟨?_, ih (o := o.put c) (by omega)⟩
    have hout : ¬ InRange (o.put c).str text.length o.str := by
      have h0 : ¬ InRange (o.str + BitVec.ofNat w 1) text.length (o.str + BitVec.ofNat w 0) :=
        not_inRange_of_lt Nat.zero_lt_one (by omega)
      rwa [BitVec.add_zero] at h0
    rw [write_cons, write_frame hout]
    exact Function.update_self _ _ _

end Writer
end Amethyst
