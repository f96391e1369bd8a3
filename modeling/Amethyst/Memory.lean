import Mathlib.Algebra.Group.Nat.Defs
import Mathlib.Logic.Function.Basic

/-!
# Amethyst.Memory

Byte-addressed memory with `w`-bit addresses, as a total function. Addresses wrap: `InRange a n x`
says that `x` is one of the `n` bytes from `a` on. `fill` stores a block, `copy` is the byte loop of
`memcpy`, in ascending order, so that it is defined when the blocks overlap too.

* `fill_holds`, `fill_frame`: a block that was stored is read back, every other byte is as before.
* `copy_holds`, `copy_frame`: the same for the copy of a block, when no byte of it is overwritten
  before it is read.
* `read32_write32`, `write32_frame`: the same for a little-endian word.
* `field_setField_self`, `field_setField_of_apart`: the same for a bit field of a word.
-/

namespace Amethyst

abbrev Mem (w : Nat) := BitVec w → BitVec 8

section

variable {w : Nat}

def InRange (a : BitVec w) (n : Nat) (x : BitVec w) : Prop := (x - a).toNat < n

instance (a : BitVec w) (n : Nat) (x : BitVec w) : Decidable (InRange a n x) :=
  inferInstanceAs (Decidable (_ < _))

theorem sub_toNat_of_add {a : BitVec w} {i : Nat} (h : i < 2 ^ w) :
    (a + BitVec.ofNat w i - a).toNat = i := by
  rw [BitVec.add_comm, BitVec.add_sub_cancel, BitVec.toNat_ofNat, Nat.mod_eq_of_lt h]

theorem add_ofNat_sub (a x : BitVec w) : a + BitVec.ofNat w (x - a).toNat = x := by
  have h : BitVec.ofNat w (x - a).toNat = x - a := by simp only [BitVec.ofNat_toNat,
    BitVec.setWidth_eq]
  rw [h, BitVec.add_comm, BitVec.sub_add_cancel]

theorem add_add_ofNat (a : BitVec w) (i j : Nat) :
    a + BitVec.ofNat w i + BitVec.ofNat w j = a + BitVec.ofNat w (i + j) := by
  rw [BitVec.ofNat_add, BitVec.add_assoc]

theorem toNat_add_ofNat {a : BitVec w} {i : Nat} (h : a.toNat + i < 2 ^ w) :
    (a + BitVec.ofNat w i).toNat = a.toNat + i := by
  rw [BitVec.toNat_add, BitVec.toNat_ofNat, Nat.add_mod_mod, Nat.mod_eq_of_lt h]

theorem add_ofNat_inj {a : BitVec w} {i j : Nat} (hi : i < 2 ^ w) (hj : j < 2 ^ w)
    (h : a + BitVec.ofNat w i = a + BitVec.ofNat w j) : i = j := by
  have := congrArg (fun x => (x - a).toNat) h
  simpa only [sub_toNat_of_add hi, sub_toNat_of_add hj] using this

theorem inRange_add {a : BitVec w} {n i : Nat} (h : i < 2 ^ w) :
    InRange a n (a + BitVec.ofNat w i) ↔ i < n := by
  rw [InRange, sub_toNat_of_add h]

theorem InRange.exists_add {a x : BitVec w} {n : Nat} (h : InRange a n x) :
    ∃ i < n, x = a + BitVec.ofNat w i :=
  ⟨_, h, (add_ofNat_sub a x).symm⟩

/-- A block that does not wrap is an interval. -/
theorem inRange_iff {a x : BitVec w} {n : Nat} (h : a.toNat + n ≤ 2 ^ w) :
    InRange a n x ↔ a.toNat ≤ x.toNat ∧ x.toNat < a.toNat + n := by
  constructor
  · intro hx
    obtain ⟨i, hi, rfl⟩ := hx.exists_add
    rw [toNat_add_ofNat (by omega)]
    omega
  · intro ⟨h1, h2⟩
    have hx : x = a + BitVec.ofNat w (x.toNat - a.toNat) := by
      apply BitVec.eq_of_toNat_eq
      rw [toNat_add_ofNat (by omega)]
      omega
    rw [hx, inRange_add (by omega)]
    omega

/-- A byte before a block that does not reach round to it. -/
theorem not_inRange_of_lt {a : BitVec w} {i k n : Nat} (hi : i < k) (hk : k + n ≤ 2 ^ w) :
    ¬ InRange (a + BitVec.ofNat w k) n (a + BitVec.ofNat w i) := by
  intro h
  obtain ⟨j, hj, he⟩ := h.exists_add
  rw [add_add_ofNat] at he
  have := add_ofNat_inj (by omega) (by omega) he
  omega

/-- The bytes of a block from its `k`-th on are bytes of the block. -/
theorem InRange.of_add {a x : BitVec w} {k n : Nat} (h : InRange (a + BitVec.ofNat w k) n x)
    (hk : k + n ≤ 2 ^ w) : InRange a (k + n) x := by
  obtain ⟨i, hi, rfl⟩ := h.exists_add
  rw [add_add_ofNat, inRange_add (by omega)]
  omega

theorem InRange.mono {a x : BitVec w} {n k : Nat} (h : InRange a n x) (hk : n ≤ k) :
    InRange a k x :=
  Nat.lt_of_lt_of_le h hk

namespace Mem

/-- The memory after the bytes `f 0`, .., `f (n - 1)` are stored from `a` on. -/
def fill (m : Mem w) (a : BitVec w) (n : Nat) (f : Nat → BitVec 8) : Mem w :=
  fun x => if InRange a n x then f (x - a).toNat else m x

def copy (dst src : BitVec w) : Nat → Mem w → Mem w
  | 0, m => m
  | n + 1, m =>
    let m' := copy dst src n m
    Function.update m' (dst + BitVec.ofNat w n) (m' (src + BitVec.ofNat w n))

/-- The `n` bytes from `a` on are `f 0`, .., `f (n - 1)`. -/
def Holds (m : Mem w) (a : BitVec w) (n : Nat) (f : Nat → BitVec 8) : Prop :=
  ∀ i < n, m (a + BitVec.ofNat w i) = f i

variable {m : Mem w} {a dst src x : BitVec w} {n k : Nat} {f g : Nat → BitVec 8}

theorem Holds.congr {m' : Mem w} (h : m.Holds a n f)
    (he : ∀ i < n, m' (a + BitVec.ofNat w i) = m (a + BitVec.ofNat w i)) : m'.Holds a n f :=
  fun i hi => (he i hi).trans (h i hi)

theorem holds_zero : m.Holds a 0 f := fun i hi => absurd hi (Nat.not_lt_zero i)

theorem holds_succ : m.Holds a (n + 1) f ↔ m a = f 0 ∧ m.Holds (a + BitVec.ofNat w 1) n fun i => f (i + 1) := by
  constructor
  · intro h
    refine ⟨by simpa using h 0 (Nat.succ_pos n), fun i hi => ?_⟩
    rw [add_add_ofNat, Nat.add_comm]
    exact h (i + 1) (by omega)
  · intro h i hi
    cases i with
    | zero => simpa using h.1
    | succ i =>
      have := h.2 i (by omega)
      rwa [add_add_ofNat, Nat.add_comm] at this

theorem fill_frame (h : ¬ InRange a n x) : m.fill a n f x = m x := if_neg h

theorem fill_holds (h : n ≤ 2 ^ w) : (m.fill a n f).Holds a n f := by
  intro i hi
  rw [fill, if_pos ((inRange_add (by omega)).mpr hi), sub_toNat_of_add (by omega)]

/-- What the bytes were before does not matter. -/
theorem fill_congr {m' : Mem w} (h : ∀ x, ¬ InRange a n x → m' x = m x) : m'.fill a n f = m.fill a n f := by
  funext x
  simp only [fill]
  split
  · rfl
  · rename_i hx
    exact h x hx

theorem copy_frame (h : ¬ InRange dst n x) : copy dst src n m x = m x := by
  induction n with
  | zero => rfl
  | succ n ih =>
    have hx : x ≠ dst + BitVec.ofNat w n := by
      intro he
      apply h
      have := Nat.mod_le n (2 ^ w)
      rw [he, InRange, BitVec.add_comm, BitVec.add_sub_cancel, BitVec.toNat_ofNat]
      omega
    rw [copy, Function.update_of_ne hx]
    exact ih fun hx' => h (hx'.mono (Nat.le_succ n))

/-- A copy of the bytes that are there already. -/
theorem copy_same (h : ∀ i < n, m (dst + BitVec.ofNat w i) = m (src + BitVec.ofNat w i)) :
    copy dst src n m = m := by
  induction n with
  | zero => rfl
  | succ n ih =>
    rw [copy, ih fun i hi => h i (Nat.lt_succ_of_lt hi), ← h n (Nat.lt_succ_self n),
      Function.update_eq_self]

/-- Byte `i` of a copy, when the loop does not overwrite it before it is read. -/
theorem copy_get {i : Nat} (hn : n ≤ 2 ^ w) (hi : i < n)
    (hover : ¬ InRange dst i (src + BitVec.ofNat w i)) :
    copy dst src n m (dst + BitVec.ofNat w i) = m (src + BitVec.ofNat w i) := by
  induction n with
  | zero => omega
  | succ n ih =>
    rw [copy]
    by_cases hin : i = n
    · subst hin
      rw [Function.update_self, copy_frame hover]
    · rw [Function.update_of_ne fun he => hin (add_ofNat_inj (by omega) (by omega) he)]
      exact ih (by omega) (by omega)

theorem copy_holds (hn : n ≤ 2 ^ w) (hk : k ≤ n) (hsrc : m.Holds src k f)
    (hover : ∀ i < k, ¬ InRange dst i (src + BitVec.ofNat w i)) :
    (copy dst src n m).Holds dst k f :=
  fun i hi => (copy_get hn (by omega) (hover i hi)).trans (hsrc i hi)

/-! ## Little-endian words -/

def read16 (m : Mem w) (a : BitVec w) : BitVec 16 := m (a + 1) ++ m a

def read32 (m : Mem w) (a : BitVec w) : BitVec 32 := m (a + 3) ++ m (a + 2) ++ m (a + 1) ++ m a

def read64 (m : Mem w) (a : BitVec w) : BitVec 64 := m.read32 (a + 4) ++ m.read32 a

def write16 (m : Mem w) (a : BitVec w) (v : BitVec 16) : Mem w :=
  Function.update (Function.update m a (v.extractLsb' 0 8)) (a + 1) (v.extractLsb' 8 8)

def write32 (m : Mem w) (a : BitVec w) (v : BitVec 32) : Mem w :=
  (m.write16 a (v.extractLsb' 0 16)).write16 (a + 2) (v.extractLsb' 16 16)

theorem write32_bytes (m : Mem 32) (a v : BitVec 32) : m.write32 a v =
    Function.update (Function.update (Function.update (Function.update m
      (a + BitVec.ofNat 32 0) (v.extractLsb' 0 8)) (a + BitVec.ofNat 32 1) (v.extractLsb' 8 8))
      (a + BitVec.ofNat 32 2) (v.extractLsb' 16 8)) (a + BitVec.ofNat 32 3) (v.extractLsb' 24 8) := by
  have h3 : a + 2 + 1 = a + BitVec.ofNat 32 3 := by rw [BitVec.add_assoc]; rfl
  have hbyte : ∀ i j, j ≤ 8 → (v.extractLsb' i 16).extractLsb' j 8 = v.extractLsb' (i + j) 8 := by
    intro i j hj
    ext k hk
    simp [Nat.add_assoc]
    omega
  rw [write32, write16, write16, h3, BitVec.add_zero]
  simp only [hbyte _ 0 (by decide), hbyte _ 8 (by decide)]
  rfl

/-- The four bytes that a word is stored in. -/
theorem write32_eq_fill (m : Mem 32) (a v : BitVec 32) :
    m.write32 a v = m.fill a 4 fun i => v.extractLsb' (8 * i) 8 := by
  funext x
  rw [write32_bytes]
  by_cases hx : InRange a 4 x
  · obtain ⟨i, hi, rfl⟩ := hx.exists_add
    rw [fill_holds (by decide) i hi]
    have hcases : i = 0 ∨ i = 1 ∨ i = 2 ∨ i = 3 := by omega
    rcases hcases with rfl | rfl | rfl | rfl
    all_goals simp
  · have hne : ∀ i < 4, x ≠ a + BitVec.ofNat 32 i := by
      intro i hi he
      exact hx (he ▸ (inRange_add (by omega)).mpr hi)
    rw [fill_frame hx, Function.update_of_ne (hne 3 (by decide)),
      Function.update_of_ne (hne 2 (by decide)), Function.update_of_ne (hne 1 (by decide)),
      Function.update_of_ne (hne 0 (by decide))]

theorem read32_write32 (m : Mem 32) (a v : BitVec 32) : (m.write32 a v).read32 a = v := by
  have hholds : (m.write32 a v).Holds a 4 fun i => v.extractLsb' (8 * i) 8 := by
    rw [write32_eq_fill]
    exact fill_holds (by decide)
  have h0 : m.write32 a v a = v.extractLsb' 0 8 := by simpa using hholds 0 (by decide)
  have h1 : m.write32 a v (a + 1) = v.extractLsb' 8 8 := hholds 1 (by decide)
  have h2 : m.write32 a v (a + 2) = v.extractLsb' 16 8 := hholds 2 (by decide)
  have h3 : m.write32 a v (a + 3) = v.extractLsb' 24 8 := hholds 3 (by decide)
  rw [read32, h0, h1, h2, h3, BitVec.extractLsb'_append_extractLsb'_eq_extractLsb' (by rfl),
    BitVec.extractLsb'_append_extractLsb'_eq_extractLsb' (by rfl),
    BitVec.extractLsb'_append_extractLsb'_eq_extractLsb' (by rfl), BitVec.extractLsb'_eq_self]

theorem read32_congr {m m' : Mem 32} {a : BitVec 32} (h : ∀ x, InRange a 4 x → m' x = m x) :
    m'.read32 a = m.read32 a := by
  have hbyte : ∀ i < 4, m' (a + BitVec.ofNat 32 i) = m (a + BitVec.ofNat 32 i) := fun i hi =>
    h _ ((inRange_add (by omega)).mpr hi)
  have h0 : m' a = m a := by simpa using hbyte 0 (by decide)
  have h1 : m' (a + 1) = m (a + 1) := hbyte 1 (by decide)
  have h2 : m' (a + 2) = m (a + 2) := hbyte 2 (by decide)
  have h3 : m' (a + 3) = m (a + 3) := hbyte 3 (by decide)
  rw [read32, read32, h0, h1, h2, h3]

theorem write32_frame {m : Mem 32} {a v x : BitVec 32} (h : ¬ InRange a 4 x) : m.write32 a v x = m x := by
  rw [write32_eq_fill, fill_frame h]

end Mem

/-! ## Bit fields -/

/-- The word with `v` in its `n` bits from bit `lo` on. -/
def setField (e : BitVec w) (lo n : Nat) (v : BitVec n) : BitVec w :=
  e &&& ~~~((BitVec.allOnes n).setWidth w <<< lo) ||| v.setWidth w <<< lo

theorem getLsbD_setField (e : BitVec w) (lo n : Nat) (v : BitVec n) {k : Nat} (hk : k < w) :
    (setField e lo n v).getLsbD k = if lo ≤ k ∧ k < lo + n then v.getLsbD (k - lo) else e.getLsbD k := by
  simp only [setField, BitVec.getLsbD_or, BitVec.getLsbD_and, BitVec.getLsbD_not, BitVec.getLsbD_shiftLeft,
    BitVec.getLsbD_setWidth, BitVec.getLsbD_allOnes, hk, decide_true, Bool.true_and]
  split
  · next h =>
    have h1 : k - lo < n := by omega
    have h2 : k - lo < w := by omega
    have h3 : ¬ k < lo := by omega
    simp [h1, h2, h3]
  · next h =>
    by_cases hlo : k < lo
    · simp [hlo]
    · have h1 : ¬ k - lo < n := by omega
      simp [h1, BitVec.getLsbD_of_ge v (k - lo) (by omega)]

theorem field_setField_self {e : BitVec w} {lo n : Nat} {v : BitVec n} (h : lo + n ≤ w) :
    (setField e lo n v).extractLsb' lo n = v := by
  apply BitVec.eq_of_getLsbD_eq
  intro i hi
  rw [BitVec.getLsbD_extractLsb', getLsbD_setField _ _ _ _ (by omega), if_pos (by omega),
    Nat.add_sub_cancel_left]
  simp [hi]

theorem field_setField_of_apart {e : BitVec w} {lo n lo' n' : Nat} {v : BitVec n} (h : lo' + n' ≤ w)
    (hapart : lo' + n' ≤ lo ∨ lo + n ≤ lo') :
    (setField e lo n v).extractLsb' lo' n' = e.extractLsb' lo' n' := by
  apply BitVec.eq_of_getLsbD_eq
  intro i hi
  rw [BitVec.getLsbD_extractLsb', BitVec.getLsbD_extractLsb', getLsbD_setField _ _ _ _ (by omega),
    if_neg (by omega)]

/-- The blocks of `b` bytes that hold `a` bytes. -/
theorem ceil_div {a b : Nat} (hb : 0 < b) :
    (a + (b - 1)) / b = a / b + if a % b = 0 then 0 else 1 := by
  have hmod := Nat.mod_lt a hb
  have hsum : (a + (b - 1)) / b = a / b + (a % b + (b - 1)) / b := by
    conv => lhs; rw [← Nat.div_add_mod a b, Nat.add_assoc, Nat.mul_add_div hb]
  rw [hsum]
  split
  · next h =>
    have : (a % b + (b - 1)) / b = 0 := Nat.div_eq_of_lt (by omega)
    omega
  · next h =>
    have : (a % b + (b - 1)) / b = 1 := Nat.div_eq_of_lt_le (by omega) (by omega)
    omega

theorem append_toNat {i j : Nat} (x : BitVec i) (y : BitVec j) :
    (x ++ y).toNat = x.toNat * 2 ^ j + y.toNat := by
  rw [BitVec.toNat_append, ← Nat.shiftLeft_add_eq_or_of_lt y.isLt, Nat.shiftLeft_eq]

@[simp] theorem bytes_append (v : BitVec 16) : v.extractLsb' 8 8 ++ v.extractLsb' 0 8 = v :=
  BitVec.extractLsb'_append_extractLsb'

end

end Amethyst
