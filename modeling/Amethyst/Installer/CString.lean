import Amethyst.Memory

/-!
# Amethyst.Installer.CString

The string functions (`installer/src/std/string.c`, `ctype.c`) that the file system calls. A string
that is not shared with anything else is the list of its bytes before the NUL; one in memory is read
out with `cString`. `char` is signed.

A loop that runs to a byte in memory is bounded by the size of the address space: it has come back
to its first address then.
-/

namespace Amethyst
namespace Installer

abbrev Byte := BitVec 8

def addressSpace : Nat := 2 ^ 32

/-- `toupper`, called with a `char`. -/
def toupper (c : Byte) : Byte :=
  if (0x61 : Byte).sle c ∧ c.sle 0x7A then c - 0x20 else c

/-- `strcmp`. A string that has ended is followed by its NUL. -/
def strcmp : List Byte → List Byte → Int
  | [], s2 => if s2.headD 0 = 0 then 0 else -1
  | c1 :: s1, s2 =>
    let c2 := s2.headD 0
    if c1.slt c2 then -1
    else if c2.slt c1 then 1
    else strcmp s1 s2.tail

/-- The string at `a`, if it ends before `n` bytes, or its first `n` bytes. -/
def cString (m : Mem 32) : Nat → BitVec 32 → List Byte
  | 0, _ => []
  | n + 1, a => if m a = 0 then [] else m a :: cString m n (a + 1)

/-- `strchr(p, ch)`: the address of the byte, `some 0` if the string has none, `none` if neither the
byte nor a NUL is among the next `n` bytes. -/
def strchr (m : Mem 32) (ch : Byte) : Nat → BitVec 32 → Option (BitVec 32)
  | 0, _ => none
  | n + 1, p =>
    if m p = ch then some p
    else if m p = 0 then some 0
    else strchr m ch n (p + 1)

theorem slt_asymm {x y : Byte} (h1 : x.slt y) (h2 : y.slt x) : False := by
  rw [BitVec.slt_iff_toInt_lt] at h1 h2
  omega

theorem eq_of_not_slt {x y : Byte} (h1 : ¬ x.slt y) (h2 : ¬ y.slt x) : x = y := by
  rw [BitVec.slt_iff_toInt_lt] at h1 h2
  exact BitVec.eq_of_toInt_eq (by omega)

theorem strcmp_cons_eq_zero {c1 : Byte} {s1 s2 : List Byte} :
    strcmp (c1 :: s1) s2 = 0 ↔ c1 = s2.headD 0 ∧ strcmp s1 s2.tail = 0 := by
  obtain ⟨c2, hc2⟩ : ∃ c2, s2.headD 0 = c2 := ⟨_, rfl⟩
  rw [strcmp, hc2]
  by_cases he : c1 = c2
  · subst he
    have hirr : ¬ c1.slt c1 = true := fun h => slt_asymm h h
    simp [if_neg hirr]
  · refine iff_of_false ?_ fun h => he h.1
    by_cases hlt : c1.slt c2 = true
    · simp [hlt]
    · have hgt : c2.slt c1 = true := by
        by_contra hgt
        exact he (eq_of_not_slt hlt hgt)
      simp [hlt, hgt]

/-- Whatever the order of signed characters is, equal strings compare equal and no others. -/
theorem strcmp_eq_zero {s1 s2 : List Byte} (h1 : 0 ∉ s1) (h2 : 0 ∉ s2) :
    strcmp s1 s2 = 0 ↔ s1 = s2 := by
  induction s1 generalizing s2 with
  | nil =>
    cases s2 with
    | nil => simp [strcmp]
    | cons c2 s2 =>
      have hc2 : ¬ c2 = 0#8 := fun h0 => h2 (by simp [h0])
      simp [strcmp, hc2]
  | cons c1 s1 ih =>
    have hc1 : ¬ c1 = 0#8 := fun h0 => h1 (by simp [h0])
    have h1' : 0 ∉ s1 := fun h0 => h1 (List.mem_cons_of_mem _ h0)
    cases s2 with
    | nil => simp [strcmp_cons_eq_zero, hc1]
    | cons c2 s2 =>
      have h2' : 0 ∉ s2 := fun h0 => h2 (List.mem_cons_of_mem _ h0)
      simp [strcmp_cons_eq_zero, ih h1' h2']

/-- `strchr` ends at the first byte that is `ch` or NUL. -/
theorem strchr_some {m : Mem 32} {ch : Byte} {n : Nat} {p q : BitVec 32}
    (h : strchr m ch n p = some q) :
    ∃ i < n, (∀ j < i, m (p + BitVec.ofNat 32 j) ≠ ch ∧ m (p + BitVec.ofNat 32 j) ≠ 0) ∧
      (m (p + BitVec.ofNat 32 i) = ch ∧ q = p + BitVec.ofNat 32 i ∨
        m (p + BitVec.ofNat 32 i) ≠ ch ∧ m (p + BitVec.ofNat 32 i) = 0 ∧ q = 0) := by
  induction n generalizing p with
  | zero => cases h
  | succ n ih =>
    rw [strchr] at h
    split at h
    · rename_i hch
      cases h
      exact ⟨0, Nat.succ_pos n, fun j hj => absurd hj (Nat.not_lt_zero j),
        .inl (by simpa using hch)⟩
    split at h
    · rename_i hch h0
      cases h
      exact ⟨0, Nat.succ_pos n, fun j hj => absurd hj (Nat.not_lt_zero j),
        .inr (by simpa using ⟨hch, h0⟩)⟩
    · rename_i hch h0
      obtain ⟨i, hi, hbefore, hend⟩ := ih h
      have hone : ∀ j, p + 1 + BitVec.ofNat 32 j = p + BitVec.ofNat 32 (j + 1) := by
        intro j
        rw [show (1 : BitVec 32) = BitVec.ofNat 32 1 from rfl, add_add_ofNat, Nat.add_comm]
      simp only [hone] at hbefore hend
      refine ⟨i + 1, by omega, fun j hj => ?_, hend⟩
      cases j with
      | zero => simpa using ⟨hch, h0⟩
      | succ j => exact hbefore j (by omega)

theorem strchr_ne_none {m : Mem 32} {ch : Byte} {n : Nat} {p : BitVec 32} {i : Nat} (hi : i < n)
    (h : m (p + BitVec.ofNat 32 i) = ch) : strchr m ch n p ≠ none := by
  induction n generalizing p i with
  | zero => omega
  | succ n ih =>
    rw [strchr]
    split
    · simp
    split
    · simp
    · rename_i hch _
      cases i with
      | zero => exact absurd (by simpa using h) hch
      | succ i =>
        refine ih (i := i) (by omega) ?_
        rwa [show (1 : BitVec 32) = BitVec.ofNat 32 1 from rfl, add_add_ofNat, Nat.add_comm]

theorem cString_no_nul (m : Mem 32) (n : Nat) (a : BitVec 32) : 0 ∉ cString m n a := by
  induction n generalizing a with
  | zero => simp [cString]
  | succ n ih =>
    rw [cString]
    split
    · simp
    · rename_i h
      rw [List.mem_cons, not_or]
      exact ⟨fun h0 => h h0.symm, ih (a + 1)⟩

theorem cString_eq_iff {m : Mem 32} {l : List Byte} (h0 : 0 ∉ l) : ∀ {n : Nat} {a : BitVec 32},
    l.length < n → (cString m n a = l ↔
      m.Holds a l.length (fun i => l.getD i 0) ∧ m (a + BitVec.ofNat 32 l.length) = 0) := by
  induction l with
  | nil =>
    intro n a hn
    obtain ⟨n, rfl⟩ : ∃ k, n = k + 1 := ⟨n - 1, by simp at hn; omega⟩
    by_cases ha : m a = 0
    · simp [cString, ha, Mem.holds_zero]
    · simp only [cString, if_neg ha]
      exact iff_of_false (by simp) fun h => ha (by simpa using h.2)
  | cons c l ih =>
    intro n a hn
    obtain ⟨n, rfl⟩ : ∃ k, n = k + 1 := ⟨n - 1, by simp at hn; omega⟩
    have hc : c ≠ 0 := fun h => h0 (by simp [h])
    have hrest := ih (fun h => h0 (List.mem_cons_of_mem _ h)) (n := n) (a := a + BitVec.ofNat 32 1)
      (by simpa using hn)
    rw [List.length_cons, Mem.holds_succ, and_assoc]
    simp only [List.getD_cons_zero, List.getD_cons_succ]
    rw [Nat.add_comm l.length 1, ← add_add_ofNat, ← hrest, cString]
    by_cases ha : m a = 0
    · rw [if_pos ha]
      exact iff_of_false (by simp) fun h => hc (h.1.symm.trans ha)
    · rw [if_neg ha, List.cons.injEq]
      rfl

end Installer
end Amethyst
