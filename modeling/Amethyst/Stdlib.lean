import Amethyst.Chunk
import Amethyst.Installer.CString
import Amethyst.Loop
import Amethyst.Numeral
import Mathlib.Data.BitVec
import Mathlib.Data.List.GetD
import Mathlib.Tactic.IntervalCases

/-!
# Amethyst.Stdlib

`itoa` and `atoi` (`stdlib.c`, the same text in the kernel and in the installer). `int` has 32 bits
and wraps. The digits are the remainders of a signed division, so those of a negative number count
down from `'0'`; only in base 10 is the number made positive first, and -2^31 stays what it is.

* `itoa_writes_iff`: the text is the numeral exactly for the numbers that are not negative, and in
  base 10 for the negative ones but -2^31.
* `atoi_itoa_iff`: `atoi`, which takes `'-'` for a digit, reads back the numbers that are not negative
  and one that is.
-/

namespace Amethyst
namespace Stdlib

open Installer (Byte addressSpace cString cString_eq_iff)

/-! ## The functions -/

/-- One pass of the loop of `reverse`, over `start`, `end` and the memory. -/
def reversePass (str : Word) : Nat × Nat × Mem 32 → Pass (Nat × Nat × Mem 32) (Mem 32)
  | (start, stop, m) =>
    if start < stop then
      let temp := m (str + BitVec.ofNat 32 start)
      let m := Function.update m (str + BitVec.ofNat 32 start) (m (str + BitVec.ofNat 32 stop))
      .next (start + 1, stop - 1, Function.update m (str + BitVec.ofNat 32 stop) temp)
    else .leave m

def reverse (str : Word) (len : Nat) (m : Mem 32) : Option (Mem 32) :=
  Loop.run (reversePass str) (len + 1) (0, len - 1, m)

def digitChar (rem : Word) : Byte :=
  (if (9 : Word).slt rem then rem - 10 + 0x41 else rem + 0x30).setWidth 8

/-- `while (num != 0)`, over `num`, `i` and the memory. -/
def digitPass (str base : Word) : Word × Nat × Mem 32 → Pass (Word × Nat × Mem 32) (Nat × Mem 32)
  | (num, i, m) =>
    if num ≠ 0 then
      let rem := num.srem base
      .next (num.sdiv base, i + 1, Function.update m (str + BitVec.ofNat 32 i) (digitChar rem))
    else .leave (i, m)

/-- The memory after `itoa`, for a base other than 0 and -1, which the division stops at. An `int` has
no more than 32 digits. -/
def itoa (num str base : Word) (m : Mem 32) : Option (Mem 32) :=
  if num = 0 then
    some (Function.update (Function.update m (str + BitVec.ofNat 32 0) 0x30) (str + BitVec.ofNat 32 1) 0)
  else
    let isNegative : Bool := num.slt 0 ∧ base = 10
    let num := if isNegative then -num else num
    match Loop.run (digitPass str base) 33 (num, 0, m) with
    | none => none
    | some (i, m) =>
      let (i, m) :=
        if isNegative then (i + 1, Function.update m (str + BitVec.ofNat 32 i) 0x2D) else (i, m)
      let m := Function.update m (str + BitVec.ofNat 32 i) 0
      reverse str i m

/-- `isspace` of `ctype.c` -/
def isspace (c : Word) : Bool :=
  c = 0x20 ∨ c = 0x0A ∨ c = 0x09 ∨ c = 0x0B ∨ c = 0x0C ∨ c = 0x0D

def atoiStep (res : Word) (c : Byte) : Word := res * 10 + c.signExtend 32 - 0x30

/-- `atoi`, of the string with these bytes. -/
def atoi (str : List Byte) : Word :=
  (str.dropWhile fun c => isspace (c.signExtend 32)).foldl atoiStep 0

/-! ## `reverse` -/

/-- What the loop has done: the bytes before `start` and after `end` are exchanged. -/
structure Reversing (str : Word) (len : Nat) (m : Mem 32) (s : Nat × Nat × Mem 32) : Prop where
  ends : s.1 + s.2.1 + 1 = len
  done : ∀ k < len, k < s.1 ∨ s.2.1 < k →
    s.2.2 (str + BitVec.ofNat 32 k) = m (str + BitVec.ofNat 32 (len - 1 - k))
  rest : ∀ k < 2 ^ 32, s.1 ≤ k ∧ k ≤ s.2.1 ∨ len ≤ k →
    s.2.2 (str + BitVec.ofNat 32 k) = m (str + BitVec.ofNat 32 k)

theorem update_add_of_ne {str : Word} {i k : Nat} (hi : i < 2 ^ 32) (hk : k < 2 ^ 32) (hne : k ≠ i)
    (m : Mem 32) (v : Byte) :
    Function.update m (str + BitVec.ofNat 32 i) v (str + BitVec.ofNat 32 k) =
      m (str + BitVec.ofNat 32 k) :=
  Function.update_of_ne (fun h => hne (add_ofNat_inj hk hi h)) _ _

theorem Reversing.step {str : Word} {len start stop : Nat} (hlen : len < 2 ^ 32) {m m₁ : Mem 32}
    (h : Reversing str len m (start, stop, m₁)) (hlt : start < stop) :
    Reversing str len m (start + 1, stop - 1, Function.update
      (Function.update m₁ (str + BitVec.ofNat 32 start) (m₁ (str + BitVec.ofNat 32 stop)))
      (str + BitVec.ofNat 32 stop) (m₁ (str + BitVec.ofNat 32 start))) := by
  obtain ⟨hends, hdone, hrest⟩ := h
  simp only at hends hdone hrest
  have hother : ∀ k < 2 ^ 32, k ≠ start → k ≠ stop → Function.update
      (Function.update m₁ (str + BitVec.ofNat 32 start) (m₁ (str + BitVec.ofNat 32 stop)))
      (str + BitVec.ofNat 32 stop) (m₁ (str + BitVec.ofNat 32 start)) (str + BitVec.ofNat 32 k) =
        m₁ (str + BitVec.ofNat 32 k) := by
    intro k hk h1 h2
    rw [update_add_of_ne (by omega) hk h2, update_add_of_ne (by omega) hk h1]
  refine ⟨by simp only; omega, fun k hk h => ?_, fun k hk h => ?_⟩
  · simp only at h ⊢
    by_cases h2 : k = stop
    · have hk' : len - 1 - k = start := by omega
      rw [hk', h2, Function.update_self]
      exact hrest start (by omega) (.inl ⟨Nat.le_refl _, Nat.le_of_lt hlt⟩)
    by_cases h1 : k = start
    · have hk' : len - 1 - k = stop := by omega
      rw [hk', h1, update_add_of_ne (by omega) (by omega) (Nat.ne_of_lt hlt), Function.update_self]
      exact hrest stop (by omega) (.inl ⟨Nat.le_of_lt hlt, Nat.le_refl _⟩)
    · rw [hother k (by omega) h1 h2]
      exact hdone k hk (by omega)
  · simp only at h ⊢
    rw [hother k hk (by omega) (by omega)]
    exact hrest k hk (by omega)

theorem reverse_spec (str : Word) {len : Nat} (hpos : 0 < len) (hlen : len < 2 ^ 32) (m : Mem 32) :
    ∃ m', reverse str len m = some m' ∧
      (∀ k < len, m' (str + BitVec.ofNat 32 k) = m (str + BitVec.ofNat 32 (len - 1 - k))) ∧
      m' (str + BitVec.ofNat 32 len) = m (str + BitVec.ofNat 32 len) := by
  have hstart : Reversing str len m (0, len - 1, m) :=
    ⟨by simp only; omega, fun k hk h => by simp only at h; omega, fun _ _ _ => rfl⟩
  obtain ⟨⟨start, stop, m'⟩, hs, r, hleave, hrun⟩ : ∃ s, Reversing str len m s ∧
      ∃ r, reversePass str s = .leave r ∧ Loop.run (reversePass str) (len + 1) (0, len - 1, m) = some r := by
    refine ⟨_, Loop.leaves (fun s => s.2.1 + 1 - s.1) ?_ _ _ hstart (by simp only; omega)⟩
    rintro ⟨start, stop, m₁⟩ s' hs hp
    simp only [reversePass] at hp
    split at hp
    case isFalse => cases hp
    case isTrue hlt =>
      cases hp
      exact ⟨hs.step hlen hlt, by simp only; omega⟩
  simp only [reversePass] at hleave
  split at hleave
  case isTrue => cases hleave
  case isFalse hle =>
    cases hleave
    obtain ⟨hends, hdone, hrest⟩ := hs
    simp only at hends hdone hrest
    refine ⟨m', hrun, fun k hk => ?_, hrest len hlen (.inr (Nat.le_refl len))⟩
    by_cases hmid : start ≤ k ∧ k ≤ stop
    · -- the middle byte of an odd number of bytes stays
      have hk' : len - 1 - k = k := by omega
      rw [hk']
      exact hrest k (by omega) (.inl hmid)
    · exact hdone k hk (by omega)

theorem store_char (str : Word) {text : List Byte} (hlen : text.length < 2 ^ 32) {m : Mem 32}
    (htext : ∀ k < text.length, m (str + BitVec.ofNat 32 k) = text.getD k 0) (c : Byte) :
    ∀ k < (text ++ [c]).length, Function.update m (str + BitVec.ofNat 32 text.length) c
      (str + BitVec.ofNat 32 k) = (text ++ [c]).getD k 0 := by
  intro k hk
  rw [List.length_append, List.length_singleton] at hk
  by_cases hlast : k = text.length
  · rw [hlast, Function.update_self, List.getD_append_right _ _ _ _ (Nat.le_refl _), Nat.sub_self]
    rfl
  · rw [update_add_of_ne hlen (by omega) hlast, htext k (by omega), List.getD_append _ _ _ _ (by omega)]

/-- A text that is ended and reversed. -/
theorem reverse_string (str : Word) {text : List Byte} (hne : text ≠ []) (hlen : text.length < addressSpace)
    (hnul : 0 ∉ text) {m : Mem 32}
    (htext : ∀ k < text.length, m (str + BitVec.ofNat 32 k) = text.getD k 0) :
    ∃ m', reverse str text.length (Function.update m (str + BitVec.ofNat 32 text.length) 0) = some m' ∧
      cString m' addressSpace str = text.reverse ∧
      m' (str + BitVec.ofNat 32 text.reverse.length) = 0 := by
  obtain ⟨m', hrun, hrev, hend⟩ := reverse_spec str (List.length_pos_of_ne_nil hne) hlen
    (Function.update m (str + BitVec.ofNat 32 text.length) 0)
  rw [Function.update_self, ← List.length_reverse] at hend
  refine ⟨m', hrun, ?_, hend⟩
  rw [cString_eq_iff (by rwa [List.mem_reverse]) (by rwa [List.length_reverse])]
  refine ⟨fun k hk => ?_, hend⟩
  rw [List.length_reverse] at hk
  have hlt : text.length - 1 - k < text.length := by omega
  simp only
  rw [hrev k hk, update_add_of_ne hlen (Nat.lt_trans hlt hlen) (Nat.ne_of_lt hlt), htext _ hlt,
    List.getD_reverse k hk]

/-! ## The digits -/

/-- The characters of the digits of `n`, each with the sign `ε`, from the least significant one. -/
def digitChars (ε : Int) (base n : Nat) : List Byte :=
  (Nat.digits base n).map fun d : Nat => digitChar (BitVec.ofInt 32 (ε * d))

@[simp] theorem digitChars_zero (ε : Int) (base : Nat) : digitChars ε base 0 = [] := by simp [digitChars]

theorem toInt_eq_zero_iff {ε : Int} (hε : ε = 1 ∨ ε = -1) {num : Word} {n : Nat}
    (h : num.toInt = ε * n) : num = 0 ↔ n = 0 := by
  rw [← BitVec.toInt_inj, h]
  rcases hε with rfl | rfl <;> simp

section

variable {ε : Int} (hε : ε = 1 ∨ ε = -1) {b : Nat} (hb : 1 < b) (hb' : b ≤ 36)

omit hb in
include hb' in
theorem toInt_base : (BitVec.ofNat 32 b).toInt = b := by
  have hlt : (BitVec.ofNat 32 b).toNat = b := by
    rw [BitVec.toNat_ofNat, Nat.mod_eq_of_lt (by omega)]
  rw [BitVec.toInt_eq_toNat_of_lt (by omega), hlt]

include hε hb'

/-- The quotient and the remainder of a signed division both have the sign of the dividend. -/
theorem srem_eq {num : Word} {n : Nat} (h : num.toInt = ε * n) :
    num.srem (BitVec.ofNat 32 b) = BitVec.ofInt 32 (ε * (n % b : Nat)) := by
  rw [← BitVec.ofInt_toInt (x := num.srem _), BitVec.toInt_srem, toInt_base hb', h]
  rcases hε with rfl | rfl
  · rw [Int.one_mul, Int.one_mul, Int.ofNat_tmod]
  · rw [Int.neg_one_mul, Int.neg_one_mul, Int.neg_tmod, Int.ofNat_tmod]

theorem sdiv_toInt {num : Word} {n : Nat} (h : num.toInt = ε * n) :
    (num.sdiv (BitVec.ofNat 32 b)).toInt = ε * (n / b : Nat) := by
  have hne : BitVec.ofNat 32 b ≠ -1#32 := by
    intro he
    have := toInt_base hb'
    rw [he] at this
    simp at this
  rw [BitVec.toInt_sdiv_of_ne_or_ne _ _ (.inr hne), toInt_base hb', h]
  rcases hε with rfl | rfl
  · rw [Int.one_mul, Int.one_mul, Int.ofNat_tdiv]
  · rw [Int.neg_one_mul, Int.neg_one_mul, Int.neg_tdiv, Int.ofNat_tdiv]

include hb

theorem digitChars_cons {num : Word} {n : Nat} (h : num.toInt = ε * n) (hn : n ≠ 0) :
    digitChars ε b n = digitChar (num.srem (BitVec.ofNat 32 b)) :: digitChars ε b (n / b) := by
  rw [digitChars, Nat.digits_eq_cons_digits_div hb hn, List.map_cons, srem_eq hε hb' h, digitChars]

omit hb hb' in
theorem digits_run_zero (str : Word) {num : Word} (h : num.toInt = ε * (0 : Nat)) (fuel i : Nat)
    (m : Mem 32) : Loop.run (digitPass str (BitVec.ofNat 32 b)) (fuel + 1) (num, i, m) =
      some (i + (digitChars ε b 0).length, m) := by
  have h0 : num = 0 := (toInt_eq_zero_iff hε h).mpr rfl
  rw [Loop.run_leave (r := (i, m)) (by simp only [digitPass, if_neg (not_not.mpr h0)]), digitChars_zero]
  rfl

/-- By induction on the digits that may be left. -/
theorem digits_run (str : Word) : ∀ (fuel n : Nat) (num : Word) (i : Nat) (m : Mem 32),
    num.toInt = ε * n → n < b ^ fuel → i + fuel < 2 ^ 32 →
    ∃ m', Loop.run (digitPass str (BitVec.ofNat 32 b)) (fuel + 1) (num, i, m) =
        some (i + (digitChars ε b n).length, m') ∧
      (∀ k < i, m' (str + BitVec.ofNat 32 k) = m (str + BitVec.ofNat 32 k)) ∧
      ∀ k < (digitChars ε b n).length,
        m' (str + BitVec.ofNat 32 (i + k)) = (digitChars ε b n).getD k 0 := by
  intro fuel
  induction fuel with
  | zero =>
    intro n num i m h hn hi
    have hn0 : n = 0 := by simpa using hn
    subst hn0
    exact ⟨m, digits_run_zero hε str h 0 i m, fun _ _ => rfl, by simp⟩
  | succ fuel ih =>
    intro n num i m h hn hi
    by_cases hn0 : n = 0
    · subst hn0
      exact ⟨m, digits_run_zero hε str h _ i m, fun _ _ => rfl, by simp⟩
    have hnum : num ≠ 0 := mt (toInt_eq_zero_iff hε h).mp hn0
    have hquot : n / b < b ^ fuel := by
      rw [Nat.div_lt_iff_lt_mul (by omega), ← Nat.pow_succ]
      exact hn
    obtain ⟨m', hrun, hbefore, hchars⟩ := ih (n / b) (num.sdiv (BitVec.ofNat 32 b)) (i + 1)
      (Function.update m (str + BitVec.ofNat 32 i) (digitChar (num.srem (BitVec.ofNat 32 b))))
      (sdiv_toInt hε hb' h) hquot (by omega)
    have hpass : digitPass str (BitVec.ofNat 32 b) (num, i, m) =
        .next (num.sdiv (BitVec.ofNat 32 b), i + 1, Function.update m (str + BitVec.ofNat 32 i)
          (digitChar (num.srem (BitVec.ofNat 32 b)))) := by
      simp only [digitPass, if_pos hnum]
    rw [digitChars_cons hε hb hb' h hn0]
    refine ⟨m', ?_, fun k hk => ?_, fun k hk => ?_⟩
    · rw [Loop.run_next hpass, hrun, List.length_cons]
      congr 2
      omega
    · rw [hbefore k (by omega), update_add_of_ne (by omega) (by omega) (by omega)]
    · cases k with
      | zero => rw [Nat.add_zero, hbefore i (Nat.lt_succ_self i), Function.update_self, List.getD_cons_zero]
      | succ k =>
        rw [← Nat.add_assoc, Nat.add_right_comm, List.getD_cons_succ]
        exact hchars k (by simpa using hk)

/-- `'-'`, if `itoa` writes one. -/
def signChars (isNegative : Bool) : List Byte := if isNegative then [0x2D] else []

/-- The text of a number that is not 0. -/
def numeralText (isNegative : Bool) (ε : Int) (b n : Nat) : List Byte :=
  signChars isNegative ++ (digitChars ε b n).reverse

theorem digitChars_no_nul (n : Nat) : 0 ∉ digitChars ε b n := by
  have hall : ∀ d < 36, digitChar (BitVec.ofInt 32 (1 * (d : Nat))) ≠ 0 ∧
      digitChar (BitVec.ofInt 32 (-1 * (d : Nat))) ≠ 0 := by decide
  intro h
  obtain ⟨d, hd, h0⟩ := List.mem_map.mp h
  have hd36 := hall d (Nat.lt_of_lt_of_le (Nat.digits_lt_base hb hd) hb')
  rcases hε with rfl | rfl
  · exact hd36.1 h0
  · exact hd36.2 h0

/-- The text in memory, whatever was there. -/
theorem itoa_spec {num : Word} (hnum : num ≠ 0) {n : Nat} {isNegative : Bool}
    (hneg : decide (num.slt 0 ∧ BitVec.ofNat 32 b = 10) = isNegative)
    (h : (if isNegative then -num else num).toInt = ε * n) (str : Word) (m : Mem 32) :
    ∃ m', itoa num str (BitVec.ofNat 32 b) m = some m' ∧
      cString m' addressSpace str = numeralText isNegative ε b n ∧
      m' (str + BitVec.ofNat 32 (numeralText isNegative ε b n).length) = 0 := by
  have hn0 : n ≠ 0 := by
    rw [Ne, ← toInt_eq_zero_iff hε h]
    cases isNegative with
    | false => exact hnum
    | true => exact fun h0 => hnum (BitVec.neg_eq_zero_iff.mp h0)
  have hn : n ≤ 2 ^ 31 := by
    have h1 := BitVec.toInt_lt (x := if isNegative then -num else num)
    have h2 := BitVec.le_toInt (x := if isNegative then -num else num)
    rcases hε with rfl | rfl <;> omega
  have hpow : (2 : Nat) ^ 32 ≤ b ^ 32 := Nat.pow_le_pow_left hb 32
  obtain ⟨m₁, hrun, -, hchars⟩ := digits_run hε hb hb' str 32 n _ 0 m h (by omega) (by decide)
  have hlen : (digitChars ε b n).length ≤ 32 := by
    rw [digitChars, List.length_map, Nat.digits_length_le_iff hb]
    omega
  have hne : digitChars ε b n ≠ [] := by
    rw [digitChars, Ne, List.map_eq_nil_iff]
    exact Nat.digits_ne_nil_iff_ne_zero.mpr hn0
  have hnul := digitChars_no_nul hε hb hb' n
  obtain ⟨chars, hc⟩ : ∃ chars, digitChars ε b n = chars := ⟨_, rfl⟩
  simp only [Nat.zero_add, hc] at hrun hchars hlen hne hnul
  simp only [itoa, if_neg hnum, hneg, hrun, numeralText, hc]
  cases isNegative with
  | false => exact reverse_string str hne (Nat.lt_of_le_of_lt hlen (by decide)) hnul hchars
  | true =>
    have hsign := store_char str (by omega) hchars 0x2D
    have hlen' : (chars ++ [0x2D]).length = chars.length + 1 := List.length_append
    have hrev : (chars ++ [0x2D]).reverse = signChars true ++ chars.reverse := List.reverse_append
    have hstr := reverse_string str (by simp) (by rw [hlen', addressSpace]; omega)
      (by simpa using hnul) hsign
    rwa [hlen', hrev] at hstr

end

/-! ## What is written -/

/-- The digit that a character stands for. -/
def digitValue (c : Byte) : Option Nat :=
  if 0x30 ≤ c ∧ c ≤ 0x39 then some (c.toNat - 0x30)
  else if 0x41 ≤ c ∧ c ≤ 0x5A then some (c.toNat - 0x37)
  else none

/-- The numeral that `itoa` is to write: with a sign in base 10, of the unsigned number otherwise. -/
def Denotes (num base : Word) (text : List Byte) : Prop :=
  if num.slt 0 ∧ base = 10 then
    ∃ digits, text = 0x2D :: digits ∧ Numeral digitValue 10 digits num.toInt.natAbs
  else Numeral digitValue base.toNat text num.toNat

/-- `itoa` returns, and at `str` there is the numeral with its NUL. -/
def WritesNumeral (num str base : Word) (m : Mem 32) : Prop :=
  ∃ m', itoa num str base m = some m' ∧ Denotes num base (cString m' addressSpace str) ∧
    m' (str + BitVec.ofNat 32 (cString m' addressSpace str).length) = 0

theorem digitValue_digitChar : ∀ d < 36, digitValue (digitChar (BitVec.ofInt 32 (1 * (d : Nat)))) = some d := by
  decide

/-- The digits of a negative number lie before `'0'`. -/
theorem digitValue_negative : ∀ d < 36, 0 < d →
    digitValue (digitChar (BitVec.ofInt 32 (-1 * (d : Nat)))) = none := by
  decide

theorem itoa_zero (str base : Word) (m : Mem 32) : ∃ m', itoa 0 str base m = some m' ∧
    cString m' addressSpace str = [0x30] ∧ m' (str + BitVec.ofNat 32 1) = 0 := by
  have hend : Function.update (Function.update m (str + BitVec.ofNat 32 0) 0x30)
      (str + BitVec.ofNat 32 1) 0 (str + BitVec.ofNat 32 1) = 0 := Function.update_self _ _ _
  refine ⟨_, if_pos rfl, ?_, hend⟩
  rw [cString_eq_iff (by decide) (by decide)]
  refine ⟨fun k hk => ?_, hend⟩
  have hk0 : k = 0 := by simpa using hk
  rw [hk0, update_add_of_ne (by decide) (by decide) (by decide), Function.update_self]
  rfl

section

variable {base n : Nat} (hb : 1 < base) (hb' : base ≤ 36) (hn : n ≠ 0)
include hb hb' hn

theorem numeral_digitChars : Numeral digitValue base (digitChars 1 base n).reverse n :=
  Numeral.digits (fun d hd => digitValue_digitChar d (Nat.lt_of_lt_of_le hd hb')) hb hn

/-- The most significant digit is not 0, so its character is no digit. -/
theorem not_numeral_negative (k base' : Nat) :
    ¬ Numeral digitValue base' (digitChars (-1) base n).reverse k := by
  intro h
  have hne : Nat.digits base n ≠ [] := Nat.digits_ne_nil_iff_ne_zero.mpr hn
  have hmem := List.getLast_mem hne
  have hpos : 0 < (Nat.digits base n).getLast hne :=
    Nat.pos_of_ne_zero (Nat.getLast_digit_ne_zero base hn)
  obtain ⟨d, hd, -⟩ := h.below _ (List.mem_reverse.mpr (List.mem_map_of_mem hmem))
  rw [digitValue_negative _ (Nat.lt_of_lt_of_le (Nat.digits_lt_base hb hmem) hb') hpos] at hd
  cases hd

end

theorem slt_zero {num : Word} : num.slt 0 ↔ num.toInt < 0 := BitVec.slt_iff_toInt_lt

theorem ne_zero_of_slt {num : Word} (hs : num.slt 0) : num ≠ 0 := by
  rintro rfl
  exact absurd hs (by decide)

theorem toInt_eq_toNat {num : Word} (hs : ¬ num.slt 0) : num.toInt = num.toNat := by
  rw [slt_zero, BitVec.toInt_eq_toNat_cond] at hs
  rw [BitVec.toInt_eq_toNat_cond]
  have := num.isLt
  split at hs
  · rename_i h
    rw [if_pos h]
  · omega

theorem toInt_neg {num : Word} (h : num ≠ 0x80000000) : (-num).toInt = -num.toInt :=
  BitVec.toInt_neg_of_ne_intMin h

section

variable {base : Word} (h2 : 2 ≤ base.toNat) (h36 : base.toNat ≤ 36)
include h2 h36

theorem writes_iff {ε : Int} (hε : ε = 1 ∨ ε = -1) {num : Word} (hnum : num ≠ 0) {n : Nat}
    {isNegative : Bool} (hneg : decide (num.slt 0 ∧ base = 10) = isNegative)
    (h : (if isNegative then -num else num).toInt = ε * n) (str : Word) (m : Mem 32) :
    WritesNumeral num str base m ↔ Denotes num base (numeralText isNegative ε base.toNat n) := by
  have hbase : BitVec.ofNat 32 base.toNat = base := by simp
  obtain ⟨m', hrun, htext, hend⟩ := itoa_spec hε h2 h36 hnum (hbase.symm ▸ hneg) h str m
  rw [hbase] at hrun
  constructor
  · intro ⟨m'', hrun', hden, _⟩
    rw [hrun] at hrun'
    cases hrun'
    rwa [htext] at hden
  · intro hden
    exact ⟨m', hrun, htext.symm ▸ hden, htext.symm ▸ hend⟩

theorem writes_nonneg {num : Word} (hnum : num ≠ 0) (hs : ¬ num.slt 0) (str : Word) (m : Mem 32) :
    WritesNumeral num str base m := by
  have hlt : num.toInt = 1 * (num.toNat : Nat) := by rw [toInt_eq_toNat hs, Int.one_mul]
  have hno : ¬ (num.slt 0 ∧ base = 10) := fun h => hs h.1
  rw [writes_iff h2 h36 (.inl rfl) hnum (decide_eq_false hno) hlt, Denotes, if_neg hno]
  exact numeral_digitChars h2 h36 fun h0 => hnum (BitVec.eq_of_toNat_eq h0)

omit h36 in
theorem writes_zero (str : Word) (m : Mem 32) : WritesNumeral 0 str base m := by
  obtain ⟨m', hrun, htext, hend⟩ := itoa_zero str base m
  have hno : ¬ ((0 : Word).slt 0 ∧ base = 10) := fun h => absurd h.1 (by decide)
  refine ⟨m', hrun, ?_, by rwa [htext]⟩
  rw [htext, Denotes, if_neg hno]
  exact Numeral.zero (by decide) (by omega)

/-- In another base than 10 the digits of a negative number stay negative. -/
theorem not_writes_negative {num : Word} (hs : num.slt 0) (h10 : base ≠ 10) (str : Word) (m : Mem 32) :
    ¬ WritesNumeral num str base m := by
  have hlt : num.toInt < 0 := slt_zero.mp hs
  have hno : ¬ (num.slt 0 ∧ base = 10) := fun h => h10 h.2
  have h0 := ne_zero_of_slt hs
  have hval : num.toInt = -1 * (num.toInt.natAbs : Nat) := by omega
  rw [writes_iff h2 h36 (.inr rfl) h0 (decide_eq_false hno) hval, Denotes, if_neg hno]
  exact not_numeral_negative h2 h36 (by omega) _ _

end

/-- `-num` is -2^31 again. -/
theorem not_writes_min (str : Word) (m : Mem 32) : ¬ WritesNumeral 0x80000000 str 10 m := by
  have hval : (-0x80000000 : Word).toInt = -1 * (2 ^ 31 : Nat) := by decide
  have hneg : decide ((0x80000000 : Word).slt 0 ∧ (10 : Word) = 10) = true := by decide
  rw [writes_iff (by decide) (by decide) (.inr rfl) (by decide) hneg hval, Denotes, if_pos (by decide)]
  rintro ⟨digits, he, hd⟩
  cases he
  exact not_numeral_negative (by decide) (by decide) (by decide) _ _ hd

theorem writes_negative {num : Word} (hs : num.slt 0) (hmin : num ≠ 0x80000000) (str : Word)
    (m : Mem 32) : WritesNumeral num str 10 m := by
  have hlt : num.toInt < 0 := slt_zero.mp hs
  have h0 := ne_zero_of_slt hs
  have hneg : decide (num.slt 0 ∧ (10 : Word) = 10) = true := decide_eq_true ⟨hs, rfl⟩
  have hval : (if true = true then -num else num).toInt = 1 * (num.toInt.natAbs : Nat) := by
    rw [if_pos rfl, toInt_neg hmin]
    omega
  rw [writes_iff (by decide) (by decide) (.inl rfl) h0 hneg hval, Denotes, if_pos ⟨hs, rfl⟩]
  exact ⟨_, rfl, numeral_digitChars (by decide) (by decide) (by omega)⟩

/-- In bases 2 to 36 `itoa` writes the numeral exactly of the numbers that are not negative and, in
base 10, of the negative ones that have an absolute value. -/
theorem itoa_writes_iff {base : Word} (h2 : 2 ≤ base.toNat) (h36 : base.toNat ≤ 36) (num str : Word)
    (m : Mem 32) :
    WritesNumeral num str base m ↔ ¬ num.slt 0 ∨ base = 10 ∧ num ≠ 0x80000000 := by
  by_cases hs : num.slt 0
  · rw [or_iff_right (not_not.mpr hs)]
    by_cases h10 : base = 10
    · subst h10
      by_cases hmin : num = 0x80000000
      · subst hmin
        exact iff_of_false (not_writes_min str m) fun h => h.2 rfl
      · exact iff_of_true (writes_negative hs hmin str m) ⟨rfl, hmin⟩
    · exact iff_of_false (not_writes_negative h2 h36 hs h10 str m) fun h => h10 h.1
  · refine iff_of_true ?_ (.inl hs)
    by_cases h0 : num = 0
    · exact h0 ▸ writes_zero h2 str m
    · exact writes_nonneg h2 h36 h0 hs str m

theorem itoa_writes_iff_hex : WritesNumeral 48879 0x00100000 16 (fun _ => 0xFF) ↔
    ¬ (48879 : Word).slt 0 ∨ (16 : Word) = 10 ∧ (48879 : Word) ≠ 0x80000000 :=
  itoa_writes_iff (by decide) (by decide) 48879 0x00100000 _

/-- -1 in base 16 is `"/"`, and -2^31 has characters before `'0'` in base 10 too. -/
theorem itoa_minus_one_hex : ¬ WritesNumeral (-1) 0x00100000 16 (fun _ => 0) ∧
    ¬ WritesNumeral 0x80000000 0x00100000 10 (fun _ => 0) :=
  ⟨not_writes_negative (by decide) (by decide) (by decide) (by decide) _ _, not_writes_min _ _⟩

/-! ## `atoi` -/

/-- `atoi` gives back the number from the text that `itoa` writes, also after spaces. -/
def ReadsBack (n str : Word) (m : Mem 32) : Prop :=
  ∃ m', itoa n str 10 m = some m' ∧
    ∀ spaces : List Byte, (∀ c ∈ spaces, isspace (c.signExtend 32)) →
      atoi (spaces ++ cString m' addressSpace str) = n

theorem atoi_spaces {spaces text : List Byte} (hspaces : ∀ c ∈ spaces, isspace (c.signExtend 32))
    {c : Byte} (hc : isspace (c.signExtend 32) = false) :
    atoi (spaces ++ c :: text) = (c :: text).foldl atoiStep 0 := by
  have hdrop : (c :: text).dropWhile (fun c => isspace (c.signExtend 32)) = c :: text :=
    List.dropWhile_cons_of_neg (by simp [hc])
  rw [atoi, List.dropWhile_append_of_pos hspaces, hdrop]

theorem readsBack_iff {n str : Word} {m m' : Mem 32} (hrun : itoa n str 10 m = some m') {c : Byte}
    {text : List Byte} (htext : cString m' addressSpace str = c :: text)
    (hc : isspace (c.signExtend 32) = false) :
    ReadsBack n str m ↔ (c :: text).foldl atoiStep 0 = n := by
  constructor
  · intro ⟨m'', hrun', h⟩
    rw [hrun] at hrun'
    cases hrun'
    have h0 := h [] (fun _ hc => absurd hc List.not_mem_nil)
    rwa [htext, atoi_spaces (fun _ hc => absurd hc List.not_mem_nil) hc] at h0
  · intro h
    refine ⟨m', hrun, fun spaces hspaces => ?_⟩
    rw [htext, atoi_spaces hspaces hc, h]

theorem atoiStep_digitChar (v : Word) {d : Nat} (hd : d < 10) :
    atoiStep v (digitChar (BitVec.ofInt 32 (1 * (d : Nat)))) = v * 10 + (d : Nat) := by
  have hchar : ∀ d < 10, (digitChar (BitVec.ofInt 32 (1 * (d : Nat)))).signExtend 32 =
      BitVec.ofNat 32 d + 0x30 := by decide
  rw [atoiStep, hchar d hd, ← BitVec.add_assoc, BitVec.add_sub_cancel]
  rfl

theorem foldl_digitChars (v : Word) (n : Nat) : (digitChars 1 10 n).reverse.foldl atoiStep v =
    v * 10 ^ (Nat.digits 10 n).length + BitVec.ofNat 32 n := by
  have hstep : ∀ v : Word, ∀ d ∈ (Nat.digits 10 n).reverse,
      atoiStep v (digitChar (BitVec.ofInt 32 (1 * (d : Nat)))) = v * 10 + (d : Nat) :=
    fun v d hd => atoiStep_digitChar v (Nat.digits_lt_base (by decide) (List.mem_reverse.mp hd))
  have hcast : Nat.ofDigits (10 : Word) (Nat.digits 10 n) = ((Nat.ofDigits 10 (Nat.digits 10 n) : Nat) : Word) :=
    (Nat.coe_ofDigits Word 10 _).symm
  rw [digitChars, ← List.map_reverse, List.foldl_map, List.foldl_ext _ _ _ hstep, foldl_horner, hcast,
    Nat.ofDigits_digits]
  rfl

/-- After `'-'` the accumulator is -3. Only one number makes up for it. -/
theorem minus_three_iff {k : Nat} (hk : k < 2 ^ 31) (hk0 : k ≠ 0) :
    (-3 : Word) * 10 ^ (Nat.digits 10 k).length + BitVec.ofNat 32 k = -BitVec.ofNat 32 k ↔
      k = 2115098112 := by
  obtain ⟨l, hl⟩ : ∃ l, (Nat.digits 10 k).length = l := ⟨_, rfl⟩
  have hlt : k < 10 ^ l := hl ▸ Nat.lt_base_pow_length_digits (by decide)
  have hle : 10 ^ l ≤ 10 * k := hl ▸ Nat.base_pow_length_digits_le 10 k (by decide) hk0
  have hlen : l < 11 := (Nat.pow_lt_pow_iff_right (a := 10) (by decide)).mp (by omega)
  have htwice : (-3 : Word) * 10 ^ l + BitVec.ofNat 32 k = -BitVec.ofNat 32 k ↔
      2 * k = 3 * 10 ^ l % 2 ^ 32 := by
    have hpow : (3 : Word) * 10 ^ l = BitVec.ofNat 32 (3 * 10 ^ l) := by
      rw [← BitVec.natCast_eq_ofNat]
      push_cast
      rfl
    have hsum : BitVec.ofNat 32 k + BitVec.ofNat 32 k = BitVec.ofNat 32 (2 * k) := by
      rw [← BitVec.ofNat_add, Nat.two_mul]
    rw [eq_neg_iff_add_eq_zero, add_assoc, hsum, neg_mul, neg_add_eq_zero, hpow, ← BitVec.toNat_inj,
      BitVec.toNat_ofNat, BitVec.toNat_ofNat, Nat.mod_eq_of_lt (a := 2 * k) (by omega)]
    exact eq_comm
  rw [hl, htwice]
  interval_cases l <;> omega

theorem digitChar_not_space {d : Nat} (hd : d < 10) :
    isspace ((digitChar (BitVec.ofInt 32 (1 * (d : Nat)))).signExtend 32) = false := by
  have hall : ∀ d < 10, isspace ((digitChar (BitVec.ofInt 32 (1 * (d : Nat)))).signExtend 32) = false := by
    decide
  exact hall d hd

theorem readsBack_zero (str : Word) (m : Mem 32) : ReadsBack 0 str m := by
  obtain ⟨m', hrun, htext, -⟩ := itoa_zero str 10 m
  rw [readsBack_iff hrun htext (by decide)]
  decide

theorem readsBack_nonneg {n : Word} (h0 : n ≠ 0) (hs : ¬ n.slt 0) (str : Word) (m : Mem 32) :
    ReadsBack n str m := by
  have hneg : decide (n.slt 0 ∧ BitVec.ofNat 32 10 = 10) = false := decide_eq_false fun h => hs h.1
  have hint : n.toInt = 1 * (n.toNat : Nat) := by rw [toInt_eq_toNat hs, Int.one_mul]
  obtain ⟨m', hrun, htext, -⟩ := itoa_spec (.inl rfl) (b := 10) (by decide) (by decide) h0 hneg
    hint str m
  have hne : (digitChars 1 10 n.toNat).reverse ≠ [] := by
    rw [Ne, List.reverse_eq_nil_iff, digitChars, List.map_eq_nil_iff]
    exact Nat.digits_ne_nil_iff_ne_zero.mpr fun h => h0 (BitVec.eq_of_toNat_eq h)
  obtain ⟨c, text, hc⟩ := List.exists_cons_of_ne_nil hne
  have hmem : c ∈ (digitChars 1 10 n.toNat).reverse := hc ▸ List.mem_cons_self
  obtain ⟨d, hd, rfl⟩ := List.mem_map.mp (List.mem_reverse.mp hmem)
  have hspace := digitChar_not_space (Nat.digits_lt_base (by decide) hd)
  rw [readsBack_iff hrun (htext.trans hc) hspace, ← hc, foldl_digitChars]
  simp

theorem not_readsBack_min (str : Word) (m : Mem 32) : ¬ ReadsBack 0x80000000 str m := by
  have hneg : decide ((0x80000000 : Word).slt 0 ∧ BitVec.ofNat 32 10 = 10) = true := by decide
  have hdigits : Nat.digits 10 (2 ^ 31) = [8, 4, 6, 3, 8, 4, 7, 4, 1, 2] := by norm_num
  obtain ⟨m', hrun, htext, -⟩ := itoa_spec (.inr rfl) (b := 10) (by decide) (by decide) (by decide)
    hneg (n := 2 ^ 31) (by decide) str m
  rw [readsBack_iff hrun htext (by decide), digitChars, hdigits]
  decide

theorem readsBack_negative_iff {n : Word} (hs : n.slt 0) (hmin : n ≠ 0x80000000) (str : Word)
    (m : Mem 32) : ReadsBack n str m ↔ n = -2115098112 := by
  have h0 := ne_zero_of_slt hs
  have hneg : decide (n.slt 0 ∧ BitVec.ofNat 32 10 = 10) = true := decide_eq_true ⟨hs, rfl⟩
  obtain ⟨k, hk⟩ : ∃ k, n.toInt.natAbs = k := ⟨_, rfl⟩
  have hlt : n.toInt < 0 := slt_zero.mp hs
  have hle := BitVec.le_toInt (x := n)
  have hint : (-n).toInt = 1 * (k : Nat) := by rw [toInt_neg hmin]; omega
  have hk31 : k < 2 ^ 31 := by
    have := BitVec.toInt_lt (x := -n)
    omega
  have hn : n = -BitVec.ofNat 32 k := by
    rw [← BitVec.ofInt_natCast, ← Int.one_mul (k : Int), ← hint, BitVec.ofInt_toInt, neg_neg]
  have hright : n = -2115098112 ↔ k = 2115098112 := by
    rw [hn, neg_inj, ← BitVec.toNat_inj, BitVec.toNat_ofNat, Nat.mod_eq_of_lt (by omega)]
    rfl
  obtain ⟨m', hrun, htext, -⟩ := itoa_spec (.inl rfl) (b := 10) (by decide) (by decide) h0
    hneg (n := k) hint str m
  have hminus : atoiStep 0 0x2D = -3 := by decide
  have hfold : (0x2D :: (digitChars 1 10 k).reverse).foldl atoiStep 0 =
      -3 * 10 ^ (Nat.digits 10 k).length + BitVec.ofNat 32 k := by
    rw [List.foldl_cons, hminus, foldl_digitChars]
  rw [readsBack_iff hrun htext (by decide), hright, ← minus_three_iff hk31 (by omega), ← hn, ← hfold]
  rfl

/-- Reading back what `itoa` writes gives the number exactly if it is not negative or the one whose
error the width of `int` hides. -/
theorem atoi_itoa_iff (n str : Word) (m : Mem 32) :
    ReadsBack n str m ↔ ¬ n.slt 0 ∨ n = -2115098112 := by
  by_cases hs : n.slt 0
  · rw [or_iff_right (not_not.mpr hs)]
    by_cases hmin : n = 0x80000000
    · subst hmin
      exact iff_of_false (not_readsBack_min str m) (by decide)
    · exact readsBack_negative_iff hs hmin str m
  · refine iff_of_true ?_ (.inl hs)
    by_cases h0 : n = 0
    · exact h0 ▸ readsBack_zero str m
    · exact readsBack_nonneg h0 hs str m

/-- `"-1"` is read as -29. -/
theorem atoi_minus_one : ¬ ReadsBack (-1) 0x00100000 (fun _ => 0) := by
  have hint : (1 : Word).toInt = 1 * (1 : Nat) := by decide
  have hdigits : Nat.digits 10 1 = [1] := by norm_num
  have hneg : decide ((-1 : Word).slt 0 ∧ BitVec.ofNat 32 10 = 10) = true := by decide
  obtain ⟨m', hrun, htext, -⟩ := itoa_spec (.inl rfl) (b := 10) (by decide) (by decide) (by decide) hneg
    hint 0x00100000 fun _ => 0
  rw [readsBack_iff hrun htext (by decide), digitChars, hdigits]
  decide

end Stdlib
end Amethyst
