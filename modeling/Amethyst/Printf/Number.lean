import Amethyst.Stdlib
import Amethyst.Writer

/-!
# Amethyst.Printf.Number

`number` (`printf.c`, the same text in the kernel and in the installer), which lays out an integer.
`int` and `long` have 32 bits and wrap; the width that is left and the precision are counted down
past zero by the loops that use them.

`numberText` is the layout: sign, `0x` or `0`, zeros up to the precision, digits, and the padding
that the flags call for.

* `number_writes`: `number` writes it.
* `digitChars_numeral`: its digits are a numeral of the number.
* `numberText_length`: it is as long as the width asks for, or as its parts need.
-/

namespace Amethyst
namespace Printf

open Installer (Byte addressSpace)
open Stdlib (slt_zero toInt_eq_toNat digitValue)

/-! ## The flags -/

def zeropad : Word := 1
def sign : Word := 2
def plus : Word := 4
def space : Word := 8
def left : Word := 16
def small : Word := 32
def special : Word := 64

def has (type flag : Word) : Bool := type &&& flag ≠ 0

/-! ## `number` -/

/-- `digits` -/
def digits : List Byte :=
  [0x30, 0x31, 0x32, 0x33, 0x34, 0x35, 0x36, 0x37, 0x38, 0x39, 0x41, 0x42, 0x43, 0x44, 0x45, 0x46]

/-- `while (lo < n--) *str++ = c;`, over `n` and `str`. `while (size-- > 0)` is the case that `lo` is 0. -/
def padPass (lo : Word) (c : Byte) : Word × Writer 32 → Pass (Word × Writer 32) (Word × Writer 32)
  | (n, o) => if lo.slt n then .next (n - 1, o.put c) else .leave (n - 1, o)

def pad (lo : Word) (c : Byte) (n : Word) (o : Writer 32) : Option (Word × Writer 32) :=
  Loop.run (padPass lo c) addressSpace (n, o)

/-- `while (num != 0) tmp[i++] = (digits[__do_div(num, base)] | locase);`. The division is unsigned. -/
def divPass (base : Word) (locase : Byte) : Word × List Byte → Pass (Word × List Byte) (List Byte)
  | (num, tmp) =>
    if num ≠ 0 then .next (num / base, tmp ++ [digits.getD (num % base).toNat 0 ||| locase])
    else .leave tmp

/-- The digits in `tmp`, from the least significant one. -/
def toTmp (num base : Word) (locase : Byte) : Option (List Byte) :=
  if num = 0 then some [0x30] else Loop.run (divPass base locase) 33 (num, [])

/-- `while (i-- > 0) *str++ = tmp[i];` -/
def tmpPass (tmp : List Byte) : Word × Writer 32 → Pass (Word × Writer 32) (Writer 32)
  | (i, o) =>
    if (0 : Word).slt i then .next (i - 1, o.put (tmp.getD (i - 1).toNat 0)) else .leave o

/-- `if (type & LEFT) type &= ~ZEROPAD;` -/
def clearPad (type : Word) : Word := if has type left then type &&& ~~~zeropad else type

/-- `0x20` or `0`. -/
def locaseOf (type : Word) : Byte := (type &&& small).setWidth 8

/-- The sign to write, `num` without it and the size that is left. -/
def takeSign (type num size : Word) : Byte × Word × Word :=
  if has type sign then
    if num.slt 0 then (0x2D, -num, size - 1)
    else if has type plus then (0x2B, num, size - 1)
    else if has type space then (0x20, num, size - 1)
    else (0, num, size)
  else (0, num, size)

def takeSpecial (type base size : Word) : Word :=
  if has type special then if base = 16 then size - 2 else if base = 8 then size - 1 else size
  else size

def putSpecial (type base : Word) (locase : Byte) (o : Writer 32) : Writer 32 :=
  if has type special then
    if base = 8 then o.put 0x30
    else if base = 16 then (o.put 0x30).put (0x58 ||| locase)
    else o
  else o

/-- The zeros up to the precision and the digits in `tmp`. -/
def putDigits (tmp : List Byte) (precision : Word) (o : Writer 32) : Option (Writer 32) := do
  let i := BitVec.ofNat 32 tmp.length
  let (_, o) ← pad i 0x30 precision o
  Loop.run (tmpPass tmp) (2 ^ 31) (i, o)

/-- What `number` writes, once it has counted it. -/
def layOut (type base : Word) (locase sign : Byte) (tmp : List Byte) (size precision : Word) (o : Writer 32) :
    Option (Writer 32) := do
  let c : Byte := if has type zeropad then 0x30 else 0x20
  let (size, o) ← if has type (zeropad + left) then some (size, o) else pad 0 0x20 size o
  let o := if sign ≠ 0 then o.put sign else o
  let o := putSpecial type base locase o
  let (size, o) ← if has type left then some (size, o) else pad 0 c size o
  let o ← putDigits tmp precision o
  let (_, o) ← pad 0 0x20 size o
  return o

def number (o : Writer 32) (num base size precision type : Word) : Option (Writer 32) := do
  let locase := locaseOf type
  let type := clearPad type
  if base.slt 2 ∨ (16 : Word).slt base then return { o with str := 0 }
  let (sign, num, size) := takeSign type num size
  let size := takeSpecial type base size
  let tmp ← toTmp num base locase
  let i := BitVec.ofNat 32 tmp.length
  let precision := if precision.slt i then i else precision
  layOut type base locase sign tmp (size - precision) precision o

/-! ## The layout -/

def signChars (type num : Word) : List Byte :=
  if has type sign then
    if num.slt 0 then [0x2D] else if has type plus then [0x2B] else if has type space then [0x20] else []
  else []

/-- `0x`, `0X` or `0`. -/
def specialChars (type : Word) (base : Nat) : List Byte :=
  if has type special then
    if base = 16 then [0x30, 0x58 ||| locaseOf type] else if base = 8 then [0x30] else []
  else []

/-- The number without its sign. -/
def magnitude (type num : Word) : Nat :=
  if has type sign ∧ num.slt 0 then num.toInt.natAbs else num.toNat

def digitChar (locase : Byte) (d : Nat) : Byte := digits.getD d 0 ||| locase

def digitChars (locase : Byte) (base n : Nat) : List Byte :=
  if n = 0 then [0x30] else ((Nat.digits base n).map (digitChar locase)).reverse

/-- What `number` is to write. -/
def numberText (type num : Word) (base : Nat) (width precision : Int) : List Byte :=
  let lead := signChars type num ++ specialChars type base
  let number := (digitChars (locaseOf type) base (magnitude type num)).leftpad precision.toNat 0x30
  if has type left then (lead ++ number).rightpad width.toNat 0x20
  else if has type zeropad then lead ++ number.leftpad (width - lead.length).toNat 0x30
  else (lead ++ number).leftpad width.toNat 0x20

/-- The width and the precision are in the range that the counting down of `int`s needs. -/
def Room (width precision : Word) : Prop := -2 ^ 31 + 6 ≤ width.toInt - max precision.toInt 32

instance (width precision : Word) : Decidable (Room width precision) := inferInstanceAs (Decidable (_ ≤ _))

/-! ## The loops -/

theorem toInt_ofNat_of_lt {k : Nat} (hk : k < 2 ^ 31) : (BitVec.ofNat 32 k).toInt = k := by
  have hlt : (BitVec.ofNat 32 k).toNat = k := by rw [BitVec.toNat_ofNat, Nat.mod_eq_of_lt (by omega)]
  rw [BitVec.toInt_eq_toNat_of_lt (by omega), hlt]

theorem toInt_sub_ofNat (size : Word) {k : Nat} (hk : k < 2 ^ 31) (h : -2 ^ 31 ≤ size.toInt - k) :
    (size - BitVec.ofNat 32 k).toInt = size.toInt - k := by
  have hlt := BitVec.toInt_lt (x := size)
  rw [BitVec.toInt_sub, toInt_ofNat_of_lt hk, Int.bmod_eq_of_le] <;> omega

theorem toInt_pred {size : Word} (h : -2 ^ 31 < size.toInt) : (size - 1).toInt = size.toInt - 1 :=
  toInt_sub_ofNat size (k := 1) (by decide) (by omega)

theorem zero_slt {size : Word} : (0 : Word).slt size ↔ 0 < size.toInt := by
  rw [BitVec.slt_iff_toInt_lt]
  rfl

/-- By induction on the characters left to write. -/
theorem pad_run {lo : Word} (hlo : 0 ≤ lo.toInt) (c : Byte) : ∀ (k fuel : Nat) (n : Word) (o : Writer 32),
    (n.toInt - lo.toInt).toNat = k → -2 ^ 31 < n.toInt → k < fuel →
    ∃ n', Loop.run (padPass lo c) fuel (n, o) = some (n', o.write (List.replicate k c)) ∧
      n'.toInt = min n.toInt lo.toInt - 1 := by
  intro k
  induction k with
  | zero =>
    intro fuel n o hk hn hfuel
    obtain ⟨fuel, rfl⟩ : ∃ f, fuel = f + 1 := ⟨fuel - 1, by omega⟩
    have hpass : padPass lo c (n, o) = .leave (n - 1, o) := by
      rw [padPass, if_neg (by rw [BitVec.slt_iff_toInt_lt]; omega)]
    refine ⟨n - 1, Loop.run_leave hpass, ?_⟩
    rw [toInt_pred hn]
    omega
  | succ k ih =>
    intro fuel n o hk hn hfuel
    obtain ⟨fuel, rfl⟩ : ∃ f, fuel = f + 1 := ⟨fuel - 1, by omega⟩
    have hpass : padPass lo c (n, o) = .next (n - 1, o.put c) := by
      rw [padPass, if_pos (by rw [BitVec.slt_iff_toInt_lt]; omega)]
    have hpred := toInt_pred hn
    obtain ⟨n', hrun, hn'⟩ := ih fuel (n - 1) (o.put c) (by omega) (by omega) (by omega)
    refine ⟨n', by rw [Loop.run_next hpass, hrun]; rfl, ?_⟩
    omega

theorem pad_spec (lo : Word) (hlo : 0 ≤ lo.toInt) (c : Byte) (n : Word) (hn : -2 ^ 31 < n.toInt)
    (o : Writer 32) : ∃ n', pad lo c n o =
      some (n', o.write (List.replicate (n.toInt - lo.toInt).toNat c)) ∧
        n'.toInt = min n.toInt lo.toInt - 1 := by
  have hlt := BitVec.toInt_lt (x := n)
  exact pad_run hlo c _ _ n o rfl hn (by rw [addressSpace]; omega)

/-- The same for `while (size-- > 0)`. -/
theorem pad_zero (c : Byte) (size : Word) (h : -2 ^ 31 < size.toInt) (o : Writer 32) : ∃ size',
    pad 0 c size o = some (size', o.write (List.replicate size.toInt.toNat c)) ∧
      size'.toInt = min size.toInt 0 - 1 := by
  have hzero : (0 : Word).toInt = 0 := rfl
  have hspec := pad_spec 0 (Int.le_refl 0) c size h o
  rwa [hzero, Int.sub_zero] at hspec

/-- The digits in `tmp` are written from the last one. -/
theorem tmp_run (tmp : List Byte) : ∀ (n fuel : Nat) (o : Writer 32), n ≤ tmp.length → n < 2 ^ 31 → n < fuel →
    Loop.run (tmpPass tmp) fuel (BitVec.ofNat 32 n, o) = some (o.write (tmp.take n).reverse) := by
  intro n
  induction n with
  | zero =>
    intro fuel o hle hlt hfuel
    obtain ⟨fuel, rfl⟩ : ∃ k, fuel = k + 1 := ⟨fuel - 1, by omega⟩
    exact Loop.run_leave rfl
  | succ n ih =>
    intro fuel o hle hlt hfuel
    obtain ⟨fuel, rfl⟩ : ∃ k, fuel = k + 1 := ⟨fuel - 1, by omega⟩
    have hpred : BitVec.ofNat 32 (n + 1) - 1 = BitVec.ofNat 32 n := by
      rw [BitVec.ofNat_add]
      exact BitVec.add_sub_cancel _ _
    have hn : (BitVec.ofNat 32 n).toNat = n := by rw [BitVec.toNat_ofNat, Nat.mod_eq_of_lt (by omega)]
    have hpos : (0 : Word).slt (BitVec.ofNat 32 (n + 1)) := by
      rw [zero_slt, toInt_ofNat_of_lt hlt]
      omega
    have hpass : tmpPass tmp (BitVec.ofNat 32 (n + 1), o) =
        .next (BitVec.ofNat 32 n, o.put (tmp.getD n 0)) := by
      rw [tmpPass, if_pos hpos, hpred, hn]
    rw [Loop.run_next hpass, ih fuel _ (by omega) (by omega) (by omega), List.take_add_one,
      List.getElem?_eq_getElem (by omega), Option.toList_some, List.reverse_append,
      List.getD_eq_getElem _ _ (by omega)]
    rfl

/-! ## The digits -/

theorem div_zero (b : Nat) (locase : Byte) (fuel : Nat) (tmp : List Byte) :
    Loop.run (divPass (BitVec.ofNat 32 b) locase) (fuel + 1) (BitVec.ofNat 32 0, tmp) = some tmp :=
  Loop.run_leave rfl

/-- By induction on the digits that may be left. -/
theorem div_run {b : Nat} (hb : 1 < b) (hb' : b ≤ 16) (locase : Byte) : ∀ (fuel n : Nat) (tmp : List Byte),
    n < b ^ fuel → n < 2 ^ 32 →
    Loop.run (divPass (BitVec.ofNat 32 b) locase) (fuel + 1) (BitVec.ofNat 32 n, tmp) =
      some (tmp ++ (Nat.digits b n).map (digitChar locase)) := by
  intro fuel
  induction fuel with
  | zero =>
    intro n tmp hn _
    have hn0 : n = 0 := by simpa using hn
    subst hn0
    simpa using div_zero b locase 0 tmp
  | succ fuel ih =>
    intro n tmp hn hlt
    by_cases hn0 : n = 0
    · subst hn0
      simpa using div_zero b locase (fuel + 1) tmp
    have hnat : (BitVec.ofNat 32 n).toNat = n := by rw [BitVec.toNat_ofNat, Nat.mod_eq_of_lt hlt]
    have hbnat : (BitVec.ofNat 32 b).toNat = b := by rw [BitVec.toNat_ofNat, Nat.mod_eq_of_lt (by omega)]
    have hne : BitVec.ofNat 32 n ≠ 0 := by
      intro h
      rw [h] at hnat
      exact hn0 hnat.symm
    have hquot : BitVec.ofNat 32 n / BitVec.ofNat 32 b = BitVec.ofNat 32 (n / b) := by
      apply BitVec.eq_of_toNat_eq
      have := Nat.div_le_self n b
      rw [BitVec.toNat_udiv, hnat, hbnat, BitVec.toNat_ofNat, Nat.mod_eq_of_lt (by omega)]
    have hpass : divPass (BitVec.ofNat 32 b) locase (BitVec.ofNat 32 n, tmp) =
        .next (BitVec.ofNat 32 (n / b), tmp ++ [digitChar locase (n % b)]) := by
      rw [divPass, if_pos hne, hquot, BitVec.toNat_umod, hnat, hbnat, digitChar]
    have hless : n / b < b ^ fuel := by
      rw [Nat.div_lt_iff_lt_mul (by omega), ← Nat.pow_succ]
      exact hn
    have := Nat.div_le_self n b
    rw [Loop.run_next hpass, ih _ _ hless (by omega), Nat.digits_eq_cons_digits_div hb hn0,
      List.append_assoc]
    rfl

theorem toTmp_spec {b : Nat} (hb : 1 < b) (hb' : b ≤ 16) (num : Word) (locase : Byte) :
    toTmp num (BitVec.ofNat 32 b) locase = some (digitChars locase b num.toNat).reverse := by
  by_cases h0 : num = 0
  · subst h0
    rfl
  · have hn0 : num.toNat ≠ 0 := fun h => h0 (BitVec.eq_of_toNat_eq h)
    have hpow : (2 : Nat) ^ 32 ≤ b ^ 32 := Nat.pow_le_pow_left hb 32
    have hrun := div_run hb hb' locase 32 num.toNat [] (by have := num.isLt; omega) num.isLt
    rw [BitVec.ofNat_toNat, BitVec.setWidth_eq] at hrun
    rw [toTmp, if_neg h0, hrun, digitChars, if_neg hn0, List.reverse_reverse, List.nil_append]

theorem digitChars_length {b : Nat} (hb : 1 < b) (locase : Byte) (num : Word) :
    0 < (digitChars locase b num.toNat).length ∧ (digitChars locase b num.toNat).length ≤ 32 := by
  rw [digitChars]
  split
  · simp
  · next h =>
    have hpow : (2 : Nat) ^ 32 ≤ b ^ 32 := Nat.pow_le_pow_left hb 32
    rw [List.length_reverse, List.length_map, Nat.digits_length_le_iff hb]
    have hne := List.length_pos_of_ne_nil (Nat.digits_ne_nil_iff_ne_zero (b := b).mpr h)
    have := num.isLt
    exact ⟨hne, by omega⟩

/-- The digit that a character stands for, in either case. -/
def digitValueOf (c : Byte) : Option Nat := digitValue (Installer.toupper c)

theorem digitValueOf_digitChar {locase : Byte} (hl : locase = 0 ∨ locase = 0x20) :
    ∀ d < 16, digitValueOf (digitChar locase d) = some d := by
  rcases hl with rfl | rfl <;> decide

theorem digitChars_numeral {locase : Byte} (hl : locase = 0 ∨ locase = 0x20) {b : Nat} (hb : 1 < b)
    (hb' : b ≤ 16) (n : Nat) : Numeral digitValueOf b (digitChars locase b n) n := by
  rw [digitChars]
  split
  · next h =>
    subst h
    exact Numeral.zero (by decide) (by omega)
  · next h =>
    exact Numeral.digits (fun d hd => digitValueOf_digitChar hl d (Nat.lt_of_lt_of_le hd hb')) hb h

theorem locaseOf_cases (type : Word) : locaseOf type = 0 ∨ locaseOf type = 0x20 := by
  have hsmall : ∀ i < 32, small.getLsbD i = decide (i = 5) := by decide
  by_cases h : type.getLsbD 5
  · right
    have hand : type &&& small = small := by
      apply BitVec.eq_of_getLsbD_eq
      intro i hi
      rw [BitVec.getLsbD_and, hsmall i hi]
      by_cases h5 : i = 5 <;> simp [h5, h]
    rw [locaseOf, hand]
    rfl
  · left
    have hand : type &&& small = 0#32 := by
      apply BitVec.eq_of_getLsbD_eq
      intro i hi
      rw [BitVec.getLsbD_and, hsmall i hi]
      by_cases h5 : i = 5
      · simpa [h5] using h
      · simp [h5]
    rw [locaseOf, hand]
    rfl

/-! ## The sign and the special form -/

theorem takeSign_spec (type num size : Word) : ∃ s num',
    takeSign type num size = (s, num', size - BitVec.ofNat 32 (signChars type num).length) ∧
      (∀ o : Writer 32, (if s ≠ 0 then o.put s else o) = o.write (signChars type num)) ∧
      num'.toNat = magnitude type num := by
  have hnone : size = size - BitVec.ofNat 32 0 := (BitVec.sub_zero size).symm
  simp only [takeSign, signChars, magnitude]
  by_cases hsign : has type sign
  · simp only [if_pos hsign]
    by_cases hneg : num.slt 0
    · simp only [if_pos hneg]
      refine ⟨0x2D, -num, rfl, fun _ => rfl, ?_⟩
      have hlt := slt_zero.mp hneg
      rw [if_pos ⟨hsign, hneg⟩, BitVec.toNat_neg]
      rw [BitVec.toInt_eq_toNat_cond] at hlt ⊢
      have := num.isLt
      split at hlt <;> omega
    · have hmag : num.toNat = if has type sign ∧ num.slt 0 then num.toInt.natAbs else num.toNat :=
        (if_neg fun h => hneg h.2).symm
      simp only [if_neg hneg]
      by_cases hplus : has type plus
      · simp only [if_pos hplus]
        exact ⟨0x2B, num, rfl, fun _ => rfl, hmag⟩
      · simp only [if_neg hplus]
        by_cases hspace : has type space
        · simp only [if_pos hspace]
          exact ⟨0x20, num, rfl, fun _ => rfl, hmag⟩
        · simp only [if_neg hspace]
          exact ⟨0, num, Prod.ext rfl (Prod.ext rfl hnone), fun _ => rfl, hmag⟩
  · simp only [if_neg hsign]
    exact ⟨0, num, Prod.ext rfl (Prod.ext rfl hnone), fun _ => rfl, (if_neg fun h => hsign h.1).symm⟩

theorem ofNat_eq_iff {b k : Nat} (hb : b ≤ 16) (hk : k ≤ 16) : BitVec.ofNat 32 b = BitVec.ofNat 32 k ↔ b = k := by
  rw [← BitVec.toNat_inj, BitVec.toNat_ofNat, BitVec.toNat_ofNat, Nat.mod_eq_of_lt (by omega),
    Nat.mod_eq_of_lt (by omega)]

theorem takeSpecial_spec {b : Nat} (hb : b ≤ 16) (type size : Word) :
    takeSpecial type (BitVec.ofNat 32 b) size =
      size - BitVec.ofNat 32 (specialChars type b).length := by
  have h16 : BitVec.ofNat 32 b = 16 ↔ b = 16 := ofNat_eq_iff hb (by decide)
  have h8 : BitVec.ofNat 32 b = 8 ↔ b = 8 := ofNat_eq_iff hb (by decide)
  simp only [takeSpecial, specialChars, h16, h8]
  split
  · split
    · rfl
    · split
      · rfl
      · simp
  · simp

theorem putSpecial_spec {b : Nat} (hb : b ≤ 16) (type : Word) (o : Writer 32) :
    putSpecial type (BitVec.ofNat 32 b) (locaseOf type) o = o.write (specialChars type b) := by
  have h16 : BitVec.ofNat 32 b = 16 ↔ b = 16 := ofNat_eq_iff hb (by decide)
  have h8 : BitVec.ofNat 32 b = 8 ↔ b = 8 := ofNat_eq_iff hb (by decide)
  simp only [putSpecial, specialChars, h16, h8]
  split
  · by_cases hb8 : b = 8
    · simp [hb8]
    · by_cases hb16 : b = 16
      · simp [hb16]
      · simp [hb8, hb16]
  · rfl

theorem specialChars_length_le (type : Word) (b : Nat) : (specialChars type b).length ≤ 2 := by
  simp only [specialChars]
  split
  · split
    · simp
    · split <;> simp
  · simp

theorem signChars_length_le (type num : Word) : (signChars type num).length ≤ 1 := by
  simp only [signChars]
  split
  · split
    · simp
    · split
      · simp
      · split <;> simp
  · simp

/-! ## The text -/

theorem has_clearPad {type : Word} (flag : Word) (hf : ~~~zeropad &&& flag = flag) :
    has (clearPad type) flag = has type flag := by
  rw [clearPad]
  split
  · rw [has, has, BitVec.and_assoc, hf]
  · rfl

theorem locaseOf_clearPad (type : Word) : locaseOf (clearPad type) = locaseOf type := by
  have hsmall : ~~~zeropad &&& small = small := by decide
  rw [locaseOf, locaseOf, clearPad]
  split
  · rw [BitVec.and_assoc, hsmall]
  · rfl

theorem has_clearPad_zeropad (type : Word) :
    has (clearPad type) zeropad = (has type zeropad && !has type left) := by
  rw [clearPad]
  split
  · next h =>
    have hclear : ~~~zeropad &&& zeropad = 0 := by decide
    have hnone : type &&& (0 : Word) = 0 := BitVec.and_zero
    rw [h, has, BitVec.and_assoc, hclear, hnone]
    simp
  · next h => simp [h]

theorem has_add (type : Word) : has type (zeropad + left) = (has type zeropad || has type left) := by
  have hor : zeropad + left = zeropad ||| left := by decide
  have hzero : type &&& (zeropad ||| left) = 0 ↔ type &&& zeropad = 0 ∧ type &&& left = 0 := by
    rw [BitVec.and_or_distrib_left]
    exact BitVec.or_eq_zero_iff
  simp only [has, hor, Ne, hzero]
  by_cases h1 : type &&& zeropad = 0 <;> by_cases h2 : type &&& left = 0 <;> simp [h1, h2]

/-- The precision after `if (i > precision) precision = i;`. -/
theorem toInt_precision {d : Nat} (hd : d ≤ 32) (precision : Word) :
    (if precision.slt (BitVec.ofNat 32 d) then BitVec.ofNat 32 d else precision).toInt =
      max precision.toInt d := by
  have hd' : (BitVec.ofNat 32 d).toInt = d := toInt_ofNat_of_lt (by omega)
  split
  · next h =>
    rw [BitVec.slt_iff_toInt_lt, hd'] at h
    omega
  · next h =>
    rw [BitVec.slt_iff_toInt_lt, hd'] at h
    omega

theorem putDigits_spec {ds : List Byte} (hlen : ds.length ≤ 32) (precision : Word) (o : Writer 32) :
    putDigits ds.reverse (if precision.slt (BitVec.ofNat 32 ds.length) then BitVec.ofNat 32 ds.length
      else precision) o = some (o.write (ds.leftpad precision.toInt.toNat 0x30)) := by
  have hi : (BitVec.ofNat 32 ds.length).toInt = ds.length := toInt_ofNat_of_lt (by omega)
  have hp := toInt_precision hlen precision
  obtain ⟨n, hpad, -⟩ := pad_spec (BitVec.ofNat 32 ds.length) (by omega) 0x30
    (if precision.slt (BitVec.ofNat 32 ds.length) then BitVec.ofNat 32 ds.length else precision)
    (by omega) o
  have hcount : (max precision.toInt ds.length - (ds.length : Int)).toNat =
      precision.toInt.toNat - ds.length := by omega
  rw [hp, hi, hcount] at hpad
  have htmp := tmp_run ds.reverse ds.length (2 ^ 31)
    (o.write (List.replicate (precision.toInt.toNat - ds.length) 0x30)) (by simp) (by omega) (by omega)
  rw [← List.length_reverse, List.take_length, List.reverse_reverse, List.length_reverse,
    ← Writer.write_append] at htmp
  simp only [putDigits, List.length_reverse, hpad, Option.bind_eq_bind, Option.bind_some, htmp]
  rfl

section

variable {type base : Word} {locase sign : Byte} {lead ds : List Byte} {size precision : Word}
  (hlead : ∀ o : Writer 32, putSpecial type base locase (if sign ≠ 0 then o.put sign else o) = o.write lead)
  (hlen : ds.length ≤ 32) (hsize : -2 ^ 31 + 3 ≤ size.toInt) (o : Writer 32)
include hlead hlen hsize

/-- The first two loops are left out. -/
theorem layOut_left (hleft : has type left = true) :
    layOut type base locase sign ds.reverse size (if precision.slt (BitVec.ofNat 32 ds.length) then
      BitVec.ofNat 32 ds.length else precision) o =
        some (o.write (lead ++ ds.leftpad precision.toInt.toNat 0x30 ++
          List.replicate size.toInt.toNat 0x20)) := by
  have hboth : has type (zeropad + left) = true := by rw [has_add, hleft, Bool.or_true]
  obtain ⟨_, hpad, -⟩ := pad_zero 0x20 size (by omega)
    ((o.write lead).write (ds.leftpad precision.toInt.toNat 0x30))
  simp only [layOut, if_pos hboth, if_pos hleft, Option.bind_eq_bind, Option.bind_some, hlead,
    putDigits_spec hlen, hpad, Writer.write_append]
  rfl

/-- The second loop leaves no size for the third. -/
theorem layOut_zeropad (hleft : has type left = false) (hzero : has type zeropad = true) :
    layOut type base locase sign ds.reverse size (if precision.slt (BitVec.ofNat 32 ds.length) then
      BitVec.ofNat 32 ds.length else precision) o =
        some (o.write (lead ++ (List.replicate size.toInt.toNat 0x30 ++
          ds.leftpad precision.toInt.toNat 0x30))) := by
  have hboth : has type (zeropad + left) = true := by rw [has_add, hzero, Bool.true_or]
  have hnot : ¬ has type left = true := by rw [hleft]; simp
  obtain ⟨size₁, hpad₁, hsize₁⟩ := pad_zero 0x30 size (by omega) (o.write lead)
  obtain ⟨_, hpad₂, -⟩ := pad_zero 0x20 size₁ (by omega)
    (((o.write lead).write (List.replicate size.toInt.toNat 0x30)).write
      (ds.leftpad precision.toInt.toNat 0x30))
  have hnone : size₁.toInt.toNat = 0 := by omega
  rw [hnone, List.replicate_zero, Writer.write_nil] at hpad₂
  simp only [layOut, if_pos hboth, if_neg hnot, if_pos hzero, Option.bind_eq_bind, Option.bind_some, hlead,
    hpad₁, putDigits_spec hlen, hpad₂, Writer.write_append]
  rfl

/-- The first loop leaves no size for the other two. -/
theorem layOut_right (hleft : has type left = false) (hzero : has type zeropad = false) :
    layOut type base locase sign ds.reverse size (if precision.slt (BitVec.ofNat 32 ds.length) then
      BitVec.ofNat 32 ds.length else precision) o =
        some (o.write (List.replicate size.toInt.toNat 0x20 ++
          (lead ++ ds.leftpad precision.toInt.toNat 0x30))) := by
  have hboth : ¬ has type (zeropad + left) = true := by rw [has_add, hleft, hzero]; simp
  have hnot : ¬ has type left = true := by rw [hleft]; simp
  have hnot' : ¬ has type zeropad = true := by rw [hzero]; simp
  obtain ⟨size₁, hpad₁, hsize₁⟩ := pad_zero 0x20 size (by omega) o
  obtain ⟨size₂, hpad₂, hsize₂⟩ := pad_zero 0x20 size₁ (by omega)
    ((o.write (List.replicate size.toInt.toNat 0x20)).write lead)
  have hnone₁ : size₁.toInt.toNat = 0 := by omega
  rw [hnone₁, List.replicate_zero, Writer.write_nil] at hpad₂
  obtain ⟨_, hpad₃, -⟩ := pad_zero 0x20 size₂ (by omega)
    (((o.write (List.replicate size.toInt.toNat 0x20)).write lead).write
      (ds.leftpad precision.toInt.toNat 0x30))
  have hnone₂ : size₂.toInt.toNat = 0 := by omega
  rw [hnone₂, List.replicate_zero, Writer.write_nil] at hpad₃
  simp only [layOut, if_neg hboth, if_neg hnot, if_neg hnot', Option.bind_eq_bind, Option.bind_some, hlead,
    hpad₁, hpad₂, putDigits_spec hlen, hpad₃, Writer.write_append]
  rfl

end

/-- What is left of the width, from which the loops count down. -/
theorem size_left {width precision : Word} (hroom : Room width precision) {s t d : Nat} (hs : s ≤ 1)
    (ht : t ≤ 2) (hd : d ≤ 32) :
    (width - BitVec.ofNat 32 s - BitVec.ofNat 32 t -
      (if precision.slt (BitVec.ofNat 32 d) then BitVec.ofNat 32 d else precision)).toInt =
        width.toInt - (s + t) - max precision.toInt d := by
  have hroom' : -2 ^ 31 + 6 ≤ width.toInt - max precision.toInt 32 := hroom
  have h1 := toInt_sub_ofNat width (k := s) (by omega) (by omega)
  have h2 := toInt_sub_ofNat (width - BitVec.ofNat 32 s) (k := t) (by omega) (by omega)
  have hlt := BitVec.toInt_lt (x := width)
  rw [BitVec.toInt_sub, h2, h1, toInt_precision hd, Int.bmod_eq_of_le] <;> omega

/-- The flags but `ZEROPAD` are those of `type`. -/
theorem signChars_clearPad (type num : Word) : signChars (clearPad type) num = signChars type num := by
  simp only [signChars, has_clearPad sign (by decide), has_clearPad plus (by decide),
    has_clearPad space (by decide)]

theorem specialChars_clearPad (type : Word) (b : Nat) : specialChars (clearPad type) b = specialChars type b := by
  simp only [specialChars, has_clearPad special (by decide), locaseOf_clearPad]

theorem magnitude_clearPad (type num : Word) : magnitude (clearPad type) num = magnitude type num := by
  simp only [magnitude, has_clearPad sign (by decide)]

theorem number_writes {b : Nat} (hb : 2 ≤ b) (hb' : b ≤ 16) {width precision : Word}
    (hroom : Room width precision) (num type : Word) (o : Writer 32) :
    number o num (BitVec.ofNat 32 b) width precision type =
      some (o.write (numberText type num b width.toInt precision.toInt)) := by
  have hbase : ¬ ((BitVec.ofNat 32 b).slt 2 ∨ (16 : Word).slt (BitVec.ofNat 32 b)) := by
    rw [BitVec.slt_iff_toInt_lt, BitVec.slt_iff_toInt_lt, toInt_ofNat_of_lt (by omega)]
    have h2 : (2 : Word).toInt = 2 := by decide
    have h16 : (16 : Word).toInt = 16 := by decide
    omega
  obtain ⟨s, num', htake, hput, hnum'⟩ := takeSign_spec (clearPad type) num width
  rw [signChars_clearPad] at htake
  rw [magnitude_clearPad] at hnum'
  have hlead : ∀ o : Writer 32, putSpecial (clearPad type) (BitVec.ofNat 32 b) (locaseOf type)
      (if s ≠ 0 then o.put s else o) = o.write (signChars type num ++ specialChars type b) := by
    intro o
    rw [hput, ← locaseOf_clearPad, putSpecial_spec hb', signChars_clearPad, specialChars_clearPad,
      Writer.write_append]
  have hlen : (digitChars (locaseOf type) b (magnitude type num)).length ≤ 32 := by
    rw [← hnum']
    exact (digitChars_length hb _ num').2
  have hs := signChars_length_le type num
  have ht := specialChars_length_le type b
  have hsize := size_left hroom hs ht hlen
  simp only [number, if_neg hbase, htake, takeSpecial_spec hb', toTmp_spec hb hb', hnum',
    specialChars_clearPad, Option.bind_eq_bind, Option.bind_some, List.length_reverse, numberText]
  obtain ⟨ds, hds⟩ : ∃ ds, digitChars (locaseOf type) b (magnitude type num) = ds := ⟨_, rfl⟩
  obtain ⟨lead, hl⟩ : ∃ lead, signChars type num ++ specialChars type b = lead := ⟨_, rfl⟩
  have hleadlen := congrArg List.length hl
  rw [List.length_append] at hleadlen
  rw [hds] at hlen hsize ⊢
  rw [hl] at hlead ⊢
  -- what is left of the width is what the text leaves of it
  obtain ⟨size, hsize'⟩ : ∃ size, width - BitVec.ofNat 32 (signChars type num).length -
    BitVec.ofNat 32 (specialChars type b).length - (if precision.slt (BitVec.ofNat 32 ds.length) then
      BitVec.ofNat 32 ds.length else precision) = size := ⟨_, rfl⟩
  rw [hsize'] at hsize ⊢
  have hroom' : -2 ^ 31 + 6 ≤ width.toInt - max precision.toInt 32 := hroom
  have hmin : -2 ^ 31 + 3 ≤ size.toInt := by omega
  cases hleft : has type left with
  | true =>
    have hn : size.toInt.toNat = width.toInt.toNat - (lead ++ ds.leftpad precision.toInt.toNat 0x30).length := by
      rw [List.length_append, List.length_leftpad]
      omega
    rw [layOut_left hlead hlen hmin o ((has_clearPad left (by decide)).trans hleft), if_pos rfl, List.rightpad, hn]
  | false =>
    have hleft' : has (clearPad type) left = false := (has_clearPad left (by decide)).trans hleft
    cases hzero : has type zeropad with
    | true =>
      have hn : size.toInt.toNat = (width.toInt - lead.length).toNat -
          (ds.leftpad precision.toInt.toNat 0x30).length := by
        rw [List.length_leftpad]
        omega
      have hzero' : has (clearPad type) zeropad = true := by rw [has_clearPad_zeropad, hzero, hleft]; rfl
      rw [layOut_zeropad hlead hlen hmin o hleft' hzero', if_neg (by simp), if_pos rfl, hn]
      rfl
    | false =>
      have hn : size.toInt.toNat = width.toInt.toNat -
          (lead ++ ds.leftpad precision.toInt.toNat 0x30).length := by
        rw [List.length_append, List.length_leftpad]
        omega
      have hzero' : has (clearPad type) zeropad = false := by rw [has_clearPad_zeropad, hzero]; rfl
      rw [layOut_right hlead hlen hmin o hleft' hzero', if_neg (by simp), if_neg (by simp), hn]
      rfl

theorem numberText_length (type num : Word) (b : Nat) (width precision : Int) :
    (numberText type num b width precision).length = max width.toNat
      ((signChars type num).length + (specialChars type b).length +
        max precision.toNat (digitChars (locaseOf type) b (magnitude type num)).length) := by
  simp only [numberText]
  split
  · rw [List.length_rightpad, List.length_append, List.length_append, List.length_leftpad]
  · split
    · rw [List.length_append, List.length_leftpad, List.length_leftpad, List.length_append]
      omega
    · rw [List.length_leftpad, List.length_append, List.length_append, List.length_leftpad]

/-- A number is written as its layout says; the digits are those of its magnitude, and the text is as long
as the width asks for and no longer than it has to be. -/
theorem number_layout {b : Nat} (hb : 2 ≤ b) (hb' : b ≤ 16) {width precision : Word}
    (hroom : Room width precision) (num type : Word) (o : Writer 32) :
    let digits := digitChars (locaseOf type) b (magnitude type num)
    let text := numberText type num b width.toInt precision.toInt
    number o num (BitVec.ofNat 32 b) width precision type = some (o.write text) ∧
      text.length = max width.toInt.toNat ((signChars type num).length + (specialChars type b).length +
        max precision.toInt.toNat digits.length) ∧
      Numeral digitValueOf b digits (magnitude type num) :=
  ⟨number_writes hb hb' hroom num type o, numberText_length ..,
    digitChars_numeral (locaseOf_cases type) hb hb' _⟩

example : numberText (zeropad ||| special ||| small) 0xBEEF 16 8 (-1) =
    [0x30, 0x78, 0x30, 0x30, 0x62, 0x65, 0x65, 0x66] := by decide

/-- `%#08x` of 0xBEEF -/
theorem number_layout_hex :
    let type := zeropad ||| special ||| small
    let digits := digitChars (locaseOf type) 16 (magnitude type 0xBEEF)
    let text := numberText type 0xBEEF 16 (8 : Word).toInt (-1 : Word).toInt
    let o : Writer 32 := ⟨0x1000, fun _ => 0⟩
    number o 0xBEEF (BitVec.ofNat 32 16) 8 (-1) type = some (o.write text) ∧
      text.length = max (8 : Word).toInt.toNat ((signChars type 0xBEEF).length +
        (specialChars type 16).length + max (-1 : Word).toInt.toNat digits.length) ∧
      Numeral digitValueOf 16 digits (magnitude type 0xBEEF) :=
  @number_layout 16 (by decide) (by decide) 8 (-1) (by decide) 0xBEEF _ _

end Printf
end Amethyst
