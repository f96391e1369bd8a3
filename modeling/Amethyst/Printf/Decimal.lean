import Amethyst.Printf.Sprintf
import Mathlib.Data.List.TakeWhile

/-!
# Amethyst.Printf.Decimal

Decimal numbers written by `vsprintf`, beside `itoa` and `atoi`.

* `sprintf_decimal`: `%d` writes a numeral with its sign, for every `int`.
* `sprintf_itoa_iff`: `itoa` writes the same text for every number but -2^31.
* `atoi_sprintf`: `atoi` reads back what `%u` writes.
-/

namespace Amethyst
namespace Printf

open Installer (Byte addressSpace cString)
open Stdlib (slt_zero toInt_eq_toNat)

/-- `"%d"` -/
def percentD : List Byte := [0x25, 0x64]

/-- `"%u"` -/
def percentU : List Byte := [0x25, 0x75]

theorem bare_effect (args : Args) {c : Byte} {base : Nat} {flag : Word}
    (h : conversionOf c = .integer base flag) : effects args 0 0 [.directive bare c] =
      [{ text := numberText flag (args.word 0) base (-1) (-1), next := 1 }] := by
  have heval : bare.eval args 0 = (⟨0, -1, -1⟩, 0) := rfl
  have hflag : (0 : Word) ||| flag = flag := BitVec.zero_or
  have hint : (-1 : Word).toInt = -1 := by decide
  have hnum : argument bare.qualifier flag (args.word 0) = args.word 0 := by simp [argument, bare]
  simp only [effects, Piece.effect, heval, convert, h, Field.withFlag, Field.number, hflag, hint, hnum]

theorem effects_percentD (m : Mem 32) (va : Word) : effectsOf m va percentD =
    [{ text := numberText sign (m.read32 va) 10 (-1) (-1), next := 1 }] := by
  have hformat : format percentD = [.directive bare 0x64] := by decide
  have hconv : conversionOf 0x64 = .integer 10 sign := by decide
  rw [effectsOf, hformat, bare_effect _ hconv, argsOf_zero]

theorem effects_percentU (m : Mem 32) (va : Word) : effectsOf m va percentU =
    [{ text := numberText 0 (m.read32 va) 10 (-1) (-1), next := 1 }] := by
  have hformat : format percentU = [.directive bare 0x75] := by decide
  have hconv : conversionOf 0x75 = .integer 10 0 := by decide
  rw [effectsOf, hformat, bare_effect _ hconv, argsOf_zero]

/-- Without a width and a precision there is a sign and digits. -/
theorem numberText_bare {type : Word} (hs : has type special = false) (num : Word) (b : Nat) :
    numberText type num b (-1) (-1) =
      signChars type num ++ digitChars (locaseOf type) b (magnitude type num) := by
  have hspecial : specialChars type b = [] := by rw [specialChars, if_neg (by simp [hs])]
  have hcount : ∀ k : Nat, (-1 - (k : Int)).toNat = 0 := by
    intro k
    omega
  simp only [numberText, hspecial, List.append_nil, hcount]
  split
  · simp [List.leftpad, List.rightpad]
  · split <;> simp [List.leftpad]

theorem digitChars_ne_zero {b : Nat} (hb : 1 < b) (hb' : b ≤ 16) {locase : Byte}
    (hl : locase = 0 ∨ locase = 0x20) (n : Nat) : 0 ∉ digitChars locase b n := by
  have hall : ∀ d < 16, digitChar 0 d ≠ 0 ∧ digitChar 0x20 d ≠ 0 := by decide
  rw [digitChars]
  split
  · decide
  · intro h
    obtain ⟨d, hd, h0⟩ := List.mem_map.mp (List.mem_reverse.mp h)
    have hd16 := hall d (Nat.lt_of_lt_of_le (Nat.digits_lt_base hb hd) hb')
    rcases hl with rfl | rfl
    · exact hd16.1 h0
    · exact hd16.2 h0

theorem signChars_ne_zero (type num : Word) : 0 ∉ signChars type num := by
  rw [signChars]
  split
  · split
    · decide
    · split
      · decide
      · split <;> decide
  · decide

theorem bareText_ne_zero {type : Word} (hs : has type special = false) (num : Word) :
    0 ∉ numberText type num 10 (-1) (-1) := by
  rw [numberText_bare hs]
  intro h
  cases List.mem_append.mp h with
  | inl h => exact signChars_ne_zero type num h
  | inr h => exact digitChars_ne_zero (by decide) (by decide) (locaseOf_cases type) _ h

section

variable {R : Word → Prop} {m : Mem 32} {buf fmt va : Word} {str : List Byte}

/-- A format with one effect, on a text without NUL: that is the string in the buffer. -/
theorem sprintf_string (h : Call R m buf fmt va str) {text : List Byte} {next : Nat}
    (he : effectsOf m va str = [{ text, next }]) (h0 : 0 ∉ text) (hlen : text.length < addressSpace) :
    ∃ m', vsprintf buf fmt va m = some (BitVec.ofNat 32 text.length, m') ∧
      cString m' addressSpace buf = text := by
  have htext : textOf (effectsOf m va str) = text := by rw [he]; simp [textOf]
  obtain ⟨m', hrun, hholds, -⟩ := vsprintf_writes h (by rw [he]; simp) (by rw [htext]; exact hlen)
  rw [htext] at hrun hholds
  refine ⟨m', hrun, ?_⟩
  rw [cString_of_holds text _ _ hlen hholds, List.takeWhile_eq_self_iff]
  intro c hc
  have hne : c ≠ 0 := by
    rintro rfl
    exact h0 hc
  simpa using hne

theorem bareText_length (type num : Word) (hs : has type special = false) :
    (numberText type num 10 (-1) (-1)).length ≤ 33 := by
  have hsign := signChars_length_le type num
  obtain ⟨-, num', -, -, hnum'⟩ := takeSign_spec type num 0
  have hdigits := (digitChars_length (b := 10) (by decide) (locaseOf type) num').2
  rw [hnum'] at hdigits
  rw [numberText_bare hs, List.length_append]
  omega

theorem lt_addressSpace {n : Nat} (h : n ≤ 33) : n < addressSpace := by
  rw [addressSpace]
  omega

/-- A sign and the digits of the absolute value, -2^31 among them. -/
def decimalText (n : Word) : List Byte :=
  (if n.slt 0 then [0x2D] else []) ++ digitChars 0 10 n.toInt.natAbs

theorem numberText_decimal (n : Word) : numberText sign n 10 (-1) (-1) = decimalText n := by
  have hs : has sign special = false := by decide
  have hsign : has sign sign = true := by decide
  have hplus : has sign plus = false := by decide
  have hspace : has sign space = false := by decide
  have hlocase : locaseOf sign = 0 := by decide
  rw [numberText_bare hs, decimalText, signChars, if_pos hsign, hplus, hspace, hlocase, magnitude]
  by_cases hneg : n.slt 0
  · rw [if_pos hneg, if_pos hneg, if_pos ⟨hsign, hneg⟩]
  · have habs : n.toNat = n.toInt.natAbs := by rw [toInt_eq_toNat hneg]; rfl
    have hboth : ¬ (has sign sign = true ∧ n.slt 0 = true) := fun h => hneg h.2
    rw [if_neg hneg, if_neg hneg, if_neg hboth, habs]
    simp

theorem sprintf_decimal (h : Call R m buf fmt va percentD) :
    ∃ m', vsprintf buf fmt va m = some (BitVec.ofNat 32 (decimalText (m.read32 va)).length, m') ∧
      cString m' addressSpace buf = decimalText (m.read32 va) := by
  have hs : has sign special = false := by decide
  have he := effects_percentD m va
  have h0 := bareText_ne_zero hs (m.read32 va)
  have hlen := bareText_length sign (m.read32 va) hs
  rw [numberText_decimal] at he h0 hlen
  exact sprintf_string h he h0 (lt_addressSpace hlen)

end

/-- A call for one number in decimal. -/
theorem sampleMem_decimal {str : List Byte} {type : Word} (hs : has type special = false) (h0 : 0 ∉ str)
    (hlen : str.length < 0x1000) (n : Word)
    (he : effectsOf (sampleMem str n) 0x3000 str = [{ text := numberText type n 10 (-1) (-1), next := 1 }])
    (hfits : AllFit (argsOf (sampleMem str n) 0x3000) 0 0 (format str)) :
    Call (fun x => x.toNat < 0x4000) (sampleMem str n) 0x10000 0x2000 0x3000 str := by
  have hdigits := bareText_length type n hs
  refine sampleMem_call h0 hlen n ?_ ?_ ?_ hfits
  · rw [he]
    exact Nat.le_refl 1
  · rw [he]
    simp
  · rw [he]
    simp [textOf]
    omega

theorem sampleMem_percentD : Call (fun x => x.toNat < 0x4000) (sampleMem percentD (-42)) 0x10000 0x2000 0x3000
    percentD := by
  have he := effects_percentD (sampleMem percentD (-42)) 0x3000
  rw [sampleMem_read] at he
  have hformat : format percentD = [.directive bare 0x64] := by decide
  have hroom : Room (-1) (-1) := by decide
  refine sampleMem_decimal (by decide) (by decide) (by decide) _ he ?_
  rw [hformat]
  exact ⟨hroom, trivial⟩

theorem sampleMem_percentU : Call (fun x => x.toNat < 0x4000) (sampleMem percentU 42) 0x10000 0x2000 0x3000
    percentU := by
  have he := effects_percentU (sampleMem percentU 42) 0x3000
  rw [sampleMem_read] at he
  have hformat : format percentU = [.directive bare 0x75] := by decide
  have hroom : Room (-1) (-1) := by decide
  refine sampleMem_decimal (by decide) (by decide) (by decide) _ he ?_
  rw [hformat]
  exact ⟨hroom, trivial⟩

/-! ## `itoa` and `atoi` -/

/-- Both functions have the same decimal digits. -/
theorem digitChars_eq_stdlib {n : Nat} (hn : n ≠ 0) : digitChars 0 10 n = (Stdlib.digitChars 1 10 n).reverse := by
  have hall : ∀ d < 10, digitChar 0 d = Stdlib.digitChar (BitVec.ofInt 32 (1 * (d : Nat))) := by decide
  rw [digitChars, if_neg hn, Stdlib.digitChars]
  exact congrArg List.reverse (List.map_congr_left fun d hd => hall d (Nat.digits_lt_base (by decide) hd))

/-- What `itoa` writes of a number that has an absolute value. -/
theorem itoa_text {n : Word} (hmin : n ≠ 0x80000000) (str : Word) (m : Mem 32) :
    ∃ m', Stdlib.itoa n str 10 m = some m' ∧ cString m' addressSpace str = decimalText n := by
  by_cases h0 : n = 0
  · subst h0
    obtain ⟨m', hrun, htext, -⟩ := Stdlib.itoa_zero str 10 m
    exact ⟨m', hrun, htext⟩
  by_cases hs : n.slt 0
  · have hneg : decide (n.slt 0 ∧ BitVec.ofNat 32 10 = 10) = true := decide_eq_true ⟨hs, rfl⟩
    have hlt := slt_zero.mp hs
    have hval : (if true = true then -n else n).toInt = 1 * (n.toInt.natAbs : Nat) := by
      rw [if_pos rfl, Stdlib.toInt_neg hmin]
      omega
    obtain ⟨m', hrun, htext, -⟩ := Stdlib.itoa_spec (.inl rfl) (b := 10) (by decide) (by decide) h0 hneg hval
      str m
    refine ⟨m', hrun, ?_⟩
    rw [htext, decimalText, if_pos hs, digitChars_eq_stdlib (by omega)]
    rfl
  · have hneg : decide (n.slt 0 ∧ BitVec.ofNat 32 10 = 10) = false := decide_eq_false fun h => hs h.1
    have hint := toInt_eq_toNat hs
    have hn0 : n.toNat ≠ 0 := fun h => h0 (BitVec.eq_of_toNat_eq h)
    have hval : (if false = true then -n else n).toInt = 1 * (n.toInt.natAbs : Nat) := by
      rw [if_neg (by simp), hint]
      simp
    obtain ⟨m', hrun, htext, -⟩ := Stdlib.itoa_spec (.inl rfl) (b := 10) (by decide) (by decide) h0 hneg hval
      str m
    refine ⟨m', hrun, ?_⟩
    rw [htext, decimalText, if_neg hs, digitChars_eq_stdlib (by omega)]
    rfl

/-- Of -2^31 it writes something else: the digits are not a numeral. -/
theorem itoa_min (str : Word) (m : Mem 32) : ∃ m', Stdlib.itoa 0x80000000 str 10 m = some m' ∧
    cString m' addressSpace str ≠ decimalText 0x80000000 := by
  have hneg : decide ((0x80000000 : Word).slt 0 ∧ BitVec.ofNat 32 10 = 10) = true := by decide
  obtain ⟨m', hrun, htext, -⟩ := Stdlib.itoa_spec (.inr rfl) (b := 10) (by decide) (by decide) (by decide)
    hneg (n := 2 ^ 31) (by decide) str m
  refine ⟨m', hrun, ?_⟩
  have habs : (0x80000000 : Word).toInt.natAbs = 2 ^ 31 := by decide
  rw [htext, decimalText, if_pos (by decide), habs, digitChars_eq_stdlib (by decide)]
  intro he
  have hdigits := List.append_cancel_left he
  have hnumeral : Numeral Stdlib.digitValue 10 (Stdlib.digitChars 1 10 (2 ^ 31)).reverse (2 ^ 31) :=
    Stdlib.numeral_digitChars (by decide) (by decide) (by decide)
  rw [← hdigits] at hnumeral
  exact Stdlib.not_numeral_negative (by decide) (by decide) (by decide) (2 ^ 31) 10 hnumeral

section

variable {R : Word → Prop} {m : Mem 32} {buf fmt va : Word}

/-- The two ways of writing an `int` agree on every number but -2^31. -/
theorem sprintf_itoa_iff (h : Call R m buf fmt va percentD) (str : Word) (m₂ : Mem 32) :
    ∃ count m' m₂', vsprintf buf fmt va m = some (count, m') ∧
      Stdlib.itoa (m.read32 va) str 10 m₂ = some m₂' ∧
      (cString m' addressSpace buf = cString m₂' addressSpace str ↔ m.read32 va ≠ 0x80000000) := by
  obtain ⟨m', hrun, htext⟩ := sprintf_decimal h
  by_cases hmin : m.read32 va = 0x80000000
  · obtain ⟨m₂', hrun₂, htext₂⟩ := itoa_min str m₂
    refine ⟨_, m', m₂', hrun, by rw [hmin]; exact hrun₂, ?_⟩
    rw [htext, hmin]
    exact iff_of_false (fun he => htext₂ he.symm) fun hne => hne rfl
  · obtain ⟨m₂', hrun₂, htext₂⟩ := itoa_text hmin str m₂
    exact ⟨_, m', m₂', hrun, hrun₂, iff_of_true (htext.trans htext₂.symm) hmin⟩

end

theorem sprintf_itoa_iff_negative :
    ∃ count m' m₂', vsprintf 0x10000 0x2000 0x3000 (sampleMem percentD (-42)) = some (count, m') ∧
      Stdlib.itoa ((sampleMem percentD (-42)).read32 0x3000) 0x5000 10 (fun _ => 0) = some m₂' ∧
      (cString m' addressSpace 0x10000 = cString m₂' addressSpace 0x5000 ↔
        (sampleMem percentD (-42)).read32 0x3000 ≠ 0x80000000) :=
  sprintf_itoa_iff sampleMem_percentD 0x5000 fun _ => 0

/-- `atoi` reads back what `%u` writes, for every number and after any spaces. -/
theorem atoi_sprintf {R : Word → Prop} {m : Mem 32} {buf fmt va : Word} (h : Call R m buf fmt va percentU) :
    ∃ count m', vsprintf buf fmt va m = some (count, m') ∧
      ∀ spaces : List Byte, (∀ c ∈ spaces, Stdlib.isspace (c.signExtend 32)) →
        Stdlib.atoi (spaces ++ cString m' addressSpace buf) = m.read32 va := by
  have hs : has 0 special = false := by decide
  have hsign : ¬ has 0 sign = true := by decide
  obtain ⟨n, hn⟩ : ∃ n, m.read32 va = n := ⟨_, rfl⟩
  obtain ⟨m', hrun, htext⟩ := sprintf_string h (effects_percentU m va) (bareText_ne_zero hs _)
    (lt_addressSpace (bareText_length 0 _ hs))
  have hlocase : locaseOf 0 = 0 := by decide
  rw [hn, numberText_bare hs, signChars, if_neg hsign, magnitude, if_neg fun h => hsign h.1, hlocase,
    List.nil_append] at htext
  refine ⟨_, m', hrun, fun spaces hspaces => ?_⟩
  rw [htext, hn]
  by_cases h0 : n.toNat = 0
  · have hzero : n = 0 := BitVec.eq_of_toNat_eq h0
    rw [h0, digitChars, if_pos rfl, Stdlib.atoi_spaces hspaces (by decide), hzero]
    decide
  · rw [digitChars_eq_stdlib h0]
    have hne : (Stdlib.digitChars 1 10 n.toNat).reverse ≠ [] := by
      rw [Ne, List.reverse_eq_nil_iff, Stdlib.digitChars, List.map_eq_nil_iff]
      exact Nat.digits_ne_nil_iff_ne_zero.mpr h0
    obtain ⟨c, text, hc⟩ := List.exists_cons_of_ne_nil hne
    have hmem : c ∈ (Stdlib.digitChars 1 10 n.toNat).reverse := hc ▸ List.mem_cons_self
    obtain ⟨d, hd, rfl⟩ := List.mem_map.mp (List.mem_reverse.mp hmem)
    have hspace := Stdlib.digitChar_not_space (Nat.digits_lt_base (by decide) hd)
    rw [hc, Stdlib.atoi_spaces hspaces hspace, ← hc, Stdlib.foldl_digitChars]
    simp

theorem atoi_sprintf_two_digits :
    ∃ count m', vsprintf 0x10000 0x2000 0x3000 (sampleMem percentU 42) = some (count, m') ∧
      ∀ spaces : List Byte, (∀ c ∈ spaces, Stdlib.isspace (c.signExtend 32)) →
        Stdlib.atoi (spaces ++ cString m' addressSpace 0x10000) = (sampleMem percentU 42).read32 0x3000 :=
  atoi_sprintf sampleMem_percentU

end Printf
end Amethyst
