import Mathlib.Data.Nat.Digits.Lemmas
import Mathlib.Tactic.Ring

/-!
# Amethyst.Numeral

Positional numerals over an alphabet. `Numeral value base text n` says that `text` is the numeral of
`n`, most significant digit first, where `value` gives the digits of the characters.

* `Numeral.digits`: the characters of `Nat.digits`, reversed, are one.
* `foldl_horner`: Horner's scheme, in any commutative semiring.
-/

namespace Amethyst

section

variable {R : Type*} [CommSemiring R]

/-- The digits are listed from the least significant one, as by `Nat.digits`. -/
theorem foldl_horner (b v : R) (l : List Nat) :
    l.reverse.foldl (fun (v : R) (d : Nat) => v * b + d) v = v * b ^ l.length + Nat.ofDigits b l := by
  induction l with
  | nil => simp [Nat.ofDigits]
  | cons d l ih =>
    have hcons : Nat.ofDigits b (d :: l) = d + b * Nat.ofDigits b l := rfl
    rw [List.reverse_cons, List.foldl_append, ih, List.foldl_cons, List.foldl_nil, List.length_cons, hcons]
    ring

end

variable {α : Type*}

/-- No character but digits below the base, and no leading zero unless it is the only digit. -/
structure Numeral (value : α → Option Nat) (base : Nat) (text : List α) (n : Nat) : Prop where
  ne_nil : text ≠ []
  below : ∀ c ∈ text, ∃ d ∈ value c, d < base
  denotes : text.foldl (fun v c => v * base + (value c).getD 0) 0 = n
  leading : ∀ c ∈ text.head?, value c = some 0 → text.length = 1

variable {value : α → Option Nat} {char : Nat → α} {base n : Nat}

/-- Each digit needs a character. -/
theorem Numeral.digits (hchar : ∀ d < base, value (char d) = some d) (hb : 1 < base) (hn : n ≠ 0) :
    Numeral value base ((Nat.digits base n).map char).reverse n := by
  have hlt : ∀ d ∈ Nat.digits base n, d < base := fun d hd => Nat.digits_lt_base hb hd
  have hne : Nat.digits base n ≠ [] := Nat.digits_ne_nil_iff_ne_zero.mpr hn
  refine ⟨fun h => hne (by simpa using h), fun c hc => ?_, ?_, fun c hc h0 => ?_⟩
  · obtain ⟨d, hd, rfl⟩ := List.mem_map.mp (List.mem_reverse.mp hc)
    exact ⟨d, hchar d (hlt d hd), hlt d hd⟩
  · have hval : ∀ v, ∀ d ∈ (Nat.digits base n).reverse,
        v * base + (value (char d)).getD 0 = v * base + d := by
      intro v d hd
      rw [hchar d (hlt d (List.mem_reverse.mp hd)), Option.getD_some]
    rw [← List.map_reverse, List.foldl_map, List.foldl_ext _ _ _ hval]
    refine (foldl_horner base 0 (Nat.digits base n)).trans ?_
    rw [Nat.zero_mul, Nat.zero_add, Nat.ofDigits_digits]
  · -- the first character is that of the last digit of the list, which is not zero
    exfalso
    rw [List.head?_reverse, List.getLast?_map, List.getLast?_eq_getLast_of_ne_nil hne] at hc
    cases hc
    rw [hchar _ (hlt _ (List.getLast_mem hne))] at h0
    exact Nat.getLast_digit_ne_zero base hn (Option.some.inj h0)

theorem Numeral.zero {c : α} (hc : value c = some 0) (hb : 0 < base) : Numeral value base [c] 0 := by
  refine ⟨List.cons_ne_nil c [], fun c' hc' => ?_, by simp [hc], fun _ _ _ => rfl⟩
  rw [List.mem_singleton.mp hc']
  exact ⟨0, hc, hb⟩

end Amethyst
