import Amethyst.Printf.Vsprintf

/-!
# Amethyst.Printf.Directive

What one directive does, in a memory where what the call reads stays as it was. `R` says of a byte that
it is read: the format, the arguments and the strings are, the buffer is not. `Frozen` is the invariant,
`Text` a string that is read.

* `flags_run`, `width_spec`, `precision_spec`, `qualifier_spec`: the parts of a directive are read as
  `takeSpec` takes them.
* `conversion_effect`: a conversion has the effect that `convert` gives it.
-/

namespace Amethyst
namespace Printf

open Installer (Byte addressSpace cString)

/-! ## What is read -/

/-- The bytes in `R` are as they were in `m₀`. -/
def Frozen (R : Word → Prop) (m₀ m : Mem 32) : Prop := ∀ x, R x → m x = m₀ x

/-- The bytes of `s` and a NUL behind them are in memory from `a` on, and are read. -/
def Text (R : Word → Prop) (m : Mem 32) (a : Word) (s : List Byte) : Prop :=
  ∀ i ≤ s.length, R (a + BitVec.ofNat 32 i) ∧ m (a + BitVec.ofNat 32 i) = s.getD i 0

/-- None of the `n` bytes from `a` on is read. -/
def Free (R : Word → Prop) (a : Word) (n : Nat) : Prop := ∀ i < n, ¬ R (a + BitVec.ofNat 32 i)

section

variable {R : Word → Prop} {m₀ m : Mem 32} {a : Word} {c : Byte} {s t : List Byte} {o : Writer 32}
  {n : Nat}

theorem Text.get {i : Nat} (h : Text R m a s) (hi : i ≤ s.length) :
    m (a + BitVec.ofNat 32 i) = s.getD i 0 := (h i hi).2

theorem Text.nil (h : Text R m a []) : m a = 0 := by simpa using h.get (Nat.le_refl 0)

theorem Text.head (h : Text R m a (c :: s)) : m a = c := by simpa using h.get (Nat.zero_le _)

theorem Text.tail (h : Text R m a (c :: s)) : Text R m (a + 1) s := by
  intro i hi
  have hstep : a + 1 + BitVec.ofNat 32 i = a + BitVec.ofNat 32 (i + 1) := by
    rw [Nat.add_comm, ← add_add_ofNat]
    rfl
  rw [hstep]
  simpa using h (i + 1) (by rw [List.length_cons]; omega)

theorem Frozen.text (h : Frozen R m₀ m) (ht : Text R m₀ a s) : Text R m a s :=
  fun i hi => ⟨(ht i hi).1, (h _ (ht i hi).1).trans (ht i hi).2⟩

theorem Free.mono {k : Nat} (h : Free R a n) (hk : k ≤ n) : Free R a k :=
  fun i hi => h i (Nat.lt_of_lt_of_le hi hk)

theorem Free.shift {k : Nat} (h : Free R a (n + k)) : Free R (a + BitVec.ofNat 32 n) k := by
  intro i hi
  rw [add_add_ofNat]
  exact h (n + i) (by omega)

theorem Frozen.put (h : Frozen R m₀ o.mem) (ho : ¬ R o.str) (c : Byte) : Frozen R m₀ (o.put c).mem := by
  intro x hx
  have hne : x ≠ o.str := by
    rintro rfl
    exact ho hx
  rw [← h x hx]
  exact Function.update_of_ne hne _ _

theorem Frozen.write (h : Frozen R m₀ o.mem) (ho : Free R o.str t.length) :
    Frozen R m₀ (o.write t).mem := by
  intro x hx
  rw [Writer.write_frame, h x hx]
  intro hin
  obtain ⟨i, hi, rfl⟩ := hin.exists_add
  exact ho i hi hx

theorem Frozen.read32 (h : Frozen R m₀ m) (ha : ∀ x, InRange a 4 x → R x) : m.read32 a = m₀.read32 a :=
  Mem.read32_congr fun x hx => h x (ha x hx)

end

/-! ## The parts -/

section

variable {R : Word → Prop} {m : Mem 32}

theorem isFlag_some {c : Byte} {flag : Word} (h : flagBit c = some flag) : isFlag c = true := by
  rw [isFlag, h]
  rfl

theorem isFlag_none {c : Byte} (h : flagBit c = none) : ¬ isFlag c = true := by
  rw [isFlag, h]
  simp

/-- By induction on the text from the first flag on. -/
theorem flags_run : ∀ (s : List Byte) (fuel : Nat) (fmt flags : Word), Text R m (fmt + 1) s →
    s.length < fuel → ∃ fmt', Loop.run (flagPass m) fuel (fmt, flags) =
      some (fmt', (s.takeWhile isFlag).foldl (fun v c => v ||| (flagBit c).getD 0) flags) ∧
        Text R m fmt' (s.dropWhile isFlag) := by
  intro s
  induction s with
  | nil =>
    intro fuel fmt flags ht hfuel
    obtain ⟨fuel, rfl⟩ : ∃ k, fuel = k + 1 := ⟨fuel - 1, by omega⟩
    have hpass : flagPass m (fmt, flags) = .leave (fmt + 1, flags) := by
      rw [flagPass, ht.nil]
      rfl
    exact ⟨fmt + 1, Loop.run_leave hpass, ht⟩
  | cons c s ih =>
    intro fuel fmt flags ht hfuel
    obtain ⟨fuel, rfl⟩ : ∃ k, fuel = k + 1 := ⟨fuel - 1, by omega⟩
    rw [List.length_cons] at hfuel
    cases hc : flagBit c with
    | none =>
      have hpass : flagPass m (fmt, flags) = .leave (fmt + 1, flags) := by
        rw [flagPass, ht.head, hc]
      rw [List.takeWhile_cons_of_neg (isFlag_none hc), List.dropWhile_cons_of_neg (isFlag_none hc)]
      exact ⟨fmt + 1, Loop.run_leave hpass, ht⟩
    | some flag =>
      have hpass : flagPass m (fmt, flags) = .next (fmt + 1, flags ||| flag) := by
        rw [flagPass, ht.head, hc]
      obtain ⟨fmt', hrun, ht'⟩ := ih fuel (fmt + 1) (flags ||| flag) ht.tail (by omega)
      rw [List.takeWhile_cons_of_pos (isFlag_some hc), List.dropWhile_cons_of_pos (isFlag_some hc)]
      refine ⟨fmt', ?_, ht'⟩
      rw [Loop.run_next hpass, hrun, List.foldl_cons, hc]
      rfl

/-- By induction on the text from the first digit on. -/
theorem atoi_run : ∀ (s : List Byte) (fuel : Nat) (i a : Word), Text R m a s → s.length < fuel →
    ∃ a', Loop.run (atoiPass m) fuel (i, a) = some ((s.takeWhile isDigit).foldl Stdlib.atoiStep i, a') ∧
      Text R m a' (s.dropWhile isDigit) := by
  intro s
  induction s with
  | nil =>
    intro fuel i a ht hfuel
    obtain ⟨fuel, rfl⟩ : ∃ k, fuel = k + 1 := ⟨fuel - 1, by omega⟩
    have hpass : atoiPass m (i, a) = .leave (i, a) := by
      rw [atoiPass, ht.nil, if_neg (by decide)]
    exact ⟨a, Loop.run_leave hpass, ht⟩
  | cons c s ih =>
    intro fuel i a ht hfuel
    obtain ⟨fuel, rfl⟩ : ∃ k, fuel = k + 1 := ⟨fuel - 1, by omega⟩
    rw [List.length_cons] at hfuel
    by_cases hc : isDigit c = true
    · have hpass : atoiPass m (i, a) = .next (Stdlib.atoiStep i c, a + 1) := by
        rw [atoiPass, ht.head, if_pos hc]
      obtain ⟨a', hrun, ht'⟩ := ih fuel (Stdlib.atoiStep i c) (a + 1) ht.tail (by omega)
      rw [List.takeWhile_cons_of_pos hc, List.dropWhile_cons_of_pos hc]
      exact ⟨a', by rw [Loop.run_next hpass, hrun]; rfl, ht'⟩
    · have hpass : atoiPass m (i, a) = .leave (i, a) := by
        rw [atoiPass, ht.head, if_neg hc]
      rw [List.takeWhile_cons_of_neg hc, List.dropWhile_cons_of_neg hc]
      exact ⟨a, Loop.run_leave hpass, ht⟩

end

/-- The arguments that a call finds in memory. -/
def argsOf (m : Mem 32) (va : Word) : Args where
  word k := m.read32 (va + BitVec.ofNat 32 (4 * k))
  string p n := cString m n p

/-- The arguments from `k` to `k'` are read. -/
def Words (R : Word → Prop) (va : Word) (k k' : Nat) : Prop :=
  ∀ j, k ≤ j → j < k' → ∀ x, InRange (va + BitVec.ofNat 32 (4 * j)) 4 x → R x

theorem Words.mono {R : Word → Prop} {va : Word} {k k' i i' : Nat} (h : Words R va k k') (hk : k ≤ i)
    (hk' : i' ≤ k') : Words R va i i' :=
  fun j h1 h2 => h j (Nat.le_trans hk h1) (Nat.lt_of_lt_of_le h2 hk')

theorem next_word (va : Word) (k : Nat) :
    va + BitVec.ofNat 32 (4 * k) + 4 = va + BitVec.ofNat 32 (4 * (k + 1)) :=
  add_add_ofNat va (4 * k) 4

section

variable {R : Word → Prop} {m₀ m : Mem 32} {va fmt flags : Word} {k : Nat} {s : List Byte}
  (hm : Frozen R m₀ m) (ht : Text R m fmt s) (hlen : s.length < addressSpace)
include hm

theorem word_eq (h : Words R va k (k + 1)) :
    m.read32 (va + BitVec.ofNat 32 (4 * k)) = (argsOf m₀ va).word k :=
  hm.read32 (h k (Nat.le_refl k) (Nat.lt_succ_self k))

include ht hlen

variable (flags) in
theorem width_spec (hw : Words R va k ((takeCount s).1.eval (argsOf m₀ va) k).2) : ∃ fmt',
    let width := (takeCount s).1.eval (argsOf m₀ va) k
    let negative : Bool := (takeCount s).1 = .star ∧ width.1.slt 0
    fieldWidth m fmt (va + BitVec.ofNat 32 (4 * k)) flags =
      some (fmt', va + BitVec.ofNat 32 (4 * width.2), if negative then flags ||| left else flags,
        if negative then -width.1 else width.1) ∧ Text R m fmt' (takeCount s).2 := by
  cases s with
  | nil => exact ⟨fmt, by simp [fieldWidth, ht.nil, takeCount, Count.eval, isDigit, isdigit], ht⟩
  | cons c s =>
    have hc := ht.head
    by_cases hd : isDigit c = true
    · obtain ⟨fmt', hrun, ht'⟩ := atoi_run (c :: s) addressSpace 0 fmt ht hlen
      refine ⟨fmt', ?_, ?_⟩
      · simp only [takeCount, if_pos hd, Count.eval]
        rw [fieldWidth, hc, if_pos hd, skipAtoi, hrun]
        rfl
      · simpa only [takeCount, if_pos hd] using ht'
    · by_cases hstar : c = 0x2A
      · simp only [takeCount, if_neg hd, if_pos hstar, Count.eval] at hw ⊢
        refine ⟨fmt + 1, ?_, ht.tail⟩
        rw [fieldWidth, hc, if_neg hd, if_pos hstar, word_eq hm hw, next_word]
        simp only [true_and, decide_eq_true_eq]
        split <;> rfl
      · simp only [takeCount, if_neg hd, if_neg hstar, Count.eval]
        refine ⟨fmt, ?_, ht⟩
        rw [fieldWidth, hc, if_neg hd, if_neg hstar]
        rfl

theorem precision_spec (hw : Words R va k (precisionOf (argsOf m₀ va) k (takePrecision s).1).2) : ∃ fmt',
    let precision := precisionOf (argsOf m₀ va) k (takePrecision s).1
    fieldPrecision m fmt (va + BitVec.ofNat 32 (4 * k)) =
      some (fmt', va + BitVec.ofNat 32 (4 * precision.2), precision.1) ∧
        Text R m fmt' (takePrecision s).2 := by
  cases s with
  | nil => exact ⟨fmt, by simp [fieldPrecision, ht.nil, takePrecision, precisionOf], ht⟩
  | cons c s =>
    have hc := ht.head
    by_cases hdot : c = 0x2E
    · simp only [takePrecision, if_pos hdot] at hw ⊢
      have ht' := ht.tail
      rw [fieldPrecision, hc, if_pos hdot]
      cases s with
      | nil =>
        simp only [ht'.nil]
        exact ⟨fmt + 1, rfl, ht'⟩
      | cons d s =>
        have hd' := ht'.head
        simp only [hd']
        by_cases hd : isDigit d = true
        · obtain ⟨fmt', hrun, ht''⟩ := atoi_run (d :: s) addressSpace 0 (fmt + 1) ht'
            (by rw [List.length_cons] at hlen; omega)
          refine ⟨fmt', ?_, by simpa only [takeCount, if_pos hd] using ht''⟩
          simp only [takeCount, if_pos hd, precisionOf, Count.eval]
          rw [skipAtoi, hrun]
          rfl
        · by_cases hstar : d = 0x2A
          · simp only [takeCount, if_neg hd, if_pos hstar, precisionOf, Count.eval] at hw ⊢
            refine ⟨fmt + 1 + 1, ?_, ht'.tail⟩
            rw [word_eq hm hw, next_word]
            rfl
          · simp only [takeCount, if_neg hd, if_neg hstar, precisionOf, Count.eval]
            exact ⟨fmt + 1, rfl, ht'⟩
    · simp only [takePrecision, if_neg hdot, precisionOf]
      refine ⟨fmt, ?_, ht⟩
      rw [fieldPrecision, hc, if_neg hdot]

omit hm hlen in
theorem qualifier_spec : ∃ fmt', fieldQualifier m fmt = (fmt', (takeQualifier s).1) ∧
    Text R m fmt' (takeQualifier s).2 := by
  cases s with
  | nil => exact ⟨fmt, by simp [fieldQualifier, ht.nil, takeQualifier, isQualifier], ht⟩
  | cons c s =>
    have hc := ht.head
    by_cases hq : isQualifier c = true
    · refine ⟨fmt + 1, by rw [fieldQualifier, hc, if_pos hq, takeQualifier, if_pos hq], ?_⟩
      rw [takeQualifier, if_pos hq]
      exact ht.tail
    · refine ⟨fmt, by rw [fieldQualifier, hc, if_neg hq, takeQualifier, if_neg hq], ?_⟩
      rwa [takeQualifier, if_neg hq]

end

/-! ## Strings -/

theorem cString_get {m : Mem 32} : ∀ (n : Nat) (a : Word), ∀ i < (cString m n a).length,
    m (a + BitVec.ofNat 32 i) = (cString m n a).getD i 0 := by
  intro n
  induction n with
  | zero =>
    intro a i hi
    exact absurd hi (Nat.not_lt_zero i)
  | succ n ih =>
    intro a i hi
    rw [cString] at hi ⊢
    split at hi
    · exact absurd hi (Nat.not_lt_zero i)
    · next h0 =>
      rw [if_neg h0]
      cases i with
      | zero => simp
      | succ i =>
        rw [List.getD_cons_succ, ← ih (a + 1) i (by simpa using hi), Nat.add_comm, ← add_add_ofNat]
        rfl

/-- A string depends on its bytes and the one that ends it. -/
theorem cString_congr {m m' : Mem 32} : ∀ (n : Nat) (a : Word),
    (∀ i ≤ (cString m n a).length, m' (a + BitVec.ofNat 32 i) = m (a + BitVec.ofNat 32 i)) →
    cString m' n a = cString m n a := by
  intro n
  induction n with
  | zero => exact fun _ _ => rfl
  | succ n ih =>
    intro a h
    have h0 : m' a = m a := by simpa using h 0 (Nat.zero_le _)
    rw [cString, cString, h0]
    split
    · rfl
    · next hne =>
      rw [ih (a + 1)]
      intro i hi
      have hnext := h (i + 1) (by rw [cString, if_neg hne, List.length_cons]; omega)
      rwa [Nat.add_comm i 1, ← add_add_ofNat] at hnext

/-- By induction on the bytes that may be left. -/
theorem strnlen_run (m : Mem 32) : ∀ (n fuel : Nat) (es maxlen : Word), maxlen.toNat = n → n < fuel →
    Loop.run (strnlenPass m) fuel (es, maxlen) = some (es + BitVec.ofNat 32 (cString m n es).length) := by
  intro n
  induction n with
  | zero =>
    intro fuel es maxlen hn hfuel
    obtain ⟨fuel, rfl⟩ : ∃ k, fuel = k + 1 := ⟨fuel - 1, by omega⟩
    have h0 : maxlen = 0 := BitVec.eq_of_toNat_eq hn
    have hpass : strnlenPass m (es, maxlen) = .leave es := by
      rw [strnlenPass, if_neg fun h => h.2 h0]
    rw [Loop.run_leave hpass]
    simp [cString]
  | succ n ih =>
    intro fuel es maxlen hn hfuel
    obtain ⟨fuel, rfl⟩ : ∃ k, fuel = k + 1 := ⟨fuel - 1, by omega⟩
    by_cases hes : m es = 0
    · have hpass : strnlenPass m (es, maxlen) = .leave es := by
        rw [strnlenPass, if_neg fun h => h.1 hes]
      rw [Loop.run_leave hpass, cString, if_pos hes]
      simp
    · have hne : maxlen ≠ 0 := by
        rintro rfl
        cases hn
      have hpass : strnlenPass m (es, maxlen) = .next (es + 1, maxlen - 1) := by
        rw [strnlenPass, if_pos ⟨hes, hne⟩]
      have hpred : (maxlen - 1).toNat = n := by
        rw [BitVec.toNat_sub]
        have := maxlen.isLt
        have h1 : (1 : Word).toNat = 1 := rfl
        omega
      rw [Loop.run_next hpass, ih fuel (es + 1) (maxlen - 1) hpred (by omega), cString, if_neg hes,
        List.length_cons, Nat.add_comm, ← add_add_ofNat]
      rfl

theorem strnlen_spec (m : Mem 32) (s maxlen : Word) :
    strnlen m s maxlen = some (BitVec.ofNat 32 (cString m maxlen.toNat s).length) := by
  rw [strnlen, strnlen_run m maxlen.toNat addressSpace s maxlen rfl maxlen.isLt, Option.map_some, BitVec.add_comm,
    BitVec.add_sub_cancel]

/-- By induction on the bytes left to copy. -/
theorem copy_run {R : Word → Prop} {m₀ : Mem 32} {p : Word} {str : List Byte} (hlen : str.length < 2 ^ 31)
    (hR : ∀ i < str.length, R (p + BitVec.ofNat 32 i) ∧ m₀ (p + BitVec.ofNat 32 i) = str.getD i 0) :
    ∀ (n i fuel : Nat) (o : Writer 32), i + n = str.length → n < fuel → Frozen R m₀ o.mem → Free R o.str n →
      Loop.run (copyPass (BitVec.ofNat 32 str.length)) fuel (BitVec.ofNat 32 i, p + BitVec.ofNat 32 i, o) =
        some (o.write (str.drop i)) := by
  intro n
  induction n with
  | zero =>
    intro i fuel o hi hfuel _ _
    obtain ⟨fuel, rfl⟩ : ∃ k, fuel = k + 1 := ⟨fuel - 1, by omega⟩
    have hpass : copyPass (BitVec.ofNat 32 str.length) (BitVec.ofNat 32 i, p + BitVec.ofNat 32 i, o) =
        .leave o := by
      rw [copyPass, if_neg]
      rw [BitVec.slt_iff_toInt_lt, toInt_ofNat_of_lt hlen, toInt_ofNat_of_lt (by omega)]
      omega
    rw [Loop.run_leave hpass, List.drop_eq_nil_of_le (by omega), Writer.write_nil]
  | succ n ih =>
    intro i fuel o hi hfuel hm hfree
    obtain ⟨fuel, rfl⟩ : ∃ k, fuel = k + 1 := ⟨fuel - 1, by omega⟩
    have hlt : i < str.length := by omega
    have hbyte : o.mem (p + BitVec.ofNat 32 i) = str[i] := by
      rw [hm _ (hR i hlt).1, (hR i hlt).2, List.getD_eq_getElem _ _ hlt]
    have hstep : BitVec.ofNat 32 i + 1 = BitVec.ofNat 32 (i + 1) := (BitVec.ofNat_add i 1).symm
    have hpass : copyPass (BitVec.ofNat 32 str.length) (BitVec.ofNat 32 i, p + BitVec.ofNat 32 i, o) =
        .next (BitVec.ofNat 32 (i + 1), p + BitVec.ofNat 32 (i + 1), o.put str[i]) := by
      have hpos : (BitVec.ofNat 32 i).slt (BitVec.ofNat 32 str.length) := by
        rw [BitVec.slt_iff_toInt_lt, toInt_ofNat_of_lt hlen, toInt_ofNat_of_lt (by omega)]
        omega
      rw [copyPass, if_pos hpos, hbyte, hstep, BitVec.add_assoc, hstep]
    have hfree0 : ¬ R o.str := by simpa using hfree 0 (Nat.succ_pos n)
    have hfree' : Free R (o.put str[i]).str n := by
      rw [Nat.add_comm] at hfree
      exact hfree.shift
    rw [Loop.run_next hpass, ih (i + 1) fuel _ (by omega) (by omega) (hm.put hfree0 _) hfree',
      List.drop_eq_getElem_cons hlt, Writer.write_cons]

theorem copyString_spec {R : Word → Prop} {m₀ : Mem 32} {p : Word} {str : List Byte}
    (hlen : str.length < 2 ^ 31)
    (hR : ∀ i < str.length, R (p + BitVec.ofNat 32 i) ∧ m₀ (p + BitVec.ofNat 32 i) = str.getD i 0)
    {o : Writer 32} (hm : Frozen R m₀ o.mem) (hfree : Free R o.str str.length) :
    copyString (BitVec.ofNat 32 str.length) p o = some (o.write str) := by
  have hrun := copy_run hlen hR str.length 0 addressSpace o (Nat.zero_add _) (by rw [addressSpace]; omega) hm
    hfree
  rwa [BitVec.add_zero, List.drop_zero] at hrun

/-! ## `%c` and `%s` -/

/-- By induction on the spaces left to write. -/
theorem padChar_run : ∀ (n fuel : Nat) (width : Word) (o : Writer 32), (width.toInt - 1).toNat = n →
    -2 ^ 31 < width.toInt → n < fuel → ∃ width', Loop.run padCharPass fuel (width, o) =
      some (width', o.write (List.replicate n 0x20)) ∧ width'.toInt = min (width.toInt - 1) 0 := by
  intro n
  induction n with
  | zero =>
    intro fuel width o hn hlo hfuel
    obtain ⟨fuel, rfl⟩ : ∃ k, fuel = k + 1 := ⟨fuel - 1, by omega⟩
    have hpred := toInt_pred hlo
    have hpass : padCharPass (width, o) = .leave (width - 1, o) := by
      rw [padCharPass, if_neg (by rw [zero_slt]; omega)]
    refine ⟨width - 1, Loop.run_leave hpass, ?_⟩
    omega
  | succ n ih =>
    intro fuel width o hn hlo hfuel
    obtain ⟨fuel, rfl⟩ : ∃ k, fuel = k + 1 := ⟨fuel - 1, by omega⟩
    have hpred := toInt_pred hlo
    have hpass : padCharPass (width, o) = .next (width - 1, o.put 0x20) := by
      rw [padCharPass, if_pos (by rw [zero_slt]; omega)]
    obtain ⟨width', hrun, hw⟩ := ih fuel (width - 1) (o.put 0x20) (by omega) (by omega) (by omega)
    refine ⟨width', by rw [Loop.run_next hpass, hrun]; rfl, ?_⟩
    omega

theorem padChar_spec (width : Word) (h : -2 ^ 31 < width.toInt) (o : Writer 32) : ∃ width',
    padChar width o = some (width', o.write (List.replicate (width.toInt - 1).toNat 0x20)) ∧
      width'.toInt = min (width.toInt - 1) 0 := by
  have hlt := BitVec.toInt_lt (x := width)
  exact padChar_run _ _ width o rfl h (by omega)

section

variable {R : Word → Prop} {m₀ : Mem 32} {va : Word} {k : Nat} {f : Field} {o : Writer 32}
  (hm : Frozen R m₀ o.mem) (hk : Words R va k (k + 1)) (hw : -2 ^ 31 + 2 ≤ f.width.toInt)
include hm hk hw

theorem writeChar_spec
    (hfree : Free R o.str (justify f.flags f.width [((argsOf m₀ va).word k).setWidth 8]).length) :
    writeChar f (va + BitVec.ofNat 32 (4 * k)) o =
      some (o.write (justify f.flags f.width [((argsOf m₀ va).word k).setWidth 8])) := by
  have hcount : (f.width.toInt - 1).toNat = f.width.toInt.toNat - 1 := by omega
  by_cases hleft : has f.flags left = true
  · obtain ⟨_, hpad, -⟩ := padChar_spec f.width (by omega)
      (o.put (((argsOf m₀ va).word k).setWidth 8))
    simp only [writeChar, if_pos hleft, Option.bind_eq_bind, Option.bind_some, word_eq hm hk, hpad, justify,
      hcount]
    rfl
  · rw [justify, if_neg hleft, List.length_leftpad] at hfree
    obtain ⟨width₁, hpad₁, hw₁⟩ := padChar_spec f.width (by omega) o
    rw [hcount] at hpad₁
    have hm₁ : Frozen R m₀ (o.write (List.replicate (f.width.toInt.toNat - 1) 0x20)).mem :=
      hm.write (hfree.mono (by rw [List.length_replicate, List.length_singleton]; omega))
    obtain ⟨_, hpad₂, -⟩ := padChar_spec width₁ (by omega)
      ((o.write (List.replicate (f.width.toInt.toNat - 1) 0x20)).put (((argsOf m₀ va).word k).setWidth 8))
    have hnone : (width₁.toInt - 1).toNat = 0 := by omega
    rw [hnone, List.replicate_zero, Writer.write_nil] at hpad₂
    simp only [writeChar, if_neg hleft, Option.bind_eq_bind, Option.bind_some, hpad₁, word_eq hm₁ hk, hpad₂,
      justify, List.leftpad, Writer.write_append]
    rfl

theorem writeString_spec {p : Word} {str : List Byte} (hp : (argsOf m₀ va).word k = p)
    (hstr : (argsOf m₀ va).string p f.precision.toNat = str) (hlen : str.length < 2 ^ 31)
    (hread : ∀ i ≤ str.length, R (p + BitVec.ofNat 32 i))
    (hfree : Free R o.str (justify f.flags f.width str).length) :
    writeString f (va + BitVec.ofNat 32 (4 * k)) o = some (o.write (justify f.flags f.width str)) := by
  have hstr₀ : cString m₀ f.precision.toNat p = str := hstr
  have hstr' : cString o.mem f.precision.toNat p = str := by
    rw [← hstr₀] at hread ⊢
    exact cString_congr _ _ fun i hi => hm _ (hread i hi)
  have hR : ∀ i < str.length, R (p + BitVec.ofNat 32 i) ∧ m₀ (p + BitVec.ofNat 32 i) = str.getD i 0 := by
    intro i hi
    refine ⟨hread i (Nat.le_of_lt hi), ?_⟩
    rw [← hstr₀] at hi ⊢
    exact cString_get _ _ i hi
  have hint : (BitVec.ofNat 32 str.length).toInt = str.length := toInt_ofNat_of_lt hlen
  have hcount : (f.width.toInt - str.length).toNat = f.width.toInt.toNat - str.length := by omega
  by_cases hleft : has f.flags left = true
  · obtain ⟨_, hpad, -⟩ := pad_spec (BitVec.ofNat 32 str.length) (by omega) 0x20 f.width
      (by omega) (o.write str)
    rw [justify, if_pos hleft, List.length_rightpad] at hfree
    have hcopy := copyString_spec hlen hR hm (hfree.mono (Nat.le_max_right _ _))
    simp only [writeString, word_eq hm hk, hp, strnlen_spec, hstr', if_pos hleft, Option.bind_eq_bind,
      Option.bind_some, hcopy, hpad, justify, List.rightpad, Writer.write_append, hint, hcount]
    rfl
  · rw [justify, if_neg hleft, List.length_leftpad] at hfree
    obtain ⟨width₁, hpad₁, hw₁⟩ := pad_spec (BitVec.ofNat 32 str.length) (by omega) 0x20 f.width
      (by omega) o
    rw [hint, hcount] at hpad₁
    have hsum : f.width.toInt.toNat - str.length + str.length = max f.width.toInt.toNat str.length := by omega
    rw [← hsum] at hfree
    have hm₁ : Frozen R m₀ (o.write (List.replicate (f.width.toInt.toNat - str.length) 0x20)).mem :=
      hm.write (hfree.mono (by rw [List.length_replicate]; omega))
    have hfree₁ : Free R (o.write (List.replicate (f.width.toInt.toNat - str.length) 0x20)).str str.length := by
      rw [Writer.write_str, List.length_replicate]
      exact hfree.shift
    have hcopy := copyString_spec hlen hR hm₁ hfree₁
    obtain ⟨_, hpad₂, -⟩ := pad_spec (BitVec.ofNat 32 str.length) (by omega) 0x20 width₁
      (by omega) ((o.write (List.replicate (f.width.toInt.toNat - str.length) 0x20)).write str)
    have hnone : (width₁.toInt - str.length).toNat = 0 := by omega
    rw [hint, hnone, List.replicate_zero, Writer.write_nil] at hpad₂
    simp only [writeString, word_eq hm hk, hp, strnlen_spec, hstr', if_neg hleft, Option.bind_eq_bind,
      Option.bind_some, hpad₁, hcopy, hpad₂, justify, List.leftpad, Writer.write_append]
    rfl

end

/-! ## The effect of a directive -/

def Effect.apply (e : Effect) (o : Writer 32) : Writer 32 :=
  match e.store with
  | none => o.write e.text
  | some (p, v) => { o.write e.text with mem := (o.write e.text).mem.write32 p v }

/-- The string that is written is among what is read. -/
def Effect.Reads (R : Word → Prop) (e : Effect) : Prop :=
  ∀ p n, e.read = some (p, n) → ∀ i < n, R (p + BitVec.ofNat 32 i)

/-- What `%n` stores is not among what is read. -/
def Effect.Spares (R : Word → Prop) (e : Effect) : Prop :=
  ∀ p v, e.store = some (p, v) → ∀ x, InRange p 4 x → ¬ R x

theorem conversionOf_integer {c : Byte} {base : Nat} {flag : Word} (h : conversionOf c = .integer base flag) :
    2 ≤ base ∧ base ≤ 16 := by
  unfold conversionOf at h
  split at h
  all_goals first
    | cases h; decide
    | cases h

section

variable {R : Word → Prop} {m₀ : Mem 32} {va buf fmt : Word} {k count : Nat} {f : Field}
  {qualifier : Option Byte} {c : Byte} {o : Writer 32} (hm : Frozen R m₀ o.mem)
include hm

theorem conversion_effect (hR : R fmt) (hc : o.mem fmt = c) (hc0 : c ≠ 0)
    (hstr : o.str = buf + BitVec.ofNat 32 count) (hfits : f.Fits (argsOf m₀ va) c k)
    (hk : Words R va k (convert (argsOf m₀ va) f qualifier c k count).next)
    (hread : (convert (argsOf m₀ va) f qualifier c k count).Reads R)
    (hfree : Free R o.str (convert (argsOf m₀ va) f qualifier c k count).text.length) :
    let e := convert (argsOf m₀ va) f qualifier c k count
    writeConversion buf f qualifier fmt (va + BitVec.ofNat 32 (4 * k)) o =
      some ⟨fmt, va + BitVec.ofNat 32 (4 * e.next), e.apply o⟩ := by
  simp only [convert, Field.Fits] at hk hread hfree hfits ⊢
  rw [writeConversion, hc]
  cases hconv : conversionOf c with
  | char =>
    simp only [hconv] at hk hread hfree hfits ⊢
    rw [writeChar_spec hm hk hfits hfree, Option.map_some, next_word]
    rfl
  | string =>
    simp only [hconv] at hk hread hfree hfits ⊢
    have hbytes : ∀ i ≤ ((argsOf m₀ va).string ((argsOf m₀ va).word k) f.precision.toNat).length,
        R ((argsOf m₀ va).word k + BitVec.ofNat 32 i) :=
      fun i hi => hread _ _ rfl i (Nat.lt_succ_of_le hi)
    rw [writeString_spec hm hk hfits.1 rfl rfl hfits.2 hbytes hfree, Option.map_some, next_word]
    rfl
  | pointer =>
    simp only [hconv] at hk hread hfree hfits ⊢
    rw [word_eq hm hk]
    have hnum := number_writes (b := 16) (by decide) (by decide) hfits ((argsOf m₀ va).word k)
      f.pointer.flags o
    have hbase : BitVec.ofNat 32 16 = (16 : Word) := rfl
    rw [hbase] at hnum
    rw [hnum, Option.map_some, next_word]
    rfl
  | count =>
    simp only [hconv] at hk hread hfree hfits ⊢
    have hcount : o.str - buf = BitVec.ofNat 32 count := by
      rw [hstr, BitVec.add_comm, BitVec.add_sub_cancel]
    rw [word_eq hm hk, next_word, hcount]
    rfl
  | percent => rfl
  | integer base flag =>
    simp only [hconv] at hk hread hfree hfits ⊢
    obtain ⟨h2, h16⟩ := conversionOf_integer hconv
    have hroom : Room (f.withFlag flag).width (f.withFlag flag).precision := hfits
    rw [word_eq hm hk, number_writes h2 h16 hroom, Option.map_some, next_word]
    rfl
  | other =>
    simp only [hconv] at hk hread hfree hfits ⊢
    have h0 : ¬ R o.str := by simpa using hfree 0 (by simp)
    have hc' : (o.put 0x25).mem fmt = c := by rw [hm.put h0 0x25 fmt hR, ← hm fmt hR, hc]
    rw [hc', if_pos hc0]
    rfl

end

theorem Count.le_next (args : Args) (k : Nat) (count : Count) : k ≤ (count.eval args k).2 := by
  cases count with
  | absent => exact Nat.le_refl k
  | digits ds => exact Nat.le_refl k
  | star => exact Nat.le_succ k

theorem precisionOf_le_next (args : Args) (k : Nat) (precision : Option Count) :
    k ≤ (precisionOf args k precision).2 := by
  cases precision with
  | none => exact Nat.le_refl k
  | some count => exact count.le_next args k

theorem Spec.le_next (args : Args) (k : Nat) (spec : Spec) : k ≤ (spec.eval args k).2 :=
  Nat.le_trans (spec.width.le_next args k) (precisionOf_le_next args _ spec.precision)

theorem convert_le_next (args : Args) (f : Field) (qualifier : Option Byte) (c : Byte) (k count : Nat) :
    k ≤ (convert args f qualifier c k count).next := by
  rw [convert]
  cases conversionOf c <;> simp

section

variable {R : Word → Prop} {m₀ : Mem 32} {va buf : Word} {k count : Nat} {s : Vsprintf} {str : List Byte}
  {spec : Spec} (hm : Frozen R m₀ s.out.mem) (ht : Text R s.out.mem (s.fmt + 1) str)
  (hlen : str.length < addressSpace) (hargs : s.args = va + BitVec.ofNat 32 (4 * k))
include hm ht hlen hargs

variable (buf) in
/-- The parts of a directive are read, and its conversion is next. -/
theorem directive_parts (hw : Words R va k ((takeSpec str).1.eval (argsOf m₀ va) k).2) :
    let field := (takeSpec str).1.eval (argsOf m₀ va) k
    ∃ fmt, directive buf s = writeConversion buf field.1 (takeSpec str).1.qualifier fmt
      (va + BitVec.ofNat 32 (4 * field.2)) s.out ∧ Text R s.out.mem fmt (takeSpec str).2 := by
  obtain ⟨fmt₁, hflags, ht₁⟩ := flags_run str addressSpace s.fmt 0 ht hlen
  have hlen₁ : (str.dropWhile isFlag).length < addressSpace :=
    Nat.lt_of_le_of_lt (List.dropWhile_sublist _).length_le hlen
  have hlen₂ : (takeCount (str.dropWhile isFlag)).2.length < addressSpace := by
    have h := congrArg List.length (takeCount_text (str.dropWhile isFlag))
    rw [List.length_append] at h
    omega
  obtain ⟨fmt₂, hwidth, ht₂⟩ := width_spec (flagsOf (str.takeWhile isFlag)) hm ht₁ hlen₁
    (hw.mono (Nat.le_refl k) (precisionOf_le_next _ _ _))
  obtain ⟨fmt₃, hprec, ht₃⟩ := precision_spec hm ht₂ hlen₂
    (k := ((takeCount (str.dropWhile isFlag)).1.eval (argsOf m₀ va) k).2)
    (hw.mono (Count.le_next _ k _) (Nat.le_refl _))
  obtain ⟨fmt₄, hqual, ht₄⟩ := qualifier_spec ht₃
  have hflags' : Loop.run (flagPass s.out.mem) addressSpace (s.fmt, 0) =
      some (fmt₁, flagsOf (str.takeWhile isFlag)) := hflags
  refine ⟨fmt₄, ?_, ht₄⟩
  simp only [directive, hflags', hargs, hwidth, hprec, hqual, Option.bind_eq_bind, Option.bind_some]
  rfl

theorem directive_effect {c : Byte} {rest : List Byte} (hspec : takeSpec str = (spec, c :: rest)) (hc0 : c ≠ 0)
    (hstr : s.out.str = buf + BitVec.ofNat 32 count)
    (hfits : (Piece.directive spec c).Fits (argsOf m₀ va) k)
    (hk : Words R va k ((Piece.directive spec c).effect (argsOf m₀ va) k count).next)
    (hread : ((Piece.directive spec c).effect (argsOf m₀ va) k count).Reads R)
    (hfree : Free R s.out.str ((Piece.directive spec c).effect (argsOf m₀ va) k count).text.length) :
    let e := (Piece.directive spec c).effect (argsOf m₀ va) k count
    ∃ fmt, directive buf s = some ⟨fmt, va + BitVec.ofNat 32 (4 * e.next), e.apply s.out⟩ ∧
      Text R s.out.mem fmt (c :: rest) := by
  have hle := convert_le_next (argsOf m₀ va) (spec.eval (argsOf m₀ va) k).1 spec.qualifier c
    (spec.eval (argsOf m₀ va) k).2 count
  obtain ⟨fmt, hdir, ht'⟩ := directive_parts buf hm ht hlen hargs
    (by rw [hspec]; exact hk.mono (Nat.le_refl k) hle)
  rw [hspec] at hdir ht'
  have hR : R fmt := by simpa using (ht' 0 (Nat.zero_le _)).1
  refine ⟨fmt, ?_, ht'⟩
  rw [hdir]
  exact conversion_effect hm hR ht'.head hc0 hstr hfits
    (hk.mono (Spec.le_next _ k spec) (Nat.le_refl _)) hread hfree

variable (buf count) in
/-- At the end of the format the `%` is written and `fmt` goes back before the NUL. -/
theorem directive_unfinished (hspec : takeSpec str = (spec, [])) (hfree : ¬ R s.out.str)
    (hk : Words R va k ((Piece.unfinished spec).effect (argsOf m₀ va) k count).next) :
    let e := (Piece.unfinished spec).effect (argsOf m₀ va) k count
    ∃ fmt, directive buf s = some ⟨fmt - 1, va + BitVec.ofNat 32 (4 * e.next), e.apply s.out⟩ ∧
      Text R s.out.mem fmt [] := by
  obtain ⟨fmt, hdir, ht'⟩ := directive_parts buf hm ht hlen hargs (by rw [hspec]; exact hk)
  rw [hspec] at hdir ht'
  have hR : R fmt := by simpa using (ht' 0 (Nat.zero_le _)).1
  have hnul : (s.out.put 0x25).mem fmt = 0 := by rw [hm.put hfree 0x25 fmt hR, ← hm fmt hR, ht'.nil]
  refine ⟨fmt, ?_, ht'⟩
  rw [hdir, writeConversion, ht'.nil]
  have hother : conversionOf 0 = .other := rfl
  simp only [hother]
  rw [hnul, if_neg (not_not.mpr rfl)]
  rfl

end

end Printf
end Amethyst
