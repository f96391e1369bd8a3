import Amethyst.FirstDiff
import Amethyst.Installer.CString
import Amethyst.Loop

/-!
# Amethyst.Installer.StringOrder

The order of `strcmp` (`string.c`, the same text in `kernel/src/libc`). The loop runs to the end of the
first string and compares signed characters, so it takes the NUL of the second string for greater than
a byte from 0x80 on. The end of the first string is decided behind the loop, and comes first.

* `strcmpAt_eq`: the loop over two pointers is `strcmp` of the strings that they point to.
* `strcmp_order_iff`: `strcmp` is the order of the strings as unsigned bytes, is antisymmetric and is
  transitive exactly where the bytes from 0x80 on do not decide otherwise.
-/

namespace Amethyst
namespace Installer

/-! ## The loop -/

/-- One pass of `strcmp`, over the two pointers. The last pass is the code behind the loop. -/
def strcmpPass (m : Mem 32) : BitVec 32 × BitVec 32 → Pass (BitVec 32 × BitVec 32) Int
  | (s1, s2) =>
    if m s1 ≠ 0 then
      if (m s1).slt (m s2) then .leave (-1)
      else if (m s2).slt (m s1) then .leave 1
      else .next (s1 + 1, s2 + 1)
    else if m s2 = 0 then .leave 0
    else .leave (-1)

def strcmpAt (m : Mem 32) (s1 s2 : BitVec 32) : Option Int :=
  Loop.run (strcmpPass m) addressSpace (s1, s2)

theorem headD_cString (m : Mem 32) (n : Nat) (a : BitVec 32) : (cString m (n + 1) a).headD 0 = m a := by
  rw [cString]
  split
  · rename_i h
    exact h.symm
  · rfl

/-- By induction on the passes that are left: the first string ends within them. -/
theorem run_strcmpPass (m : Mem 32) : ∀ (n : Nat) (s1 s2 : BitVec 32), (cString m n s1).length < n →
    Loop.run (strcmpPass m) n (s1, s2) = some (strcmp (cString m n s1) (cString m n s2)) := by
  intro n
  induction n with
  | zero =>
    intro s1 s2 h
    exact absurd h (Nat.not_lt_zero _)
  | succ n ih =>
    intro s1 s2 hlen
    have hhead := headD_cString m n s2
    by_cases h1 : m s1 = 0
    · have hnil : cString m (n + 1) s1 = [] := if_pos h1
      rw [hnil, strcmp, hhead]
      by_cases h2 : m s2 = 0
      · have hpass : strcmpPass m (s1, s2) = .leave 0 := by
          rw [strcmpPass, if_neg (not_not.mpr h1), if_pos h2]
        rw [Loop.run_leave hpass, if_pos h2]
      · have hpass : strcmpPass m (s1, s2) = .leave (-1) := by
          rw [strcmpPass, if_neg (not_not.mpr h1), if_neg h2]
        rw [Loop.run_leave hpass, if_neg h2]
    · have hcons : cString m (n + 1) s1 = m s1 :: cString m n (s1 + 1) := if_neg h1
      rw [hcons] at hlen ⊢
      simp only [strcmp, hhead]
      by_cases hlt : (m s1).slt (m s2)
      · have hpass : strcmpPass m (s1, s2) = .leave (-1) := by
          rw [strcmpPass, if_pos h1, if_pos hlt]
        rw [Loop.run_leave hpass, if_pos hlt]
      by_cases hgt : (m s2).slt (m s1)
      · have hpass : strcmpPass m (s1, s2) = .leave 1 := by
          rw [strcmpPass, if_pos h1, if_neg hlt, if_pos hgt]
        rw [Loop.run_leave hpass, if_neg hlt, if_pos hgt]
      -- the bytes agree, so the second string has not ended either
      have h2 : m s2 ≠ 0 := eq_of_not_slt hlt hgt ▸ h1
      have htail : (cString m (n + 1) s2).tail = cString m n (s2 + 1) := by
        rw [cString, if_neg h2]
        rfl
      have hpass : strcmpPass m (s1, s2) = .next (s1 + 1, s2 + 1) := by
        rw [strcmpPass, if_pos h1, if_neg hlt, if_neg hgt]
      rw [Loop.run_next hpass, ih (s1 + 1) (s2 + 1) (by simpa using hlen), if_neg hlt, if_neg hgt, htail]

/-- Where the first string ends, the loop over the pointers is `strcmp` of both. -/
theorem strcmpAt_eq {m : Mem 32} {s1 : BitVec 32} (h : (cString m addressSpace s1).length < addressSpace)
    (s2 : BitVec 32) :
    strcmpAt m s1 s2 = some (strcmp (cString m addressSpace s1) (cString m addressSpace s2)) :=
  run_strcmpPass m addressSpace s1 s2 h

/-! ## The first difference -/

/-- What `strcmp` takes for less at the first difference: the end of the first string, whatever the
second goes on with, or the smaller `char`. -/
def Below (x y : Byte) : Prop := x = 0 ∨ x.slt y

instance (x y : Byte) : Decidable (Below x y) := inferInstanceAs (Decidable (_ ∨ _))

theorem strcmp_cons {x y : Byte} (a : List Byte) {b : List Byte} (hy : b.headD 0 = y) :
    strcmp (x :: a) b = if x.slt y then -1 else if y.slt x then 1 else strcmp a b.tail := by
  subst hy
  rfl

theorem strcmp_cons_self (x : Byte) (a b : List Byte) : strcmp (x :: a) (x :: b) = strcmp a b := by
  have hhead : (x :: b).headD 0 = x := rfl
  have hirr : ¬ x.slt x := fun h => slt_asymm h h
  rw [strcmp_cons a hhead, if_neg hirr, if_neg hirr, List.tail_cons]

theorem strcmp_cons_of_ne {x y : Byte} (hx : x ≠ 0) (h : x ≠ y) (a : List Byte) {b : List Byte}
    (hy : b.headD 0 = y) : strcmp (x :: a) b = if Below x y then -1 else 1 := by
  rw [strcmp_cons a hy]
  by_cases hlt : x.slt y
  · rw [if_pos hlt, if_pos (.inr hlt)]
  by_cases hgt : y.slt x
  · have hnot : ¬ Below x y := not_or.mpr ⟨hx, hlt⟩
    rw [if_neg hlt, if_pos hgt, if_neg hnot]
  · exact absurd (eq_of_not_slt hlt hgt) h

/-- The bytes at the first difference decide; a first string that has ended comes first. -/
theorem strcmp_eq {a b : List Byte} (ha : 0 ∉ a) (hb : 0 ∉ b) : strcmp a b =
    ((firstDiff 0 a b).map fun p => if Below p.1 p.2 then -1 else 1).getD 0 := by
  induction a generalizing b with
  | nil =>
    cases b with
    | nil => rfl
    | cons y b =>
      have hy : y ≠ 0 := (List.ne_of_not_mem_cons hb).symm
      rw [strcmp, List.headD_cons, if_neg hy]
      rfl
  | cons x a ih =>
    have hx : x ≠ 0 := (List.ne_of_not_mem_cons ha).symm
    cases b with
    | nil => exact strcmp_cons_of_ne hx hx a rfl
    | cons y b =>
      by_cases h : x = y
      · subst h
        rw [strcmp_cons_self, firstDiff_cons_self]
        exact ih (List.not_mem_of_not_mem_cons ha) (List.not_mem_of_not_mem_cons hb)
      · rw [firstDiff_cons_ne h]
        exact strcmp_cons_of_ne hx h a rfl

section

variable {a b : List Byte} (ha : 0 ∉ a) (hb : 0 ∉ b)
include ha hb

theorem strcmp_neg_iff : strcmp a b < 0 ↔ ∃ p ∈ firstDiff 0 a b, Below p.1 p.2 := by
  rw [strcmp_eq ha hb]
  cases h : firstDiff 0 a b with
  | none => simp
  | some p =>
    simp only [Option.map_some, Option.getD_some, Option.mem_some_iff, exists_eq_left']
    split
    · exact iff_of_true (by decide) ‹_›
    · exact iff_of_false (by decide) ‹_›

theorem strcmp_pos_iff : 0 < strcmp a b ↔ ∃ p ∈ firstDiff 0 a b, ¬ Below p.1 p.2 := by
  rw [strcmp_eq ha hb]
  cases h : firstDiff 0 a b with
  | none => simp
  | some p =>
    simp only [Option.map_some, Option.getD_some, Option.mem_some_iff, exists_eq_left']
    split
    · exact iff_of_false (by decide) (not_not.mpr ‹_›)
    · exact iff_of_true (by decide) ‹_›

end

/-! ## The laws -/

/-- The order of strings by their unsigned bytes. -/
def Before (a b : List Byte) : Prop := List.Lex (fun x y => x.toNat < y.toNat) a b

instance (a b : List Byte) : Decidable (Before a b) := inferInstanceAs (Decidable (List.Lex _ a b))

/-- `strcmp(a, b)` has the sign of the comparison by unsigned bytes. -/
structure Ordered (a b : List Byte) : Prop where
  equal : strcmp a b = 0 ↔ a = b
  less : strcmp a b < 0 ↔ Before a b
  greater : 0 < strcmp a b ↔ Before b a

/-- `strcmp(b, a)` and `strcmp(a, b)` have opposite signs. -/
def Opposed (a b : List Byte) : Prop := (strcmp b a).sign = -(strcmp a b).sign

instance (a b : List Byte) : Decidable (Opposed a b) := inferInstanceAs (Decidable (_ = _))

/-- `strcmp` is transitive on the three strings, for either sign. -/
structure Chained (a b c : List Byte) : Prop where
  less : strcmp a b < 0 → strcmp b c < 0 → strcmp a c < 0
  greater : 0 < strcmp a b → 0 < strcmp b c → 0 < strcmp a c

/-- At the first difference `a` has ended, or both bytes (the NUL of `b` included) are below 0x80 or
both are not. -/
def SameSide (a b : List Byte) : Prop := ∀ p ∈ firstDiff 0 a b, p.1 = 0 ∨ p.1.msb = p.2.msb

/-- Where `a` ends, `b` goes on with a byte from 0x80 on. -/
def HighAtEnd (a b : List Byte) : Prop := ∃ p ∈ firstDiff 0 a b, p.1 = 0 ∧ p.2.msb

/-- `a` and `b` are the same, or `a` goes on at the first difference, with the greater `char`. -/
def NotBelow (a b : List Byte) : Prop := ∀ p ∈ firstDiff 0 a b, p.1 ≠ 0 ∧ p.2.slt p.1

/-- The signed order is the unsigned one on each side of 0x80, and the other way round across it. -/
theorem below_iff {x y : Byte} (hne : x ≠ y) :
    (Below x y ↔ x.toNat < y.toNat) ↔ x = 0 ∨ x.msb = y.msb := by
  by_cases hx : x = 0
  · have hlt : x.toNat < y.toNat := by bv_omega
    exact iff_of_true (iff_of_true (.inl hx) hlt) (.inl hx)
  rw [Below, or_iff_right hx, or_iff_right hx]
  by_cases hm : x.msb = y.msb
  · rw [BitVec.slt_eq_ult_of_msb_eq hm, BitVec.ult_iff_lt]
    exact iff_of_true Iff.rfl hm
  · rw [BitVec.slt_eq_not_ult_of_msb_neq hm, Bool.not_eq_true', ← Bool.not_eq_true, BitVec.ult_iff_lt]
    exact iff_of_false not_iff_self hm

/-- Only a byte from 0x80 on is a `char` below the NUL. -/
theorem slt_zero_iff {x : Byte} : x.slt 0 ↔ x.msb := BitVec.slt_zero_iff_msb_cond

theorem below_total {x y : Byte} (hne : x ≠ y) : Below x y ∨ Below y x := by
  by_contra h
  simp only [Below, not_or] at h
  exact hne (eq_of_not_slt h.1.2 h.2.2)

theorem slt_of_not_below {x y : Byte} (hne : x ≠ y) (h : ¬ Below x y) : x ≠ 0 ∧ y.slt x := by
  rw [Below, not_or] at h
  refine ⟨h.1, ?_⟩
  by_contra hgt
  exact hne (eq_of_not_slt h.2 hgt)

theorem below_both_iff {x y : Byte} (hne : x ≠ y) :
    Below x y ∧ Below y x ↔ x = 0 ∧ y.msb ∨ y = 0 ∧ x.msb := by
  constructor
  · rintro ⟨h0 | hlt, h0' | hlt'⟩
    · exact absurd (h0.trans h0'.symm) hne
    · exact .inl ⟨h0, slt_zero_iff.mp (h0 ▸ hlt')⟩
    · exact .inr ⟨h0', slt_zero_iff.mp (h0' ▸ hlt)⟩
    · exact (slt_asymm hlt hlt').elim
  · rintro (⟨rfl, hhigh⟩ | ⟨rfl, hhigh⟩)
    · exact ⟨.inl rfl, .inr (slt_zero_iff.mpr hhigh)⟩
    · exact ⟨.inr (slt_zero_iff.mpr hhigh), .inl rfl⟩

/-- Only with the NUL in the middle do two steps down not make one. -/
theorem below_gap {x y z : Byte} (hxy : Below x y) (hyz : Below y z) (hxz : ¬ Below x z) :
    y = 0 ∧ x.msb ∧ z.msb := by
  rw [Below, not_or] at hxz
  have hlt := hxy.resolve_left hxz.1
  have hy : y = 0 := by
    by_contra hy
    have hlt' := hyz.resolve_left hy
    rw [BitVec.slt_iff_toInt_lt] at hxz hlt hlt'
    omega
  subst hy
  refine ⟨rfl, slt_zero_iff.mp hlt, slt_zero_iff.mp ?_⟩
  rw [BitVec.slt_iff_toInt_lt] at hxz hlt ⊢
  omega

theorem not_below_trans {x y z : Byte} (hne : y ≠ z) (hxy : ¬ Below x y) (hyz : ¬ Below y z) :
    x ≠ z ∧ ¬ Below x z := by
  simp only [Below, not_or, BitVec.slt_iff_toInt_lt] at hxy hyz ⊢
  have hval : y.toInt ≠ z.toInt := fun he => hne (BitVec.eq_of_toInt_eq he)
  exact ⟨fun he => by subst he; omega, hxy.1, by omega⟩

theorem before_iff {a b : List Byte} (hb : 0 ∉ b) :
    Before a b ↔ ∃ p ∈ firstDiff 0 a b, p.1.toNat < p.2.toNat := by
  refine lex_iff_firstDiff (fun x => Nat.lt_irrefl _) (fun x => Nat.not_lt_zero _) (fun x hx => ?_) hb
  bv_omega

section

variable {a b c : List Byte} (ha : 0 ∉ a) (hb : 0 ∉ b)
include ha hb

theorem ordered_iff : Ordered a b ↔ SameSide a b := by
  have hneg := strcmp_neg_iff ha hb
  have hpos := strcmp_pos_iff ha hb
  have hless := before_iff (a := a) hb
  have hgreater := (before_iff (a := b) ha).trans
    (exists_firstDiff_swap (P := fun x y : Byte => x.toNat < y.toNat))
  cases h : firstDiff 0 a b with
  | none =>
    simp only [h, Option.not_mem_none, false_and, exists_false, iff_false] at hneg hpos hless hgreater
    refine iff_of_true ⟨strcmp_eq_zero ha hb, iff_of_false hneg hless, iff_of_false hpos hgreater⟩ ?_
    intro p hp
    rw [h] at hp
    cases hp
  | some p =>
    obtain ⟨x, y⟩ := p
    have hne := firstDiff_ne ha hb h
    simp only [h, Option.mem_some_iff, exists_eq_left'] at hneg hpos hless hgreater
    have hval : x.toNat ≠ y.toNat := fun he => hne (BitVec.eq_of_toNat_eq he)
    simp only [SameSide, h, Option.mem_some_iff, forall_eq']
    rw [← below_iff hne]
    constructor
    · intro hord
      rw [← hneg, hord.less, hless]
    · intro hbelow
      refine ⟨strcmp_eq_zero ha hb, hneg.trans (hbelow.trans hless.symm), ?_⟩
      rw [hpos, hgreater, hbelow]
      omega

theorem opposed_iff : Opposed a b ↔ ¬ HighAtEnd a b ∧ ¬ HighAtEnd b a := by
  have hswap : HighAtEnd b a ↔ ∃ p ∈ firstDiff 0 a b, p.2 = 0 ∧ p.1.msb :=
    exists_firstDiff_swap (P := fun x y : Byte => x = 0 ∧ y.msb)
  rw [hswap, Opposed, strcmp_eq ha hb, strcmp_eq hb ha, firstDiff_swap a b, HighAtEnd]
  cases h : firstDiff 0 a b with
  | none => simp
  | some p =>
    obtain ⟨x, y⟩ := p
    have hne := firstDiff_ne ha hb h
    simp only [Option.map_some, Option.getD_some, Option.mem_some_iff, exists_eq_left', Prod.fst_swap,
      Prod.snd_swap]
    rw [← not_or, ← below_both_iff hne]
    by_cases hxy : Below x y
    · by_cases hyx : Below y x
      · rw [if_pos hxy, if_pos hyx]
        exact iff_of_false (by decide) (not_not.mpr ⟨hxy, hyx⟩)
      · rw [if_pos hxy, if_neg hyx]
        exact iff_of_true rfl fun h => hyx h.2
    · have hyx := (below_total hne).resolve_left hxy
      rw [if_neg hxy, if_pos hyx]
      exact iff_of_true rfl fun h => hxy h.1

/-- Each of the two strings is less than the other. -/
theorem HighAtEnd.neg (h : HighAtEnd a b) : strcmp a b < 0 ∧ strcmp b a < 0 := by
  obtain ⟨p, hp, h0, hhigh⟩ := h
  refine ⟨(strcmp_neg_iff ha hb).mpr ⟨p, hp, .inl h0⟩, (strcmp_neg_iff hb ha).mpr ?_⟩
  refine (exists_firstDiff_swap (P := Below)).mpr ⟨p, hp, .inr ?_⟩
  rw [h0]
  exact slt_zero_iff.mpr hhigh

theorem strcmp_pos_trans (hc : 0 ∉ c) (hab : 0 < strcmp a b) (hbc : 0 < strcmp b c) :
    0 < strcmp a c := by
  rw [strcmp_pos_iff ha hb] at hab
  rw [strcmp_pos_iff hb hc] at hbc
  rw [strcmp_pos_iff ha hc]
  obtain ⟨⟨x, y⟩, hp, hxy⟩ := hab
  obtain ⟨⟨y', z⟩, hq, hyz⟩ := hbc
  rcases firstDiff_three ha hb hc hp hq with e | e | ⟨rfl, hdiff, -⟩
  · exact ⟨_, e, hxy⟩
  · exact ⟨_, e, hyz⟩
  · obtain ⟨hne, hxz⟩ := not_below_trans (firstDiff_ne hb hc hq) hxy hyz
    exact ⟨_, hdiff hne, hxz⟩

theorem strcmp_neg_trans (hc : 0 ∉ c) (hcycle : ¬ (a = c ∧ HighAtEnd a b))
    (hfork : ¬ (HighAtEnd b a ∧ HighAtEnd b c ∧ NotBelow a c)) (hab : strcmp a b < 0)
    (hbc : strcmp b c < 0) : strcmp a c < 0 := by
  rw [strcmp_neg_iff ha hb] at hab
  rw [strcmp_neg_iff hb hc] at hbc
  rw [strcmp_neg_iff ha hc]
  obtain ⟨⟨x, y⟩, hp, hxy⟩ := hab
  obtain ⟨⟨y', z⟩, hq, hyz⟩ := hbc
  by_contra hac
  rcases firstDiff_three ha hb hc hp hq with e | e | ⟨rfl, hdiff, hsame⟩
  · exact hac ⟨_, e, hxy⟩
  · exact hac ⟨_, e, hyz⟩
  by_cases hxz : Below x z
  · by_cases hne : x = z
    · -- `a` and `c` both end where `b` goes on
      subst hne
      have h0 : x = 0 := hxz.resolve_right fun h => slt_asymm h h
      have hy : y ≠ 0 := fun h => firstDiff_ne ha hb hp (h0.trans h.symm)
      have hhigh : y.msb := slt_zero_iff.mp (h0 ▸ hyz.resolve_left hy)
      exact hcycle ⟨hsame h0 h0, _, hp, h0, hhigh⟩
    · exact hac ⟨_, hdiff hne, hxz⟩
  · obtain ⟨rfl, hx, hz⟩ := below_gap hxy hyz hxz
    have hba : HighAtEnd b a :=
      (exists_firstDiff_swap (P := fun x y : Byte => x = 0 ∧ y.msb)).mpr ⟨_, hp, rfl, hx⟩
    refine hfork ⟨hba, ⟨_, hq, rfl, hz⟩, fun p hp' => ?_⟩
    exact slt_of_not_below (firstDiff_ne ha hc hp') fun h => hac ⟨p, hp', h⟩

theorem chained_iff (hc : 0 ∉ c) : Chained a b c ↔
    ¬ (a = c ∧ HighAtEnd a b) ∧ ¬ (HighAtEnd b a ∧ HighAtEnd b c ∧ NotBelow a c) := by
  constructor
  · intro h
    constructor
    · rintro ⟨rfl, hhigh⟩
      obtain ⟨hab, hba⟩ := hhigh.neg ha hb
      have hself := h.less hab hba
      rw [(strcmp_eq_zero ha ha).mpr rfl] at hself
      exact absurd hself (by decide)
    · rintro ⟨hba, hbc, hnot⟩
      have hac := h.less (hba.neg hb ha).2 (hbc.neg hb hc).1
      obtain ⟨p, hp, hbelow⟩ := (strcmp_neg_iff ha hc).mp hac
      obtain ⟨h0, hlt⟩ := hnot p hp
      exact slt_asymm (hbelow.resolve_left h0) hlt
  · rintro ⟨hcycle, hfork⟩
    exact ⟨strcmp_neg_trans ha hb hc hcycle hfork, strcmp_pos_trans ha hb hc⟩

end

/-- The order of `strcmp` on any three strings. -/
theorem strcmp_order_iff {a b c : List Byte} (ha : 0 ∉ a) (hb : 0 ∉ b) (hc : 0 ∉ c) :
    (Ordered a b ↔ SameSide a b) ∧
    (Opposed a b ↔ ¬ HighAtEnd a b ∧ ¬ HighAtEnd b a) ∧
    (Chained a b c ↔
      ¬ (a = c ∧ HighAtEnd a b) ∧ ¬ (HighAtEnd b a ∧ HighAtEnd b c ∧ NotBelow a c)) :=
  ⟨ordered_iff ha hb, opposed_iff ha hb, chained_iff ha hb hc⟩

/-- `FAT`, `FAT` with a letter behind it, and `FAT12`. -/
theorem strcmp_order_iff_names :
    (Ordered [0x46, 0x41, 0x54] [0x46, 0x41, 0x54, 0x80] ↔
      SameSide [0x46, 0x41, 0x54] [0x46, 0x41, 0x54, 0x80]) ∧
    (Opposed [0x46, 0x41, 0x54] [0x46, 0x41, 0x54, 0x80] ↔
      ¬ HighAtEnd [0x46, 0x41, 0x54] [0x46, 0x41, 0x54, 0x80] ∧
      ¬ HighAtEnd [0x46, 0x41, 0x54, 0x80] [0x46, 0x41, 0x54]) ∧
    (Chained [0x46, 0x41, 0x54] [0x46, 0x41, 0x54, 0x80] [0x46, 0x41, 0x54, 0x31, 0x32] ↔
      ¬ (([0x46, 0x41, 0x54] : List Byte) = [0x46, 0x41, 0x54, 0x31, 0x32] ∧
          HighAtEnd [0x46, 0x41, 0x54] [0x46, 0x41, 0x54, 0x80]) ∧
      ¬ (HighAtEnd [0x46, 0x41, 0x54, 0x80] [0x46, 0x41, 0x54] ∧
          HighAtEnd [0x46, 0x41, 0x54, 0x80] [0x46, 0x41, 0x54, 0x31, 0x32] ∧
          NotBelow [0x46, 0x41, 0x54] [0x46, 0x41, 0x54, 0x31, 0x32])) :=
  strcmp_order_iff (by decide) (by decide) (by decide)

/-- The string of the byte 0x80 compares less than `A`, and it and the empty string each compare less
than the other. -/
theorem strcmp_high_byte : ¬ Ordered [0x80] [0x41] ∧ ¬ Opposed [0x80] [] ∧ ¬ Chained [] [0x80] [] := by
  refine ⟨fun h => ?_, by decide, fun h => ?_⟩
  · have hless : strcmp [0x80] [0x41] < 0 := by decide
    exact absurd (h.less.mp hless) (by decide)
  · have hself := h.less (by decide) (by decide)
    exact absurd hself (by decide)

end Installer
end Amethyst
