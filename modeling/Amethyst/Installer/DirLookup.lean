import Amethyst.Installer.DirScan

/-!
# Amethyst.Installer.DirLookup

Which slot `fat12_find_entry` yields. It looks at the names of all slots in front of the end marker:
deleted slots are not skipped, since a `char` is never equal to `0xE5`, and the attributes, by which
`fat12_dir_open` leaves out volume labels and long names, are not looked at.

`fat12FindEntry_live_iff`: it yields the first live slot of the name, or reports that there is none,
exactly when each other slot of the name is behind a live one.
-/

namespace Amethyst
namespace Installer

/-- The name that a slot is looked up by. -/
def displayName (m : Mem 32) (slot : Word) : List Byte := stringOf (clusterfilename m slot)

/-- Neither deleted nor a volume label; the slots of a long name are volume labels too. -/
def LiveSlot (m : Mem 32) (slot : Word) : Prop := m slot ≠ 0xE5 ∧ ¬ isVolumeLabel m slot

instance (m : Mem 32) (slot : Word) : Decidable (LiveSlot m slot) :=
  inferInstanceAs (Decidable (_ ∧ _))

/-- The outcome of a lookup with this slot, if any. -/
def found (pEntry : Word) (w : World) : Option Word → Result Word
  | some slot => .done slot w
  | none => .done pEntry (w.setErr .notfound)

/-- The lookup yields the first live slot of the name in front of the `k`-th slot, or reports that
there is none. -/
def FindsLive (k : Nat) (pEntry dir : Word) (name : List Byte) (w : World) : Prop :=
  fat12FindEntry pEntry dir name w =
    found pEntry w ((liveSlots w.mem k dir).find? fun slot => displayName w.mem slot = name)

theorem found_inj {pEntry : Word} {w : World} (hno : w.state.err = .no) {a b : Option Word}
    (h : found pEntry w a = found pEntry w b) : a = b := by
  have hne : w ≠ w.setErr .notfound := by
    intro he
    have := congrArg (fun w => w.state.err) he
    simp [hno] at this
  cases a with
  | none =>
    cases b with
    | none => rfl
    | some b =>
      injection h with _ he
      exact absurd he.symm hne
  | some a =>
    cases b with
    | none =>
      injection h with _ he
      exact absurd he hne
    | some b =>
      injection h with he
      rw [he]

section

variable (pEntry : Word) {name : List Byte} (hname : 0 ∉ name) {w : World} (hno : w.state.err = .no)
include hname hno

/-- The scan yields the first slot of the name. By induction on the slots up to the marker. -/
theorem findEntryLoop_find : ∀ (k n : Nat) (dir : Word), EndsAt w.mem dir k → k < n →
    (∀ i < k, slotAt dir i ≠ 0) →
    findEntryLoop pEntry name n dir w =
      found pEntry w ((slots k dir).find? fun slot => displayName w.mem slot = name) := by
  intro k
  induction k with
  | zero =>
    intro n dir hend hn _
    obtain ⟨n, rfl⟩ : ∃ l, n = l + 1 := ⟨n - 1, by omega⟩
    rw [findEntryLoop, if_pos (endsAt_zero.mp hend)]
    rfl
  | succ k ih =>
    intro n dir hend hn hne
    obtain ⟨n, rfl⟩ : ∃ l, n = l + 1 := ⟨n - 1, by omega⟩
    have hdir : dir ≠ 0 := by simpa using hne 0 (Nat.succ_pos k)
    have hused : w.mem dir ≠ 0 := by simpa using hend.used 0 (Nat.succ_pos k)
    have hequal : strcmp (displayName w.mem dir) name = 0 ↔ displayName w.mem dir = name :=
      strcmp_eq_zero (zero_notMem_stringOf _) hname
    by_cases hslot : displayName w.mem dir = name
    · rw [slots, List.find?_cons_of_pos (by simpa using hslot)]
      exact findEntryLoop_named pEntry name hno hdir hused (hequal.mpr hslot)
    · have hpass : ¬ Stops w.mem name dir := by
        intro h
        exact h.elim hused fun h => hslot (hequal.mp h)
      rw [findEntryLoop_succ pEntry name hno hdir hpass, slots,
        List.find?_cons_of_neg (by simpa using hslot)]
      refine ih n (dir + 32) hend.tail (by omega) fun i hi => ?_
      rw [← slotAt_succ]
      exact hne (i + 1) (Nat.succ_lt_succ hi)

/-- `fat12_find_entry` yields the first slot of the name. -/
theorem fat12FindEntry_find {dir : Word} (hdir : dir ≠ 0) {k : Nat}
    (hfit : dir.toNat + 32 * k < 2 ^ 32) (hend : EndsAt w.mem dir k) :
    fat12FindEntry pEntry dir name w =
      found pEntry w ((slots k dir).find? fun slot => displayName w.mem slot = name) := by
  rw [fat12FindEntry, if_neg hdir]
  refine findEntryLoop_find pEntry hname hno k addressSlots dir hend ?_ fun i hi h0 => ?_
  · rw [addressSlots]
    omega
  · have hzero := congrArg BitVec.toNat h0
    rw [slotAt, toNat_add_ofNat (by omega)] at hzero
    exact hdir (BitVec.eq_of_toNat_eq (Nat.eq_zero_of_add_eq_zero_right hzero))

end

theorem liveSlots_succ (m : Mem 32) (k : Nat) (dir : Word) : liveSlots m (k + 1) dir =
    if LiveSlot m dir then dir :: liveSlots m k (dir + 32) else liveSlots m k (dir + 32) := by
  by_cases h : LiveSlot m dir
  · rw [if_pos h]
    exact List.filter_cons_of_pos (decide_eq_true h)
  · rw [if_neg h]
    exact List.filter_cons_of_neg (fun hd => h (of_decide_eq_true hd))

theorem liveSlot_of_mem {m : Mem 32} {k : Nat} {dir slot : Word} (h : slot ∈ liveSlots m k dir) :
    LiveSlot m slot := of_decide_eq_true (List.mem_filter.mp h).2

/-- The first slot that passes a test is live exactly when each slot that passes it and is not live
is behind one that is. By induction on the slots. -/
theorem liveSlots_find_iff (m : Mem 32) (q : Word → Bool) : ∀ (k : Nat) (dir : Word),
    (slots k dir).find? q = (liveSlots m k dir).find? q ↔
      ∀ i < k, q (slotAt dir i) → ¬ LiveSlot m (slotAt dir i) →
        ∃ j < i, q (slotAt dir j) ∧ LiveSlot m (slotAt dir j) := by
  intro k
  induction k with
  | zero => simp [slots, liveSlots]
  | succ k ih =>
    intro dir
    rw [slots, Nat.forall_lt_succ_left]
    simp only [slotAt_zero, slotAt_succ, Nat.exists_lt_succ_left]
    by_cases hq : q dir
    · rw [List.find?_cons_of_pos hq]
      by_cases hlive : LiveSlot m dir
      · rw [liveSlots_succ, if_pos hlive, List.find?_cons_of_pos hq]
        simp [hq, hlive]
      · refine iff_of_false (fun he => hlive ?_) fun h => absurd (h.1 hq hlive) (by simp)
        exact liveSlot_of_mem (List.mem_of_find?_eq_some he.symm)
    · have hskip : (liveSlots m (k + 1) dir).find? q = (liveSlots m k (dir + 32)).find? q := by
        rw [liveSlots_succ]
        split
        · rw [List.find?_cons_of_neg hq]
        · rfl
      rw [List.find?_cons_of_neg hq, hskip, ih]
      simp [hq]

/-- The lookup is right exactly when each slot of the name that is deleted or a volume label is behind
a live slot of the name. -/
theorem fat12FindEntry_live_iff {w : World} (hno : w.state.err = .no) {dir : Word} (hdir : dir ≠ 0)
    {k : Nat} (hfit : dir.toNat + 32 * k < 2 ^ 32) (hend : EndsAt w.mem dir k) {name : List Byte}
    (hname : 0 ∉ name) (pEntry : Word) :
    FindsLive k pEntry dir name w ↔
      ∀ i < k, displayName w.mem (slotAt dir i) = name → ¬ LiveSlot w.mem (slotAt dir i) →
        ∃ j < i, displayName w.mem (slotAt dir j) = name ∧ LiveSlot w.mem (slotAt dir j) := by
  have hiff := liveSlots_find_iff w.mem (fun slot => displayName w.mem slot = name) k dir
  simp only [decide_eq_true_eq] at hiff
  rw [← hiff, FindsLive, fat12FindEntry_find pEntry hname hno hdir hfit hend]
  constructor
  · exact found_inj hno
  · intro he
    rw [he]


/-- A slot with this name, extension and attributes. -/
def slotBytes (name : List Byte) (attributes : Byte) : List Byte :=
  name ++ [attributes] ++ List.replicate 20 0

/-- `AMETHYST`, as a name and a blank extension. -/
def amethyst : List Byte := [0x41, 0x4D, 0x45, 0x54, 0x48, 0x59, 0x53, 0x54, 0x20, 0x20, 0x20]

/-- A directory of two slots of that name at `0x00100000`. -/
def twoSlotWorld (first second : Byte) : World :=
  { World.init with
    mem := fun x => (slotBytes amethyst first ++ slotBytes amethyst second).getD (x - 0x00100000).toNat 0 }

theorem endsAt_twoSlots {first second : Byte} : EndsAt (twoSlotWorld first second).mem 0x00100000 2 := by
  refine ⟨fun i hi => ?_, rfl⟩
  have hi' : i = 0 ∨ i = 1 := by omega
  cases hi' with
  | inl h =>
    subst h
    show (0x41 : Byte) ≠ 0
    decide
  | inr h =>
    subst h
    show (0x41 : Byte) ≠ 0
    decide

/-- A file in front of a volume label. -/
theorem fat12FindEntry_live_file :
    FindsLive 2 0 0x00100000 (amethyst.take 8) (twoSlotWorld 0x20 0x08) := by
  refine (fat12FindEntry_live_iff (w := twoSlotWorld 0x20 0x08) rfl (by decide) (by decide)
    endsAt_twoSlots (by decide) 0).mpr fun i hi hname hdead => ?_
  refine ⟨0, Nat.pos_of_ne_zero fun h => ?_, by decide +kernel, by decide +kernel⟩
  subst h
  exact hdead (by decide +kernel)

/-- The volume label in front of the file: the lookup yields the label. -/
theorem fat12FindEntry_finds_label :
    fat12FindEntry 0 0x00100000 (amethyst.take 8) (twoSlotWorld 0x08 0x20) =
        .done 0x00100000 (twoSlotWorld 0x08 0x20) ∧
      isVolumeLabel (twoSlotWorld 0x08 0x20).mem 0x00100000 = true ∧
      LiveSlot (twoSlotWorld 0x08 0x20).mem 0x00100020 ∧
      displayName (twoSlotWorld 0x08 0x20).mem 0x00100020 = amethyst.take 8 ∧
      ¬ FindsLive 2 0 0x00100000 (amethyst.take 8) (twoSlotWorld 0x08 0x20) := by
  have hfirst : ((slots 2 0x00100000).find? fun slot =>
      displayName (twoSlotWorld 0x08 0x20).mem slot = amethyst.take 8) = some 0x00100000 := by
    decide +kernel
  have hfind := @fat12FindEntry_find 0 (amethyst.take 8) (by decide) (twoSlotWorld 0x08 0x20) rfl
    0x00100000 (by decide) 2 (by decide) endsAt_twoSlots
  rw [hfirst] at hfind
  refine ⟨hfind, by decide +kernel, by decide +kernel, by decide +kernel, fun h => ?_⟩
  obtain ⟨j, hj, -⟩ := (fat12FindEntry_live_iff (w := twoSlotWorld 0x08 0x20) rfl (by decide) (by decide)
    endsAt_twoSlots (by decide) 0).mp h 0 (by decide) (by decide +kernel) (by decide +kernel)
  exact absurd hj (Nat.not_lt_zero j)

end Installer
end Amethyst
