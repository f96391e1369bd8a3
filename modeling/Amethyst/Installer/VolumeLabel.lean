import Amethyst.Installer.DiskOpen
import Amethyst.Installer.FatPath
import Amethyst.Loop

/-!
# Amethyst.Installer.VolumeLabel

The volume label of a mounted disk. `disk_create_fat12` plants a NUL behind the label of the header
and copies it with `strcpy`, which in `string.c` copies no NUL. What follows the label in the field is
what `malloc` handed out there.

* `strcpy_volumeLabel`: the field in memory after the copy is the one of `diskCreateFat12`.
* `volumeLabel_iff`: it holds the label of the header exactly when the byte behind it was a NUL before.
-/

namespace Amethyst
namespace Installer

/-! ## `strcpy` -/

def strcpyPass : Word × Word × Mem 32 → Pass (Word × Word × Mem 32) (Word × Mem 32)
  | (dest, src, m) =>
    if m src ≠ 0 then .next (dest + 1, src + 1, Function.update m dest (m src)) else .leave (dest, m)

/-- `strcpy` of `string.c`: the pointer that it returns and the memory. -/
def strcpy (dest src : Word) (m : Mem 32) : Option (Word × Mem 32) :=
  Loop.run strcpyPass addressSpace (dest, src, m)

/-- By induction on the string, which no byte of the copy overwrites. -/
theorem strcpy_spec (text : List Byte) (h0 : 0 ∉ text) : ∀ (n : Nat) (dest src : Word) (m : Mem 32),
    text.length < n → n ≤ 2 ^ 32 → m.Holds src text.length (fun i => text.getD i 0) →
    m (src + BitVec.ofNat 32 text.length) = 0 →
    (∀ i < text.length, ∀ j ≤ text.length, dest + BitVec.ofNat 32 i ≠ src + BitVec.ofNat 32 j) →
    ∃ m', Loop.run strcpyPass n (dest, src, m) = some (dest + BitVec.ofNat 32 text.length, m') ∧
      m'.Holds dest text.length (fun i => text.getD i 0) ∧
      ∀ x, ¬ InRange dest text.length x → m' x = m x := by
  induction text with
  | nil =>
    intro n dest src m hn _ _ hend _
    obtain ⟨n, rfl⟩ : ∃ k, n = k + 1 := ⟨n - 1, by simp at hn; omega⟩
    have hsrc : ¬ m src ≠ 0 := not_not.mpr (by simpa using hend)
    refine ⟨m, ?_, Mem.holds_zero, fun _ _ => rfl⟩
    rw [Loop.run_leave (r := (dest, m)) (by simp only [strcpyPass, if_neg hsrc])]
    simp
  | cons c text ih =>
    intro n dest src m hn hle htext hend hdis
    obtain ⟨n, rfl⟩ : ∃ k, n = k + 1 := ⟨n - 1, by simp at hn; omega⟩
    rw [List.length_cons] at hn htext hend hdis
    obtain ⟨hfirst, hrest⟩ := Mem.holds_succ.mp htext
    simp only [List.getD_cons_zero, List.getD_cons_succ] at hfirst hrest
    have hc : m src ≠ 0 := hfirst ▸ fun h => h0 (by simp [h])
    have hkeep : ∀ j ≤ text.length + 1, Function.update m dest (m src) (src + BitVec.ofNat 32 j) =
        m (src + BitVec.ofNat 32 j) := by
      intro j hj
      have hne := hdis 0 (Nat.succ_pos _) j hj
      rw [BitVec.add_zero] at hne
      exact Function.update_of_ne hne.symm _ _
    obtain ⟨m', hrun, hholds, hframe⟩ := ih (fun h => h0 (List.mem_cons_of_mem _ h)) n
      (dest + BitVec.ofNat 32 1) (src + BitVec.ofNat 32 1) (Function.update m dest (m src))
      (by omega) (by omega)
      (hrest.congr fun i hi => by rw [add_add_ofNat]; exact hkeep _ (by omega))
      (by rw [add_add_ofNat, Nat.add_comm 1, hkeep _ (Nat.le_refl _)]; exact hend)
      (fun i hi j hj => by rw [add_add_ofNat, add_add_ofNat]; exact hdis _ (by omega) _ (by omega))
    have hpass : strcpyPass (dest, src, m) =
        .next (dest + 1, src + 1, Function.update m dest (m src)) := by
      simp only [strcpyPass, if_pos hc]
    refine ⟨m', ?_, ?_, fun x hx => ?_⟩
    · rw [Loop.run_next hpass]
      refine hrun.trans ?_
      rw [add_add_ofNat, List.length_cons, Nat.add_comm]
    · rw [List.length_cons]
      refine Mem.holds_succ.mpr ⟨?_, by simpa using hholds⟩
      have hout : ¬ InRange (dest + BitVec.ofNat 32 1) text.length dest := by
        have h := not_inRange_of_lt (a := dest) (i := 0) (k := 1) (n := text.length) (by decide) (by omega)
        rwa [BitVec.add_zero] at h
      rw [hframe dest hout, Function.update_self]
      exact hfirst
    · rw [List.length_cons] at hx
      have hne : x ≠ dest := fun he => hx (by rw [he, InRange, BitVec.sub_self]; exact Nat.succ_pos _)
      have hout : ¬ InRange (dest + BitVec.ofNat 32 1) text.length x := fun h =>
        hx ((h.of_add (by omega)).mono (by omega))
      rw [hframe x hout, Function.update_of_ne hne]

/-! ## The field -/

/-- The 11 bytes of the header's label up to their first NUL. -/
def headerLabel (m : Mem 32) (header : Word) : List Byte := stringOf (bytes m (header + 43) 11)

/-- The field ends with a NUL of its own, and before it has the label. -/
def HoldsLabel (field label : List Byte) : Prop := 0 ∈ field ∧ stringOf field = label

theorem length_headerLabel (m : Mem 32) (header : Word) : (headerLabel m header).length ≤ 11 := by
  have h := (List.takeWhile_prefix (l := bytes m (header + 43) 11) (· ≠ 0)).length_le
  rwa [bytes, List.length_map, List.length_range] at h

/-- A NUL ends a string at the latest. -/
theorem cString_eq_stringOf {m : Mem 32} : ∀ {k n : Nat} {a : Word}, k < n →
    m (a + BitVec.ofNat 32 k) = 0 → cString m n a = stringOf (bytes m a k) := by
  intro k
  induction k with
  | zero =>
    intro n a hn h
    obtain ⟨n, rfl⟩ : ∃ j, n = j + 1 := ⟨n - 1, by omega⟩
    rw [cString, if_pos (by simpa using h)]
    rfl
  | succ k ih =>
    intro n a hn h
    obtain ⟨n, rfl⟩ : ∃ j, n = j + 1 := ⟨n - 1, by omega⟩
    have hbytes : bytes m a (k + 1) = m a :: bytes m (a + BitVec.ofNat 32 1) k := by
      simp only [bytes, List.range_succ_eq_map, List.map_cons, List.map_map, BitVec.add_zero]
      congr 1
      refine List.map_congr_left fun i _ => ?_
      rw [Function.comp_apply, add_add_ofNat, Nat.succ_eq_add_one, Nat.add_comm]
    rw [cString, hbytes, stringOf, List.takeWhile_cons]
    by_cases h0 : m a = 0
    · simp [h0]
    · rw [if_neg h0, if_pos (by simpa using h0)]
      congr 1
      have haddr : a + 1 + BitVec.ofNat 32 k = a + BitVec.ofNat 32 (k + 1) := by
        rw [Nat.add_comm k, ← add_add_ofNat]
        rfl
      exact ih (by omega) (by rwa [haddr])

/-- The NUL that is planted behind the label. -/
theorem cString_headerLabel (m : Mem 32) (header : Word) :
    cString (Function.update m (header + 54) 0) addressSpace (header + 43) = headerLabel m header := by
  have hend : Function.update m (header + 54) 0 (header + 43 + BitVec.ofNat 32 11) = 0 := by
    have haddr : header + 43 + BitVec.ofNat 32 11 = header + 54 := by bv_omega
    rw [haddr, Function.update_self]
  rw [cString_eq_stringOf (by decide) hend, headerLabel]
  congr 1
  refine List.map_congr_left fun i hi => ?_
  rw [List.mem_range] at hi
  refine Function.update_of_ne ?_ _ _
  bv_omega

section

variable {bios : Bios} {answer : DriveParams} {disk : DiskT} {w w₁ : World}
  {params : Option (BitVec 16 × BitVec 16)}
  (hcall : diskGetParamInt13 bios answer disk.id w = (0, params, w₁)) (header : Word)
include hcall

theorem diskCreateFat12_volumeLabel :
    (diskCreateFat12 bios answer disk header w).1.info.volumeLabel = headerLabel w₁.mem header ++
      disk.info.volumeLabel.drop (headerLabel w₁.mem header).length := by
  have hok : ¬ (0 : BitVec 8) ≠ 0 := fun h => h rfl
  simp only [diskCreateFat12, hcall, if_neg hok, cString_headerLabel]

/-- The field in memory after the copy. -/
theorem strcpy_volumeLabel {field : Word} (hfield : bytes w₁.mem field 12 = disk.info.volumeLabel)
    (hdis : ∀ i < 12, ∀ j < 12, field + BitVec.ofNat 32 i ≠ header + 43 + BitVec.ofNat 32 j) :
    ∃ dest m', strcpy field (header + 43) (Function.update w₁.mem (header + 54) 0) = some (dest, m') ∧
      bytes m' field 12 = (diskCreateFat12 bios answer disk header w).1.info.volumeLabel := by
  have hle := length_headerLabel w₁.mem header
  have hstring := cString_headerLabel w₁.mem header
  rw [diskCreateFat12_volumeLabel hcall, ← hfield]
  obtain ⟨label, hl⟩ : ∃ label, headerLabel w₁.mem header = label := ⟨_, rfl⟩
  have hnul : 0 ∉ label := hl ▸ zero_notMem_stringOf _
  rw [hl] at hle hstring ⊢
  obtain ⟨hholds, hend⟩ := (cString_eq_iff hnul (Nat.lt_of_le_of_lt hle (by decide))).mp hstring
  obtain ⟨m', hrun, hcopy, hframe⟩ := strcpy_spec label hnul addressSpace field (header + 43) _
    (Nat.lt_of_le_of_lt hle (by decide)) (Nat.le_refl _) hholds hend
    fun i hi j hj => hdis i (by omega) j (by omega)
  refine ⟨_, m', hrun, ?_⟩
  have hlen : (bytes w₁.mem field 12).length = 12 := by simp [bytes]
  apply List.ext_getElem
  · rw [List.length_append, List.length_drop, hlen, bytes, List.length_map, List.length_range]
    omega
  · intro i h1 h2
    have hi : i < 12 := by simpa [bytes] using h1
    simp only [bytes, List.getElem_map, List.getElem_range]
    by_cases hin : i < label.length
    · rw [hcopy i hin, List.getElem_append_left hin]
      simp [List.getElem?_eq_getElem hin]
    · -- behind the label, and the planted NUL is not in the field
      have hout : ¬ InRange field label.length (field + BitVec.ofNat 32 i) := by
        rw [inRange_add (by omega)]
        exact hin
      have hne : field + BitVec.ofNat 32 i ≠ header + 54 := by
        have h11 := hdis i hi 11 (by decide)
        have haddr : header + 43 + BitVec.ofNat 32 11 = header + 54 := by bv_omega
        rwa [haddr] at h11
      have hk : label.length + (i - label.length) = i := by omega
      rw [hframe _ hout, Function.update_of_ne hne, List.getElem_append_right (Nat.le_of_not_lt hin),
        List.getElem_drop, List.getElem_map, List.getElem_range, hk]

/-- The label is a proper string exactly when the field had a NUL where it ends. -/
theorem volumeLabel_iff (hlen : disk.info.volumeLabel.length = 12) :
    HoldsLabel (diskCreateFat12 bios answer disk header w).1.info.volumeLabel
        (headerLabel w₁.mem header) ↔
      disk.info.volumeLabel[(headerLabel w₁.mem header).length]? = some 0 := by
  have hle := length_headerLabel w₁.mem header
  have hnul : 0 ∉ headerLabel w₁.mem header := zero_notMem_stringOf _
  rw [diskCreateFat12_volumeLabel hcall]
  obtain ⟨label, hl⟩ : ∃ label, headerLabel w₁.mem header = label := ⟨_, rfl⟩
  rw [hl] at hle hnul ⊢
  have hlt : label.length < disk.info.volumeLabel.length := by omega
  have hstring : ∀ rest : List Byte, stringOf (label ++ rest) = label ++ stringOf rest := by
    intro rest
    exact List.takeWhile_append_of_pos fun c hc => by simpa using fun h0 : c = 0 => hnul (h0 ▸ hc)
  rw [List.getElem?_eq_getElem hlt, Option.some_inj, HoldsLabel, List.drop_eq_getElem_cons hlt, hstring,
    List.append_right_eq_self, stringOf, List.takeWhile_cons]
  by_cases h0 : disk.info.volumeLabel[label.length] = 0
  · exact iff_of_true ⟨by simp [h0], by simp [h0]⟩ h0
  · refine iff_of_false ?_ h0
    rw [if_pos (by simpa using h0)]
    exact fun h => List.cons_ne_nil _ _ h.2

end

/-- `NO NAME` with its blanks -/
def noName : List Byte := [0x4E, 0x4F, 0x20, 0x4E, 0x41, 0x4D, 0x45, 0x20, 0x20, 0x20, 0x20]

/-- A header at `0x7000` with this label. -/
def labelWorld : World := { World.init with mem := fun x => noName.getD (x - 0x702B).toNat 0 }

/-- What `malloc` handed out is all `A`. -/
def usedDiskT : DiskT :=
  { emptyDiskT with info := { emptyDiskT.info with volumeLabel := List.replicate 12 0x41 } }

theorem volumeLabel_iff_cleared :
    HoldsLabel (diskCreateFat12 (idealBios namedDisk) ⟨false, 0, 0x4F12, 0x0102⟩ emptyDiskT 0x7000
        labelWorld).1.info.volumeLabel (headerLabel labelWorld.mem 0x7000) ↔
      emptyDiskT.info.volumeLabel[(headerLabel labelWorld.mem 0x7000).length]? = some 0 :=
  @volumeLabel_iff (idealBios namedDisk) ⟨false, 0, 0x4F12, 0x0102⟩ emptyDiskT labelWorld
    { labelWorld with calls := [.reset 0] } _ rfl 0x7000 rfl

/-- The field is the label and an `A`, and no NUL ends it. -/
theorem volumeLabel_not_ended : ¬ HoldsLabel
    (diskCreateFat12 (idealBios namedDisk) ⟨false, 0, 0x4F12, 0x0102⟩ usedDiskT 0x7000
      labelWorld).1.info.volumeLabel (headerLabel labelWorld.mem 0x7000) := by
  have hlabel : headerLabel labelWorld.mem 0x7000 = noName := by decide +kernel
  have hfield := @diskCreateFat12_volumeLabel (idealBios namedDisk) ⟨false, 0, 0x4F12, 0x0102⟩ usedDiskT
    labelWorld { labelWorld with calls := [.reset 0] } _ rfl 0x7000
  intro h
  have hnul := h.1
  rw [hfield, hlabel] at hnul
  exact absurd hnul (by decide)

end Installer
end Amethyst
