import Amethyst.Chunk
import Amethyst.Loop
import Amethyst.Memory

/-!
# Amethyst.Installer.Paging

`paging_init` (`installer/src/sys/paging`) and the translation of addresses that it sets up. All 1024
entries of the directory point to the one page table, whose entry `i` points to page `i`, so the first
4 MiB repeat.

* `table_filled`: the loops. Each pass makes one entry and leaves the others alone.
* `paging_translates`: no page faults, and an address is taken modulo 2^22.
-/

namespace Amethyst
namespace Installer

/-! ## The tables -/

/-- `PAGE_TABLE_SIZE` -/
def pageTableSize : Nat := 1024

/-- `PAGE_SIZE` -/
def pageSize : Nat := 4096

/-- `&table[i]` -/
def entryAt (table : Word) (i : Nat) : Word := table + BitVec.ofNat 32 (4 * i)

/-- An assignment to a bit field of the `struct page_s` at `e`. -/
def assign (e : Word) (lo n : Nat) (v : BitVec n) (m : Mem 32) : Mem 32 :=
  m.write32 e (setField (m.read32 e) lo n v)

def setPresent (e : Word) (v : BitVec 1) (m : Mem 32) : Mem 32 := assign e 0 1 v m

def setReadWrite (e : Word) (v : BitVec 1) (m : Mem 32) : Mem 32 := assign e 1 1 v m

def setAddress (e : Word) (v : BitVec 20) (m : Mem 32) : Mem 32 := assign e 12 20 v m

/-- The first loop body. -/
def fillKernelTable (kernelTable : Word) (i : Nat) (m : Mem 32) : Mem 32 :=
  let m := setPresent (entryAt kernelTable i) 1 m
  let m := setReadWrite (entryAt kernelTable i) 1 m
  setAddress (entryAt kernelTable i) (BitVec.ofNat 20 i) m

/-- The second loop body. -/
def fillDirectoryTable (kernelTable directoryTable : Word) (i : Nat) (m : Mem 32) : Mem 32 :=
  let m := setAddress (entryAt directoryTable i) ((kernelTable >>> 12).setWidth 20) m
  let m := setReadWrite (entryAt directoryTable i) 1 m
  setPresent (entryAt directoryTable i) 1 m

/-- The memory and the control registers of `paging.asm`. -/
structure Cpu where
  cr0 : Word
  cr3 : Word
  mem : Mem 32

def loadPageDirectory (directory : Word) (c : Cpu) : Cpu := { c with cr3 := directory }

def enablePaging (c : Cpu) : Cpu := { c with cr0 := c.cr0 ||| 0x80000000 }

/-- `paging_init`, with the addresses of its two tables. -/
def pagingInit (kernelTable directoryTable : Word) (c : Cpu) : Cpu :=
  let m := Loop.times (fillKernelTable kernelTable) pageTableSize c.mem
  let m := Loop.times (fillDirectoryTable kernelTable directoryTable) pageTableSize m
  enablePaging (loadPageDirectory directoryTable { c with mem := m })

/-! ## The processor -/

/-- Present and writable. -/
def Usable (entry : Word) : Prop := entry.extractLsb' 0 1 = 1 ∧ entry.extractLsb' 1 1 = 1

instance (entry : Word) : Decidable (Usable entry) := inferInstanceAs (Decidable (_ ∧ _))

/-- The physical address of a linear one, or `none` if the walk meets an entry that is not present and
writable. Pages have 4 KiB: nothing sets CR4.PSE. -/
def translate (c : Cpu) (v : Word) : Option Word :=
  if c.cr0.getLsbD 31 then
    let directoryEntry := c.mem.read32 (c.cr3.extractLsb' 12 20 ++ v.extractLsb' 22 10 ++ 0#2)
    if Usable directoryEntry then
      let entry := c.mem.read32 (directoryEntry.extractLsb' 12 20 ++ v.extractLsb' 12 10 ++ 0#2)
      if Usable entry then some (entry.extractLsb' 12 20 ++ v.extractLsb' 0 12) else none
    else none
  else some v

/-! ## Entries -/

/-- At `e` is an entry that can be used, for the page `frame`. -/
structure Maps (m : Mem 32) (e : Word) (frame : BitVec 20) : Prop where
  usable : Usable (m.read32 e)
  address : (m.read32 e).extractLsb' 12 20 = frame

theorem Maps.congr {m m' : Mem 32} {e : Word} {frame : BitVec 20} (h : Maps m e frame)
    (he : ∀ x, InRange e 4 x → m' x = m x) : Maps m' e frame := by
  have hread := Mem.read32_congr he
  exact ⟨hread ▸ h.usable, hread ▸ h.address⟩

theorem assign_read (e : Word) (lo n : Nat) (v : BitVec n) (m : Mem 32) :
    (assign e lo n v m).read32 e = setField (m.read32 e) lo n v := Mem.read32_write32 _ _ _

theorem assign_frame {e x : Word} (h : ¬ InRange e 4 x) (lo n : Nat) (v : BitVec n) (m : Mem 32) :
    assign e lo n v m x = m x := Mem.write32_frame h

theorem fillKernelTable_maps (kernelTable : Word) (i : Nat) (m : Mem 32) :
    Maps (fillKernelTable kernelTable i m) (entryAt kernelTable i) (BitVec.ofNat 20 i) := by
  constructor
  · simp (disch := decide) only [Usable, fillKernelTable, setPresent, setReadWrite, setAddress,
      assign_read, field_setField_self, field_setField_of_apart, and_self]
  · simp (disch := decide) only [fillKernelTable, setPresent, setReadWrite, setAddress, assign_read,
      field_setField_self]

theorem fillKernelTable_frame {kernelTable x : Word} {i : Nat}
    (h : ¬ InRange (entryAt kernelTable i) 4 x) (m : Mem 32) : fillKernelTable kernelTable i m x = m x := by
  simp only [fillKernelTable, setPresent, setReadWrite, setAddress, assign_frame h]

theorem fillDirectoryTable_maps (kernelTable directoryTable : Word) (i : Nat) (m : Mem 32) :
    Maps (fillDirectoryTable kernelTable directoryTable i m) (entryAt directoryTable i)
      (kernelTable.extractLsb' 12 20) := by
  have hframe : (kernelTable >>> 12).setWidth 20 = kernelTable.extractLsb' 12 20 := by
    ext i hi
    simp
  constructor
  · simp (disch := decide) only [Usable, fillDirectoryTable, setPresent, setReadWrite, setAddress,
      assign_read, field_setField_self, field_setField_of_apart, and_self]
  · simp (disch := decide) only [fillDirectoryTable, setPresent, setReadWrite, setAddress, assign_read,
      field_setField_self, field_setField_of_apart, hframe]

theorem fillDirectoryTable_frame {kernelTable directoryTable x : Word} {i : Nat}
    (h : ¬ InRange (entryAt directoryTable i) 4 x) (m : Mem 32) :
    fillDirectoryTable kernelTable directoryTable i m x = m x := by
  simp only [fillDirectoryTable, setPresent, setReadWrite, setAddress, assign_frame h]

/-! ## Whole tables -/

/-- A table starts on a page. -/
def Aligned (table : Word) : Prop := table.toNat % pageSize = 0

instance (table : Word) : Decidable (Aligned table) := inferInstanceAs (Decidable (_ = _))

section

variable {table table' : Word} (ha : Aligned table) (ha' : Aligned table') {i i' : Nat}
  (hi : i < pageTableSize) (hi' : i' < pageTableSize)
include ha hi

theorem entryAt_toNat : (entryAt table i).toNat = table.toNat + 4 * i := by
  rw [Aligned, pageSize] at ha
  rw [pageTableSize] at hi
  exact toNat_add_ofNat (by omega)

include ha' hi'

/-- Different entries do not overlap. -/
theorem entries_apart (hne : table ≠ table' ∨ i ≠ i') {x : Word} (hx : InRange (entryAt table i) 4 x) :
    ¬ InRange (entryAt table' i') 4 x := by
  have h1 := entryAt_toNat ha hi
  have h2 := entryAt_toNat ha' hi'
  have hne' : table.toNat ≠ table'.toNat ∨ i ≠ i' := hne.imp_left fun h he => h (BitVec.eq_of_toNat_eq he)
  rw [Aligned, pageSize] at ha ha'
  rw [pageTableSize] at hi hi'
  rw [inRange_iff (by omega)] at hx ⊢
  omega

end

/-- A loop over all entries of a table. -/
theorem table_filled {table : Word} (ha : Aligned table) {body : Nat → Mem 32 → Mem 32}
    {frame : Nat → BitVec 20} (hmaps : ∀ i m, Maps (body i m) (entryAt table i) (frame i))
    (hframe : ∀ i m x, ¬ InRange (entryAt table i) 4 x → body i m x = m x) (m : Mem 32) :
    (∀ j < pageTableSize, Maps (Loop.times body pageTableSize m) (entryAt table j) (frame j)) ∧
      ∀ x, (∀ j < pageTableSize, ¬ InRange (entryAt table j) 4 x) →
        Loop.times body pageTableSize m x = m x := by
  refine Loop.times_rule (I := fun k m' => (∀ j < k, Maps m' (entryAt table j) (frame j)) ∧
    ∀ x, (∀ j < pageTableSize, ¬ InRange (entryAt table j) 4 x) → m' x = m x)
    ⟨fun j hj => absurd hj (Nat.not_lt_zero j), fun _ _ => rfl⟩ fun i hi m' ⟨hdone, hrest⟩ => ⟨?_, ?_⟩
  · intro j hj
    by_cases hji : j = i
    · rw [hji]
      exact hmaps i m'
    · refine (hdone j (by omega)).congr fun x hx => hframe i m' x ?_
      exact entries_apart ha ha (by omega) hi (.inr hji) hx
  · intro x hx
    rw [hframe i m' x (hx i hi), hrest x hx]

/-! ## The walk -/

/-- The address that the processor forms is that of an entry. -/
theorem walk_address {table : Word} (ha : Aligned table) (i : BitVec 10) :
    table.extractLsb' 12 20 ++ i ++ 0#2 = entryAt table i.toNat := by
  have hi : i.toNat < pageTableSize := i.isLt
  have htable := table.isLt
  apply BitVec.eq_of_toNat_eq
  rw [entryAt_toNat ha hi, append_toNat, append_toNat, BitVec.extractLsb'_toNat, Nat.shiftRight_eq_div_pow]
  rw [Aligned, pageSize] at ha
  have hzero : (0#2).toNat = 0 := rfl
  rw [hzero]
  omega

/-- Page number and offset together. -/
theorem page_offset (v : Word) : BitVec.ofNat 20 (v.extractLsb' 12 10).toNat ++ v.extractLsb' 0 12 =
    BitVec.ofNat 32 (v.toNat % 2 ^ 22) := by
  apply BitVec.eq_of_toNat_eq
  rw [append_toNat, BitVec.toNat_ofNat, BitVec.toNat_ofNat, BitVec.extractLsb'_toNat,
    BitVec.extractLsb'_toNat, Nat.shiftRight_eq_div_pow, Nat.shiftRight_zero]
  omega

/-- Where the installer keeps something: its code and data (up to the screen, by the linker script), the
screen, and the heap. -/
def Used (x : Word) : Prop :=
  InRange 0x0000A000 0x00096000 x ∨ InRange 0x000A0000 (320 * 200) x ∨ InRange 0x00100000 0x000FFFFF x

section

variable {kernelTable directoryTable : Word} (hk : Aligned kernelTable) (hd : Aligned directoryTable)
  (hne : kernelTable ≠ directoryTable) (c : Cpu)
include hk hd hne

/-- The entries of both tables. -/
theorem pagingInit_maps :
    (∀ i < pageTableSize, Maps (pagingInit kernelTable directoryTable c).mem (entryAt kernelTable i)
      (BitVec.ofNat 20 i)) ∧
    ∀ i < pageTableSize, Maps (pagingInit kernelTable directoryTable c).mem (entryAt directoryTable i)
      (kernelTable.extractLsb' 12 20) := by
  obtain ⟨hkernel, -⟩ := table_filled hk (fillKernelTable_maps kernelTable)
    (fun _ m _ h => fillKernelTable_frame h m) c.mem
  obtain ⟨hdirectory, hframe⟩ := table_filled hd (fillDirectoryTable_maps kernelTable directoryTable)
    (fun _ m _ h => fillDirectoryTable_frame h m)
    (Loop.times (fillKernelTable kernelTable) pageTableSize c.mem)
  -- the second loop leaves the first table alone
  refine ⟨fun i hi => ?_, hdirectory⟩
  exact (hkernel i hi).congr fun x hx => hframe x fun j hj => entries_apart hk hd hi hj (.inl hne) hx

theorem translate_pagingInit (v : Word) : translate (pagingInit kernelTable directoryTable c) v =
    some (BitVec.ofNat 32 (v.toNat % 2 ^ 22)) := by
  have hon : (pagingInit kernelTable directoryTable c).cr0.getLsbD 31 = true := by
    simp [pagingInit, enablePaging]
  have hcr3 : (pagingInit kernelTable directoryTable c).cr3 = directoryTable := rfl
  obtain ⟨hkernel, hdirectory⟩ := pagingInit_maps hk hd hne c
  have hfirst := hdirectory _ (v.extractLsb' 22 10).isLt
  have hsecond := hkernel _ (v.extractLsb' 12 10).isLt
  simp only [translate, if_pos hon, hcr3, walk_address hd, if_pos hfirst.usable, hfirst.address,
    walk_address hk, if_pos hsecond.usable, hsecond.address, page_offset]

end

theorem Used.lt {x : Word} (h : Used x) : x.toNat < 2 ^ 22 := by
  rcases h with hx | hx | hx
  all_goals
    rw [inRange_iff (by decide)] at hx
    exact Nat.lt_of_lt_of_le hx.2 (by decide)

/-- Translation never faults and takes addresses modulo 2^22, which changes no address in use. -/
theorem paging_translates {kernelTable directoryTable : Word} (hk : Aligned kernelTable)
    (hd : Aligned directoryTable) (hne : kernelTable ≠ directoryTable) (c : Cpu) :
    (∀ v, translate (pagingInit kernelTable directoryTable c) v =
        some (BitVec.ofNat 32 (v.toNat % 2 ^ 22))) ∧
      (∀ v : Word, v.toNat < 2 ^ 22 →
        translate (pagingInit kernelTable directoryTable c) v = some v) ∧
      ∀ x, Used x → translate (pagingInit kernelTable directoryTable c) x = some x := by
  have hlow : ∀ v : Word, v.toNat < 2 ^ 22 →
      translate (pagingInit kernelTable directoryTable c) v = some v := by
    intro v hv
    rw [translate_pagingInit hk hd hne, Nat.mod_eq_of_lt hv, BitVec.ofNat_toNat, BitVec.setWidth_eq]
  exact ⟨translate_pagingInit hk hd hne c, hlow, fun x hx => hlow x hx.lt⟩

theorem paging_translates_linked :
    (∀ v, translate (pagingInit 0x00012000 0x00011000 ⟨0x11, 0, fun _ => 0xFF⟩) v =
        some (BitVec.ofNat 32 (v.toNat % 2 ^ 22))) ∧
      (∀ v : Word, v.toNat < 2 ^ 22 →
        translate (pagingInit 0x00012000 0x00011000 ⟨0x11, 0, fun _ => 0xFF⟩) v = some v) ∧
      ∀ x, Used x → translate (pagingInit 0x00012000 0x00011000 ⟨0x11, 0, fun _ => 0xFF⟩) x = some x :=
  paging_translates (by decide) (by decide) (by decide) _

end Installer
end Amethyst
