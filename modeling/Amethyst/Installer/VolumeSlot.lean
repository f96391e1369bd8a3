import Amethyst.Installer.Volume

/-!
# Amethyst.Installer.VolumeSlot

The slots of a directory that has been read to memory, against those on the volume.

`Directory.Sound.find_loaded`: `fat12_find_entry` yields the slot of the entry that `Directory.find`
gives, or reports that there is none.
-/

namespace Amethyst
namespace Installer

/-! ## One slot -/

/-- The slot at this address. -/
def recordAt (m : Mem 32) (slot : Word) : Record := fun k => m (slot + BitVec.ofNat 32 k)

/-- The same 32 bytes. -/
def Record.Same (r r' : Record) : Prop := ∀ k < 32, r k = r' k

section

variable {r r' : Record} (h : r.Same r')
include h

theorem Record.Same.nameField : r.nameField = r'.nameField :=
  List.map_congr_left fun i hi => h i (by have := List.mem_range.mp hi; omega)

theorem Record.Same.extensionField : r.extensionField = r'.extensionField :=
  List.map_congr_left fun i hi => h (8 + i) (by have := List.mem_range.mp hi; omega)

theorem Record.Same.cut : r.cut = r'.cut := by
  rw [Record.cut, Record.cut, h.nameField, h.extensionField, h 8 (by decide)]

theorem Record.Same.wellFormed (hf : r'.WellFormed) : r.WellFormed where
  name := h.nameField ▸ hf.name
  extension := h.extensionField ▸ hf.extension
  noNul := by
    rw [h.nameField, h.extensionField]
    exact hf.noNul

theorem Record.Same.isLabel : r.isLabel = r'.isLabel := by
  rw [Record.isLabel, Record.isLabel, h 11 (by decide)]

theorem Record.Same.isDirectory : r.isDirectory = r'.isDirectory := by
  rw [Record.isDirectory, Record.isDirectory, h 11 (by decide)]

theorem Record.Same.cluster : r.cluster = r'.cluster := by
  rw [Record.cluster, Record.cluster, h 26 (by decide), h 27 (by decide)]

end

section

variable (m : Mem 32) (slot : Word)

theorem clusterfilename_eq : clusterfilename m slot =
    (recordAt m slot).nameField.takeWhile (· ≠ 0x20) ++ (if recordAt m slot 8 ≠ 0x20 then [0x2E] else []) ++
      (recordAt m slot).extensionField.takeWhile (· ≠ 0x20) := by
  have hext : bytes m (slot + 8) 3 = (recordAt m slot).extensionField := by
    refine List.map_congr_left fun i _ => ?_
    rw [recordAt, ← add_add_ofNat]
    rfl
  rw [clusterfilename, hext]
  rfl

theorem displayName_eq_cut : displayName m slot = (recordAt m slot).cut := by
  rw [displayName, clusterfilename_eq, Record.cut]

theorem isSubdirectory_eq : isSubdirectory m slot = (recordAt m slot).isDirectory := rfl

theorem isVolumeLabel_eq : isVolumeLabel m slot = (recordAt m slot).isLabel := rfl

theorem firstCluster_eq : firstCluster m slot = (recordAt m slot).cluster &&& 0xFFF := by
  have hnext : slot + 26 + 1 = slot + BitVec.ofNat 32 27 := by
    rw [BitVec.add_assoc]
    rfl
  rw [firstCluster, Mem.read16, hnext]
  rfl

end

theorem Record.Same.subdirectory {m : Mem 32} {it : Word} {r : Record} (h : (recordAt m it).Same r) :
    isSubdirectory m it = r.isDirectory := by
  rw [isSubdirectory_eq, h.isDirectory]

theorem Record.Same.masked {m : Mem 32} {it : Word} {r : Record} (h : (recordAt m it).Same r) :
    firstCluster m it = r.cluster &&& 0xFFF := by
  rw [firstCluster_eq, h.cluster]

/-- The bits that are masked off a cluster of the volume are clear. -/
theorem masked_cluster {c : Cluster} (h : c < 0xFF8) : c &&& 0xFFF = c := by
  apply BitVec.eq_of_toNat_eq
  have hlt : c.toNat < 0xFF8 := h
  rw [BitVec.toNat_and, show (0xFFF : Cluster).toNat = 2 ^ 12 - 1 from rfl, Nat.and_two_pow_sub_one_eq_mod]
  exact Nat.mod_eq_of_lt (by omega)

/-! ## A directory -/

theorem slots_eq (dir : Word) : ∀ k, slots k dir = (List.range k).map (slotAt dir) := by
  intro k
  induction k generalizing dir with
  | zero => rfl
  | succ k ih =>
    rw [slots, ih, List.range_succ_eq_map, List.map_cons, List.map_map, slotAt_zero]
    refine congrArg _ (List.map_congr_left fun i _ => ?_)
    exact (slotAt_succ dir i).symm

section

variable {d : Directory} {m : Mem 32} {dir : Word} {n : Nat} (h : m.Holds dir n d.byte)
include h

theorem same_record {i : Nat} (hi : 32 * (i + 1) ≤ n) : (recordAt m (slotAt dir i)).Same (d.record i) := by
  intro k hk
  rw [recordAt, slotAt, add_add_ofNat]
  exact h (32 * i + k) (by omega)

theorem marker_loaded {i : Nat} (hi : 32 * (i + 1) ≤ n) : m (slotAt dir i) = d.byte (32 * i) := by
  have hfirst := same_record h hi 0 (by decide)
  rwa [recordAt, BitVec.add_zero] at hfirst

/-- What a lookup of the name finds is the slot of the entry that the volume gives. -/
theorem Directory.Sound.find_loaded {name : List Byte} (hs : d.Sound n name) (hname : 0 ∉ name)
    (hdir : dir ≠ 0) (hfit : dir.toNat + n < 2 ^ 32) (pEntry : Word) {w : World} (hm : w.mem = m)
    (hno : w.state.err = .no) :
    fat12FindEntry pEntry dir name w = .done pEntry (w.setErr .notfound) ∧ d.find name = none ∨
      ∃ it r, fat12FindEntry pEntry dir name w = .done it w ∧ d.find name = some r ∧
        (recordAt m it).Same r := by
  subst hm
  obtain ⟨k, hk, -, hused, hmark, hfind⟩ := hs.find_index
  have hends : EndsAt w.mem dir k := by
    refine ⟨fun i hi => ?_, ?_⟩
    · rw [marker_loaded h (by omega)]
      exact hused i hi
    · rw [marker_loaded h hk]
      exact hmark
  have hcongr : ((List.range k).find? fun i => displayName w.mem (slotAt dir i) = name) =
      (List.range k).find? fun i => (d.record i).cut = name := by
    refine List.find?_congr fun i hi => ?_
    have hi' := List.mem_range.mp hi
    rw [displayName_eq_cut, (same_record h (by omega : 32 * (i + 1) ≤ n)).cut]
  rw [fat12FindEntry_find pEntry hname hno hdir (by omega) hends, slots_eq, List.find?_map, hfind]
  simp only [Function.comp_def, hcongr]
  cases hindex : (List.range k).find? fun i => (d.record i).cut = name with
  | none => exact .inl ⟨rfl, rfl⟩
  | some i =>
    have hi := List.mem_range.mp (List.mem_of_find?_eq_some hindex)
    exact .inr ⟨slotAt dir i, d.record i, rfl, rfl, same_record h (by omega)⟩

end

end Installer
end Amethyst
