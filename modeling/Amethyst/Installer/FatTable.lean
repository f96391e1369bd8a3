import Amethyst.Installer.Fat12
import Amethyst.Packed12

/-!
# Amethyst.Installer.FatTable

What `fat12_next_cluster` makes of a FAT. It loads one byte, at the entry's offset within its sector
but from the start of the whole table, as a signed `char`: the other half of the entry is replaced by
copies of a sign bit.

`nextCluster_eq_iff` says for which entries this gives the value of the entry nevertheless.
-/

namespace Amethyst
namespace Installer

/-! ## One byte -/

/-- An even entry: eight bits, extended by their sign to twelve. -/
theorem even_value (a : BitVec 8) :
    (a.signExtend 32 &&& (0xfff : Word)).setWidth 16 = (a.signExtend 12).setWidth 16 := by
  revert a
  decide +kernel

/-- An odd entry: four bits, extended by their sign to sixteen. -/
theorem odd_value (a : BitVec 8) :
    ((a.signExtend 32).sshiftRight 4).setWidth 16 = (a.extractLsb' 4 4).signExtend 16 := by
  revert a
  decide +kernel

theorem setWidth_inj {u v : BitVec 12} : u.setWidth 16 = v.setWidth 16 ↔ u = v := by
  constructor
  · intro h
    have := congrArg (BitVec.setWidth 12) h
    simpa using this
  · exact fun h => by rw [h]

theorem even_eq_iff {a : BitVec 8} {u : BitVec 12} :
    (a.signExtend 12).setWidth 16 = u.setWidth 16 ↔
      a = u.extractLsb' 0 8 ∧ (u < 0x80 ∨ 0xF80 ≤ u) := by
  have hout : ∀ a : BitVec 8, a = (a.signExtend 12).extractLsb' 0 8 ∧
      (a.signExtend 12 < 0x80 ∨ 0xF80 ≤ a.signExtend 12) := by decide +kernel
  have hin : ∀ u : BitVec 12, u < 0x80 ∨ 0xF80 ≤ u → (u.extractLsb' 0 8).signExtend 12 = u := by
    decide +kernel
  rw [setWidth_inj]
  constructor
  · intro h
    subst h
    exact hout a
  · intro ⟨h1, h2⟩
    rw [h1, hin u h2]

theorem odd_eq_iff {a : BitVec 4} {u : BitVec 12} :
    a.signExtend 16 = u.setWidth 16 ↔ a = u.extractLsb' 0 4 ∧ u < 8 := by
  have hout : ∀ a : BitVec 4, a.signExtend 16 < 0x1000 → a < 8 ∧ a.signExtend 16 = a.setWidth 16 := by
    decide
  have hin : ∀ u : BitVec 12, u < 8 → (u.extractLsb' 0 4).signExtend 16 = u.setWidth 16 := by
    decide +kernel
  constructor
  · intro h
    have hlt : u.setWidth 16 < 0x1000 := by bv_omega
    obtain ⟨h8, he⟩ := hout a (h ▸ hlt)
    have hu : u = a.setWidth 12 := by
      rw [he] at h
      bv_omega
    subst hu
    refine ⟨?_, by bv_omega⟩
    revert a
    decide
  · intro ⟨h1, h2⟩
    rw [h1, hin u h2]

/-! ## One entry -/

def tableByte (m : Mem 32) (fats : Word) (i : Nat) : BitVec 8 := m (fats + BitVec.ofNat 32 i)

theorem fatOffset_toNat (c : Cluster) : (fatOffset c).toNat = c.toNat + c.toNat / 2 := by
  have hc := c.isLt
  have h2 : (2 : Word).toNat = 2 := rfl
  rw [fatOffset, BitVec.toNat_add, BitVec.toNat_udiv, BitVec.toNat_setWidth, h2,
    Nat.mod_eq_of_lt (by omega : c.toNat < 2 ^ 32), Nat.mod_eq_of_lt (by omega)]

theorem odd_iff (c : Cluster) : c &&& 1 ≠ 0 ↔ c.toNat % 2 = 1 := by
  have h : (c &&& 1).toNat = c.toNat % 2 := by
    rw [BitVec.toNat_and]
    exact Nat.and_one_is_mod _
  constructor
  · intro hne
    have : (c &&& 1).toNat ≠ 0 := fun h0 => hne (BitVec.eq_of_toNat_eq h0)
    omega
  · intro h1 he
    rw [he, h1] at h
    exact absurd h (by decide)

/-- The byte that is loaded for cluster `c`: the one at the entry's offset within a sector. -/
theorem nextCluster_byte (g : Fat12) (fats : Word) (m : Mem 32) (c : Cluster) :
    m (fats + fatOffset c % g.bytesPerSector.setWidth 32) =
      tableByte m fats ((c.toNat + c.toNat / 2) % g.bytesPerSector.toNat) := by
  have hg := g.bytesPerSector.isLt
  have h : fatOffset c % g.bytesPerSector.setWidth 32 =
      BitVec.ofNat 32 ((c.toNat + c.toNat / 2) % g.bytesPerSector.toNat) := by
    apply BitVec.eq_of_toNat_eq
    have hlt := Nat.lt_of_le_of_lt
      (Nat.mod_le (c.toNat + c.toNat / 2) g.bytesPerSector.toNat) (show _ < 2 ^ 32 by omega)
    rw [BitVec.toNat_umod, fatOffset_toNat, BitVec.toNat_setWidth,
      Nat.mod_eq_of_lt (by omega : g.bytesPerSector.toNat < 2 ^ 32), BitVec.toNat_ofNat,
      Nat.mod_eq_of_lt hlt]
  rw [h, tableByte]

/-- Entry `c`, of value `u`, survives the decoding when byte `a` of the table is loaded: the half of
the entry that starts in byte `c + c / 2` is found in byte `a` too, and the rest of it is a sign. -/
structure Decodes (b : Nat → BitVec 8) (c : Nat) (u : BitVec 12) (a : Nat) : Prop where
  even : c % 2 = 0 → b a = b (c + c / 2) ∧ (u < 0x80 ∨ 0xF80 ≤ u)
  odd : c % 2 = 1 → (b a).extractLsb' 4 4 = (b (c + c / 2)).extractLsb' 4 4 ∧ u < 8

theorem nextCluster_eq_iff {n : Nat} {v : Nat → BitVec 12} {g : Fat12} {fats : Word} {m : Mem 32}
    (hp : Packed12 n v (tableByte m fats)) {c : Cluster} (hc : c.toNat < n) :
    nextCluster g fats m c = (v c.toNat).setWidth 16 ↔
      Decodes (tableByte m fats) c.toNat (v c.toNat)
        ((c.toNat + c.toNat / 2) % g.bytesPerSector.toNat) := by
  simp only [nextCluster, nextCluster_byte]
  by_cases hpar : c.toNat % 2 = 1
  · rw [if_pos ((odd_iff c).mpr hpar), odd_value, odd_eq_iff, ← (hp.odd _ hc hpar).1]
    exact ⟨fun h => ⟨fun h0 => absurd h0 (by omega), fun _ => h⟩, fun h => h.odd hpar⟩
  · have hpar0 : c.toNat % 2 = 0 := by omega
    rw [if_neg fun h => hpar ((odd_iff c).mp h), even_value, even_eq_iff, ← (hp.even _ hc hpar0).1]
    exact ⟨fun h => ⟨fun _ => h, fun h1 => absurd h1 hpar⟩, fun h => h.even hpar0⟩

/-- `fat12_next_cluster` undoes the packing of entry `c` exactly when the byte at the entry's offset
modulo the sector size carries the same half of the entry as the byte at the offset itself, and the
entry is below 0x80 or from 0xF80 on (even `c`), or below 8 (odd `c`). -/
theorem fat12NextCluster_decodes_iff {n : Nat} {v : Nat → BitVec 12} {disk : Disk} {fats : Word}
    {w : World} (hfats : fats ≠ 0) (_hbps : 0 < disk.info.bytesPerSector)
    (hp : Packed12 n v (tableByte w.mem fats)) {c : Cluster} (hc : c.toNat < n) :
    (fat12NextCluster (some disk) fats c w).1 = (v c.toNat).setWidth 16 ↔
      Decodes (tableByte w.mem fats) c.toNat (v c.toNat)
        ((c.toNat + c.toNat / 2) % disk.info.bytesPerSector.toNat) := by
  rw [fat12NextCluster_some hfats]
  exact nextCluster_eq_iff hp hc

def tableMem (fats : Word) (vs : List (BitVec 12)) : Mem 32 :=
  fun x => (pack12 vs).getD (x - fats).toNat 0

theorem packed12_tableMem (fats : Word) (vs : List (BitVec 12)) (h : vs.length ≤ 2 ^ 16) :
    Packed12 vs.length (fun c => vs.getD c 0) (tableByte (tableMem fats vs) fats) := by
  refine (packed12_pack12 vs).congr fun i hi => ?_
  rw [tableByte, tableMem, sub_toNat_of_add (by omega)]

/-- A table that chains cluster 2 to cluster 256, on a volume with sectors of 512 bytes. -/
def chainTo256 : List (BitVec 12) := [0xFF0, 0xFFF, 0x100]

def floppy : Fat12 where
  bytesPerSector := 512
  sectorPerCluster := 1
  reservedSectorCount := 1
  fatCount := 2
  maxRootEntryCount := 224
  sectorPerFat := 9

theorem fat12NextCluster_decodes_first :
    (fat12NextCluster (some ⟨0, floppy⟩) 0x00100000 0
      { World.init with mem := tableMem 0x00100000 chainTo256 }).1 = 0xFF0 ↔
    Decodes (tableByte (tableMem 0x00100000 chainTo256) 0x00100000) 0 0xFF0 0 := by
  have hp : Packed12 3 (fun c => chainTo256.getD c 0)
      (tableByte (tableMem 0x00100000 chainTo256) 0x00100000) :=
    packed12_tableMem 0x00100000 chainTo256 (by decide)
  have hfats : (0x00100000 : Word) ≠ 0 := by decide
  have hbps : 0 < (⟨0, floppy⟩ : Disk).info.bytesPerSector := by decide
  exact fat12NextCluster_decodes_iff (w := { World.init with mem := _ }) hfats hbps hp (c := 0)
    (by decide)

/-- Cluster 2 leads to cluster 0 instead of 256. -/
theorem fat12NextCluster_drops_high_bits :
    Packed12 3 (fun c => chainTo256.getD c 0)
        (tableByte (tableMem 0x00100000 chainTo256) 0x00100000) ∧
      (fat12NextCluster (some ⟨0, floppy⟩) 0x00100000 2
        { World.init with mem := tableMem 0x00100000 chainTo256 }).1 ≠
        (chainTo256.getD 2 0).setWidth 16 := by
  have hp : Packed12 3 (fun c => chainTo256.getD c 0) _ :=
    packed12_tableMem 0x00100000 chainTo256 (by decide)
  refine ⟨hp, fun h => ?_⟩
  rw [fat12NextCluster_some (by decide)] at h
  obtain ⟨-, hsign⟩ := ((nextCluster_eq_iff hp (c := 2) (by decide)).mp h).even rfl
  exact absurd hsign (by decide)

end Installer
end Amethyst
