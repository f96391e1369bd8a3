import Amethyst.Installer.DiskOpen

/-!
# Amethyst.Installer.DiskPtr

The `disk_t` in memory (`struct disk_s` of `disk.h`, `struct fs_fat12` of `fat12.h`), 44 bytes with the
alignment of the fields.

The functions of `fat12.c`, `dir.c` and `file.c` take a `const disk_t *`, and read what it points to
again after each call. The block of the `disk_t` is on the heap, where the last copy of a `disk_read`
may have changed it by then.
-/

namespace Amethyst
namespace Installer

/-- The fields of 16 and 32 bits at an offset, the lower bytes first. -/
def half (f : Nat → Byte) (i : Nat) : BitVec 16 := f (i + 1) ++ f i

def word (f : Nat → Byte) (i : Nat) : Word := f (i + 3) ++ f (i + 2) ++ f (i + 1) ++ f i

/-- `sizeof(disk_t)` -/
def sizeofDisk : Nat := 44

/-- The `disk_t` of these bytes. Every `fs_type` but `FS_FAT12` takes the default branch. -/
def DiskT.ofBytes (f : Nat → Byte) : DiskT where
  id := f 0
  type := if word f 4 = 1 then .fat12 else .unknown
  info :=
    { bytesPerSector := half f 8
      sectorPerCluster := f 10
      reservedSectorCount := half f 12
      fatCount := f 14
      maxRootEntryCount := half f 16
      sectorCount := half f 18
      sectorPerFat := half f 20
      sectorPerTrack := half f 22
      headCount := half f 24
      bootSignature := f 26
      volumeId := word f 28
      volumeLabel := (List.range 12).map fun i => f (32 + i) }

theorem DiskT.ofBytes_congr {f g : Nat → Byte} (h : ∀ i < sizeofDisk, f i = g i) :
    DiskT.ofBytes f = DiskT.ofBytes g := by
  have hhalf : ∀ i, i + 1 < sizeofDisk → half f i = half g i := by
    intro i hi
    rw [half, half, h i (by omega), h (i + 1) hi]
  have hword : ∀ i, i + 3 < sizeofDisk → word f i = word g i := by
    intro i hi
    rw [word, word, h i (by omega), h (i + 1) (by omega), h (i + 2) (by omega), h (i + 3) hi]
  have hlabel : (List.range 12).map (fun i => f (32 + i)) = (List.range 12).map fun i => g (32 + i) :=
    List.map_congr_left fun i hi =>
      h _ (Nat.add_lt_add_left (List.mem_range.mp hi) 32)
  rw [DiskT.ofBytes, DiskT.ofBytes, hlabel, h 0 (by decide), h 10 (by decide), h 14 (by decide),
    h 26 (by decide), hword 4 (by decide), hword 28 (by decide), hhalf 8 (by decide),
    hhalf 12 (by decide), hhalf 16 (by decide), hhalf 18 (by decide), hhalf 20 (by decide),
    hhalf 22 (by decide), hhalf 24 (by decide)]

/-- A `const disk_t *` that is not `NULL`: what it points to, in each memory. -/
abbrev DiskPtr := Mem 32 → DiskT

/-- The `disk_t` at an address. -/
def diskAt (disk : Word) : DiskPtr := fun m => .ofBytes fun i => m (disk + BitVec.ofNat 32 i)

/-- An argument of this type. -/
def diskPtr (disk : Word) : Option DiskPtr := if disk = 0 then none else some (diskAt disk)

theorem diskPtr_of_ne_zero {disk : Word} (h : disk ≠ 0) : diskPtr disk = some (diskAt disk) := if_neg h

theorem diskAt_congr {m m' : Mem 32} {disk : Word}
    (h : ∀ i < sizeofDisk, m' (disk + BitVec.ofNat 32 i) = m (disk + BitVec.ofNat 32 i)) :
    diskAt disk m' = diskAt disk m :=
  DiskT.ofBytes_congr h

/-! ## A `disk_t` that is stored -/

/-- Byte `i` of a field. -/
def byteOf {n : Nat} (v : BitVec n) (i : Nat) : Byte := v.extractLsb' (8 * i) 8

/-- `fs_type` as an `int`. -/
def FsType.value : FsType → Word
  | .unknown => 0
  | .fat12 => 1

/-- A `disk_t` byte by byte, zeros between the fields. -/
def DiskT.bytes (d : DiskT) : List Byte :=
  let i := d.info
  let t := d.type.value
  d.id :: 0 :: 0 :: 0 :: byteOf t 0 :: byteOf t 1 :: byteOf t 2 :: byteOf t 3 ::
    byteOf i.bytesPerSector 0 :: byteOf i.bytesPerSector 1 :: i.sectorPerCluster :: 0 ::
    byteOf i.reservedSectorCount 0 :: byteOf i.reservedSectorCount 1 :: i.fatCount :: 0 ::
    byteOf i.maxRootEntryCount 0 :: byteOf i.maxRootEntryCount 1 ::
    byteOf i.sectorCount 0 :: byteOf i.sectorCount 1 ::
    byteOf i.sectorPerFat 0 :: byteOf i.sectorPerFat 1 ::
    byteOf i.sectorPerTrack 0 :: byteOf i.sectorPerTrack 1 ::
    byteOf i.headCount 0 :: byteOf i.headCount 1 :: i.bootSignature :: 0 ::
    byteOf i.volumeId 0 :: byteOf i.volumeId 1 :: byteOf i.volumeId 2 :: byteOf i.volumeId 3 ::
    i.volumeLabel

def storeDisk (disk : Word) (d : DiskT) (m : Mem 32) : Mem 32 :=
  m.fill disk sizeofDisk fun i => d.bytes.getD i 0

theorem half_eq {f : Nat → Byte} {i : Nat} {v : BitVec 16} (h0 : f i = byteOf v 0)
    (h1 : f (i + 1) = byteOf v 1) : half f i = v := by
  rw [half, h0, h1, byteOf, byteOf]
  ext j hj
  simp only [BitVec.getElem_append, BitVec.getElem_extractLsb']
  grind

theorem word_eq {f : Nat → Byte} {i : Nat} {v : Word} (h0 : f i = byteOf v 0)
    (h1 : f (i + 1) = byteOf v 1) (h2 : f (i + 2) = byteOf v 2) (h3 : f (i + 3) = byteOf v 3) :
    word f i = v := by
  rw [word, h0, h1, h2, h3, byteOf, byteOf, byteOf, byteOf]
  ext j hj
  simp only [BitVec.getElem_append, BitVec.getElem_extractLsb']
  grind

theorem map_getD_range {l : List Byte} {n : Nat} (h : l.length = n) :
    (List.range n).map (fun i => l.getD i 0) = l := by
  apply List.ext_getElem
  · simp [h]
  · intro i h1 h2
    simp [List.getD_eq_getElem?_getD, h2]

theorem DiskT.ofBytes_bytes_type (d : DiskT) : (DiskT.ofBytes fun i => d.bytes.getD i 0).type = d.type := by
  have hvalue : word (fun i => d.bytes.getD i 0) 4 = d.type.value := word_eq rfl rfl rfl rfl
  rw [DiskT.ofBytes, hvalue]
  cases d.type <;> rfl

/-- The fields that the reader of the files uses. -/
theorem DiskT.ofBytes_bytes_toFat12 (d : DiskT) :
    (DiskT.ofBytes fun i => d.bytes.getD i 0).info.toFat12 = d.info.toFat12 := by
  have h8 : half (fun i => d.bytes.getD i 0) 8 = d.info.bytesPerSector := half_eq rfl rfl
  have h12 : half (fun i => d.bytes.getD i 0) 12 = d.info.reservedSectorCount := half_eq rfl rfl
  have h16 : half (fun i => d.bytes.getD i 0) 16 = d.info.maxRootEntryCount := half_eq rfl rfl
  have h20 : half (fun i => d.bytes.getD i 0) 20 = d.info.sectorPerFat := half_eq rfl rfl
  rw [DiskT.ofBytes, h8, h12, h16, h20]
  rfl

theorem DiskT.ofBytes_bytes {d : DiskT} (hlabel : d.info.volumeLabel.length = 12) :
    DiskT.ofBytes (fun i => d.bytes.getD i 0) = d := by
  have htype := d.ofBytes_bytes_type
  have hformat := d.ofBytes_bytes_toFat12
  have hlast : (List.range 12).map (fun i => d.bytes.getD (32 + i) 0) = d.info.volumeLabel := by
    refine Eq.trans (List.map_congr_left fun i _ => ?_) (map_getD_range hlabel)
    rw [Nat.add_comm]
    rfl
  have h18 : half (fun i => d.bytes.getD i 0) 18 = d.info.sectorCount := half_eq rfl rfl
  have h22 : half (fun i => d.bytes.getD i 0) 22 = d.info.sectorPerTrack := half_eq rfl rfl
  have h24 : half (fun i => d.bytes.getD i 0) 24 = d.info.headCount := half_eq rfl rfl
  have h28 : word (fun i => d.bytes.getD i 0) 28 = d.info.volumeId := word_eq rfl rfl rfl rfl
  rw [DiskT.ofBytes] at htype hformat ⊢
  simp only at htype hformat
  rw [htype, hlast, h18, h22, h24, h28]
  exact congrArg (fun f => (⟨d.id, d.type, { d.info with toFat12 := f }⟩ : DiskT)) hformat

theorem storeDisk_frame {disk : Word} {d : DiskT} {m : Mem 32} {x : Word}
    (h : ¬ InRange disk sizeofDisk x) : storeDisk disk d m x = m x :=
  Mem.fill_frame h

theorem diskAt_storeDisk_bytes (disk : Word) (d : DiskT) (m : Mem 32) :
    diskAt disk (storeDisk disk d m) = .ofBytes fun i => d.bytes.getD i 0 :=
  DiskT.ofBytes_congr fun i hi => Mem.fill_holds (by decide) i hi

theorem diskAt_storeDisk (disk : Word) {d : DiskT} (hlabel : d.info.volumeLabel.length = 12) (m : Mem 32) :
    diskAt disk (storeDisk disk d m) = d :=
  (diskAt_storeDisk_bytes disk d m).trans (DiskT.ofBytes_bytes hlabel)

theorem storeDisk_id (disk : Word) (d : DiskT) (m : Mem 32) :
    (diskAt disk (storeDisk disk d m)).id = d.id := by
  rw [diskAt_storeDisk_bytes]
  rfl

theorem storeDisk_type (disk : Word) (d : DiskT) (m : Mem 32) :
    (diskAt disk (storeDisk disk d m)).type = d.type := by
  rw [diskAt_storeDisk_bytes, DiskT.ofBytes_bytes_type]

theorem storeDisk_toFat12 (disk : Word) (d : DiskT) (m : Mem 32) :
    (diskAt disk (storeDisk disk d m)).info.toFat12 = d.info.toFat12 := by
  rw [diskAt_storeDisk_bytes, DiskT.ofBytes_bytes_toFat12]

/-- The world after `disk_open`, with the `disk_t` where it was allocated. -/
def World.storeDisk (disk : Word) (d : DiskT) (w : World) : World :=
  { w with mem := Installer.storeDisk disk d w.mem }

@[simp] theorem World.storeDisk_state (disk : Word) (d : DiskT) (w : World) :
    (w.storeDisk disk d).state = w.state := rfl

end Installer
end Amethyst
