import Amethyst.Installer.Disk

/-!
# Amethyst.Installer.Fat12

The FAT12 reader (`installer/src/sys/disk/fs/fat12.c`): where the regions of a volume are, what the
next cluster of a chain is, and how a chain is read. `disk_read` is a parameter here, so that a
result can say what it needs of it; `Installer.diskRead` is the one of `disk.c`.

A pointer argument that the code compares with `NULL` is an `Option`. `int` and `uint32_t` values are
32-bit words: none of the signed operations below depends on the sign but the load and the shift in
`nextCluster`.
-/

namespace Amethyst
namespace Installer

/-- `struct fs_fat12`, the fields that locate things on the volume. -/
structure Fat12 where
  bytesPerSector : BitVec 16
  sectorPerCluster : BitVec 8
  reservedSectorCount : BitVec 16
  fatCount : BitVec 8
  maxRootEntryCount : BitVec 16
  sectorPerFat : BitVec 16
deriving DecidableEq, Repr

/-- `disk_t` -/
structure Disk where
  id : BitVec 8
  info : Fat12
deriving DecidableEq, Repr

/-- `fat12_cluster` -/
abbrev Cluster := BitVec 16

abbrev DiskRead := BitVec 8 → Word → BitVec 16 → BitVec 64 → World → BitVec 8 × World

namespace World

def setErr (w : World) (e : Err) : World := { w with state := { w.state with err := e } }

def malloc (w : World) (size : Word) : Word × World :=
  let (ptr, state) := Installer.malloc w.state size
  (ptr, { w with state })

def free (w : World) (ptr : Word) : Option World :=
  (Installer.free w.state ptr).map fun state => { w with state }

/-- A call of `disk_read` by the file system, on record. -/
def diskRead (dr : DiskRead) (drive : BitVec 8) (ptr : Word) (count : BitVec 16) (lba : BitVec 64)
    (w : World) : BitVec 8 × World :=
  let (status, w') := dr drive ptr count lba w
  (status, { w' with reads := w.reads ++ [⟨drive, ptr, count, lba⟩] })

end World

def fat12ReadFats (dr : DiskRead) (disk : Option Disk) (w : World) : Word × World :=
  match disk with
  | none => (0, w.setErr .invarg)
  | some disk =>
    let g := disk.info
    let (fats, w) := w.malloc
      (g.bytesPerSector.setWidth 32 * g.sectorPerFat.setWidth 32 * g.fatCount.setWidth 32)
    if fats = 0 then (0, w)
    else
      let count : Word := g.sectorPerFat.setWidth 32 * g.fatCount.setWidth 32
      let (_, w) := w.diskRead dr disk.id fats (count.setWidth 16) 1
      (fats, w)

def fatOffset (cluster : Cluster) : Word := cluster.setWidth 32 + cluster.setWidth 32 / 2

/-- The value that `fat12_next_cluster` computes. The byte is loaded as a `char`, with its sign. -/
def nextCluster (g : Fat12) (fats : Word) (m : Mem 32) (cluster : Cluster) : Cluster :=
  let entOffset := fatOffset cluster % g.bytesPerSector.setWidth 32
  let tableValue : Word := (m (fats + entOffset)).signExtend 32
  (if cluster &&& 1 ≠ 0 then tableValue.sshiftRight 4 else tableValue &&& 0xfff).setWidth 16

def fat12NextCluster (disk : Option Disk) (fats : Word) (cluster : Cluster) (w : World) :
    Cluster × World :=
  match disk with
  | none => (0, w.setErr .invarg)
  | some disk =>
    if fats = 0 then (0, w.setErr .invarg)
    else (nextCluster disk.info fats w.mem cluster, w)

/-- `pOutput` is `NULL` or gives `*pOutput`. -/
def fat12ReadRootDirectory (dr : DiskRead) (pOutput : Option Word) (disk : Option Disk)
    (w : World) : Option (Option Word × World) :=
  match disk, pOutput with
  | some disk, some _ =>
    let g := disk.info
    let rootdirSize : BitVec 64 :=
      (32 * g.maxRootEntryCount.setWidth 32 / g.bytesPerSector.setWidth 32 : Word).setWidth 64
    let rootdirLba : BitVec 64 := (g.sectorPerFat.setWidth 32 * g.fatCount.setWidth 32
      + g.reservedSectorCount.setWidth 32 : Word).setWidth 64
    let (output, w) := w.malloc ((rootdirSize * g.bytesPerSector.setWidth 64).setWidth 32)
    if output = 0 then some (some 0, w)
    else
      let (_, w) := w.diskRead dr disk.id output (rootdirSize.setWidth 16) (rootdirLba * 0 + 0x13)
      if w.state.err ≠ .no then (w.free output).map fun w => (some output, w)
      else some (some output, w)
  | _, _ => some (pOutput, w.setErr .invarg)

/-- The address that `fat12_cluster_to_lba` computes, in 32 bits until the end. -/
def clusterToLba (g : Fat12) (cluster : Cluster) : BitVec 64 :=
  let rootDirSectors : Word := (g.maxRootEntryCount.setWidth 32 <<< 5
    + (g.bytesPerSector.setWidth 32 - 1)) / g.bytesPerSector.setWidth 32
  let firstDataSector : Word := g.reservedSectorCount.setWidth 32
    + g.fatCount.setWidth 32 * g.sectorPerFat.setWidth 32 + rootDirSectors
  ((cluster.setWidth 32 - 2) * g.sectorPerCluster.setWidth 32 + firstDataSector : Word).setWidth 64

def fat12ClusterToLba (disk : Option Disk) (cluster : Cluster) (w : World) : BitVec 64 × World :=
  match disk with
  | none => (0, w.setErr .invarg)
  | some disk => (clusterToLba disk.info cluster, w)

/-- `while (current < 0xFF8) { size++; .. }`, for at most `fuel` tests of the condition. -/
def countClusters (disk : Disk) (fats : Word) :
    Nat → Cluster → Word → World → Option (Word × World)
  | 0, _, _, _ => none
  | fuel + 1, current, size, w =>
    if current < 0xFF8 then
      let (next, w) := fat12NextCluster (some disk) fats current w
      countClusters disk fats fuel next (size + 1) w
    else some (size, w)

/-- `fat12_read_entry`: `*pOutput` and the world on return, `none` if it has not returned. -/
def fat12ReadEntry (dr : DiskRead) (fuel : Nat) (pOutput : Word) (disk : Option Disk) (fats : Word)
    (start : Cluster) (w : World) : Option (Word × World) :=
  match disk with
  | none => some (pOutput, w.setErr .invarg)
  | some disk =>
    let bytesPerSector := disk.info.bytesPerSector
    let sectorPerCluster := disk.info.sectorPerCluster
    if fats = 0 ∨ 0xFF8 ≤ start then some (pOutput, w.setErr .invarg)
    else
      match countClusters disk fats fuel start 0 w with
      | none => none
      | some (size, w) =>
        let (output, w) :=
          w.malloc (size * sectorPerCluster.setWidth 32 * bytesPerSector.setWidth 32)
        if w.state.err ≠ .no then some (output, w)
        else
          -- the second `while`: its condition holds at first, and its body ends in `break`
          let offset : BitVec 16 := 0
          let (lba, w) := fat12ClusterToLba (some disk) start w
          let (status, w) := w.diskRead dr disk.id (output + offset.setWidth 32)
            (sectorPerCluster.setWidth 16) lba
          if status ≠ 0 then (w.free output).map fun w => (output, w.setErr .io)
          else
            let (_, w) := fat12NextCluster (some disk) fats start w
            some (output, w)

/-! ## What the parts do -/

@[simp] theorem fat12NextCluster_some {fats : Word} (h : fats ≠ 0) (disk : Disk) (cluster : Cluster)
    (w : World) :
    fat12NextCluster (some disk) fats cluster w = (nextCluster disk.info fats w.mem cluster, w) := by
  simp only [fat12NextCluster, if_neg h]

/-- A `malloc` that does not return `NULL` has recorded the block and left `_err` alone. -/
theorem malloc_live {s : State} {size : Word} (h : (malloc s size).1 ≠ 0) :
    size ≠ 0 ∧ (malloc s size).2.err = s.err ∧
      (⟨(malloc s size).1, size⟩ : Chunk) ∈ (malloc s size).2.heap.allocated := by
  obtain ⟨r, h', e⟩ : ∃ r h', s.heap.malloc size = (r, h') := ⟨_, _, rfl⟩
  simp only [malloc, e] at h ⊢
  cases r with
  | zeroSize => exact absurd rfl h
  | heapFull => exact absurd rfl h
  | noSlot => exact absurd rfl h
  | ok ptr =>
    obtain ⟨h1, -⟩ | ⟨h1, -⟩ | ⟨hs, i, c, p, c', -, hcut, ⟨h1, -⟩ | ⟨h1, j, hj, rfl⟩⟩ :=
      Heap.malloc_cases e
    all_goals cases h1
    obtain ⟨-, rfl⟩ := Chunk.cut_fits hcut
    exact ⟨hs, rfl, List.mem_set (List.getElem?_eq_some_iff.mp hj).1 _⟩

theorem World.malloc_live {w w' : World} {size ptr : Word} (e : w.malloc size = (ptr, w'))
    (h : ptr ≠ 0) :
    size ≠ 0 ∧ w'.state.err = w.state.err ∧ w'.mem = w.mem ∧
      (⟨ptr, size⟩ : Chunk) ∈ w'.state.heap.allocated := by
  cases e
  obtain ⟨h1, h2, h3⟩ := Installer.malloc_live h
  exact ⟨h1, h2, rfl, h3⟩

section

variable {lo hi : Nat} (hlo : 0 < lo) (hhi : hi < 2 ^ 32) {w : World} (h : w.state.heap.Inv lo hi)
include hlo hhi h

theorem World.malloc_inv (size : Word) : (w.malloc size).2.state.heap.Inv lo hi :=
  malloc_heap_inv hlo hhi h size

theorem World.diskRead_inv (bios : Bios) (drive : BitVec 8) (ptr : Word) (count : BitVec 16)
    (lba : BitVec 64) :
    (w.diskRead (Installer.diskRead bios) drive ptr count lba).2.state.heap.Inv lo hi :=
  Installer.diskRead_inv hlo hhi bios drive ptr count lba h

theorem World.free_inv (ptr : Word) :
    ∃ w', w.free ptr = some w' ∧ w'.state.heap.Inv lo hi ∧ w'.reads = w.reads := by
  obtain ⟨s', e, h'⟩ := step_inv hlo hhi h (.free ptr)
  have e' : Installer.free w.state ptr = some s' := e
  exact ⟨{ w with state := s' }, by rw [World.free, e']; rfl, h', rfl⟩

end

end Installer
end Amethyst
