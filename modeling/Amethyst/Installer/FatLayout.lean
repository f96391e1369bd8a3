import Amethyst.Installer.FatTable

/-!
# Amethyst.Installer.FatLayout

Where the three functions that locate a region of the volume find it. The FATs are read from sector
1, the root directory from sector 19 with its size rounded down, and `fat12_cluster_to_lba` counts
the data sectors from behind the reserved sectors, the FATs and the root directory, rounded up.

`layoutAgrees_iff`: these are three consecutive regions exactly on the volumes with one reserved
sector and a root directory of whole sectors that starts at sector 19 or is empty, as far as the heap
has room for what is read.
-/

namespace Amethyst
namespace Installer

/-! ## The geometry, in unbounded numbers -/

namespace Fat12

variable (g : Fat12)

def fatSectors : Nat := g.fatCount.toNat * g.sectorPerFat.toNat

def rootBytes : Nat := 32 * g.maxRootEntryCount.toNat

/-- Sectors of the root directory, rounded down. -/
def wholeRootSectors : Nat := g.rootBytes / g.bytesPerSector.toNat

/-- Sectors of the root directory, rounded up. -/
def rootSectors : Nat := (g.rootBytes + (g.bytesPerSector.toNat - 1)) / g.bytesPerSector.toNat

def firstDataSector : Nat := g.reservedSectorCount.toNat + g.fatSectors + g.rootSectors

theorem fatSectors_lt : g.fatSectors < 2 ^ 24 := by
  have h1 := g.fatCount.isLt
  have h2 := g.sectorPerFat.isLt
  calc g.fatCount.toNat * g.sectorPerFat.toNat < 2 ^ 8 * 2 ^ 16 := Nat.mul_lt_mul'' h1 h2
    _ = 2 ^ 24 := by decide

theorem rootBytes_lt : g.rootBytes < 2 ^ 21 := by
  have := g.maxRootEntryCount.isLt
  unfold rootBytes
  omega

theorem rootSectors_lt : g.rootSectors < 2 ^ 22 := by
  have h1 := g.rootBytes_lt
  have h2 := g.bytesPerSector.isLt
  exact Nat.lt_of_le_of_lt (Nat.div_le_self _ _) (by omega)

theorem firstDataSector_lt : g.firstDataSector < 2 ^ 25 := by
  have hF := g.fatSectors_lt
  have hR := g.reservedSectorCount.isLt
  have hroot := g.rootSectors_lt
  unfold firstDataSector
  omega

end Fat12

open BitVec (toNat_setWidth_of_le)

/-- The sector count that the FATs are read with, before it is cut to 16 bits. -/
theorem fatSectors_toNat (g : Fat12) :
    (g.sectorPerFat.setWidth 32 * g.fatCount.setWidth 32 : Word).toNat = g.fatSectors := by
  have := g.fatSectors_lt
  rw [BitVec.toNat_mul, toNat_setWidth_of_le (by omega), toNat_setWidth_of_le (by omega),
    Nat.mul_comm, ← Fat12.fatSectors, Nat.mod_eq_of_lt (by omega)]

theorem rootBytes_toNat (g : Fat12) :
    (32 * g.maxRootEntryCount.setWidth 32 : Word).toNat = g.rootBytes := by
  have := g.rootBytes_lt
  have h32 : (32 : Word).toNat = 32 := rfl
  rw [BitVec.toNat_mul, toNat_setWidth_of_le (by omega), h32, ← Fat12.rootBytes,
    Nat.mod_eq_of_lt (by omega)]

theorem rootdirSize_toNat (g : Fat12) :
    (32 * g.maxRootEntryCount.setWidth 32 / g.bytesPerSector.setWidth 32 : Word).toNat =
      g.wholeRootSectors := by
  rw [BitVec.toNat_udiv, rootBytes_toNat, toNat_setWidth_of_le (by omega)]
  rfl

/-! ## The formula, step by step -/

namespace Fat12

variable (g : Fat12)

/-- `rootEntryCount << 5` -/
def rootShifted : Word := g.maxRootEntryCount.setWidth 32 <<< 5

/-- `(rootEntryCount << 5) + (bytesPerSector - 1)` -/
def rootRounded : Word := g.rootShifted + (g.bytesPerSector.setWidth 32 - 1)

/-- `rootDirSectors` -/
def rootDirSectors : Word := g.rootRounded / g.bytesPerSector.setWidth 32

/-- `fatCount * fatSize` -/
def fatProduct : Word := g.fatCount.setWidth 32 * g.sectorPerFat.setWidth 32

/-- `reservedSectorCount + (fatCount * fatSize)` -/
def systemSectors : Word := g.reservedSectorCount.setWidth 32 + g.fatProduct

/-- `(cluster - 2) * sectorsPerCluster` -/
def clusterOffset (cluster : Cluster) : Word :=
  (cluster.setWidth 32 - 2) * g.sectorPerCluster.setWidth 32

end Fat12

theorem clusterToLba_eq (g : Fat12) (cluster : Cluster) : clusterToLba g cluster =
    (g.clusterOffset cluster + (g.systemSectors + g.rootDirSectors)).setWidth 64 := rfl

section

variable (g : Fat12)

theorem rootShifted_toNat : g.rootShifted.toNat = g.rootBytes := by
  rw [← rootBytes_toNat, Fat12.rootShifted, BitVec.shiftLeft_eq_mul_twoPow, BitVec.mul_comm]
  rfl

theorem fatProduct_toNat : g.fatProduct.toNat = g.fatSectors := by
  rw [Fat12.fatProduct, BitVec.mul_comm, fatSectors_toNat]

theorem systemSectors_toNat :
    g.systemSectors.toNat = g.reservedSectorCount.toNat + g.fatSectors := by
  have hF := g.fatSectors_lt
  have hR := g.reservedSectorCount.isLt
  rw [Fat12.systemSectors, BitVec.toNat_add, toNat_setWidth_of_le (by omega), fatProduct_toNat,
    Nat.mod_eq_of_lt (by omega)]

section

variable (hbps : 0 < g.bytesPerSector.toNat)
include hbps

theorem bytesPred_toNat :
    (g.bytesPerSector.setWidth 32 - 1 : Word).toNat = g.bytesPerSector.toNat - 1 := by
  have := toNat_setWidth_of_le (b := g.bytesPerSector) (by decide : 16 ≤ 32)
  bv_omega

theorem rootRounded_toNat :
    g.rootRounded.toNat = g.rootBytes + (g.bytesPerSector.toNat - 1) := by
  have hm := g.rootBytes_lt
  have hb := g.bytesPerSector.isLt
  rw [Fat12.rootRounded, BitVec.toNat_add, rootShifted_toNat, bytesPred_toNat g hbps,
    Nat.mod_eq_of_lt (by omega)]

theorem rootDirSectors_toNat : g.rootDirSectors.toNat = g.rootSectors := by
  rw [Fat12.rootDirSectors, BitVec.toNat_udiv, rootRounded_toNat g hbps,
    toNat_setWidth_of_le (by omega), Fat12.rootSectors]

theorem firstDataSector_toNat :
    (g.systemSectors + g.rootDirSectors).toNat = g.firstDataSector := by
  have hF := g.fatSectors_lt
  have hR := g.reservedSectorCount.isLt
  have hroot := g.rootSectors_lt
  rw [BitVec.toNat_add, systemSectors_toNat, rootDirSectors_toNat g hbps,
    Nat.mod_eq_of_lt (by omega)]
  rfl

end

end

theorem clusterToLba_two (g : Fat12) (hbps : 0 < g.bytesPerSector.toNat) :
    (clusterToLba g 2).toNat = g.firstDataSector := by
  have hzero : g.clusterOffset 2 = 0#32 := by
    rw [Fat12.clusterOffset, show ((2 : Cluster).setWidth 32 - 2 : Word) = 0#32 from by decide,
      BitVec.zero_mul]
  rw [clusterToLba_eq, hzero, BitVec.zero_add, toNat_setWidth_of_le (by omega),
    firstDataSector_toNat g hbps]

/-! ## What is read -/

def Request.sectors (r : Request) : List Nat := List.range' r.lba.toNat r.count.toNat

/-- Between the two worlds the functions have asked `disk_read` for the sectors `lo`, .., `hi - 1`, each
once and in this order, and for no other. What it then transfers is not the subject here. -/
def Reads (w w' : World) (lo hi : Nat) : Prop :=
  ∃ rs, w'.reads = w.reads ++ rs ∧ rs.flatMap Request.sectors = List.range' lo (hi - lo)

theorem reads_of_nil {w w' : World} (h : w'.reads = w.reads) (lo hi : Nat) :
    Reads w w' lo hi ↔ hi ≤ lo := by
  constructor
  · intro ⟨rs, h1, h2⟩
    rw [h, List.self_eq_append_right] at h1
    subst h1
    have := congrArg List.length h2
    simp only [List.flatMap_nil, List.length_nil, List.length_range'] at this
    omega
  · intro hle
    refine ⟨[], by rw [h, List.append_nil], ?_⟩
    rw [Nat.sub_eq_zero_of_le hle]
    rfl

theorem reads_of_singleton {w w' : World} {r : Request} (h : w'.reads = w.reads ++ [r])
    (lo hi : Nat) :
    Reads w w' lo hi ↔ r.count.toNat = hi - lo ∧ (r.count.toNat = 0 ∨ r.lba.toNat = lo) := by
  rw [← List.range'_inj]
  constructor
  · intro ⟨rs, h1, h2⟩
    rw [h, List.append_cancel_left_eq] at h1
    subst h1
    simpa [Request.sectors] using h2
  · intro he
    exact ⟨[r], h, by simpa [Request.sectors] using he⟩

/-- The heap can take a block of `size` bytes: an entry of `freed` is large enough, and a slot of
`allocated` is empty. -/
def Serves (w : World) (size : Nat) : Prop :=
  (∃ c ∈ w.state.heap.freed, size ≤ c.size.toNat) ∧ Chunk.empty ∈ w.state.heap.allocated

theorem malloc_zero (w : World) : (w.malloc 0).1 = 0 := by
  simp [World.malloc, malloc, Heap.malloc]

theorem malloc_serves_iff {lo hi : Nat} (hlo : 0 < lo) (hhi : hi < 2 ^ 32) {w : World}
    (hinv : w.state.heap.Inv lo hi) {size : Nat} (hpos : 0 < size) (hlt : size < 2 ^ 32) :
    (w.malloc (BitVec.ofNat 32 size)).1 ≠ 0 ↔ Serves w size := by
  have hsize : (BitVec.ofNat 32 size).toNat = size := by
    rw [BitVec.toNat_ofNat, Nat.mod_eq_of_lt hlt]
  have hne : BitVec.ofNat 32 size ≠ 0 := by
    intro h0
    rw [h0] at hsize
    exact absurd hsize (by simpa using Nat.ne_of_lt hpos)
  have hptr : (w.malloc (BitVec.ofNat 32 size)).1 =
      (w.state.heap.malloc (BitVec.ofNat 32 size)).1.ptr := (malloc_heap w.state _).1
  rw [hptr, Heap.malloc_ne_zero_iff hlo hhi hinv]
  simp only [Serves, BitVec.le_def, hsize, ne_eq, hne, not_false_eq_true, true_and]

section

variable {lo hi : Nat} (hlo : 0 < lo) (hhi : hi < 2 ^ 32) {disk : Disk} {w : World}
  (hinv : w.state.heap.Inv lo hi) (hbps : 0 < disk.info.bytesPerSector.toNat)
include hlo hhi hinv hbps

/-- The FATs are read from sector 1, if the heap has room for them. -/
theorem fat12ReadFats_reads (hpos : 0 < disk.info.fatSectors)
    (hlt : disk.info.fatSectors < 2 ^ 16) (dr : DiskRead) :
    Serves w (disk.info.bytesPerSector.toNat * disk.info.fatSectors) ∧
        (∃ ptr, (fat12ReadFats dr (some disk) w).2.reads =
          w.reads ++ [⟨disk.id, ptr, BitVec.ofNat 16 disk.info.fatSectors, 1⟩]) ∨
      ¬ Serves w (disk.info.bytesPerSector.toNat * disk.info.fatSectors) ∧
        (fat12ReadFats dr (some disk) w).2.reads = w.reads := by
  have hsize : (disk.info.bytesPerSector.setWidth 32 * disk.info.sectorPerFat.setWidth 32 *
      disk.info.fatCount.setWidth 32 : Word) =
        BitVec.ofNat 32 (disk.info.bytesPerSector.toNat * disk.info.fatSectors) := by
    simp only [Fat12.fatSectors, BitVec.ofNat_mul, BitVec.ofNat_toNat]
    rw [BitVec.mul_assoc, BitVec.mul_comm (disk.info.sectorPerFat.setWidth 32)]
  have hcount : (disk.info.sectorPerFat.setWidth 32 * disk.info.fatCount.setWidth 32 : Word).setWidth
      16 = BitVec.ofNat 16 disk.info.fatSectors := by
    rw [← fatSectors_toNat, BitVec.ofNat_toNat]
  have hbytes : disk.info.bytesPerSector.toNat * disk.info.fatSectors < 2 ^ 16 * 2 ^ 16 :=
    Nat.mul_lt_mul'' disk.info.bytesPerSector.isLt hlt
  have hroom := malloc_serves_iff hlo hhi hinv (Nat.mul_pos hbps hpos) (by omega)
  simp only [fat12ReadFats, hsize, hcount]
  split
  · rename_i h0
    exact .inr ⟨fun hs => hroom.mpr hs h0, rfl⟩
  · rename_i hne
    exact .inl ⟨hroom.mp hne, _, rfl⟩

/-- The root directory is read from sector 19, if it has a whole sector and the heap has room for
it. -/
theorem fat12ReadRootDirectory_reads (bios : Bios) (pOutput : Word) :
    ∃ output w', fat12ReadRootDirectory (diskRead bios) (some pOutput) (some disk) w =
        some (output, w') ∧
      (Serves w (disk.info.wholeRootSectors * disk.info.bytesPerSector.toNat) ∧
          (∃ ptr, w'.reads = w.reads ++
            [⟨disk.id, ptr, BitVec.ofNat 16 disk.info.wholeRootSectors, 19⟩]) ∨
        (disk.info.wholeRootSectors = 0 ∨
            ¬ Serves w (disk.info.wholeRootSectors * disk.info.bytesPerSector.toNat)) ∧
          w'.reads = w.reads) := by
  have hle : disk.info.wholeRootSectors * disk.info.bytesPerSector.toNat < 2 ^ 21 :=
    Nat.lt_of_le_of_lt (Nat.div_mul_le_self _ _) disk.info.rootBytes_lt
  obtain ⟨q, hq⟩ : ∃ q, disk.info.wholeRootSectors = q := ⟨_, rfl⟩
  rw [hq] at hle ⊢
  have hqw : (32 * disk.info.maxRootEntryCount.setWidth 32 /
      disk.info.bytesPerSector.setWidth 32 : Word) = BitVec.ofNat 32 q := by
    rw [← hq, ← rootdirSize_toNat, BitVec.ofNat_toNat, BitVec.setWidth_eq]
  have hqlt : q < 2 ^ 32 := by
    have := disk.info.rootBytes_lt
    have : disk.info.wholeRootSectors ≤ disk.info.rootBytes := Nat.div_le_self _ _
    omega
  have hsize : ((BitVec.ofNat 32 q).setWidth 64 * disk.info.bytesPerSector.setWidth 64).setWidth 32 =
      BitVec.ofNat 32 (q * disk.info.bytesPerSector.toNat) := by
    have hlt : q * disk.info.bytesPerSector.toNat < 2 ^ 32 * 2 ^ 16 :=
      Nat.mul_lt_mul'' hqlt disk.info.bytesPerSector.isLt
    apply BitVec.eq_of_toNat_eq
    rw [BitVec.toNat_setWidth, BitVec.toNat_mul, toNat_setWidth_of_le (by omega),
      toNat_setWidth_of_le (by omega), BitVec.toNat_ofNat, BitVec.toNat_ofNat,
      Nat.mod_eq_of_lt hqlt, Nat.mod_eq_of_lt (Nat.lt_trans hlt (by decide : _ < 2 ^ 64))]
  have hcount : ((BitVec.ofNat 32 q).setWidth 64).setWidth 16 = BitVec.ofNat 16 q := by
    apply BitVec.eq_of_toNat_eq
    rw [BitVec.toNat_setWidth, toNat_setWidth_of_le (by omega), BitVec.toNat_ofNat,
      BitVec.toNat_ofNat, Nat.mod_eq_of_lt hqlt]
  simp only [fat12ReadRootDirectory, hqw, hsize, hcount]
  by_cases hq0 : q = 0
  · subst hq0
    rw [if_pos (by rw [Nat.zero_mul]; exact malloc_zero w)]
    exact ⟨_, _, rfl, .inr ⟨.inl rfl, rfl⟩⟩
  have hroom := malloc_serves_iff hlo hhi hinv (Nat.mul_pos (Nat.pos_of_ne_zero hq0) hbps)
    (Nat.lt_trans hle (by decide))
  split
  · rename_i h0
    exact ⟨_, _, rfl, .inr ⟨.inr fun hs => hroom.mpr hs h0, rfl⟩⟩
  · rename_i hne
    split
    · -- `_err` was set before the call, or is set by `memcpy`: the block is given back
      obtain ⟨w', e, -, hreads⟩ := World.free_inv hlo hhi (World.diskRead_inv hlo hhi
        (World.malloc_inv hlo hhi hinv _) bios disk.id _ (BitVec.ofNat 16 q) _) _
      rw [e]
      exact ⟨_, _, rfl, .inl ⟨hroom.mp hne, _, hreads⟩⟩
    · exact ⟨_, _, rfl, .inl ⟨hroom.mp hne, _, rfl⟩⟩

end

theorem div_eq_ceil_iff {a b : Nat} (hb : 0 < b) : a / b = (a + (b - 1)) / b ↔ b ∣ a := by
  rw [ceil_div hb, Nat.dvd_iff_mod_eq_zero]
  split <;> omega

theorem Fat12.wholeRootSectors_eq_zero_iff {g : Fat12} (hdvd : g.bytesPerSector.toNat ∣ g.rootBytes) :
    g.wholeRootSectors = 0 ↔ g.maxRootEntryCount = 0 := by
  have hmul := Nat.div_mul_cancel hdvd
  have hbytes : g.rootBytes = 32 * g.maxRootEntryCount.toNat := rfl
  have hzero : g.maxRootEntryCount = 0 ↔ g.maxRootEntryCount.toNat = 0 := BitVec.toNat_inj.symm
  rw [hzero, Fat12.wholeRootSectors]
  constructor
  · intro h
    rw [h, Nat.zero_mul] at hmul
    omega
  · intro h
    rw [hbytes, h, Nat.mul_zero, Nat.zero_div]

section

variable {lo hi : Nat} (hlo : 0 < lo) (hhi : hi < 2 ^ 32) {disk : Disk} {w : World}
  (hinv : w.state.heap.Inv lo hi) (hbps : 0 < disk.info.bytesPerSector.toNat)
include hlo hhi hinv hbps

/-- The FATs are read where they are exactly when there is room for them and they start at sector
1. -/
theorem fats_agree_iff (hpos : 0 < disk.info.fatSectors) (hlt : disk.info.fatSectors < 2 ^ 16)
    (dr : DiskRead) :
    Reads w (fat12ReadFats dr (some disk) w).2 disk.info.reservedSectorCount.toNat
      (disk.info.reservedSectorCount.toNat + disk.info.fatSectors) ↔
      disk.info.reservedSectorCount = 1 ∧
        Serves w (disk.info.bytesPerSector.toNat * disk.info.fatSectors) := by
  obtain ⟨hs, ptr, hptr⟩ | ⟨hs, hnil⟩ := fat12ReadFats_reads hlo hhi hinv hbps hpos hlt dr
  case inr =>
    rw [reads_of_nil hnil]
    exact iff_of_false (by omega) fun h => hs h.2
  have hlba : (1 : BitVec 64).toNat = 1 := rfl
  have hcount : (BitVec.ofNat 16 disk.info.fatSectors).toNat = disk.info.fatSectors := by
    rw [BitVec.toNat_ofNat, Nat.mod_eq_of_lt hlt]
  have hone : disk.info.reservedSectorCount = 1 ↔ disk.info.reservedSectorCount.toNat = 1 :=
    BitVec.toNat_inj.symm
  simp only [reads_of_singleton hptr, hcount, hlba, hone, hs, and_true]
  omega

/-- The root directory is read where it is exactly when it has whole sectors, and is empty or starts
at sector 19 and there is room for it. -/
theorem root_agree_iff (hlt : disk.info.rootSectors < 2 ^ 16) (bios : Bios) (pOutput : Word)
    (start : Nat) :
    (∃ output w', fat12ReadRootDirectory (diskRead bios) (some pOutput) (some disk) w =
        some (output, w') ∧ Reads w w' start (start + disk.info.rootSectors)) ↔
      disk.info.bytesPerSector.toNat ∣ disk.info.rootBytes ∧
        (disk.info.maxRootEntryCount = 0 ∨ start = 19 ∧ Serves w disk.info.rootBytes) := by
  obtain ⟨output, w', e, hw'⟩ := fat12ReadRootDirectory_reads hlo hhi hinv hbps bios pOutput
  have hle : disk.info.wholeRootSectors ≤ disk.info.rootSectors :=
    Nat.div_le_div_right (Nat.le_add_right _ _)
  have hreads : Reads w w' start (start + disk.info.rootSectors) ↔
      disk.info.wholeRootSectors = disk.info.rootSectors ∧
        (disk.info.wholeRootSectors = 0 ∨ start = 19 ∧
          Serves w (disk.info.wholeRootSectors * disk.info.bytesPerSector.toNat)) := by
    obtain ⟨hs, ptr, hptr⟩ | ⟨h0 | hs, hnil⟩ := hw'
    · have hlba : (19 : BitVec 64).toNat = 19 := rfl
      have hcount : (BitVec.ofNat 16 disk.info.wholeRootSectors).toNat =
          disk.info.wholeRootSectors := by
        rw [BitVec.toNat_ofNat, Nat.mod_eq_of_lt (by omega)]
      simp only [reads_of_singleton hptr, hcount, hlba, hs, and_true]
      omega
    · simp only [reads_of_nil hnil, h0, true_or, and_true]
      omega
    · simp only [reads_of_nil hnil, hs, and_false, or_false]
      omega
  have hceil : disk.info.wholeRootSectors = disk.info.rootSectors ↔
      disk.info.bytesPerSector.toNat ∣ disk.info.rootBytes := div_eq_ceil_iff hbps
  have hagree : Reads w w' start (start + disk.info.rootSectors) ↔
      disk.info.bytesPerSector.toNat ∣ disk.info.rootBytes ∧
        (disk.info.maxRootEntryCount = 0 ∨ start = 19 ∧ Serves w disk.info.rootBytes) := by
    rw [hreads, hceil]
    refine and_congr_right fun hdvd => ?_
    rw [Fat12.wholeRootSectors_eq_zero_iff hdvd, Fat12.wholeRootSectors, Nat.div_mul_cancel hdvd]
  constructor
  · intro h
    obtain ⟨o', w'', e', h'⟩ := h
    rw [e] at e'
    cases e'
    exact hagree.mp h'
  · exact fun h => ⟨output, w', e, hagree.mpr h⟩

end

/-- The three functions that locate a region of the volume agree: the FATs are read right behind the
reserved sectors, the root directory right behind the FATs, and cluster 2 comes right behind it. -/
structure LayoutAgrees (bios : Bios) (disk : Disk) (w : World) : Prop where
  fats : Reads w (fat12ReadFats (diskRead bios) (some disk) w).2
    disk.info.reservedSectorCount.toNat
    (disk.info.reservedSectorCount.toNat + disk.info.fatSectors)
  root : ∃ output w', fat12ReadRootDirectory (diskRead bios) (some 0) (some disk) w =
      some (output, w') ∧
    Reads w w' (disk.info.reservedSectorCount.toNat + disk.info.fatSectors)
      (fat12ClusterToLba (some disk) 2 w).1.toNat

/-- They agree exactly when there is one reserved sector, the root directory is made of whole sectors
and is empty or starts at sector 19, and the heap has room for what is read. -/
theorem layoutAgrees_iff {lo hi : Nat} (hlo : 0 < lo) (hhi : hi < 2 ^ 32) {w : World}
    (hinv : w.state.heap.Inv lo hi) (bios : Bios) (disk : Disk)
    (hbps : 0 < disk.info.bytesPerSector.toNat) (hfat : 0 < disk.info.fatSectors)
    (hfats : disk.info.fatSectors < 2 ^ 16) (hroots : disk.info.rootSectors < 2 ^ 16) :
    LayoutAgrees bios disk w ↔
      (disk.info.reservedSectorCount = 1 ∧
          Serves w (disk.info.bytesPerSector.toNat * disk.info.fatSectors)) ∧
        disk.info.bytesPerSector.toNat ∣ disk.info.rootBytes ∧
        (disk.info.maxRootEntryCount = 0 ∨
          disk.info.reservedSectorCount.toNat + disk.info.fatSectors = 19 ∧
            Serves w disk.info.rootBytes) := by
  have hD : (fat12ClusterToLba (some disk) 2 w).1.toNat =
      disk.info.reservedSectorCount.toNat + disk.info.fatSectors + disk.info.rootSectors :=
    clusterToLba_two disk.info hbps
  have hroot := root_agree_iff hlo hhi hinv hbps hroots bios 0
    (disk.info.reservedSectorCount.toNat + disk.info.fatSectors)
  have hfatsIff := fats_agree_iff hlo hhi hinv hbps hfat hfats (diskRead bios)
  rw [← hD] at hroot
  constructor
  · intro h
    exact ⟨hfatsIff.mp h.fats, hroot.mp h.root⟩
  · intro ⟨h1, h2⟩
    exact ⟨hfatsIff.mpr h1, hroot.mpr h2⟩

theorem World.init_inv : World.init.state.heap.Inv 0x00100000 0x001FFFFF :=
  @Heap.inv_allocInit 0x00100000 0x000FFFFF (by decide) (by decide)

/-- Right after `alloc_init` every size up to that of the heap is served. -/
theorem serves_init {size : Nat} (hle : size ≤ 0x000FFFFF) : Serves World.init size := by
  have hfreed : (⟨0x00100000, 0x000FFFFF⟩ : Chunk) ∈ World.init.state.heap.freed :=
    List.mem_set (by rw [List.length_replicate]; exact chunkQty_pos) _
  exact ⟨⟨_, hfreed, hle⟩, List.mem_replicate.mpr ⟨Nat.ne_of_gt chunkQty_pos, rfl⟩⟩

theorem layoutAgrees_floppy : LayoutAgrees (idealBios fun _ _ => 0) ⟨0, floppy⟩ World.init := by
  refine (layoutAgrees_iff (by decide) (by decide) World.init_inv (idealBios fun _ _ => 0)
    ⟨0, floppy⟩ (by decide) (by decide) (by decide) (by decide)).mpr ⟨⟨by decide, ?_⟩, by decide, ?_⟩
  · exact serves_init (by decide)
  · exact .inr ⟨by decide, serves_init (by decide)⟩

/-- The same volume with a second reserved sector. -/
def floppy2 : Fat12 := { floppy with reservedSectorCount := 2 }

/-- Its FATs are read one sector early, its root directory too. -/
theorem layout_disagrees_reserved :
    Serves World.init (512 * 18) ∧ Serves World.init (32 * 224) ∧
      ¬ LayoutAgrees (idealBios fun _ _ => 0) ⟨0, floppy2⟩ World.init := by
  refine ⟨serves_init (by decide), serves_init (by decide), fun h => ?_⟩
  have hone := (@fats_agree_iff _ _ (by decide) (by decide) ⟨0, floppy2⟩ _ World.init_inv
    (by decide) (by decide) (by decide) _).mp h.fats
  exact absurd hone.1 (by decide)

end Installer
end Amethyst
