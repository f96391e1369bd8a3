import Amethyst.Installer.FatLayout

/-!
# Amethyst.Installer.FatEntry

`fat12_read_entry`. The first loop counts the clusters of the chain and the block is as large as it
should be; the second loop leaves after its first pass. Nothing is read at all when `_err` was set
before the call.

`fat12ReadEntry_whole_iff`: the chain is read whole, whatever is on the disk, exactly when `_err` is
clear and the chain has one cluster.
-/

namespace Amethyst
namespace Installer

open BitVec (toNat_setWidth_of_le)

/-- The chain that starts at `start`: `k` steps of `fat12_next_cluster`. -/
def chain (g : Fat12) (fats : Word) (m : Mem 32) (start : Cluster) (k : Nat) : Cluster :=
  (nextCluster g fats m)^[k] start

/-- The chain has `n` clusters: it reaches an end mark after them. -/
structure EndsAfter (g : Fat12) (fats : Word) (m : Mem 32) (start : Cluster) (n : Nat) : Prop where
  before : ∀ k < n, chain g fats m start k < 0xFF8
  ended : 0xFF8 ≤ chain g fats m start n

/-- `disk_read` succeeds, delivers the sectors asked for, and leaves the allocator and `_err`
alone. -/
structure ReadsSectors (drive : BitVec 8) (size : Nat) (content : Sectors) (dr : DiskRead) : Prop where
  ok : ∀ ptr count lba w, (dr drive ptr count lba w).1 = 0
  state : ∀ ptr count lba w, (dr drive ptr count lba w).2.state = w.state
  holds : ∀ ptr count lba w, (dr drive ptr count lba w).2.mem.Holds ptr (size * count.toNat)
    (content.byte size lba)

/-- A `disk_read` that does so and touches nothing else. -/
def idealRead (size : Nat) (content : Sectors) : DiskRead :=
  fun _ ptr count lba w =>
    (0, { w with mem := w.mem.fill ptr (size * count.toNat) (content.byte size lba) })

theorem idealRead_readsSectors (drive : BitVec 8) {size : Nat} (h : size < 2 ^ 16)
    (content : Sectors) : ReadsSectors drive size content (idealRead size content) where
  ok _ _ _ _ := rfl
  state _ _ _ _ := rfl
  holds ptr count lba w := by
    have hle : size * count.toNat ≤ 2 ^ 16 * 2 ^ 16 :=
      Nat.mul_le_mul (Nat.le_of_lt h) (Nat.le_of_lt count.isLt)
    exact Mem.fill_holds (Nat.le_trans hle (by decide))

def Fat12.clusterBytes (g : Fat12) : Nat := g.sectorPerCluster.toNat * g.bytesPerSector.toNat
/-- The block at `output` is live, has the size of the chain, and holds its clusters in order. -/
structure ReadWhole (g : Fat12) (content : Sectors) (clusters : Nat → Cluster) (n : Nat)
    (output : Word) (w : World) : Prop where
  live : ∃ c ∈ w.state.heap.allocated, c.start = output ∧ c.size.toNat = n * g.clusterBytes
  slices : ∀ k < n, w.mem.Holds (output + BitVec.ofNat 32 (k * g.clusterBytes)) g.clusterBytes
    (content.byte g.bytesPerSector.toNat (clusterToLba g (clusters k)))

theorem EndsAfter.tail {g : Fat12} {fats : Word} {m : Mem 32} {start : Cluster} {n : Nat}
    (h : EndsAfter g fats m start (n + 1)) : EndsAfter g fats m (nextCluster g fats m start) n :=
  ⟨fun k hk => h.before (k + 1) (by omega), h.ended⟩

theorem EndsAfter.pos {g : Fat12} {fats : Word} {m : Mem 32} {start : Cluster} {n : Nat}
    (h : EndsAfter g fats m start n) (hstart : start < 0xFF8) : 0 < n := by
  apply Nat.pos_of_ne_zero
  intro h0
  subst h0
  exact BitVec.not_le.mpr hstart h.ended

theorem EndsAfter.one_iff {g : Fat12} {fats : Word} {m : Mem 32} {start : Cluster} {n : Nat}
    (h : EndsAfter g fats m start n) (hstart : start < 0xFF8) :
    n = 1 ↔ 0xFF8 ≤ nextCluster g fats m start := by
  constructor
  · intro hn
    subst hn
    exact h.ended
  · intro hle
    have hpos := h.pos hstart
    by_cases h1 : 1 < n
    · exact absurd hle (BitVec.not_le.mpr (h.before 1 h1))
    · omega

/-- The first loop counts the clusters. By induction on the chain. -/
theorem countClusters_spec {disk : Disk} {fats : Word} (hfats : fats ≠ 0) {w : World} :
    ∀ (n : Nat) (start : Cluster) (size : Word) (fuel : Nat),
      EndsAfter disk.info fats w.mem start n → n < fuel →
      countClusters disk fats fuel start size w = some (size + BitVec.ofNat 32 n, w) := by
  intro n
  induction n with
  | zero =>
    intro start size fuel h hfuel
    obtain ⟨fuel, rfl⟩ : ∃ f, fuel = f + 1 := ⟨fuel - 1, by omega⟩
    have hend : ¬ start < 0xFF8 := BitVec.not_lt.mpr h.ended
    simp only [countClusters, if_neg hend, BitVec.add_zero]
  | succ n ih =>
    intro start size fuel h hfuel
    obtain ⟨fuel, rfl⟩ : ∃ f, fuel = f + 1 := ⟨fuel - 1, by omega⟩
    have hlive : start < 0xFF8 := h.before 0 (by omega)
    have hone : (1 : Word) = BitVec.ofNat 32 1 := rfl
    simp only [countClusters, if_pos hlive, fat12NextCluster_some hfats]
    rw [ih _ _ fuel h.tail (by omega), hone, add_add_ofNat, Nat.add_comm]

/-- The size of the block for a chain of so many clusters. -/
def Fat12.entrySize (g : Fat12) (clusters : Word) : Word :=
  clusters * g.sectorPerCluster.setWidth 32 * g.bytesPerSector.setWidth 32

theorem entrySize_eq (g : Fat12) (n : Nat) :
    g.entrySize (BitVec.ofNat 32 n) = BitVec.ofNat 32 (n * g.clusterBytes) := by
  rw [Fat12.entrySize, Fat12.clusterBytes, BitVec.ofNat_mul, BitVec.ofNat_mul, BitVec.ofNat_toNat,
    BitVec.ofNat_toNat, BitVec.mul_assoc]

/-- The read of the first cluster. -/
def readCluster (dr : DiskRead) (disk : Disk) (output : Word) (start : Cluster) (w : World) :
    BitVec 8 × World :=
  w.diskRead dr disk.id output (disk.info.sectorPerCluster.setWidth 16) (clusterToLba disk.info start)

/-- The call after the count of the clusters. -/
theorem fat12ReadEntry_counted {dr : DiskRead} {disk : Disk} {fats output pOutput clusters : Word}
    {start : Cluster} {fuel : Nat} {w w₁ : World} (hguard : ¬ (fats = 0 ∨ 0xFF8 ≤ start))
    (hcount : countClusters disk fats fuel start 0 w = some (clusters, w))
    (e : w.malloc (disk.info.entrySize clusters) = (output, w₁)) :
    fat12ReadEntry dr fuel pOutput (some disk) fats start w =
      if w₁.state.err ≠ .no then some (output, w₁)
      else if (readCluster dr disk output start w₁).1 ≠ 0 then
        ((readCluster dr disk output start w₁).2.free output).map fun w => (output, w.setErr .io)
      else some (output, (readCluster dr disk output start w₁).2) := by
  have hfats : fats ≠ 0 := fun h0 => hguard (.inl h0)
  have hoffset : output + (0 : BitVec 16).setWidth 32 = output := by
    rw [show (0 : BitVec 16).setWidth 32 = 0#32 from rfl, BitVec.add_zero]
  unfold Fat12.entrySize at e
  simp only [fat12ReadEntry, if_neg hguard, hcount, e, fat12ClusterToLba, hoffset,
    fat12NextCluster_some hfats]
  rfl

section

variable {disk : Disk} {fats : Word} {start : Cluster} {n : Nat} {w w₁ : World} {output : Word}
  (hfats : fats ≠ 0) (hstart : start < 0xFF8) (hend : EndsAfter disk.info fats w.mem start n)
  (he : w.malloc (BitVec.ofNat 32 (n * disk.info.clusterBytes)) = (output, w₁)) (hm : output ≠ 0)
include hfats hstart hend he hm

/-- What the call does: it takes a block of the right size, and reads the first cluster into it
unless `_err` is set. -/
theorem fat12ReadEntry_spec {content : Sectors} {dr : DiskRead}
    (hr : ReadsSectors disk.id disk.info.bytesPerSector.toNat content dr) {fuel : Nat}
    (hfuel : n < fuel) (pOutput : Word) :
    ∃ w', fat12ReadEntry dr fuel pOutput (some disk) fats start w = some (output, w') ∧
      w'.state = w₁.state ∧
      (w.state.err ≠ .no ∧ w'.mem = w.mem ∨
        w.state.err = .no ∧ w'.mem = (dr disk.id output (disk.info.sectorPerCluster.setWidth 16)
          (clusterToLba disk.info start) w₁).2.mem ∧ w'.reads = w.reads ++ [⟨disk.id, output,
            disk.info.sectorPerCluster.setWidth 16, clusterToLba disk.info start⟩]) := by
  have hguard : ¬ (fats = 0 ∨ 0xFF8 ≤ start) := by
    intro h
    cases h with
    | inl h0 => exact hfats h0
    | inr hle => exact BitVec.not_le.mpr hstart hle
  obtain ⟨-, herr, hmem, -⟩ := World.malloc_live he hm
  have hreads : w₁.reads = w.reads := by
    cases he
    rfl
  have hcount : countClusters disk fats fuel start 0 w = some (BitVec.ofNat 32 n, w) := by
    have h := countClusters_spec hfats n start 0 fuel hend hfuel
    rwa [show (0 : Word) = 0#32 from rfl, BitVec.zero_add] at h
  rw [← entrySize_eq] at he
  rw [fat12ReadEntry_counted hguard hcount he, herr]
  by_cases hno : w.state.err = .no
  · rw [if_neg (not_not.mpr hno)]
    simp only [readCluster, World.diskRead, hr.ok, ne_eq, not_true_eq_false, if_false]
    exact ⟨_, rfl, hr.state _ _ _ _, .inr ⟨hno, rfl, by rw [hreads]⟩⟩
  · rw [if_pos hno]
    exact ⟨w₁, rfl, rfl, .inl ⟨hno, hmem⟩⟩

/-- Without an error on record, a chain of one cluster is read whole. -/
theorem readWhole_of_one {content : Sectors} {dr : DiskRead}
    (hr : ReadsSectors disk.id disk.info.bytesPerSector.toNat content dr) (hno : w.state.err = .no)
    (hone : n = 1) {fuel : Nat} (hfuel : n < fuel) (pOutput : Word) :
    ∃ w', fat12ReadEntry dr fuel pOutput (some disk) fats start w = some (output, w') ∧
      ReadWhole disk.info content (chain disk.info fats w.mem start) n output w' := by
  obtain ⟨w', e, hstate, hmem⟩ := fat12ReadEntry_spec hfats hstart hend he hm hr hfuel pOutput
  have hmem' := (hmem.resolve_left fun h => h.1 hno).2.1
  obtain ⟨-, -, -, hlive⟩ := World.malloc_live he hm
  have hlt : disk.info.clusterBytes < 2 ^ 8 * 2 ^ 16 :=
    Nat.mul_lt_mul'' disk.info.sectorPerCluster.isLt disk.info.bytesPerSector.isLt
  subst hone
  refine ⟨w', e, ⟨⟨_, hstate ▸ hlive, rfl, ?_⟩, ?_⟩⟩
  · rw [BitVec.toNat_ofNat, Nat.one_mul, Nat.mod_eq_of_lt (by omega)]
  · intro k hk
    have hk0 : k = 0 := by omega
    have hholds := hr.holds output (disk.info.sectorPerCluster.setWidth 16)
      (clusterToLba disk.info start) w₁
    rw [← hmem', toNat_setWidth_of_le (by omega), Nat.mul_comm] at hholds
    subst hk0
    rw [Nat.zero_mul, BitVec.add_zero]
    exact hholds

/-- Otherwise some cluster of the block keeps its old first byte, whatever is on the disk. -/
theorem exists_stale_byte (hor : w.state.err ≠ .no ∨ 1 < n) :
    0 < disk.info.clusterBytes ∧ ∃ k < n, ∀ (content : Sectors) {fuel : Nat}, n < fuel →
      ∀ pOutput, ∃ w', fat12ReadEntry (idealRead disk.info.bytesPerSector.toNat content) fuel
          pOutput (some disk) fats start w = some (output, w') ∧
        w'.mem (output + BitVec.ofNat 32 (k * disk.info.clusterBytes)) =
          w.mem (output + BitVec.ofNat 32 (k * disk.info.clusterBytes)) := by
  obtain ⟨hne, -, hmem₁, -⟩ := World.malloc_live he hm
  have hn := hend.pos hstart
  have hpos : 0 < disk.info.clusterBytes := by
    apply Nat.pos_of_ne_zero
    intro h0
    rw [h0, Nat.mul_zero] at hne
    exact hne rfl
  have hlt : disk.info.clusterBytes < 2 ^ 8 * 2 ^ 16 :=
    Nat.mul_lt_mul'' disk.info.sectorPerCluster.isLt disk.info.bytesPerSector.isLt
  have hread := idealRead_readsSectors disk.id disk.info.bytesPerSector.isLt
  refine ⟨hpos, ?_⟩
  by_cases hno : w.state.err = .no
  · refine ⟨1, hor.resolve_left fun h => h hno, fun content fuel hfuel pOutput => ?_⟩
    obtain ⟨w', e, -, hmem⟩ := fat12ReadEntry_spec hfats hstart hend he hm (hread content) hfuel
      pOutput
    refine ⟨w', e, ?_⟩
    rw [(hmem.resolve_left fun h => h.1 hno).2.1, Nat.one_mul, ← hmem₁]
    apply Mem.fill_frame
    -- the first cluster ends right before the byte
    rw [inRange_add (by omega), toNat_setWidth_of_le (by omega), Nat.mul_comm]
    exact Nat.lt_irrefl _
  · refine ⟨0, hn, fun content fuel hfuel pOutput => ?_⟩
    obtain ⟨w', e, -, hmem⟩ := fat12ReadEntry_spec hfats hstart hend he hm (hread content) hfuel
      pOutput
    exact ⟨w', e, by rw [(hmem.resolve_right fun h => hno h.1).2]⟩

end

/-- The call returns with the chain read whole, whatever is on the disk and however `disk_read`
delivers it. -/
def ReadsChain (disk : Disk) (fats : Word) (start : Cluster) (n : Nat) (w : World) : Prop :=
  ∀ content dr, ReadsSectors disk.id disk.info.bytesPerSector.toNat content dr →
    ∀ fuel > n, ∀ pOutput, ∃ output w',
      fat12ReadEntry dr fuel pOutput (some disk) fats start w = some (output, w') ∧
        ReadWhole disk.info content (chain disk.info fats w.mem start) n output w'

section

variable {disk : Disk} {fats : Word} {start : Cluster} {n : Nat} {w : World} (hfats : fats ≠ 0)
  (hstart : start < 0xFF8) (hend : EndsAfter disk.info fats w.mem start n)
  (hm : (w.malloc (BitVec.ofNat 32 (n * disk.info.clusterBytes))).1 ≠ 0)
include hfats hstart hend hm

/-- A disk that differs from what was in the block shows that the chain is not read whole. -/
theorem not_readsChain (hor : w.state.err ≠ .no ∨ 1 < n) : ¬ ReadsChain disk fats start n w := by
  intro hall
  obtain ⟨output, w₁, he⟩ : ∃ output w₁,
      w.malloc (BitVec.ofNat 32 (n * disk.info.clusterBytes)) = (output, w₁) := ⟨_, _, rfl⟩
  rw [he] at hm
  obtain ⟨hpos, k, hk, hstale⟩ := exists_stale_byte hfats hstart hend he hm hor
  obtain ⟨b, hb⟩ : ∃ b, w.mem (output + BitVec.ofNat 32 (k * disk.info.clusterBytes)) = b := ⟨_, rfl⟩
  let content : Sectors := fun _ _ => b + 1
  obtain ⟨output', w', e, hw⟩ := hall content _
    (idealRead_readsSectors disk.id disk.info.bytesPerSector.isLt content) (n + 1) (by omega) 0
  obtain ⟨w'', e', hmem⟩ := hstale content (by omega : n < n + 1) 0
  rw [e] at e'
  cases e'
  have hbyte := hw.slices k hk 0 hpos
  rw [BitVec.add_zero, hmem, hb] at hbyte
  have hne : b ≠ b + 1 := by bv_omega
  exact hne hbyte

theorem fat12ReadEntry_whole_iff :
    ReadsChain disk fats start n w ↔
      w.state.err = .no ∧ 0xFF8 ≤ nextCluster disk.info fats w.mem start := by
  rw [← hend.one_iff hstart]
  constructor
  · intro hall
    by_cases hor : w.state.err ≠ .no ∨ 1 < n
    · exact absurd hall (not_readsChain hfats hstart hend hm hor)
    · have hpos := hend.pos hstart
      rw [not_or, not_not] at hor
      exact ⟨hor.1, by omega⟩
  · intro ⟨hno, hone⟩ content dr hr fuel hfuel pOutput
    obtain ⟨w', e, hw⟩ := readWhole_of_one hfats hstart hend rfl hm hr hno hone hfuel pOutput
    exact ⟨_, w', e, hw⟩

end

/-- A file of two clusters, 2 and 3, and one of a single cluster, 4. -/
def twoFiles : List (BitVec 12) := [0xFF0, 0xFFF, 0x003, 0xFFF, 0xFFF]

def twoFilesWorld : World := { World.init with mem := tableMem 0x00090000 twoFiles }

theorem endsAfter_single : EndsAfter floppy 0x00090000 twoFilesWorld.mem 4 1 :=
  ⟨by decide, by decide⟩

theorem endsAfter_two : EndsAfter floppy 0x00090000 twoFilesWorld.mem 2 2 :=
  ⟨by decide, by decide⟩

theorem twoFilesWorld_malloc {size : Nat} (hpos : 0 < size) (hle : size ≤ 0x000FFFFF) :
    (twoFilesWorld.malloc (BitVec.ofNat 32 size)).1 ≠ 0 :=
  (malloc_serves_iff (by decide) (by decide) (w := twoFilesWorld) World.init_inv hpos (by omega)).mpr
    (serves_init hle)

theorem fat12ReadEntry_whole_single : ReadsChain ⟨0, floppy⟩ 0x00090000 4 1 twoFilesWorld :=
  (@fat12ReadEntry_whole_iff ⟨0, floppy⟩ 0x00090000 4 1 twoFilesWorld (by decide) (by decide)
    endsAfter_single (twoFilesWorld_malloc (by decide) (by decide))).mpr ⟨rfl, by decide⟩

/-- The second cluster of the file is never read. -/
theorem fat12ReadEntry_second_cluster_stale :
    EndsAfter floppy 0x00090000 twoFilesWorld.mem 2 2 ∧ twoFilesWorld.state.err = .no ∧
      (twoFilesWorld.malloc (BitVec.ofNat 32 (2 * floppy.clusterBytes))).1 ≠ 0 ∧
      ¬ ReadsChain ⟨0, floppy⟩ 0x00090000 2 2 twoFilesWorld := by
  have hm : (twoFilesWorld.malloc (BitVec.ofNat 32 (2 * floppy.clusterBytes))).1 ≠ 0 :=
    twoFilesWorld_malloc (by decide) (by decide)
  refine ⟨endsAfter_two, rfl, hm, ?_⟩
  exact @not_readsChain ⟨0, floppy⟩ 0x00090000 2 2 twoFilesWorld (by decide) (by decide)
    endsAfter_two hm (.inr (by decide))

end Installer
end Amethyst
