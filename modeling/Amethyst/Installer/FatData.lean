import Amethyst.Installer.FatChain
import Amethyst.Installer.Live

/-!
# Amethyst.Installer.FatData

Where `fat12_cluster_to_lba` puts the clusters, and which of them `fat12_read_entry` asks for.

* `clusterRanges_exact`: the clusters from 2 on have sector ranges of their own, in order, in the data
  area, and no step of the formula overflows.
* `fat12ReadEntry_data_iff`: clusters 0 and 1 are in front of the data area, and are read when the
  chain that starts there has an end.
-/

namespace Amethyst
namespace Installer

open BitVec (toNat_setWidth_of_le)

/-! ## No overflow -/

/-- No step of `firstDataSector` overflows, and no `int` that becomes a `uint32_t` is negative: the
operations are on `int`s up to the last sum. -/
structure FirstDataExact (g : Fat12) : Prop where
  rootShifted : (g.maxRootEntryCount.setWidth 32).smulOverflow (32 : Word) = false
  bytesPred : (g.bytesPerSector.setWidth 32).ssubOverflow (1 : Word) = false
  rootRounded : g.rootShifted.saddOverflow (g.bytesPerSector.setWidth 32 - 1) = false
  rootDirSectors : g.rootRounded.msb = false ∧ g.rootDirSectors.msb = false
  fatProduct : (g.fatCount.setWidth 32 : Word).smulOverflow (g.sectorPerFat.setWidth 32) = false
  systemSectors : (g.reservedSectorCount.setWidth 32).saddOverflow g.fatProduct = false
  systemSectors_nonneg : g.systemSectors.msb = false
  firstDataSector : g.systemSectors.uaddOverflow g.rootDirSectors = false

/-- Nor does one of the steps after it. -/
structure LbaExact (g : Fat12) (cluster : Cluster) : Prop extends FirstDataExact g where
  clusterPred : (cluster.setWidth 32).ssubOverflow (2 : Word) = false
  clusterOffset : (cluster.setWidth 32 - 2).smulOverflow (g.sectorPerCluster.setWidth 32 : Word) = false
  clusterOffset_nonneg : (g.clusterOffset cluster).msb = false
  lba : (g.clusterOffset cluster).uaddOverflow (g.systemSectors + g.rootDirSectors) = false

section

variable {x y : Word}

theorem toInt_of_lt (hx : x.toNat < 2 ^ 31) : x.toInt = x.toNat := by
  rw [BitVec.toInt_eq_toNat_cond, if_pos (by omega)]

theorem msb_of_lt (hx : x.toNat < 2 ^ 31) : x.msb = false := by
  rw [BitVec.msb_eq_false_iff_two_mul_lt]
  omega

theorem saddOverflow_of_lt (h : x.toNat + y.toNat < 2 ^ 31) : x.saddOverflow y = false := by
  simp only [BitVec.saddOverflow, toInt_of_lt (by omega : x.toNat < 2 ^ 31),
    toInt_of_lt (by omega : y.toNat < 2 ^ 31)]
  simp
  omega

theorem ssubOverflow_of_le (hx : x.toNat < 2 ^ 31) (h : y.toNat ≤ x.toNat) :
    x.ssubOverflow y = false := by
  simp only [BitVec.ssubOverflow, toInt_of_lt hx, toInt_of_lt (by omega : y.toNat < 2 ^ 31)]
  simp
  omega

theorem smulOverflow_of_lt (hx : x.toNat < 2 ^ 31) (hy : y.toNat < 2 ^ 31)
    (h : x.toNat * y.toNat < 2 ^ 31) : x.smulOverflow y = false := by
  have hcast : x.toInt * y.toInt = ((x.toNat * y.toNat : Nat) : Int) := by
    rw [toInt_of_lt hx, toInt_of_lt hy, Int.natCast_mul]
  simp only [BitVec.smulOverflow, hcast]
  simp
  omega

theorem uaddOverflow_of_lt (h : x.toNat + y.toNat < 2 ^ 32) : x.uaddOverflow y = false := by
  simp only [BitVec.uaddOverflow]
  simp
  omega

end

/-! ## The first data sector -/

/-- A field that is narrower than an `int` keeps its value. -/
theorem widened_toNat {n : Nat} (hn : n ≤ 32) (x : BitVec n) : (x.setWidth 32 : Word).toNat = x.toNat :=
  toNat_setWidth_of_le hn

theorem firstDataExact (g : Fat12) (hbps : 0 < g.bytesPerSector.toNat) : FirstDataExact g := by
  have hF := g.fatSectors_lt
  have hR := g.reservedSectorCount.isLt
  have hm := g.rootBytes_lt
  have hb := g.bytesPerSector.isLt
  have hroot := g.rootSectors_lt
  constructor
  case rootShifted =>
    refine smulOverflow_of_lt ?_ (by decide) ?_
    · rw [widened_toNat (by decide)]
      have := g.maxRootEntryCount.isLt
      omega
    · rw [widened_toNat (by decide), show (32 : Word).toNat = 32 from rfl, Nat.mul_comm,
        ← Fat12.rootBytes]
      omega
  case bytesPred =>
    refine ssubOverflow_of_le ?_ ?_
    · rw [widened_toNat (by decide)]
      omega
    · rw [widened_toNat (by decide)]
      exact hbps
  case rootRounded =>
    refine saddOverflow_of_lt ?_
    rw [rootShifted_toNat, bytesPred_toNat g hbps]
    omega
  case rootDirSectors =>
    refine ⟨msb_of_lt ?_, msb_of_lt ?_⟩
    · rw [rootRounded_toNat g hbps]
      omega
    · rw [rootDirSectors_toNat g hbps]
      omega
  case fatProduct =>
    have := g.fatCount.isLt
    have := g.sectorPerFat.isLt
    refine smulOverflow_of_lt ?_ ?_ ?_
    all_goals rw [widened_toNat (by decide)]
    · omega
    · omega
    · rw [widened_toNat (by decide), ← Fat12.fatSectors]
      omega
  case systemSectors =>
    refine saddOverflow_of_lt ?_
    rw [widened_toNat (by decide), fatProduct_toNat]
    omega
  case systemSectors_nonneg =>
    refine msb_of_lt ?_
    rw [systemSectors_toNat]
    omega
  case firstDataSector =>
    refine uaddOverflow_of_lt ?_
    rw [systemSectors_toNat, rootDirSectors_toNat g hbps]
    omega

/-! ## The clusters from 2 on -/

section

variable (g : Fat12) {cluster : Cluster}

theorem clusterOffset_lt (hend : cluster < 0xFF8) :
    (cluster.toNat - 2) * g.sectorPerCluster.toNat < 2 ^ 20 := by
  have hlt : cluster.toNat < 0xFF8 := hend
  calc (cluster.toNat - 2) * g.sectorPerCluster.toNat < 2 ^ 12 * 2 ^ 8 :=
        Nat.mul_lt_mul'' (by omega) g.sectorPerCluster.isLt
    _ = 2 ^ 20 := by decide

variable (h2 : 2 ≤ cluster) (hend : cluster < 0xFF8)
include h2

theorem clusterPred_toNat : (cluster.setWidth 32 - 2 : Word).toNat = cluster.toNat - 2 := by
  have := toNat_setWidth_of_le (b := cluster) (by decide : 16 ≤ 32)
  bv_omega

include hend

theorem clusterOffset_toNat :
    (g.clusterOffset cluster).toNat = (cluster.toNat - 2) * g.sectorPerCluster.toNat := by
  have hlt := clusterOffset_lt g hend
  rw [Fat12.clusterOffset, BitVec.toNat_mul, clusterPred_toNat h2, toNat_setWidth_of_le (by omega),
    Nat.mod_eq_of_lt (by omega)]

variable (hbps : 0 < g.bytesPerSector.toNat)
include hbps

theorem clusterToLba_toNat : (clusterToLba g cluster).toNat =
    (cluster.toNat - 2) * g.sectorPerCluster.toNat + g.firstDataSector := by
  have hlt := clusterOffset_lt g hend
  have hfirst := g.firstDataSector_lt
  rw [clusterToLba_eq, toNat_setWidth_of_le (by omega), BitVec.toNat_add,
    clusterOffset_toNat g h2 hend, firstDataSector_toNat g hbps, Nat.mod_eq_of_lt (by omega)]

theorem lbaExact : LbaExact g cluster := by
  have hfirst := g.firstDataSector_lt
  have hoff := clusterOffset_lt g hend
  have hcluster := cluster.isLt
  constructor
  case toFirstDataExact => exact firstDataExact g hbps
  case clusterPred =>
    refine ssubOverflow_of_le ?_ ?_
    · rw [widened_toNat (by decide)]
      omega
    · rw [widened_toNat (by decide)]
      exact h2
  case clusterOffset =>
    have := g.sectorPerCluster.isLt
    refine smulOverflow_of_lt ?_ ?_ ?_
    · rw [clusterPred_toNat h2]
      omega
    · rw [widened_toNat (by decide)]
      omega
    · rw [clusterPred_toNat h2, widened_toNat (by decide)]
      omega
  case clusterOffset_nonneg =>
    refine msb_of_lt ?_
    rw [clusterOffset_toNat g h2 hend]
    omega
  case lba =>
    refine uaddOverflow_of_lt ?_
    rw [clusterOffset_toNat g h2 hend, firstDataSector_toNat g hbps]
    omega

end

/-- Two clusters from 2 on have ranges of their own, in order and in the data area, and the formula
is exact for both. -/
theorem clusterRanges_exact (disk : Disk) (w : World) (hbps : 0 < disk.info.bytesPerSector.toNat)
    {c d : Cluster} (h2 : 2 ≤ c) (hcd : c < d) (hend : d < 0xFF8) :
    (fat12ClusterToLba (some disk) c w).1.toNat + disk.info.sectorPerCluster.toNat ≤
        (fat12ClusterToLba (some disk) d w).1.toNat ∧
      disk.info.firstDataSector ≤ (fat12ClusterToLba (some disk) c w).1.toNat ∧
      disk.info.firstDataSector ≤ (fat12ClusterToLba (some disk) d w).1.toNat ∧
      LbaExact disk.info c ∧ LbaExact disk.info d := by
  have hc2 : 2 ≤ c.toNat := h2
  have hlt : c.toNat < d.toNat := hcd
  have hcend : c < 0xFF8 := BitVec.lt_trans hcd hend
  have hd2 : 2 ≤ d := Nat.le_trans hc2 (Nat.le_of_lt hlt)
  have hstep : (c.toNat - 2) * disk.info.sectorPerCluster.toNat + disk.info.sectorPerCluster.toNat ≤
      (d.toNat - 2) * disk.info.sectorPerCluster.toNat := by
    rw [← Nat.succ_mul]
    exact Nat.mul_le_mul_right _ (by omega)
  simp only [fat12ClusterToLba, clusterToLba_toNat disk.info h2 hcend hbps,
    clusterToLba_toNat disk.info hd2 hend hbps]
  refine ⟨by omega, by omega, by omega, ?_, ?_⟩
  · exact lbaExact disk.info h2 hcend hbps
  · exact lbaExact disk.info hd2 hend hbps

theorem clusterRanges_exact_floppy :
    (fat12ClusterToLba (some ⟨0, floppy⟩) 2 World.init).1.toNat + 1 ≤
        (fat12ClusterToLba (some ⟨0, floppy⟩) 3 World.init).1.toNat ∧
      floppy.firstDataSector ≤ (fat12ClusterToLba (some ⟨0, floppy⟩) 2 World.init).1.toNat ∧
      floppy.firstDataSector ≤ (fat12ClusterToLba (some ⟨0, floppy⟩) 3 World.init).1.toNat ∧
      LbaExact floppy 2 ∧ LbaExact floppy 3 :=
  clusterRanges_exact ⟨0, floppy⟩ World.init (by decide) (by decide) (by decide) (by decide)

/-! ## The clusters before 2 -/

/-- The distance of the cluster from cluster 2, in sectors. -/
def Fat12.sectorsBefore (g : Fat12) (cluster : Cluster) : Nat :=
  (2 - cluster.toNat) * g.sectorPerCluster.toNat

/-- The call comes to its `disk_read`: `_err` is clear, the chain has an end, and the heap has room
for it. -/
def Issues (disk : Disk) (fats : Word) (start : Cluster) (w : World) : Prop :=
  w.state.err = .no ∧ 0 < disk.info.sectorPerCluster.toNat ∧
    ∃ n, EndsAfter disk.info fats w.mem start n ∧ Serves w (n * disk.info.clusterBytes)

/-- The call asks for no sector range that starts in front of the data area. -/
def ReadsData (disk : Disk) (fats : Word) (start : Cluster) (w : World) : Prop :=
  ∀ dr fuel pOutput output w',
    fat12ReadEntry dr fuel pOutput (some disk) fats start w = some (output, w') →
      ∃ rs, w'.reads = w.reads ++ rs ∧ ∀ r ∈ rs, disk.info.firstDataSector ≤ r.lba.toNat

/-- The `uint32_t` sum goes below the data area, or wraps round to the end of the numbers. -/
theorem clusterToLba_before {g : Fat12} (hbps : 0 < g.bytesPerSector.toNat) {cluster : Cluster}
    (h2 : ¬ 2 ≤ cluster) :
    (clusterToLba g cluster).toNat + g.sectorsBefore cluster =
      if g.firstDataSector < g.sectorsBefore cluster then 2 ^ 32 + g.firstDataSector
      else g.firstDataSector := by
  have hlt : cluster.toNat < 2 := Nat.not_le.mp h2
  have hfirst := g.firstDataSector_lt
  have hspc := g.sectorPerCluster.isLt
  obtain ⟨k, hk⟩ : ∃ k, g.sectorsBefore cluster = k := ⟨_, rfl⟩
  have hklt : k < 2 ^ 10 := by
    rw [← hk, Fat12.sectorsBefore]
    calc (2 - cluster.toNat) * g.sectorPerCluster.toNat < 4 * 2 ^ 8 :=
          Nat.mul_lt_mul'' (by omega) hspc
      _ = 2 ^ 10 := by decide
  have hpred : (cluster.setWidth 32 - 2 : Word) = -BitVec.ofNat 32 (2 - cluster.toNat) := by
    have := toNat_setWidth_of_le (b := cluster) (by decide : 16 ≤ 32)
    bv_omega
  have hoff : g.clusterOffset cluster = -BitVec.ofNat 32 k := by
    have hwidth : (g.sectorPerCluster.setWidth 32 : Word) =
        BitVec.ofNat 32 g.sectorPerCluster.toNat := (BitVec.ofNat_toNat _ _).symm
    rw [Fat12.clusterOffset, hpred, hwidth, BitVec.neg_mul, ← BitVec.ofNat_mul, ← hk,
      Fat12.sectorsBefore]
  have hdata := firstDataSector_toNat g hbps
  rw [clusterToLba_eq, hoff, toNat_setWidth_of_le (by omega), hk]
  split
  · bv_omega
  · bv_omega

section

variable {lo hi : Nat} (hlo : 0 < lo) (hhi : hi < 2 ^ 32) {disk : Disk} {fats : Word}
  {start : Cluster} {w : World} (hinv : w.state.heap.Inv lo hi)
  (hbps : 0 < disk.info.bytesPerSector.toNat) (hstart : start < 0xFF8)

theorem EndsAfter.bytes_lt {n : Nat} (hend : EndsAfter disk.info fats w.mem start n) :
    n * disk.info.clusterBytes < 2 ^ 32 := by
  have hle : n ≤ longestChain := hend.le_longestChain
  have hlt : disk.info.clusterBytes < 2 ^ 8 * 2 ^ 16 :=
    Nat.mul_lt_mul'' disk.info.sectorPerCluster.isLt disk.info.bytesPerSector.isLt
  calc n * disk.info.clusterBytes ≤ longestChain * 2 ^ 24 := Nat.mul_le_mul hle (by omega)
    _ < 2 ^ 32 := by decide

include hlo hhi hinv

/-- A `malloc` that leaves `_err` clear has returned a block. -/
theorem malloc_ne_zero_of_no {size : Word} (h : (w.malloc size).2.state.err = .no) :
    (w.malloc size).1 ≠ 0 ∧ w.state.err = .no := by
  rcases World.malloc_spec hlo hhi hinv size with ⟨w', e, hr⟩ | ⟨ptr, w', e, hg⟩
  · rw [e] at h
    exact absurd h hr.err
  · rw [e] at h ⊢
    exact ⟨hg.ne_zero, hg.err.symm.trans h⟩

include hbps hstart

theorem malloc_chain_iff {n : Nat} (hend : EndsAfter disk.info fats w.mem start n) :
    (w.malloc (BitVec.ofNat 32 (n * disk.info.clusterBytes))).1 ≠ 0 ↔
      0 < disk.info.sectorPerCluster.toNat ∧ Serves w (n * disk.info.clusterBytes) := by
  have hn := hend.pos hstart
  by_cases hspc : 0 < disk.info.sectorPerCluster.toNat
  · have hpos : 0 < n * disk.info.clusterBytes := Nat.mul_pos hn (Nat.mul_pos hspc hbps)
    rw [malloc_serves_iff hlo hhi hinv hpos hend.bytes_lt, and_iff_right hspc]
  · have hzero : n * disk.info.clusterBytes = 0 := by
      rw [Fat12.clusterBytes, Nat.eq_zero_of_not_pos hspc, Nat.zero_mul, Nat.mul_zero]
    rw [hzero]
    exact iff_of_false (not_not.mpr (malloc_zero w)) fun h => hspc h.1

/-- The reads of a call: none, or the first cluster where the call comes to its `disk_read`. -/
theorem fat12ReadEntry_requests {dr : DiskRead} {fuel : Nat} {pOutput output : Word} {w' : World}
    (h : fat12ReadEntry dr fuel pOutput (some disk) fats start w = some (output, w')) :
    w'.reads = w.reads ∨ Issues disk fats start w ∧ ∃ ptr, w'.reads = w.reads ++
      [⟨disk.id, ptr, disk.info.sectorPerCluster.setWidth 16, clusterToLba disk.info start⟩] := by
  rcases fat12ReadEntry_request h with he | ⟨n, ptr, hend, herr, he⟩
  · exact .inl he
  · obtain ⟨hne, hno⟩ := malloc_ne_zero_of_no hlo hhi hinv herr
    obtain ⟨hspc, hserves⟩ := (malloc_chain_iff hlo hhi hinv hbps hstart hend).mp hne
    exact .inr ⟨⟨hno, hspc, n, hend, hserves⟩, ptr, he⟩

variable (hfats : fats ≠ 0)
include hfats

/-- The call does come to it, with a `disk_read` that succeeds. -/
theorem Issues.request (h : Issues disk fats start w) :
    ∃ dr fuel pOutput output w',
      fat12ReadEntry dr fuel pOutput (some disk) fats start w = some (output, w') ∧
        w'.reads = w.reads ++ [⟨disk.id, output, disk.info.sectorPerCluster.setWidth 16,
          clusterToLba disk.info start⟩] := by
  obtain ⟨hno, hspc, n, hend, hserves⟩ := h
  have hm := (malloc_chain_iff hlo hhi hinv hbps hstart hend).mpr ⟨hspc, hserves⟩
  obtain ⟨w', e, -, hout⟩ := fat12ReadEntry_spec hfats hstart hend rfl hm
    (idealRead_readsSectors disk.id disk.info.bytesPerSector.isLt fun _ _ => 0) (Nat.lt_succ_self n) 0
  exact ⟨_, _, _, _, w', e, (hout.resolve_left fun h => h.1 hno).2.2⟩

/-- The reads stay in the data area exactly when the call starts at cluster 2 or later, when the sum
wraps round, or when the call comes to no read. -/
theorem fat12ReadEntry_data_iff : ReadsData disk fats start w ↔
    2 ≤ start ∨ disk.info.firstDataSector < disk.info.sectorsBefore start ∨
      ¬ Issues disk fats start w := by
  constructor
  · intro h
    by_contra hno
    simp only [not_or, not_not, Nat.not_lt] at hno
    obtain ⟨h2, hle, hissues⟩ := hno
    obtain ⟨dr, fuel, pOutput, output, w', e, hreads⟩ :=
      hissues.request hlo hhi hinv hbps hstart hfats
    obtain ⟨rs, hrs, hdata⟩ := h dr fuel pOutput output w' e
    rw [hreads, List.append_cancel_left_eq] at hrs
    subst hrs
    have hlba := clusterToLba_before hbps h2
    rw [if_neg (Nat.not_lt.mpr hle)] at hlba
    have hbefore : 0 < disk.info.sectorsBefore start :=
      Nat.mul_pos (Nat.sub_pos_of_lt (Nat.not_le.mp h2)) hissues.2.1
    have := hdata _ (List.mem_singleton_self _)
    simp only at this
    omega
  · intro h dr fuel pOutput output w' e
    rcases fat12ReadEntry_requests hlo hhi hinv hbps hstart e with he | ⟨hissues, ptr, he⟩
    · exact ⟨[], by rw [he, List.append_nil], by simp⟩
    · refine ⟨_, he, fun r hr => ?_⟩
      rw [List.mem_singleton.mp hr]
      rcases h with h2 | hwrap | hnot
      · rw [clusterToLba_toNat disk.info h2 hstart hbps]
        exact Nat.le_add_left _ _
      · by_cases h2 : 2 ≤ start
        · rw [clusterToLba_toNat disk.info h2 hstart hbps]
          exact Nat.le_add_left _ _
        · have hlba := clusterToLba_before hbps h2
          rw [if_pos hwrap] at hlba
          have hk : disk.info.sectorsBefore start ≤ 2 * 2 ^ 8 :=
            Nat.mul_le_mul (Nat.sub_le _ _) (Nat.le_of_lt disk.info.sectorPerCluster.isLt)
          simp only
          omega
      · exact absurd hissues hnot

end

/-- A FAT whose entry 0 holds the media byte 0xF9, a file of one cluster behind it. -/
def mediaWorld : World := { World.init with mem := tableMem 0x00090000 [0xFF9, 0xFFF, 0xFFF] }

theorem issues_media : Issues ⟨0, floppy⟩ 0x00090000 0 mediaWorld :=
  ⟨rfl, by decide, 1, ⟨by decide, by decide⟩, serves_init (by decide)⟩

theorem fat12ReadEntry_data_two : ReadsData ⟨0, floppy⟩ 0x00090000 2 mediaWorld :=
  (@fat12ReadEntry_data_iff 0x00100000 0x001FFFFF (by decide) (by decide) ⟨0, floppy⟩ 0x00090000 2
    mediaWorld World.init_inv (by decide) (by decide) (by decide)).mpr (.inl (by decide))

/-- A file whose first cluster is 0 is read from sector 31, in the root directory. -/
theorem fat12ReadEntry_zero_in_root :
    floppy.firstDataSector = 33 ∧ (clusterToLba floppy 0).toNat = 31 ∧
      ¬ ReadsData ⟨0, floppy⟩ 0x00090000 0 mediaWorld := by
  refine ⟨by decide, by decide, fun h => ?_⟩
  obtain ⟨dr, fuel, pOutput, output, w', e, hreads⟩ := @Issues.request 0x00100000 0x001FFFFF
    (by decide) (by decide) ⟨0, floppy⟩ 0x00090000 0 mediaWorld World.init_inv (by decide) (by decide)
    (by decide) issues_media
  obtain ⟨rs, hrs, hdata⟩ := h dr fuel pOutput output w' e
  rw [hreads, List.append_cancel_left_eq] at hrs
  subst hrs
  have hlt : (clusterToLba floppy 0).toNat < floppy.firstDataSector := by decide
  exact Nat.not_le.mpr hlt (hdata _ (List.mem_singleton_self _))

end Installer
end Amethyst
