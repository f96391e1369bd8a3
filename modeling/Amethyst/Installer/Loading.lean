import Amethyst.HeapStack
import Amethyst.Installer.FatData
import Amethyst.Installer.VolumeSlot

/-!
# Amethyst.Installer.Loading

Blocks that are taken at the top of a stacked heap and read to. `disk_read` is right for the first eight
sectors of a transfer to the heap, and what it writes too much lies behind the target
(`diskRead_readsUp`). On a stacked heap nothing lives there: `loads` is the rule for a `malloc` and the
`disk_read` to the block.

`fat12ReadFats_loads`, `fat12ReadRootDirectory_loads` and `fat12ReadEntry_loads`: the three functions that
do so, on a volume of the standard format.
-/

namespace Amethyst
namespace Installer

/-! ## Reads that write upwards -/

/-- A read has succeeded, has delivered the first `sure` bytes of the sectors, and has written nothing
between `lo` and its target. -/
structure ReadUp (lo sure size : Nat) (content : Sectors) (ptr : Word) (count : BitVec 16)
    (lba : BitVec 64) (w : World) (r : BitVec 8 × World) : Prop where
  ok : r.1 = 0
  state : r.2.state = w.state
  holds : r.2.mem.Holds ptr (min (size * count.toNat) sure) (content.byte size lba)
  below : ∀ x : Word, lo ≤ x.toNat → x.toNat < ptr.toNat → r.2.mem x = w.mem x

/-- `disk_read` does so for each transfer to the heap `[lo, hi)`. -/
def ReadsUp (lo hi sure : Nat) (drive : BitVec 8) (size : Nat) (content : Sectors) (dr : DiskRead) :
    Prop :=
  ∀ (ptr : Word) count lba w, lo ≤ ptr.toNat → ptr.toNat + size * count.toNat ≤ hi →
    ReadUp lo sure size content ptr count lba w (dr drive ptr count lba w)

/-- The one of `disk.c` is right for a page. -/
theorem diskRead_readsUp {lo hi : Nat} (hlo : 0x10000 ≤ lo) (hhi : hi + 2 ^ 26 ≤ 2 ^ 32)
    {drive : BitVec 8} {content : Sectors} {bios : Bios} (hb : Delivers drive content bios) :
    ReadsUp lo hi 4096 drive 512 content (diskRead bios) := by
  intro ptr count lba w hptr hend
  have hc := count.isLt
  have hhigh : High ptr := by
    unfold High
    omega
  have hd : ¬ Direct ptr count := by
    rw [direct_iff (by omega)]
    omega
  obtain ⟨n, hn⟩ : ∃ n, count.toNat / 8 = n := ⟨_, rfl⟩
  obtain ⟨k, hk⟩ : ∃ k, count.toNat % 8 = k := ⟨_, rfl⟩
  have hlast : (ptr + BitVec.ofNat 32 (4096 * n)).toNat = ptr.toNat + 4096 * n := toNat_add_ofNat (by omega)
  obtain ⟨w₁, e1, hpages, hst, hfr⟩ := readPages_spec hb n ptr lba w hhigh (by omega)
  obtain ⟨w₂, w₃, e2, e3, hpage, hst', hfr'⟩ := page_spec hb (n := k * 4096) (k := k) (by omega)
    (by omega) (by omega) (hhigh.add (i := 4096 * n) (by omega)) (by omega)
    (lba + BitVec.ofNat 64 (4 * n)) w₁
  have hrun : diskRead bios drive ptr count lba w = (0, w₃) := by
    simp only [diskRead, if_neg hd, bufferPgSize_eq, bufferSize_eq, hn, hk, e1, e2, e3]
    rfl
  rw [hrun]
  refine ⟨rfl, hst'.trans hst, ?_, fun x h1 h2 => ?_⟩
  · by_cases hzero : n = 0
    · -- less than a page
      simp only [hzero, Nat.mul_zero, BitVec.add_zero] at hpage
      intro i hi
      exact hpage i (by omega)
    · have hfirst := hpages 0 (by omega)
      simp only [Nat.mul_zero, BitVec.add_zero] at hfirst
      intro i hi
      rw [hfr' _ (not_inRange_of_lt (by omega) (by omega)) (hhigh.add (by omega)).not_inRange]
      exact hfirst i (by omega)
  · have hx : ¬ InRange buffer 4096 x := by
      refine High.not_inRange ?_
      unfold High
      omega
    rw [hfr' x _ hx, hfr x _ hx]
    · rw [inRange_iff (by omega)]
      omega
    · rw [inRange_iff (by omega)]
      omega

/-! ## A block that is read to -/

/-- A block of `size` bytes has been taken at the top, and its first `n` bytes are read. -/
structure Loaded (lo hi top : Nat) (size : Word) (n : Nat) (f : Nat → Byte) (w w' : World) : Prop where
  stacked : w'.state.heap.Stacked lo hi (top + size.toNat)
  live : w'.live = insert ⟨BitVec.ofNat 32 top, size⟩ w.live
  err : w'.state.err = .no
  holds : w'.mem.Holds (BitVec.ofNat 32 top) n f
  below : ∀ x : Word, lo ≤ x.toNat → x.toNat < top → w'.mem x = w.mem x

section

variable {lo hi top : Nat} (hlo : 0 < lo) (hhi : hi < 2 ^ 32) {w : World}
  (hs : w.state.heap.Stacked lo hi top)
include hlo hhi hs

omit hlo hs in
theorem top_toNat (hfit : top ≤ hi) : (BitVec.ofNat 32 top).toNat = top := by
  rw [BitVec.toNat_ofNat, Nat.mod_eq_of_lt (by omega)]

theorem top_ne_zero (hfit : top ≤ hi) : BitVec.ofNat 32 top ≠ 0 := by
  intro h0
  have htop := top_toNat hhi hfit
  have hbottom := hs.bottom
  rw [h0] at htop
  simp at htop
  omega

theorem World.malloc_stacked {size : Word} (hsize : size ≠ 0) (hfit : top + size.toNat ≤ hi)
    (hslots : w.live.ncard < chunkQty) :
    ∃ w₁, w.malloc size = (BitVec.ofNat 32 top, w₁) ∧
      w₁.state.heap.Stacked lo hi (top + size.toNat) ∧
      w₁.live = insert ⟨BitVec.ofNat 32 top, size⟩ w.live ∧ w₁.state.err = w.state.err ∧
      w₁.mem = w.mem := by
  obtain ⟨h', e, hstacked, hlive⟩ := hs.malloc hlo hhi hsize hfit hslots
  refine ⟨{ w with state := ⟨h', w.state.err⟩ }, ?_, hstacked, hlive, rfl, rfl⟩
  simp only [World.malloc, Installer.malloc, e]

/-- A block that is taken from the top of the heap. -/
theorem granted_top (hle : top ≤ hi) {size : Word} {w₁ : World} (e : w.malloc size = (BitVec.ofNat 32 top, w₁)) :
    Granted lo hi w ⟨BitVec.ofNat 32 top, size⟩ w₁ := by
  rcases World.malloc_spec hlo hhi hs.toWhole.toInv size with ⟨_, e', -⟩ | ⟨ptr, _, e', hg⟩
  · exact absurd (congrArg Prod.fst (e.symm.trans e')) (top_ne_zero hlo hhi hs hle)
  · obtain ⟨rfl, rfl⟩ := Prod.mk.inj (e.symm.trans e')
    exact hg

variable {sure size : Nat} {drive : BitVec 8} {content : Sectors} {dr : DiskRead}
  (hr : ReadsUp lo hi sure drive size content dr) (hno : w.state.err = .no)
  (hslots : w.live.ncard < chunkQty)
include hr hno hslots

theorem loads {bytes : Word} {count : BitVec 16} (hbytes : bytes.toNat = size * count.toNat)
    (hne : bytes ≠ 0) (hfit : top + bytes.toNat ≤ hi) (lba : BitVec 64) :
    ∃ w₁ w₂, w.malloc bytes = (BitVec.ofNat 32 top, w₁) ∧ w₁.state.err = .no ∧
      w₁.diskRead dr drive (BitVec.ofNat 32 top) count lba = (0, w₂) ∧
      Loaded lo hi top bytes (min bytes.toNat sure) (content.byte size lba) w w₂ := by
  obtain ⟨w₁, e, hstacked, hlive, herr, hmem⟩ := World.malloc_stacked hlo hhi hs hne hfit hslots
  have htop : (BitVec.ofNat 32 top).toNat = top := top_toNat hhi (by omega)
  have hbottom := hs.bottom
  have hread := hr (BitVec.ofNat 32 top) count lba w₁ (by omega) (by omega)
  obtain ⟨⟨status, w₂⟩, e₂⟩ : ∃ r, dr drive (BitVec.ofNat 32 top) count lba w₁ = r := ⟨_, rfl⟩
  rw [e₂] at hread
  have hok : status = 0 := hread.ok
  have hstate : w₂.state = w₁.state := hread.state
  subst hok
  have hrun : w₁.diskRead dr drive (BitVec.ofNat 32 top) count lba =
      (0, { w₂ with reads := w₁.reads ++ [⟨drive, BitVec.ofNat 32 top, count, lba⟩] }) := by
    simp only [World.diskRead, e₂]
  refine ⟨w₁, _, e, herr.trans hno, hrun, ?_, ?_, ?_, ?_, fun x h1 h2 => ?_⟩
  · rw [hstate]
    exact hstacked
  · exact (World.live_of_state hstate).trans hlive
  · rw [hstate, herr, hno]
  · rw [hbytes]
    exact hread.holds
  · rw [hread.below x h1 (by omega), hmem]

end

/-- The last block is given back. -/
theorem World.free_top {lo hi top : Nat} (hlo : 0 < lo) (hhi : hi < 2 ^ 32) {w : World} {c : Chunk}
    (hs : w.state.heap.Stacked lo hi (top + c.size.toNat)) (hc : c ∈ w.live) (hstart : c.start.toNat = top) :
    ∃ w', w.free c.start = some w' ∧ w'.state.heap.Stacked lo hi top ∧ w'.live = w.live \ {c} ∧
      w'.state.err = w.state.err ∧ w'.mem = w.mem := by
  obtain ⟨w', e, hf, hw, herr⟩ := World.free_of_whole hlo hhi hs.toWhole hc
  exact ⟨w', e, hs.pop hlo hhi hw hc hstart hf.live, hf.live, herr, hf.mem⟩

/-! ## The regions of a volume -/

/-- The format of a floppy disk: the two regions that the code looks for at fixed sectors are there, the
root directory is of whole sectors, and a cluster is read right. -/
structure Volume.Standard (v : Volume) (sure : Nat) : Prop where
  reserved : v.format.reservedSectorCount = 1
  fats : v.format.fatSectors = 18
  bytes : v.format.bytesPerSector = 512
  sector : 512 ≤ sure
  root : v.format.maxRootEntryCount ≠ 0
  whole : v.format.bytesPerSector.toNat ∣ v.format.rootBytes
  cluster : 0 < v.format.sectorPerCluster.toNat
  clusterSure : v.format.clusterBytes ≤ sure

/-- No division by the field is stopped. -/
theorem Volume.Standard.field_ne_zero {v : Volume} {sure : Nat} (hv : v.Standard sure) {drive : BitVec 8}
    {disk : DiskT} (h : disk.fat12 = ⟨drive, v.format⟩) : disk.info.bytesPerSector ≠ 0 := by
  have hfield : disk.info.bytesPerSector = 512 := (congrArg (·.info.bytesPerSector) h).trans hv.bytes
  rw [hfield]
  decide

/-- What `disk` points to is in memory in front of `top`. -/
def HoldsDisk (lo top : Nat) (d : Disk) (disk : DiskPtr) (w : World) : Prop :=
  ∀ m : Mem 32, (∀ x : Word, lo ≤ x.toNat → x.toNat < top → m x = w.mem x) → (disk m).fat12 = d

theorem HoldsDisk.here {lo top : Nat} {d : Disk} {disk : DiskPtr} {w : World}
    (h : HoldsDisk lo top d disk w) : (disk w.mem).fat12 = d :=
  h _ fun _ _ _ => rfl

theorem HoldsDisk.congr {lo top : Nat} {d : Disk} {disk : DiskPtr} {w w' : World}
    (h : HoldsDisk lo top d disk w)
    (hw : ∀ x : Word, lo ≤ x.toNat → x.toNat < top → w'.mem x = w.mem x) : HoldsDisk lo top d disk w' :=
  fun m hm => h m fun x h1 h2 => (hm x h1 h2).trans (hw x h1 h2)

section

variable (g : Fat12)

theorem fatsBytes_toNat (hlt : g.fatSectors < 2 ^ 16) :
    (g.bytesPerSector.setWidth 32 * g.sectorPerFat.setWidth 32 * g.fatCount.setWidth 32 : Word).toNat =
      g.bytesPerSector.toNat * g.fatSectors := by
  have hb := g.bytesPerSector.isLt
  have hbytes : g.bytesPerSector.toNat * g.fatSectors < 2 ^ 16 * 2 ^ 16 := Nat.mul_lt_mul'' hb hlt
  rw [BitVec.mul_assoc, BitVec.toNat_mul, fatSectors_toNat, BitVec.toNat_setWidth_of_le (by omega),
    Nat.mod_eq_of_lt (by omega)]

theorem rootSectors_setWidth :
    ((32 * g.maxRootEntryCount.setWidth 32 / g.bytesPerSector.setWidth 32 : Word).setWidth 64 :
      BitVec 64).toNat = g.wholeRootSectors := by
  rw [BitVec.toNat_setWidth_of_le (by omega), rootdirSize_toNat]

theorem rootSize_toNat (hwhole : g.bytesPerSector.toNat ∣ g.rootBytes) :
    (((32 * g.maxRootEntryCount.setWidth 32 / g.bytesPerSector.setWidth 32 : Word).setWidth 64 *
      g.bytesPerSector.setWidth 64 : BitVec 64).setWidth 32 : Word).toNat = g.rootBytes := by
  have hb := g.rootBytes_lt
  rw [BitVec.toNat_setWidth, BitVec.toNat_mul, rootSectors_setWidth, BitVec.toNat_setWidth_of_le (by omega),
    Fat12.wholeRootSectors, Nat.div_mul_cancel hwhole, Nat.mod_eq_of_lt (by omega : _ < 2 ^ 64),
    Nat.mod_eq_of_lt (by omega)]

end

section

variable {lo hi top sure : Nat} (hlo : 0 < lo) (hhi : hi < 2 ^ 32) {w : World}
  (hs : w.state.heap.Stacked lo hi top) (hno : w.state.err = .no) (hslots : w.live.ncard < chunkQty)
  {v : Volume} (hv : v.Standard sure) {drive : BitVec 8} {dr : DiskRead}
  (hr : ReadsUp lo hi sure drive 512 v.content dr)
include hlo hhi hs hno hslots hv hr

theorem fat12ReadFats_loads (hfit : top + 512 * 18 ≤ hi) :
    ∃ size w', size.toNat = 512 * 18 ∧
      fat12ReadFats dr (some ⟨drive, v.format⟩) w = (BitVec.ofNat 32 top, w') ∧
      Loaded lo hi top size (min (512 * 18) sure) v.fatByte w w' := by
  have hbps : v.format.bytesPerSector.toNat = 512 := by rw [hv.bytes]; rfl
  have hsize := fatsBytes_toNat v.format (by rw [hv.fats]; decide)
  rw [hbps, hv.fats] at hsize
  have hcount : ((v.format.sectorPerFat.setWidth 32 * v.format.fatCount.setWidth 32 : Word).setWidth 16 :
      BitVec 16).toNat = 18 := by
    rw [BitVec.toNat_setWidth, fatSectors_toNat, hv.fats]
  have hlba : v.fatByte = v.content.byte 512 1 := by
    rw [Volume.fatByte, Volume.region, hbps, hv.reserved]
    rfl
  obtain ⟨w₁, w₂, e₁, -, e₂, hload⟩ := loads hlo hhi hs hr hno hslots (by rw [hsize, hcount])
    (fun h0 => by rw [h0] at hsize; exact absurd hsize (by decide)) (by omega) 1
  have hptr := top_ne_zero hlo hhi hs (show top ≤ hi by omega)
  refine ⟨_, w₂, hsize, ?_, ?_⟩
  · simp only [fat12ReadFats, e₁, if_neg hptr, e₂]
  · rw [hlba, ← hsize]
    exact hload

theorem fat12ReadRootDirectory_loads {disk : DiskPtr} (hdisk : (disk w.mem).fat12 = ⟨drive, v.format⟩)
    (garbage : Word) (hfit : top + v.format.rootBytes ≤ hi) :
    ∃ size w', size.toNat = v.format.rootBytes ∧
      disk.fat12ReadRootDirectory dr garbage w = some (some (BitVec.ofNat 32 top), w') ∧
      Loaded lo hi top size (min v.format.rootBytes sure) v.root.byte w w' := by
  have hbps : v.format.bytesPerSector.toNat = 512 := by rw [hv.bytes]; rfl
  have hsize := rootSize_toNat v.format hv.whole
  have hlt := v.format.rootBytes_lt
  have hpos : 0 < v.format.rootBytes := by
    refine Nat.mul_pos (by decide) (Nat.pos_of_ne_zero fun h0 => hv.root ?_)
    exact BitVec.eq_of_toNat_eq h0
  have hsectors : v.format.wholeRootSectors * 512 = v.format.rootBytes := by
    have hwhole := hv.whole
    rw [hbps] at hwhole
    rw [Fat12.wholeRootSectors, hbps, Nat.div_mul_cancel hwhole]
  have hcount : (((32 * v.format.maxRootEntryCount.setWidth 32 / v.format.bytesPerSector.setWidth 32 :
      Word).setWidth 64 : BitVec 64).setWidth 16 : BitVec 16).toNat = v.format.wholeRootSectors := by
    rw [BitVec.toNat_setWidth, rootSectors_setWidth, Nat.mod_eq_of_lt (by omega)]
  have hlba : v.root.byte = v.content.byte 512 0x13 := by
    rw [Volume.root, Volume.region, hbps, hv.reserved, hv.fats]
    rfl
  obtain ⟨w₁, w₂, e₁, -, e₂, hload⟩ := loads hlo hhi hs hr hno hslots
    (by rw [hsize, hcount, Nat.mul_comm, hsectors])
    (fun h0 => by rw [h0] at hsize; simp at hsize; omega) (by omega) 0x13
  refine ⟨_, w₂, hsize, ?_, ?_⟩
  · have hptr := top_ne_zero hlo hhi hs (show top ≤ hi by omega)
    have hlba' : ∀ x : BitVec 64, x * 0 + 0x13 = 0x13 := by
      intro x
      simp
    rw [DiskPtr.fat12ReadRootDirectory_ok (hv.field_ne_zero hdisk), hdisk]
    simp only [fat12ReadRootDirectory, e₁, if_neg hptr, hlba', e₂, hload.err, ne_eq, not_true_eq_false,
      if_false]
  · rw [hlba, ← hsize]
    exact hload

/-! ## A cluster -/

omit hlo hhi hs hno hslots hr in
/-- The byte that is loaded for the entry has the half of it that tells an end mark. -/
theorem Volume.Single.next {c : Cluster} (hc : v.Single c) {fats : Word} {m : Mem 32} {n : Nat}
    (hfats : m.Holds fats n v.fatByte) (hn : 512 ≤ n) : 0xFF8 ≤ nextCluster v.format fats m c := by
  have heven : ∀ (x : BitVec 4) (y : BitVec 8), 0xFF8 ≤ x ++ y → 0xFF8 ≤ (y.signExtend 12).setWidth 16 := by
    decide +kernel
  have hodd : ∀ (x : BitVec 8) (y : BitVec 4), 0xFF8 ≤ x ++ y → 0xFF8 ≤ y.signExtend 16 := by
    decide +kernel
  have hbps : v.format.bytesPerSector.toNat = 512 := by rw [hv.bytes]; rfl
  have hsector := hc.sector
  have hends := hc.ends
  have hbyte : tableByte m fats ((c.toNat + c.toNat / 2) % v.format.bytesPerSector.toNat) =
      v.fatByte (c.toNat + c.toNat / 2) := by
    rw [Nat.mod_eq_of_lt hsector]
    exact hfats _ (by omega)
  rw [Volume.fatEntry, entry12] at hends
  simp only [nextCluster, nextCluster_byte, hbyte]
  by_cases hpar : c.toNat % 2 = 1
  · rw [if_neg (by omega)] at hends
    rw [if_pos ((odd_iff c).mpr hpar), odd_value]
    exact hodd _ _ hends
  · rw [if_pos (by omega)] at hends
    rw [if_neg fun h => hpar ((odd_iff c).mp h), even_value]
    exact heven _ _ hends

theorem fat12ReadEntry_loads {disk : DiskPtr} (hdisk : HoldsDisk lo top ⟨drive, v.format⟩ disk w)
    {c : Cluster} (hc : v.Single c) {fats : Word} (hne : fats ≠ 0) {n : Nat}
    (hfats : w.mem.Holds fats n v.fatByte) (hn : 512 ≤ n) (pOutput : Word)
    (hfit : top + v.format.clusterBytes ≤ hi) :
    ∃ size w', size.toNat = v.format.clusterBytes ∧
      disk.fat12ReadEntry dr pOutput fats c w = some (BitVec.ofNat 32 top, w') ∧
      Loaded lo hi top size v.format.clusterBytes (v.clusterByte c) w w' := by
  have hbps : v.format.bytesPerSector.toNat = 512 := by rw [hv.bytes]; rfl
  have hend : EndsAfter v.format fats w.mem c 1 := by
    refine ⟨fun k hk => ?_, hc.next hv hfats hn⟩
    rw [Nat.lt_one_iff.mp hk]
    exact hc.last
  have hcount : countClusters ⟨drive, v.format⟩ fats clusterValues c 0 w =
      some (BitVec.ofNat 32 1, w) :=
    @countClusters_spec ⟨drive, v.format⟩ fats hne w 1 c 0 clusterValues hend (by decide)
  have hguard : ¬ (fats = 0 ∨ 0xFF8 ≤ c) := fun h => h.elim hne (BitVec.not_le.mpr hc.last)
  have hspc := v.format.sectorPerCluster.isLt
  have hbytes : v.format.clusterBytes = 512 * v.format.sectorPerCluster.toNat := by
    rw [Fat12.clusterBytes, hbps, Nat.mul_comm]
  have hsize : (v.format.entrySize (BitVec.ofNat 32 1)).toNat = v.format.clusterBytes := by
    rw [entrySize_eq, BitVec.toNat_ofNat, Nat.one_mul, Nat.mod_eq_of_lt (by omega)]
  have hsectors : (v.format.sectorPerCluster.setWidth 16 : BitVec 16).toNat =
      v.format.sectorPerCluster.toNat := BitVec.toNat_setWidth_of_le (by omega)
  have hpos := hv.cluster
  have hregion : v.clusterByte c = v.content.byte 512 (clusterToLba v.format c) := by
    rw [Volume.clusterByte, Volume.region, hbps]
    congr 1
    apply BitVec.eq_of_toNat_eq
    rw [BitVec.toNat_ofNat, clusterToLba_toNat v.format hc.first hc.last (by omega), Nat.add_comm]
    have h1 := clusterOffset_lt v.format hc.last
    have h2 := v.format.firstDataSector_lt
    exact Nat.mod_eq_of_lt (by omega)
  obtain ⟨w₁, w₂, e₁, hno₁, e₂, hload⟩ := loads hlo hhi hs hr hno hslots
    (by rw [hsize, hsectors, hbytes])
    (fun h0 => by rw [h0] at hsize; simp at hsize; omega) (by omega) (clusterToLba v.format c)
  refine ⟨_, w₂, hsize, ?_, ?_⟩
  · have hlast := hv.field_ne_zero (hdisk _ hload.below)
    rw [DiskPtr.fat12ReadEntry_counted hguard (hv.field_ne_zero hdisk.here) hdisk.here hcount e₁,
      if_neg (not_not.mpr hno₁)]
    simp only [readCluster, e₂, ne_eq, not_true_eq_false, if_false, hlast]
  · have hmin : min (v.format.entrySize (BitVec.ofNat 32 1)).toNat sure = v.format.clusterBytes := by
      rw [hsize]
      exact Nat.min_eq_left hv.clusterSure
    rw [hmin] at hload
    rw [hregion]
    exact hload

end

/-! ## A floppy disk that is open -/

/-- The volume on a disk with these sectors. -/
def DiskT.volume (disk : DiskT) (content : Sectors) : Volume := ⟨disk.info.toFat12, content⟩

theorem floppyDisk_standard (content : Sectors) : (floppyDisk.volume content).Standard 4096 :=
  have hformat : (floppyDisk.volume content).format = floppyDisk.info.toFat12 := rfl
  ⟨rfl, rfl, rfl, by decide, by rw [hformat]; decide, by rw [hformat]; decide, by rw [hformat]; decide,
    by rw [hformat]; decide⟩

/-- A `disk_t` in front of `top` is what it was, if the memory there is. -/
theorem diskAt_below {lo top : Nat} {disk : Word} (hlo : lo ≤ disk.toNat)
    (htop : disk.toNat + sizeofDisk ≤ top) (hend : top < 2 ^ 32) {m m' : Mem 32}
    (h : ∀ x : Word, lo ≤ x.toNat → x.toNat < top → m' x = m x) : diskAt disk m' = diskAt disk m := by
  refine diskAt_congr fun i hi => ?_
  have haddr : (disk + BitVec.ofNat 32 i).toNat = disk.toNat + i := toNat_add_ofNat (by omega)
  exact h _ (by omega) (by omega)

theorem World.init_stacked : World.init.state.heap.Stacked 0x00100000 0x001FFFFF 0x00100000 :=
  @Heap.stacked_allocInit 0x00100000 0x000FFFFF ⟨by decide, by decide, by decide⟩

theorem World.ncard_init_live : World.init.live.ncard = 0 := by
  rw [World.live, show World.init.state.heap = allocInit 0x00100000 0x000FFFFF from rfl, Heap.live_allocInit,
    Set.ncard_empty]

/-- The `disk_t` of a floppy disk in the first block of the heap, and nothing else. -/
structure FloppyOpen (w : World) : Prop where
  stacked : w.state.heap.Stacked 0x00100000 0x001FFFFF 0x0010002C
  live : w.live = {⟨0x00100000, 44⟩}
  err : w.state.err = .no
  disk : diskAt 0x00100000 w.mem = floppyDisk

theorem floppy_open : ∃ w, FloppyOpen w := by
  obtain ⟨w₁, -, hstacked, hlive, herr, -⟩ := World.malloc_stacked (by decide) (by decide)
    World.init_stacked (show (44 : Word) ≠ 0 by decide) (by decide) (World.ncard_init_live ▸ by decide)
  refine ⟨{ w₁ with mem := storeDisk 0x00100000 floppyDisk w₁.mem }, hstacked, ?_, herr,
    diskAt_storeDisk _ rfl _⟩
  have hinit : World.init.live = ∅ := Heap.live_allocInit _ _
  rw [hinit] at hlive
  exact hlive.trans (insert_empty_eq _)

/-- Sectors of a floppy disk: the boot sector, the FATs, a directory `TEST` in the root directory, and
`FILE.TXT` in it. -/
def sampleContent : Sectors := fun lba i =>
  if lba = 0 then
    if i < 24 then
      [0, 0, 0, 0, 0, 0, 0, 0, 0, 0, 0, 0x00, 0x02, 0x01, 0x01, 0x00, 0x02, 0xE0, 0x00, 0x40, 0x0B, 0xF0, 0x09,
        0x00].getD i 0
    else namedDisk lba i
  else if lba = 1 then [0xF0, 0xFF, 0xFF, 0xFF, 0xFF, 0xFF].getD i 0
  else if lba = 19 then
    [0x54, 0x45, 0x53, 0x54, 0x20, 0x20, 0x20, 0x20, 0x20, 0x20, 0x20, 0x10, 0, 0, 0, 0, 0, 0, 0, 0, 0, 0,
      0, 0, 0, 0, 2].getD i 0
  else if lba = 33 then
    [0x46, 0x49, 0x4C, 0x45, 0x20, 0x20, 0x20, 0x20, 0x54, 0x58, 0x54, 0x20, 0, 0, 0, 0, 0, 0, 0, 0, 0, 0,
      0, 0, 0, 0, 3].getD i 0
  else 0x41

theorem sampleContent_root :
    (∀ name sure, 64 ≤ sure → (floppyDisk.volume sampleContent).root.Sound sure name) ∧
      (floppyDisk.volume sampleContent).root.find [0x54, 0x45, 0x53, 0x54] =
        some ((floppyDisk.volume sampleContent).root.record 0) :=
  have hformed : ((floppyDisk.volume sampleContent).root.record 0).WellFormed :=
    ⟨by unfold Padded; decide, by unfold Padded; decide, by decide⟩
  ⟨fun _ _ hsure => Directory.sound_one (by decide) (by decide) (by decide) (by decide) hsure hformed,
    Directory.find_one (by decide) (by decide) (by decide) (by decide) (by decide)⟩

theorem sampleContent_test :
    (∀ name sure, 64 ≤ sure → ((floppyDisk.volume sampleContent).subdirectory 2).Sound sure name) ∧
      ((floppyDisk.volume sampleContent).subdirectory 2).find
          [0x46, 0x49, 0x4C, 0x45, 0x2E, 0x54, 0x58, 0x54] =
        some (((floppyDisk.volume sampleContent).subdirectory 2).record 0) :=
  have hformed : (((floppyDisk.volume sampleContent).subdirectory 2).record 0).WellFormed :=
    ⟨by unfold Padded; decide, by unfold Padded; decide, by decide⟩
  ⟨fun _ _ hsure => Directory.sound_one (by decide) (by decide) (by decide) (by decide) hsure hformed,
    Directory.find_one (by decide) (by decide) (by decide) (by decide) (by decide)⟩

theorem sampleContent_single : (floppyDisk.volume sampleContent).Single 2 ∧
    (floppyDisk.volume sampleContent).Single 3 :=
  ⟨⟨by decide, by decide, by decide, by decide⟩, by decide, by decide, by decide, by decide⟩

end Installer
end Amethyst
