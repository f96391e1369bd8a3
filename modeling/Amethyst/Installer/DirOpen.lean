import Amethyst.Installer.DirListing
import Amethyst.Installer.Loading

/-!
# Amethyst.Installer.DirOpen

When the listing of `fat12_dir_open` is what the directory holds.

`fat12DirOpen_lists_iff`: exactly when the directory holds something and no slot in it is deleted.
-/

namespace Amethyst
namespace Installer

section

variable {lo hi : Nat} (hlo : 0 < lo) (hhi : hi < 2 ^ 32) {dr : DiskRead} (hk : Keeps lo hi dr)
  {w : World} (hinv : w.state.heap.Inv lo hi) (hno : w.state.err = .no) {garbage : Word} {disk : DiskPtr}
  (htype : (disk w.mem).type = .fat12) {dir : Word} (hdir : (⟨dir, dirSize⟩ : Chunk) ∈ w.live)
  {dirname : Option (List Byte)} {entries size : Word} {w₁ : World}
  (hread : ReadsEntries dr garbage disk dirname w entries w₁)
  (hbuffer : (⟨entries, size⟩ : Chunk) ∈ w₁.live) {k : Nat} (hend : EndsAt w₁.mem entries k)
  (hsize : 32 * k < size.toNat)
include hlo hhi hk hinv hno htype hdir hread hbuffer hend hsize

theorem fat12DirOpen_lists_iff
    (hserve : listedSlots w₁.mem k entries ≠ [] →
      (w₁.malloc (BitVec.ofNat 32 (listedSlots w₁.mem k entries).length * dirEntrySize)).1 ≠ 0) :
    ListsExactly w₁.mem k entries dir (fat12DirOpen dr garbage (some disk) dir dirname w) ↔
      liveSlots w₁.mem k entries ≠ [] ∧
        ∀ slot ∈ slots k entries, w₁.mem slot = 0xE5 → isVolumeLabel w₁.mem slot := by
  obtain ⟨hempty, hfull⟩ := fat12DirOpen_listed hlo hhi hk hinv hno htype hdir hread hbuffer hend hsize
  rw [← length_liveSlots_iff]
  by_cases hnil : listedSlots w₁.mem k entries = []
  · obtain ⟨w', e, -⟩ := hempty hnil
    rw [e]
    refine iff_of_false (fun h => ?_) fun h => h.1 (by rw [liveSlots_eq, hnil, List.filter_nil])
    obtain ⟨w'', he, -⟩ := h
    cases he
    exact Heap.Inv.start_ne_zero hlo hhi hinv hdir rfl
  · obtain ⟨w', e, hcount, hlist⟩ := hfull hnil (hserve hnil)
    have hle : (listedSlots w₁.mem k entries).length ≤ k := length_listedSlots_le k
    have hsz := size.isLt
    rw [e]
    constructor
    · intro h
      obtain ⟨w'', he, hlength, -⟩ := h
      cases he
      rw [hcount, BitVec.toNat_ofNat, Nat.mod_eq_of_lt (by omega)] at hlength
      refine ⟨fun h0 => hnil (List.eq_nil_of_length_eq_zero ?_), hlength.symm⟩
      rw [hlength, h0, List.length_nil]
    · intro h
      have heq := liveSlots_eq_listed h.2
      refine ⟨w', rfl, ?_, heq ▸ hlist⟩
      rw [hcount, heq, BitVec.toNat_ofNat, Nat.mod_eq_of_lt (by omega)]

end

/-! ## A directory that has been read -/

section

variable {d : Directory} {m : Mem 32} {dir : Word} {n : Nat} (h : m.Holds dir n d.byte) {k : Nat}
  (hk : 32 * (k + 1) ≤ n)
include h hk

theorem endsAt_loaded (hused : ∀ i < k, d.byte (32 * i) ≠ 0) (hmark : d.byte (32 * k) = 0) :
    EndsAt m dir k where
  used i hi := by
    rw [marker_loaded h (by omega)]
    exact hused i hi
  marker := by
    rw [marker_loaded h hk]
    exact hmark

theorem listedSlots_loaded : listedSlots m k dir =
    ((List.range k).filter fun i => ¬ (d.record i).isLabel).map (slotAt dir) := by
  rw [listedSlots, slots_eq, List.filter_map]
  refine congrArg _ (List.filter_congr fun i hi => ?_)
  have hi' := List.mem_range.mp hi
  simp only [Function.comp_apply, isVolumeLabel_eq, (same_record h (by omega : 32 * (i + 1) ≤ n)).isLabel]

theorem liveSlots_loaded : liveSlots m k dir =
    ((List.range k).filter fun i => (d.record i).Live).map (slotAt dir) := by
  rw [liveSlots, slots_eq, List.filter_map]
  refine congrArg _ (List.filter_congr fun i hi => ?_)
  have hi' := List.mem_range.mp hi
  have hsame := same_record h (by omega : 32 * (i + 1) ≤ n)
  simp only [Function.comp_apply, Record.Live, isVolumeLabel_eq, hsame.isLabel, ← hsame 0 (by decide),
    recordAt, BitVec.add_zero, BitVec.ofNat_eq_ofNat]

/-- No slot but a label is deleted. -/
theorem deleted_loaded : (∀ slot ∈ slots k dir, m slot = 0xE5 → isVolumeLabel m slot) ↔
    ∀ i < k, d.byte (32 * i) = 0xE5 → (d.record i).isLabel := by
  rw [slots_eq]
  simp only [List.mem_map, List.mem_range, forall_exists_index, and_imp, forall_apply_eq_imp_iff₂]
  refine forall₂_congr fun i hi => ?_
  have hin : 32 * (i + 1) ≤ n := by omega
  rw [marker_loaded h hin, isVolumeLabel_eq, (same_record h hin).isLabel]

end

/-! ## The root directory of a floppy disk -/

/-- `dir_open` has allocated the `dir_t` behind the `disk_t` and has stored its first field, and the
root directory has been read for it. -/
structure RootRead (content : Sectors) (w₀ w w₁ : World) : Prop where
  floppy : FloppyOpen w₀
  made : ∃ w', w₀.malloc dirSize = (0x0010002C, w') ∧ w = w'.store32 0x0010002C 0x00100000
  inv : w.state.heap.Inv 0x00100000 0x001FFFFF
  err : w.state.err = .no
  disk : diskAt 0x00100000 w.mem = floppyDisk
  dir : (⟨0x0010002C, dirSize⟩ : Chunk) ∈ w.live
  held : (⟨0x00100000, 44⟩ : Chunk) ∈ w.live
  read : ReadsEntries (diskRead (idealBios content)) 0 (diskAt 0x00100000) none w 0x00100038 w₁
  stacked : w₁.state.heap.Stacked 0x00100000 0x001FFFFF 0x00101C38
  live : w₁.live = {⟨0x00100038, 7168⟩, ⟨0x0010002C, dirSize⟩, ⟨0x00100000, 44⟩}
  holds : w₁.mem.Holds 0x00100038 4096 (floppyDisk.volume content).root.byte
  below : ∀ x : Word, 0x00100000 ≤ x.toNat → x.toNat < 0x00100038 → w₁.mem x = w.mem x

theorem root_read (content : Sectors) : ∃ w₀ w w₁, RootRead content w₀ w w₁ := by
  obtain ⟨w₀, h₀⟩ := floppy_open
  have hcard : w₀.live.ncard < chunkQty := by
    rw [h₀.live, Set.ncard_singleton]
    decide
  obtain ⟨w, emade, hs, hlive, herr, hmem⟩ := World.malloc_stacked (by decide) (by decide) h₀.stacked
    (show dirSize ≠ 0 by decide) (by decide) hcard
  have hcard' : w.live.ncard < chunkQty := by
    rw [hlive]
    refine Nat.lt_of_le_of_lt (Set.ncard_insert_le _ _) ?_
    rw [h₀.live, Set.ncard_singleton]
    decide
  have hno := herr.trans h₀.err
  have hdisk : diskAt 0x00100000 (w.store32 0x0010002C 0x00100000).mem = floppyDisk := by
    rw [← h₀.disk, ← hmem]
    refine diskAt_congr fun i hi => Mem.write32_frame ?_
    exact not_inRange_of_lt (a := (0x00100000 : Word)) (k := 44) hi (by decide)
  obtain ⟨size, w₁, hsize, e, hload⟩ := fat12ReadRootDirectory_loads (by decide) (by decide)
    (w := w.store32 0x0010002C 0x00100000) hs hno hcard' (floppyDisk_standard content)
    (diskRead_readsUp (show 0x10000 ≤ 0x00100000 by decide) (show 0x001FFFFF + 2 ^ 26 ≤ 2 ^ 32 by decide)
      (idealBios_delivers 0 content)) (congrArg DiskT.fat12 hdisk) 0
    (show 0x00100038 + floppyDisk.info.rootBytes ≤ 0x001FFFFF by decide)
  have hbytes : size = 7168 := BitVec.eq_of_toNat_eq hsize
  subst hbytes
  have hblocks := hload.live
  rw [World.store32_live, hlive, h₀.live] at hblocks
  refine ⟨w₀, w.store32 0x0010002C 0x00100000, w₁, h₀, ⟨w, emade, rfl⟩, hs.toWhole.toInv, hno, hdisk,
    hlive ▸ Set.mem_insert _ _, hlive ▸ Set.mem_insert_of_mem _ (h₀.live ▸ Set.mem_singleton _),
    .inl ⟨by simp, e, by decide⟩, hload.stacked, hblocks, hload.holds, hload.below⟩

section

variable {content : Sectors} {w₀ w w₁ : World} (h : RootRead content w₀ w w₁)
include h

theorem RootRead.type : (diskAt 0x00100000 w.mem).type = .fat12 := by
  rw [h.disk]
  rfl

theorem RootRead.buffer : (⟨0x00100038, 7168⟩ : Chunk) ∈ w₁.live := h.live ▸ Set.mem_insert _ _

/-- The listing is granted. -/
theorem RootRead.serve {k : Nat} (hk : k ≤ 224) (hsome : listedSlots w₁.mem k 0x00100038 ≠ []) :
    (w₁.malloc (BitVec.ofNat 32 (listedSlots w₁.mem k 0x00100038).length * dirEntrySize)).1 ≠ 0 := by
  have hlen : (listedSlots w₁.mem k 0x00100038).length ≤ k := length_listedSlots_le k
  have hbytes := listing_toNat (n := (listedSlots w₁.mem k 0x00100038).length) (by omega)
  have hpos := List.length_pos_iff.mpr hsome
  have hne : BitVec.ofNat 32 (listedSlots w₁.mem k 0x00100038).length * dirEntrySize ≠ 0 := by
    intro h0
    rw [h0, show (0 : Word).toNat = 0 from rfl] at hbytes
    omega
  have hcard : w₁.live.ncard < chunkQty := by
    rw [h.live]
    refine Nat.lt_of_le_of_lt (Set.ncard_insert_le _ _)
      (Nat.lt_of_le_of_lt (Nat.add_le_add_right (Set.ncard_insert_le _ _) 1) ?_)
    rw [Set.ncard_singleton]
    decide
  obtain ⟨w₂, e, -⟩ := World.malloc_stacked (by decide) (by decide) h.stacked hne (by omega) hcard
  rw [e]
  exact (by decide : (0x00101C38 : Word) ≠ 0)

end

/-! ## A label, a file, a directory and a deleted slot -/

/-- A slot with no field but the name and the attributes. -/
def namedSlot (name : List Byte) (attributes : Byte) : List Byte :=
  name ++ attributes :: List.replicate 20 0

/-- The label `DISK`, the file `FILE.TXT`, the directory `BIN` and a deleted slot, of a label or a file. -/
def fourSlots (label : Bool) : List Byte :=
  namedSlot [0x44, 0x49, 0x53, 0x4B, 0x20, 0x20, 0x20, 0x20, 0x20, 0x20, 0x20] 0x08 ++
    namedSlot [0x46, 0x49, 0x4C, 0x45, 0x20, 0x20, 0x20, 0x20, 0x54, 0x58, 0x54] 0x20 ++
      namedSlot [0x42, 0x49, 0x4E, 0x20, 0x20, 0x20, 0x20, 0x20, 0x20, 0x20, 0x20] 0x10 ++
        namedSlot [0xE5, 0x4C, 0x44, 0x20, 0x20, 0x20, 0x20, 0x20, 0x20, 0x20, 0x20] (if label then 0x0F else 0x20)

/-- They are the root directory of a floppy disk that holds nothing else. -/
def fourSlotsDisk (label : Bool) : Sectors := fun lba i =>
  if lba = 0x13 then (fourSlots label).getD i 0 else 0

/-- Before the end marker all slots but the first are listed, and the last is live only if it is not
deleted. -/
theorem fourSlots_root (label : Bool) :
    (∀ i < 4, (floppyDisk.volume (fourSlotsDisk label)).root.byte (32 * i) ≠ 0) ∧
    (floppyDisk.volume (fourSlotsDisk label)).root.byte (32 * 4) = 0 ∧
    ((List.range 4).filter fun i =>
      ((floppyDisk.volume (fourSlotsDisk label)).root.record i).Live) = [1, 2] := by
  revert label
  decide +kernel

section

variable {label : Bool} {w₀ w w₁ : World} (h : RootRead (fourSlotsDisk label) w₀ w w₁)
include h

theorem RootRead.endsAt : EndsAt w₁.mem 0x00100038 4 :=
  endsAt_loaded h.holds (by decide) (fourSlots_root label).1 (fourSlots_root label).2.1

theorem RootRead.live_eq : liveSlots w₁.mem 4 0x00100038 = [0x00100058, 0x00100078] := by
  rw [liveSlots_loaded h.holds (by decide), (fourSlots_root label).2.2]
  decide

end

/-- With a deleted slot that is a label the listing is exact, with one of a file it is not. -/
theorem fat12DirOpen_lists_iff_deleted :
    (∃ w₀ w w₁, RootRead (fourSlotsDisk true) w₀ w w₁ ∧ liveSlots w₁.mem 4 0x00100038 = [0x00100058, 0x00100078] ∧
      ListsExactly w₁.mem 4 0x00100038 0x0010002C (fat12DirOpen
        (diskRead (idealBios (fourSlotsDisk true))) 0 (some (diskAt 0x00100000)) 0x0010002C none w)) ∧
    ∃ w₀ w w₁, RootRead (fourSlotsDisk false) w₀ w w₁ ∧ liveSlots w₁.mem 4 0x00100038 = [0x00100058, 0x00100078] ∧
      ¬ ListsExactly w₁.mem 4 0x00100038 0x0010002C (fat12DirOpen
        (diskRead (idealBios (fourSlotsDisk false))) 0 (some (diskAt 0x00100000)) 0x0010002C none w) := by
  have hiff : ∀ {label : Bool} {w₀ w w₁ : World}, RootRead (fourSlotsDisk label) w₀ w w₁ →
      (ListsExactly w₁.mem 4 0x00100038 0x0010002C (fat12DirOpen
          (diskRead (idealBios (fourSlotsDisk label))) 0 (some (diskAt 0x00100000)) 0x0010002C none w) ↔
        liveSlots w₁.mem 4 0x00100038 ≠ [] ∧
          ∀ slot ∈ slots 4 0x00100038, w₁.mem slot = 0xE5 → isVolumeLabel w₁.mem slot) := by
    intro label w₀ w w₁ h
    exact fat12DirOpen_lists_iff (by decide) (by decide) (diskRead_keeps (by decide) (by decide) _) h.inv
      h.err h.type h.dir h.read h.buffer h.endsAt (by decide) (h.serve (by decide))
  constructor
  · obtain ⟨w₀, w, w₁, h⟩ := root_read (fourSlotsDisk true)
    refine ⟨w₀, w, w₁, h, h.live_eq, (hiff h).mpr ⟨by rw [h.live_eq]; decide, ?_⟩⟩
    rw [deleted_loaded h.holds (by decide)]
    decide +kernel
  · obtain ⟨w₀, w, w₁, h⟩ := root_read (fourSlotsDisk false)
    refine ⟨w₀, w, w₁, h, h.live_eq, fun hexact => ?_⟩
    have hall := ((hiff h).mp hexact).2
    rw [deleted_loaded h.holds (by decide)] at hall
    exact absurd hall (by decide +kernel)

/-- An empty root directory is not opened. -/
theorem fat12DirOpen_empty_fails : ∃ w₀ w w₁, RootRead (fun _ _ => 0) w₀ w w₁ ∧
    EndsAt w₁.mem 0x00100038 0 ∧ (∃ w', fat12DirOpen (diskRead (idealBios fun _ _ => 0)) 0
        (some (diskAt 0x00100000)) 0x0010002C none w = .done 0 w' ∧ w'.state.err = .invarg) ∧
    ¬ ListsExactly w₁.mem 0 0x00100038 0x0010002C (fat12DirOpen (diskRead (idealBios fun _ _ => 0)) 0
      (some (diskAt 0x00100000)) 0x0010002C none w) := by
  obtain ⟨w₀, w, w₁, h⟩ := root_read fun _ _ => 0
  have hend : EndsAt w₁.mem 0x00100038 0 := endsAt_zero.mpr (h.holds 0 (by decide))
  obtain ⟨w', e, herr⟩ := (fat12DirOpen_listed (by decide) (by decide) (diskRead_keeps (by decide) (by decide) _)
    h.inv h.err h.type h.dir h.read h.buffer hend (by decide)).1 rfl
  refine ⟨w₀, w, w₁, h, hend, ⟨w', e, herr⟩, fun hexact => ?_⟩
  obtain ⟨w'', he, -⟩ := hexact
  rw [e] at he
  cases he

end Installer
end Amethyst
