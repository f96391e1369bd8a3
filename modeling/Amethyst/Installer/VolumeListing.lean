import Amethyst.Installer.DirBalance
import Amethyst.Installer.VolumeRead

/-!
# Amethyst.Installer.VolumeListing

`dir_open` on the root directory of a volume. A deleted slot is listed like any other: the code compares
its first byte, which is signed, with 0xE5.

* `dirOpen_volume`: the records of the listing are those of the root directory of the volume.
-/

namespace Amethyst
namespace Installer

/-! ## The records of a directory -/

/-- The type and the name of a slot. -/
def Record.entry (r : Record) : DirEntryType × List Byte := (if r.isDirectory then .dir else .file, r.name)

/-- The slots that are listed, in their order. -/
def Directory.listed (d : Directory) : List Record := d.used.filter fun r => ¬ r.isLabel

theorem Record.Same.entry {m : Mem 32} {slot : Word} {r : Record} (h : (recordAt m slot).Same r)
    (hf : r.WellFormed) : Installer.record m slot = r.entry := by
  have hname : clusterfilename m slot = r.name := by
    rw [clusterfilename_eq, ← hf.cut_eq, ← h.cut, Record.cut,
      stringOf_of_noNul (h.wellFormed hf).fields_noNul]
  rw [record, hname, h.subdirectory, Record.entry]

section

variable {d : Directory} {m : Mem 32} {dir : Word} {n : Nat} (h : m.Holds dir n d.byte) {k : Nat}
  (hk : 32 * (k + 1) ≤ n) (hused : ∀ i < k, d.byte (32 * i) ≠ 0) (hmark : d.byte (32 * k) = 0)
include h hk hused hmark

/-- The slots that are listed have the records of the volume. -/
theorem records_loaded (hsize : n ≤ d.size) (hformed : ∀ r ∈ d.listed, r.WellFormed) :
    (listedSlots m k dir).map (record m) = d.listed.map Record.entry := by
  have hlisted : d.listed = ((List.range k).filter fun i => ¬ (d.record i).isLabel).map d.record := by
    rw [Directory.listed, Directory.used_eq (by omega) hused hmark, List.filter_map]
    rfl
  rw [listedSlots_loaded h hk, hlisted, List.map_map, List.map_map]
  refine List.map_congr_left fun i hi => ?_
  have hi' := List.mem_range.mp (List.mem_filter.mp hi).1
  have hmem : d.record i ∈ d.listed := hlisted ▸ List.mem_map_of_mem hi
  exact (same_record h (by omega)).entry (hformed _ hmem)

end

/-! ## `dir_open` -/

/-- A directory whose slots can be listed: it ends within the first `sure` bytes, and the slots have
names. -/
structure Directory.Listable (sure : Nat) (d : Directory) : Prop where
  marked : ∃ i, 32 * (i + 1) ≤ d.size ∧ 32 * (i + 1) ≤ sure ∧ d.byte (32 * i) = 0
  formed : ∀ r ∈ d.listed, r.WellFormed
  nonempty : d.listed ≠ []

section

variable {d : DiskT} (htype : d.type = .fat12) {content : Sectors} {bios : Bios}
  (hbios : Delivers d.id content bios) (hv : (d.volume content).Standard 4096)
  (hlist : (d.volume content).root.Listable 4096) {lo hi top : Nat} (hlo : 0x10000 ≤ lo)
  (hhi : hi + 2 ^ 26 ≤ 2 ^ 32) {w : World} (hs : w.state.heap.Stacked lo hi top) (hno : w.state.err = .no)
  {dirname : Option (List Byte)} (hname : ∀ name ∈ dirname, strcmp name rootName = 0) (garbage : Word)
include htype hbios hv hlist hlo hhi hs hno hname

/-- In a `dir_t` that is one of the blocks in front of `top`, which the entries and the listing follow. -/
theorem fat12DirOpen_volume {disk : DiskPtr} (hdisk : disk w.mem = d) (hslots : w.live.ncard + 1 < chunkQty)
    (hfit : top + d.info.rootBytes + 20 * (d.volume content).root.listed.length ≤ hi) {dir : Word}
    (hdir : (⟨dir, dirSize⟩ : Chunk) ∈ w.live) :
    ∃ w' entries w₁, fat12DirOpen (diskRead bios) garbage (some disk) dir dirname w = .done dir w' ∧
      (w'.mem.read32 (dir + 8)).toNat = (d.volume content).root.listed.length ∧
      Listing w'.mem (w'.mem.read32 (dir + 4)) ((d.volume content).root.listed.map Record.entry) ∧
      ReadsEntries (diskRead bios) garbage disk dirname w entries w₁ ∧
      ∀ x : Word, lo ≤ x.toNat → x.toNat < top → w₁.mem x = w.mem x := by
  have hlo' : 0 < lo := by omega
  have hhi' : hi < 2 ^ 32 := by omega
  have hk := diskRead_keeps hlo' (show hi + 2 ^ 25 ≤ 2 ^ 32 by omega) bios
  obtain ⟨size, w₁, hsize, e₁, hload⟩ := fat12ReadRootDirectory_loads hlo' hhi' hs hno (by omega) hv
    (diskRead_readsUp hlo hhi hbios) (congrArg DiskT.fat12 hdisk) garbage (show top + d.info.rootBytes ≤ hi by omega)
  have hblock : size.toNat = d.info.rootBytes := hsize
  have hbytes : (d.volume content).root.size = d.info.rootBytes := rfl
  obtain ⟨entries, hentries⟩ : ∃ entries, BitVec.ofNat 32 top = entries := ⟨_, rfl⟩
  have hne : entries ≠ 0 := hentries ▸ top_ne_zero hlo' hhi' hs (by omega)
  have hlive := hload.live
  have hholds := hload.holds
  rw [hentries] at e₁ hlive hholds
  have hread : ReadsEntries (diskRead bios) garbage disk dirname w entries w₁ :=
    .inl ⟨hname, e₁, hne⟩
  obtain ⟨k, hsure, hsize', hused, hmark⟩ := Directory.first_marker hlist.marked
  have hle : 32 * (k + 1) ≤ min (d.volume content).root.size 4096 := by omega
  have hend := endsAt_loaded hholds hle hused hmark
  have hrecords := records_loaded hholds hle hused hmark (Nat.min_le_left _ _) hlist.formed
  have hlen : (listedSlots w₁.mem k entries).length = (d.volume content).root.listed.length := by
    have hlengths := congrArg List.length hrecords
    rw [List.length_map, List.length_map] at hlengths
    exact hlengths
  have hsome : listedSlots w₁.mem k entries ≠ [] := fun h0 =>
    hlist.nonempty (List.eq_nil_of_length_eq_zero (by rw [← hlen, h0, List.length_nil]))
  have hpos := List.length_pos_iff.mpr hsome
  have hlek : (listedSlots w₁.mem k entries).length ≤ k := length_listedSlots_le k
  -- the allocation of the listing
  have htotal := listing_toNat (n := (listedSlots w₁.mem k entries).length) (by omega)
  have htotal_ne : BitVec.ofNat 32 (listedSlots w₁.mem k entries).length * dirEntrySize ≠ 0 := by
    intro h0
    have hzero := htotal.symm.trans (congrArg BitVec.toNat h0)
    rw [show (0 : Word).toNat = 0 from rfl] at hzero
    omega
  have hcard : w₁.live.ncard < chunkQty := by
    rw [hlive]
    exact Nat.lt_of_le_of_lt (Set.ncard_insert_le _ _) hslots
  obtain ⟨_, e₂, -⟩ := World.malloc_stacked hlo' hhi' hload.stacked htotal_ne (by omega) hcard
  have hserve : (w₁.malloc (BitVec.ofNat 32 (listedSlots w₁.mem k entries).length * dirEntrySize)).1 ≠ 0 := by
    rw [e₂]
    exact top_ne_zero hlo' hhi' hload.stacked (by omega)
  obtain ⟨w', e, hcount, hl⟩ := (fat12DirOpen_listed hlo' hhi' hk hs.toWhole.toInv hno (hdisk ▸ htype) hdir hread
    (hlive ▸ Set.mem_insert _ _) hend (by omega)).2 hsome hserve
  refine ⟨w', entries, w₁, e, ?_, hrecords ▸ hl, hread, hload.below⟩
  rw [hcount, hlen, BitVec.toNat_ofNat, Nat.mod_eq_of_lt (by omega)]

/-- The listing of the root directory is that of the volume, and `dir_close` gives everything back. -/
theorem dirOpen_volume {disk : Word} (hheld : (⟨disk, 44⟩ : Chunk) ∈ w.live) (hdisk : diskAt disk w.mem = d)
    (hslots : w.live.ncard + 2 < chunkQty)
    (hfit : top + 12 + d.info.rootBytes + 20 * (d.volume content).root.listed.length ≤ hi) :
    ∃ dir w', dirOpen (diskRead bios) garbage disk dirname w = .done dir w' ∧
      (w'.mem.read32 (dir + 8)).toNat = (d.volume content).root.listed.length ∧
      Listing w'.mem (w'.mem.read32 (dir + 4)) ((d.volume content).root.listed.map Record.entry) ∧
      DirBalanced w dir w' := by
  have hlo' : 0 < lo := by omega
  have hhi' : hi < 2 ^ 32 := by omega
  obtain ⟨w₁, e₁, hs₁, hlive, herr, hmem⟩ := World.malloc_stacked hlo' hhi' hs (show dirSize ≠ 0 by decide)
    (show top + 12 ≤ hi by omega) (by omega)
  have hg := granted_top hlo' hhi' hs (show top ≤ hi by omega) e₁
  obtain ⟨dir, hdir⟩ : ∃ dir, BitVec.ofNat 32 top = dir := ⟨_, rfl⟩
  have htop : dir.toNat = top := hdir ▸ top_toNat hhi' (show top ≤ hi by omega)
  rw [hdir] at e₁ hlive hg
  have hslots₁ : (w₁.store32 dir disk).live.ncard + 1 < chunkQty := by
    rw [World.store32_live, hlive]
    have := Set.ncard_insert_le (⟨dir, dirSize⟩ : Chunk) w.live
    omega
  -- the `disk_t` lies in front of the `dir_t`
  have hstart : lo ≤ disk.toNat := (Heap.Inv.inside hs.toWhole.toInv hheld).1
  have hend : disk.toNat + 44 ≤ top := hs.end_le hlo' hhi' hheld
  have hdisk₁ : diskAt disk (w₁.store32 dir disk).mem = d := by
    rw [← hdisk, ← hmem]
    refine diskAt_below hstart hend (by omega) fun x _ hx => Mem.write32_frame fun hin => ?_
    rw [inRange_iff (by omega)] at hin
    omega
  have htype₁ : (diskAt disk (w₁.store32 dir disk).mem).type = .fat12 := by rw [hdisk₁, htype]
  have hne : disk ≠ 0 := by
    rintro rfl
    simp at hstart
    omega
  have hnew : (⟨dir, dirSize⟩ : Chunk) ∈ (w₁.store32 dir disk).live := hlive ▸ Set.mem_insert _ _
  have hold : (⟨disk, 44⟩ : Chunk) ∈ (w₁.store32 dir disk).live := hlive ▸ Set.mem_insert_of_mem _ hheld
  obtain ⟨w', entries, w₂, e, hcount, hl, hread, hbelow⟩ := fat12DirOpen_volume htype hbios hv hlist hlo hhi
    (w := w₁.store32 dir disk) hs₁ (herr.trans hno) hname garbage hdisk₁ hslots₁ hfit hnew
  have hk := diskRead_keeps hlo' (show hi + 2 ^ 25 ≤ 2 ^ 32 by omega) bios
  rw [← diskPtr_of_ne_zero hne] at e
  have hdirSize : dirSize.toNat = 12 := rfl
  have hptr : (w₁.store32 dir disk).mem.read32 dir = disk := by rw [World.store32_mem, Mem.read32_write32]
  have hnew_ne : (⟨disk, 44⟩ : Chunk) ≠ ⟨dir, dirSize⟩ := by
    intro he
    exact hg.fresh (he ▸ hheld)
  have hfirst : ∀ x, InRange dir 4 x → w₂.mem x = (w₁.store32 dir disk).mem x := by
    intro x hx
    rw [inRange_iff (by omega)] at hx
    exact hbelow x (by omega) (by omega)
  have hdisk₂ : ∀ x, InRange disk sizeofDisk x → w₂.mem x = (w₁.store32 dir disk).mem x := by
    intro x hx
    rw [sizeofDisk, inRange_iff (by omega)] at hx
    exact hbelow x (by omega) (by omega)
  obtain ⟨-, hclosed, listing, n, howns, hentries⟩ := fat12DirOpen_ready hlo' hhi' hk
    (w := w₁.store32 dir disk) hg.inv (herr.trans hno) htype₁ hnew hold hnew_ne e hread hfirst hdisk₂ hptr
  refine ⟨dir, w', ?_, hcount, hl, (dirBalanced_of_owns hlo' hhi' hg howns hentries).mpr hclosed⟩
  simp only [dirOpen, e₁, if_neg hg.ne_zero, htype₁, e]

end

theorem sampleContent_listed : (floppyDisk.volume sampleContent).root.listed =
    [(floppyDisk.volume sampleContent).root.record 0] := by
  rw [Directory.listed, (Directory.entries_one (by decide) (by decide) (by decide) (by decide)).1]
  exact List.filter_cons_of_pos (by decide)

theorem dirOpen_volume_test : ∃ w dir w', FloppyOpen w ∧
    dirOpen (diskRead (idealBios sampleContent)) 0 0x00100000 none w = .done dir w' ∧
      (w'.mem.read32 (dir + 8)).toNat = 1 ∧
      Listing w'.mem (w'.mem.read32 (dir + 4)) [(.dir, [0x54, 0x45, 0x53, 0x54])] ∧ DirBalanced w dir w' := by
  have hlist : (floppyDisk.volume sampleContent).root.Listable 4096 := by
    refine ⟨⟨1, by decide, by decide, by decide⟩, fun r hr => ?_, ?_⟩
    · rw [sampleContent_listed, List.mem_singleton] at hr
      rw [hr]
      exact ⟨by unfold Padded; decide, by unfold Padded; decide, by decide⟩
    · rw [sampleContent_listed]
      exact List.cons_ne_nil _ _
  obtain ⟨w, hopen⟩ := floppy_open
  have h : ∃ dir w',
      dirOpen (diskRead (idealBios sampleContent)) 0 0x00100000 none w = .done dir w' ∧
        (w'.mem.read32 (dir + 8)).toNat = (floppyDisk.volume sampleContent).root.listed.length ∧
        Listing w'.mem (w'.mem.read32 (dir + 4))
          ((floppyDisk.volume sampleContent).root.listed.map Record.entry) ∧
        DirBalanced w dir w' :=
    dirOpen_volume rfl (idealBios_delivers floppyDisk.id sampleContent) (floppyDisk_standard sampleContent) hlist
      (by decide) (by decide) hopen.stacked hopen.err (by simp) 0 (hopen.live ▸ Set.mem_singleton _) hopen.disk
      (by rw [hopen.live, Set.ncard_singleton]; decide) (by rw [sampleContent_listed]; decide)
  rw [sampleContent_listed] at h
  obtain ⟨dir, w', h⟩ := h
  exact ⟨w, dir, w', hopen, h⟩

end Installer
end Amethyst
