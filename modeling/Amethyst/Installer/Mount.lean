import Amethyst.Installer.VolumeRead

/-!
# Amethyst.Installer.Mount

A drive from `disk_open` to `disk_close`, as the installer's `_start` uses it. `disk_open` takes the
format from the boot sector, so the sectors alone say what each path leads to. The `disk_t` that it fills
lies at the top of the heap, in front of all that is allocated for the files.

* `diskOpen_mounts`: the disk that comes back has the volume of the sectors.
* `diskOpen_readFiles`: all files that are read from it are those of the volume, and nothing is left
  behind.
-/

namespace Amethyst
namespace Installer

/-- `disk_close` -/
def diskClose (disk : Word) (w : World) : Option World :=
  if disk = 0 then some (w.setErr .invarg) else w.free disk

/-! ## The boot sector -/

namespace Sectors

variable (content : Sectors)

/-- The fields of the boot sector. -/
def format : Fat12 where
  bytesPerSector := content 0 12 ++ content 0 11
  sectorPerCluster := content 0 13
  reservedSectorCount := content 0 15 ++ content 0 14
  fatCount := content 0 16
  maxRootEntryCount := content 0 18 ++ content 0 17
  sectorPerFat := content 0 23 ++ content 0 22

def volume : Volume := ⟨content.format, content⟩

/-- The boot sector names the file system. -/
def Named : Prop := ∀ i < 6, content 0 (54 + i) = fsTypeByte i

end Sectors

section

variable {content : Sectors} {bios : Bios}

/-- `disk_create_fat12` with the header of the boot sector in memory. -/
theorem diskCreateFat12_volume {disk : DiskT} (hb : Delivers disk.id content bios) {answer : DriveParams}
    (hcarry : answer.carry = false) {header : Word} {w : World} (hm : w.mem.Holds header 24 (content 0)) :
    (diskCreateFat12 bios answer disk header w).2.state = w.state ∧
      (diskCreateFat12 bios answer disk header w).1.id = disk.id ∧
      (diskCreateFat12 bios answer disk header w).1.type = .fat12 ∧
      (diskCreateFat12 bios answer disk header w).1.volume content = content.volume := by
  obtain ⟨params, hparams⟩ : ∃ params, diskGetParamInt13 bios answer disk.id w =
      (0, some params, { w with calls := w.calls ++ [.reset disk.id] }) := by
    refine ⟨((answer.cx.setWidth 8 &&& 0x3F).setWidth 16, (answer.dx.extractLsb' 8 8 + 1).setWidth 16), ?_⟩
    simp only [diskGetParamInt13, World.int13, hb.reset, hcarry]
    rfl
  have h16 : ∀ i, i + 1 < 24 →
      w.mem.read16 (header + BitVec.ofNat 32 i) = content 0 (i + 1) ++ content 0 i := by
    intro i hi
    rw [Mem.read16, show (1 : Word) = BitVec.ofNat 32 1 from rfl, add_add_ofNat, hm _ hi, hm _ (by omega)]
  have hformat : (⟨w.mem.read16 (header + 11), w.mem (header + 13), w.mem.read16 (header + 14),
      w.mem (header + 16), w.mem.read16 (header + 17), w.mem.read16 (header + 22)⟩ : Fat12) =
      content.format := by
    simp only [Sectors.format, Fat12.mk.injEq]
    exact ⟨h16 11 (by decide), hm 13 (by decide), h16 14 (by decide), hm 16 (by decide),
      h16 17 (by decide), h16 22 (by decide)⟩
  have hok : ¬ (0 : BitVec 8) ≠ 0 := fun h => h rfl
  simp only [diskCreateFat12, hparams, if_neg hok, true_and]
  exact congrArg (Volume.mk · content) hformat

/-! ## `disk_open` -/

/-- An open disk is a block at the top of the heap, and its volume is that of the sectors. -/
structure Mounted (lo hi top : Nat) (content : Sectors) (drive : BitVec 8) (w w' : World) : Prop where
  stacked : w'.state.heap.Stacked lo hi (top + 44)
  live : w'.live = insert ⟨BitVec.ofNat 32 top, 44⟩ w.live
  err : w'.state.err = .no
  id : (diskAt (BitVec.ofNat 32 top) w'.mem).id = drive
  type : (diskAt (BitVec.ofNat 32 top) w'.mem).type = .fat12
  volume : (diskAt (BitVec.ofNat 32 top) w'.mem).volume content = content.volume

variable {drive : BitVec 8} (hb : Delivers drive content bios) (hname : content.Named) {data : Word}
  (hdata : data ≠ 0) (hend : data.toNat + 512 < 2 ^ 32)
  (hdis : ∀ x, InRange data 512 x → ¬ InRange buffer bufferSize x)
include hb hname hdata hend hdis

/-- The header is read. -/
theorem diskRead_header (w : World) : ∃ w' space, diskRead bios drive data 1 0 w = (0, w') ∧
    w'.state = w.state ∧ w'.mem.Holds data 512 (content 0) ∧ IsFat12 w'.mem (data + 54) ∧
    strchr w'.mem 0x20 addressSpace (data + 54) = some space := by
  obtain ⟨⟨status, w'⟩, e⟩ : ∃ r, diskRead bios drive data 1 0 w = r := ⟨_, rfl⟩
  have hstate := @diskRead_state bios drive data 1 hdata hend 0 w
  have hread := ((@diskRead_delivers_iff data 1 hend hdis drive 0 w).1 content bios hb).mpr
    (.inr (sameSectors_of_le (by decide) content 0))
  rw [e] at hstate hread
  obtain ⟨rfl, hmem⟩ : status = 0 ∧ _ := hread
  have hholds : w'.mem.Holds data 512 (content 0) := by
    intro i hi
    have h := hmem 0 (by decide) i hi
    rw [Nat.mul_zero, Nat.zero_add] at h
    exact h
  have hm : IsFat12 w'.mem (data + 54) := by
    intro i hi
    have haddr : data + 54 + BitVec.ofNat 32 i = data + BitVec.ofNat 32 (54 + i) := add_add_ofNat data 54 i
    rw [haddr, hholds _ (by omega), hname i hi]
  cases hstr : strchr w'.mem 0x20 addressSpace (data + 54) with
  | none => exact absurd hstr (strchr_ne_none (i := 5) (by decide) (hm 5 (by decide)))
  | some space => exact ⟨w', space, e, hstate, hholds, hm, hstr⟩

theorem diskOpen_mounts {answer : DriveParams} (hcarry : answer.carry = false) (raw : DiskT)
    {lo hi top : Nat} (hlo : 0 < lo) (hhi : hi < 2 ^ 32) {w : World} (hs : w.state.heap.Stacked lo hi top)
    (hno : w.state.err = .no) (hslots : w.live.ncard < chunkQty) (hfit : top + 44 ≤ hi) :
    ∃ d w', diskOpen bios answer data raw drive w = .done (BitVec.ofNat 32 top, d) w' ∧
      Mounted lo hi top content drive w (w'.storeDisk (BitVec.ofNat 32 top) d) := by
  obtain ⟨w₁, e₁, hstacked, hlive, herr, -⟩ :=
    World.malloc_stacked hlo hhi hs (show (44 : Word) ≠ 0 by decide) hfit hslots
  obtain ⟨w₂, space, e₂, hstate, hholds, hm, hstr⟩ := diskRead_header hb hname hdata hend hdis w₁
  have hopen := diskOpen_fat12 answer raw e₁ (top_ne_zero hlo hhi hs (by omega)) e₂ hstr hend hm rfl
  have hheader : (cutName data w₂).mem.Holds data 24 (content 0) := by
    intro i hi
    have hne : data + BitVec.ofNat 32 i ≠ data + BitVec.ofNat 32 59 := fun he =>
      absurd (add_ofNat_inj (by omega) (by decide) he) (by omega)
    exact (Function.update_of_ne hne _ _).trans (hholds i (by omega))
  have hb' : Delivers ({ raw with id := drive, type := .unknown } : DiskT).id content bios := hb
  obtain ⟨hcreated, hid, htype, hvolume⟩ := diskCreateFat12_volume hb' hcarry hheader
  have hstate' : _ = w₁.state := hcreated.trans hstate
  refine ⟨_, _, hopen, ?_, ?_, ?_, (storeDisk_id _ _ _).trans hid, (storeDisk_type _ _ _).trans htype,
    (congrArg (Volume.mk · content) (storeDisk_toFat12 _ _ _)).trans hvolume⟩
  · rw [World.storeDisk_state, hstate']
    exact hstacked
  · exact (World.live_of_state hstate').trans hlive
  · rw [World.storeDisk_state, hstate', herr, hno]

end

/-! ## The files of an open disk -/

/-- What is read for each path: the first `size` bytes of a block that is freed before the next. `none` if
there is no file, or a call does not return. -/
def readFiles (dr : DiskRead) (garbage disk : Word) (size : Nat) :
    List (List Byte) → World → Option (List (List Byte) × World)
  | [], w => some ([], w)
  | path :: paths, w =>
    match fileRead dr garbage disk (some path) w with
    | .lost _ => none
    | .done file w =>
      if file = 0 then none
      else
        match w.free file with
        | none => none
        | some w' =>
          match readFiles dr garbage disk size paths w' with
          | none => none
          | some (rest, w') => some (bytes w.mem file size :: rest, w')

/-- The bytes of the file that a path leads to. -/
def Volume.fileBytes (v : Volume) (path : List Byte) : List Byte :=
  match v.target path with
  | .file c => (List.range v.format.clusterBytes).map (v.clusterByte c)
  | _ => []

/-- A path of a string that `fat12_file_read` takes, to a file. -/
structure Volume.FilePath (v : Volume) (path : List Byte) : Prop where
  length : path.length < 512
  noNul : 0 ∉ path
  sound : v.SoundPath 4096 path
  file : ∃ c, v.target path = .file c

section

variable {lo hi top : Nat} (hlo : 0x10000 ≤ lo) (hhi : hi + 2 ^ 26 ≤ 2 ^ 32) {content : Sectors}
  {bios : Bios} {drive : BitVec 8} (hb : Delivers drive content bios) (hv : content.volume.Standard 4096)
  {w : World} (hslots : w.live.ncard + 2 < chunkQty)
  (hroot : top + 44 + 512 * 18 + content.format.rootBytes ≤ hi)
  (hcluster : top + 44 + 512 * 18 + content.format.clusterBytes ≤ hi) (garbage : Word)
include hlo hhi hb hv hslots hroot hcluster

/-- A file is read and its block freed: the disk is open as before. -/
theorem Mounted.file {w₁ : World} (hm : Mounted lo hi top content drive w w₁) {path : List Byte}
    (hpath : content.volume.FilePath path) :
    ∃ ptr w₂ w₃, fileRead (diskRead bios) garbage (BitVec.ofNat 32 top) (some path) w₁ = .done ptr w₂ ∧
      ptr ≠ 0 ∧ bytes w₂.mem ptr content.format.clusterBytes = content.volume.fileBytes path ∧
      w₂.free ptr = some w₃ ∧ Mounted lo hi top content drive w w₃ := by
  obtain ⟨c, hc⟩ := hpath.file
  obtain ⟨d, hdisk⟩ : ∃ d, diskAt (BitVec.ofNat 32 top) w₁.mem = d := ⟨_, rfl⟩
  have hid : d.id = drive := hdisk ▸ hm.id
  have htype : d.type = .fat12 := hdisk ▸ hm.type
  have hvolume : d.volume content = content.volume := hdisk ▸ hm.volume
  have hformat : d.info.toFat12 = content.format := congrArg Volume.format hvolume
  have htop := top_toNat (show hi < 2 ^ 32 by omega) (show top ≤ hi by omega)
  have hheld : (⟨BitVec.ofNat 32 top, 44⟩ : Chunk) ∈ w₁.live := hm.live ▸ Set.mem_insert _ _
  have hstart : lo ≤ (BitVec.ofNat 32 top).toNat := (Heap.Inv.inside hm.stacked.toWhole.toInv hheld).1
  have hend : (BitVec.ofNat 32 top).toNat + sizeofDisk ≤ top + 44 := by rw [htop, sizeofDisk]
  have hcard : w₁.live.ncard + 1 < chunkQty := by
    rw [hm.live]
    have := Set.ncard_insert_le (⟨BitVec.ofNat 32 top, 44⟩ : Chunk) w.live
    omega
  have h := fileRead_volume hlo hhi hm.stacked hm.err hcard hstart hend hdisk htype (hid ▸ hb)
    (hvolume ▸ hv) (hformat ▸ hroot) (hformat ▸ hcluster) hpath.length hpath.noNul (hvolume ▸ hpath.sound) garbage
  rw [hvolume, hc] at h
  obtain ⟨ptr, size, w₂, hread, herr, -, hfresh, hlive, hholds, hw, hkept⟩ := h
  have hmem : (⟨ptr, size⟩ : Chunk) ∈ w₂.live := hlive ▸ Set.mem_insert _ _
  obtain ⟨w₃, hfree, hf, hw', herr'⟩ := World.free_of_whole (by omega) (by omega) hw hmem
  have hlive' : w₃.live = w₁.live := by
    rw [hf.live, hlive, Set.insert_sdiff_self_of_notMem hfresh]
  have hsame : diskAt (BitVec.ofNat 32 top) w₃.mem = diskAt (BitVec.ofNat 32 top) w₁.mem := by
    rw [hf.mem]
    exact diskAt_below hstart hend (by omega) hkept
  refine ⟨ptr, w₂, w₃, hread, ?_, ?_, hfree, hm.stacked.of_live hw' hlive', hlive'.trans hm.live,
    herr'.trans herr, hsame ▸ hm.id, hsame ▸ hm.type, hsame ▸ hm.volume⟩
  · rintro rfl
    have hinside := hw.toInv.inside hmem
    simp at hinside
    omega
  · rw [Volume.fileBytes, hc]
    exact List.map_congr_left fun i hi => hholds i (List.mem_range.mp hi)

/-- By induction on the paths. -/
theorem Mounted.readFiles : ∀ {paths : List (List Byte)} {w₁ : World},
    Mounted lo hi top content drive w w₁ → (∀ path ∈ paths, content.volume.FilePath path) →
    ∃ w₂, readFiles (diskRead bios) garbage (BitVec.ofNat 32 top) content.format.clusterBytes paths w₁ =
        some (paths.map content.volume.fileBytes, w₂) ∧ Mounted lo hi top content drive w w₂ := by
  intro paths
  induction paths with
  | nil => exact fun hm _ => ⟨_, rfl, hm⟩
  | cons path paths ih =>
    intro w₁ hm hpaths
    obtain ⟨ptr, w₂, w₃, hread, hne, hbytes, hfree, hm'⟩ :=
      hm.file hlo hhi hb hv hslots hroot hcluster garbage (hpaths path List.mem_cons_self)
    obtain ⟨w₄, hrest, hm''⟩ := ih hm' fun p hp => hpaths p (List.mem_cons_of_mem _ hp)
    refine ⟨w₄, ?_, hm''⟩
    simp only [Installer.readFiles, hread, if_neg hne, hfree, hrest, hbytes, List.map_cons]

/-- All files are read from an open disk, and it is closed. -/
theorem diskOpen_readFiles (hname : content.Named) {data : Word} (hdata : data ≠ 0)
    (hend : data.toNat + 512 < 2 ^ 32) (hdis : ∀ x, InRange data 512 x → ¬ InRange buffer bufferSize x)
    {answer : DriveParams} (hcarry : answer.carry = false) (raw : DiskT)
    (hs : w.state.heap.Stacked lo hi top) (hno : w.state.err = .no) {paths : List (List Byte)}
    (hpaths : ∀ path ∈ paths, content.volume.FilePath path) :
    ∃ disk d w₁ w₂ w₃, diskOpen bios answer data raw drive w = .done (disk, d) w₁ ∧ disk ≠ 0 ∧
      readFiles (diskRead bios) garbage disk content.format.clusterBytes paths (w₁.storeDisk disk d) =
        some (paths.map content.volume.fileBytes, w₂) ∧
      diskClose disk w₂ = some w₃ ∧ w₃.state.err = .no ∧ w₃.live = w.live ∧
      w₃.state.heap.Stacked lo hi top := by
  have htop := top_toNat (show hi < 2 ^ 32 by omega) (show top ≤ hi by omega)
  have hne := top_ne_zero (by omega) (show hi < 2 ^ 32 by omega) hs (show top ≤ hi by omega)
  obtain ⟨d, w₁, hopen, hm⟩ := diskOpen_mounts hb hname hdata hend hdis hcarry raw (by omega) (by omega) hs hno
    (by omega) (by omega)
  obtain ⟨w₂, hread, hm'⟩ := hm.readFiles hlo hhi hb hv hslots hroot hcluster garbage hpaths
  have hmem : (⟨BitVec.ofNat 32 top, 44⟩ : Chunk) ∈ w₂.live := hm'.live ▸ Set.mem_insert _ _
  obtain ⟨w₃, hfree, hstacked, hlive, herr, -⟩ :=
    World.free_top (by omega) (by omega) hm'.stacked hmem htop
  refine ⟨_, d, w₁, w₂, w₃, hopen, hne, hread, ?_, herr.trans hm'.err, ?_, hstacked⟩
  · rw [diskClose, if_neg hne]
    exact hfree
  · rw [hlive, hm'.live, Set.insert_sdiff_self_of_notMem]
    exact top_notMem (by omega) (by omega) hs (by omega) 44

end

theorem sampleContent_volume : sampleContent.volume = floppyDisk.volume sampleContent :=
  congrArg (Volume.mk · sampleContent) (by decide)

theorem samplePath_filePath : sampleContent.volume.FilePath samplePath := by
  rw [sampleContent_volume]
  exact ⟨by decide, by decide, sampleContent_sound, 3, sampleContent_target⟩

theorem samplePath_fileBytes : sampleContent.volume.fileBytes samplePath = List.replicate 512 0x41 := by
  rw [sampleContent_volume, Volume.fileBytes, sampleContent_target]
  refine List.eq_replicate_iff.mpr ⟨?_, fun b hb => ?_⟩
  · rw [List.length_map, List.length_range]
    decide
  · obtain ⟨i, hi, rfl⟩ := List.mem_map.mp hb
    exact sampleContent_file (List.mem_range.mp hi)

theorem diskOpen_readFiles_twice : ∃ disk d w₁ w₂ w₃,
    diskOpen (idealBios sampleContent) ⟨false, 0, 0x4F12, 0x0102⟩ 0x7000 emptyDiskT 0 World.init =
        .done (disk, d) w₁ ∧
      readFiles (diskRead (idealBios sampleContent)) 0 disk 512 [samplePath, samplePath] (w₁.storeDisk disk d) =
        some ([List.replicate 512 0x41, List.replicate 512 0x41], w₂) ∧
      diskClose disk w₂ = some w₃ ∧ w₃.live = ∅ := by
  have hlive : World.init.live = ∅ := Heap.live_allocInit _ _
  have hpaths : ∀ path ∈ [samplePath, samplePath], sampleContent.volume.FilePath path := by
    intro path hp
    rw [List.mem_pair, or_self] at hp
    exact hp ▸ samplePath_filePath
  have hv : sampleContent.volume.Standard 4096 := sampleContent_volume ▸ floppyDisk_standard sampleContent
  have hname : sampleContent.Named := by
    unfold Sectors.Named
    decide
  have hdis : ∀ x, InRange 0x7000 512 x → ¬ InRange buffer bufferSize x := by
    intro x h1 h2
    rw [inRange_iff (by decide)] at h1 h2
    have hbuffer : buffer.toNat = 0xE000 := rfl
    have hdata : (0x7000 : Word).toNat = 0x7000 := rfl
    omega
  obtain ⟨disk, d, w₁, w₂, w₃, hopen, -, hread, hclose, -, hlive', -⟩ :=
    diskOpen_readFiles (show 0x10000 ≤ 0x00100000 by decide) (show 0x001FFFFF + 2 ^ 26 ≤ 2 ^ 32 by decide)
      (idealBios_delivers 0 sampleContent) hv (World.ncard_init_live ▸ by decide) (by decide) (by decide) 0
      hname (show (0x7000 : Word) ≠ 0 by decide) (by decide) hdis
      (show (⟨false, 0, 0x4F12, 0x0102⟩ : DriveParams).carry = false from rfl) emptyDiskT
      World.init_stacked rfl hpaths
  refine ⟨disk, d, w₁, w₂, w₃, hopen, ?_, hclose, hlive'.trans hlive⟩
  rw [List.map_cons, List.map_cons, List.map_nil, samplePath_fileBytes] at hread
  exact hread

end Installer
end Amethyst
