import Amethyst.Installer.CString
import Amethyst.Installer.FatLayout
import Amethyst.Installer.Live

/-!
# Amethyst.Installer.DiskOpen

`disk_open` (`installer/src/sys/disk/disk.c`, `disk_create_fat12` of `fat12.c`,
`disk_get_param_int13` of `disk.asm`). The boot sector is read into a local buffer, the name of the
file system is cut at its first blank, and the drive parameters complete the structure.
`disk_create_fat12` returns nothing, so `disk_create` hands the disk out whatever has become of the
parameters.

`diskOpen_iff`: `disk_open` is all or nothing exactly when it does not come to a FAT12 header with
drive parameters that cannot be read, nor to a name that no blank or NUL ends.
-/

namespace Amethyst
namespace Installer

/-- `fs_type` -/
inductive FsType where
  | unknown
  | fat12
deriving DecidableEq, Repr

/-- `struct fs_fat12`. `volumeLabel` is an array of 12 bytes. -/
structure FsFat12 extends Fat12 where
  sectorCount : BitVec 16
  sectorPerTrack : BitVec 16
  headCount : BitVec 16
  bootSignature : BitVec 8
  volumeId : BitVec 32
  volumeLabel : List Byte
deriving DecidableEq, Repr

/-- `struct disk_s` -/
structure DiskT where
  id : BitVec 8
  type : FsType
  info : FsFat12
deriving DecidableEq, Repr

/-- What the FAT12 reader uses of it. -/
def DiskT.fat12 (disk : DiskT) : Disk := ⟨disk.id, disk.info.toFat12⟩

/-- What the BIOS answers to AH = 08h: the carry flag, AL, CX and DX. -/
structure DriveParams where
  carry : Bool
  al : BitVec 8
  cx : BitVec 16
  dx : BitVec 16
deriving DecidableEq, Repr

/-- The status, and what is stored through the two pointers, if anything. -/
def diskGetParamInt13 (bios : Bios) (answer : DriveParams) (drive : BitVec 8) (w : World) :
    BitVec 8 × Option (BitVec 16 × BitVec 16) × World :=
  match w.int13 bios (.reset drive) with
  | (true, w) => (dataSeg, none, w)
  | (false, w) =>
    -- `status` is AL as the BIOS left it
    if answer.carry then (answer.al, none, w)
    else
      let spt := (answer.cx.setWidth 8 &&& 0x3F).setWidth 16
      let head := (answer.dx.extractLsb' 8 8 + 1).setWidth 16
      (0, some (spt, head), w)

/-- `disk_create_fat12`, with the address of the header. -/
def diskCreateFat12 (bios : Bios) (answer : DriveParams) (disk : DiskT) (header : Word) (w : World) :
    DiskT × World :=
  let disk := { disk with type := .fat12 }
  match diskGetParamInt13 bios answer disk.id w with
  | (status, params, w) =>
    let (spt, head) := params.getD (disk.info.sectorPerTrack, disk.info.headCount)
    let disk := { disk with info := { disk.info with sectorPerTrack := spt, headCount := head } }
    if status ≠ 0 then (disk, w.setErr .invarg)
    else
      let m := w.mem
      -- `*header->fs_type = 0` ends the label for `strcpy`
      let m' := Function.update m (header + 54) 0
      let label := cString m' addressSpace (header + 43)
      let info : FsFat12 :=
        { bytesPerSector := m.read16 (header + 11)
          sectorPerCluster := m (header + 13)
          reservedSectorCount := m.read16 (header + 14)
          fatCount := m (header + 16)
          maxRootEntryCount := m.read16 (header + 17)
          sectorCount := m.read16 (header + 19)
          sectorPerFat := m.read16 (header + 22)
          sectorPerTrack := spt
          headCount := head
          bootSignature := m (header + 38)
          volumeId := m.read32 (header + 39)
          volumeLabel := label ++ disk.info.volumeLabel.drop label.length }
      ({ disk with info }, { w with mem := m' })

/-- `"FAT12"` -/
def fat12Name : List Byte := [0x46, 0x41, 0x54, 0x31, 0x32]

/-- `disk_read_failure`: the statuses that count as I/O errors. -/
def readFailureErr (status : BitVec 8) : Err :=
  if status ∈ [(0x40 : BitVec 8), 0x05, 0x10, 0x20, 0xAA] then .io else .internal

/-- `disk_failure_finalize` -/
def diskFailureFinalize (disk : Word) (d : DiskT) (w : World) : Result (Word × DiskT) :=
  match w.free disk with
  | none => .lost w
  | some w => .done (0, d) w

/-- `disk_create`. `data` is the address of the local union and `raw` what the new block holds. -/
def diskCreate (bios : Bios) (answer : DriveParams) (data : Word) (raw : DiskT) (drive : BitVec 8)
    (w : World) : Result (Word × DiskT) :=
  let (disk, w) := w.malloc 44
  if disk = 0 then .done (0, raw) w
  else
    let d := { raw with id := drive, type := .unknown }
    let (status, w) := Installer.diskRead bios drive data 1 0 w
    if status ≠ 0 then diskFailureFinalize disk d (w.setErr (readFailureErr status))
    else
      let fsType := data + 54
      match strchr w.mem 0x20 addressSpace fsType with
      | none => .lost w
      | some space =>
        if space = 0 then diskFailureFinalize disk d (w.setErr .unknfs)
        else
          let w := { w with mem := Function.update w.mem space 0 }
          if strcmp (cString w.mem addressSpace fsType) fat12Name = 0 then
            let (d, w) := diskCreateFat12 bios answer d data w
            .done (disk, d) w
          else diskFailureFinalize disk d (w.setErr .unknfs)

def diskOpen (bios : Bios) (answer : DriveParams) (data : Word) (raw : DiskT) (drive : BitVec 8)
    (w : World) : Result (Word × DiskT) :=
  diskCreate bios answer data raw drive w

/-! ## The name of the file system -/

def fsTypeByte (i : Nat) : Byte := (fat12Name ++ [0x20]).getD i 0

/-- The name at `fsType`, up to its first blank, is FAT12. -/
def IsFat12 (m : Mem 32) (fsType : Word) : Prop := m.Holds fsType 6 fsTypeByte

theorem fat12Name_no_nul : 0 ∉ fat12Name := by decide

theorem fsTypeByte_lt : ∀ i < 5, fsTypeByte i ≠ 0x20 ∧ fsTypeByte i ≠ 0 ∧
    fat12Name.getD i 0 = fsTypeByte i := by decide

section

variable {m : Mem 32} {fsType space : Word} (h : strchr m 0x20 addressSpace fsType = some space)
include h

/-- The blank that `strchr` finds in a FAT12 header is the one after the name. -/
theorem IsFat12.space_eq (hm : IsFat12 m fsType) : space = fsType + BitVec.ofNat 32 5 := by
  obtain ⟨i, -, hbefore, hend⟩ := strchr_some h
  have h5 : m (fsType + BitVec.ofNat 32 5) = 0x20 := hm 5 (by decide)
  rcases Nat.lt_trichotomy i 5 with hlt | rfl | hgt
  · have hi := hm i (by omega)
    obtain ⟨h1, h2, -⟩ := fsTypeByte_lt i hlt
    rw [← hi] at h1 h2
    cases hend with
    | inl hend => exact absurd hend.1 h1
    | inr hend => exact absurd hend.2.1 h2
  · cases hend with
    | inl hend => exact hend.2
    | inr hend => exact absurd h5 hend.1
  · exact absurd h5 (hbefore 5 hgt).1

/-- Once the blank is overwritten, the string compares equal to `"FAT12"` exactly when it is that
name. -/
theorem isFat12_iff (hne : space ≠ 0) :
    strcmp (cString (Function.update m space 0) addressSpace fsType) fat12Name = 0 ↔
      IsFat12 m fsType := by
  rw [strcmp_eq_zero (cString_no_nul _ _ _) fat12Name_no_nul,
    cString_eq_iff fat12Name_no_nul (by decide)]
  have hlen : fat12Name.length = 5 := rfl
  have hinj : ∀ i j, i < 2 ^ 32 → j < 2 ^ 32 →
      fsType + BitVec.ofNat 32 i = fsType + BitVec.ofNat 32 j → i = j := fun i j hi hj he =>
    add_ofNat_inj hi hj he
  constructor
  · intro hs
    obtain ⟨hname, hzero⟩ := hs
    obtain ⟨i, hi, hbefore, hend⟩ := strchr_some h
    have hi' : i < 2 ^ 32 := hi
    obtain ⟨hblank, rfl⟩ := hend.resolve_right fun hr => hne hr.2.2
    rw [hlen] at hname hzero
    have hi5 : i = 5 := by
      rcases Nat.lt_trichotomy i 5 with hlt | he | hgt
      · have hbyte := hname i hlt
        rw [Function.update_self] at hbyte
        obtain ⟨-, h2, h3⟩ := fsTypeByte_lt i hlt
        exact absurd (h3.symm.trans hbyte.symm) h2
      · exact he
      · rw [Function.update_of_ne fun he => absurd (hinj 5 i (by decide) hi' he) (by omega)] at hzero
        exact absurd hzero (hbefore 5 hgt).2
    subst hi5
    intro k hk
    by_cases hk5 : k = 5
    · rw [hk5]
      exact hblank
    · have hbyte := hname k (by omega)
      rw [Function.update_of_ne fun he => hk5 (hinj k 5 (by omega) (by decide) he)] at hbyte
      exact hbyte.trans (fsTypeByte_lt k (by omega)).2.2
  · intro hm
    have hspace := hm.space_eq h
    subst hspace
    refine ⟨fun i hi => ?_, Function.update_self _ _ _⟩
    rw [hlen] at hi
    rw [Function.update_of_ne fun he => absurd (hinj i 5 (by omega) (by decide) he) (by omega)]
    exact (hm i (by omega)).trans (fsTypeByte_lt i hi).2.2.symm

end

/-! ## All or nothing -/

/-- The reset and the call with AH = 08h both leave the carry flag clear. -/
def ParamsRead (bios : Bios) (answer : DriveParams) (drive : BitVec 8) (w : World) : Prop :=
  (w.int13 bios (.reset drive)).1 = false ∧ answer.carry = false

/-- The world once the disk is allocated and the header has been asked for. -/
def headerWorld (bios : Bios) (data : Word) (drive : BitVec 8) (w : World) : World :=
  (Installer.diskRead bios drive data 1 0 (w.malloc 44).2).2

/-- The blank after FAT12 is overwritten. -/
def cutName (data : Word) (w : World) : World :=
  { w with mem := Function.update w.mem (data + 59) 0 }

/-- The header was read, is one of FAT12, and the drive parameters were read. -/
structure Opened (bios : Bios) (answer : DriveParams) (data : Word) (drive : BitVec 8) (w : World) :
    Prop where
  header : (Installer.diskRead bios drive data 1 0 (w.malloc 44).2).1 = 0
  fat12 : IsFat12 (headerWorld bios data drive w).mem (data + 54)
  params : ParamsRead bios answer drive (cutName data (headerWorld bios data drive w))

/-- `disk_open` returns a disk only when everything succeeded, with `_err` as it was, and otherwise
`NULL`, an error and no block of its own. -/
def AllOrNothing (bios : Bios) (answer : DriveParams) (data : Word) (raw : DiskT) (drive : BitVec 8)
    (w : World) : Prop :=
  ∃ ptr d w', diskOpen bios answer data raw drive w = .done (ptr, d) w' ∧
    (ptr ≠ 0 → Opened bios answer data drive w ∧ w'.state.err = w.state.err) ∧
    (ptr = 0 → w'.state.err ≠ .no ∧ w'.live = w.live)

section

variable {lo hi : Nat} (hlo : 0 < lo) (hhi : hi < 2 ^ 32)
include hlo hhi

/-- The failure exits of `disk_create` give the block back and keep some error. -/
theorem diskFailureFinalize_spec {w w₁ w₂ : World} {c : Chunk} (hg : Granted lo hi w c w₁)
    (hheap : w₂.state.heap = w₁.state.heap) (herr : w₂.state.err ≠ .no) (d : DiskT) :
    ∃ w', diskFailureFinalize c.start d w₂ = .done (0, d) w' ∧ w'.state.err ≠ .no ∧
      w'.live = w.live := by
  have hlive : w₂.live = insert c w.live := by
    rw [World.live, hheap]
    exact hg.live
  obtain ⟨w', e, hf⟩ := World.free_spec hlo hhi (w := w₂) (hheap ▸ hg.inv) (c := c)
    (hlive ▸ Set.mem_insert c w.live)
  refine ⟨w', by simp only [diskFailureFinalize, e], ?_, ?_⟩
  · by_cases hno : w₂.state.heap.NoPlace c
    · rw [hf.noPlace hno]
      decide
    · rw [hf.place hno]
      exact herr
  · rw [hf.live, hlive, Set.insert_sdiff_self_of_notMem hg.fresh]

end

theorem readFailureErr_ne_no (status : BitVec 8) : readFailureErr status ≠ .no := by
  unfold readFailureErr
  split
  · decide
  · decide

/-- `disk_create_fat12` keeps `_err` when the parameters are read. -/
theorem diskCreateFat12_err {bios : Bios} {answer : DriveParams} {disk : DiskT} {w : World}
    (h : ParamsRead bios answer disk.id w) (header : Word) :
    (diskCreateFat12 bios answer disk header w).2.state.err = w.state.err := by
  obtain ⟨hreset, hcarry⟩ := h
  obtain ⟨carry, w₁, e⟩ : ∃ carry w₁, w.int13 bios (.reset disk.id) = (carry, w₁) := ⟨_, _, rfl⟩
  have hstate : w₁.state = w.state := congrArg (World.state ∘ Prod.snd) e.symm
  rw [e] at hreset
  cases hreset
  simp [diskCreateFat12, diskGetParamInt13, e, hcarry, hstate]

/-! ## The exits of `disk_create` -/

section

variable {bios : Bios} (answer : DriveParams) {data : Word} (raw : DiskT) {drive : BitVec 8}
  {w w₁ w₂ : World} {ptr : Word} {status : BitVec 8} (e : w.malloc 44 = (ptr, w₁)) (hptr : ptr ≠ 0)
include e hptr

theorem diskOpen_header_failure (e₂ : Installer.diskRead bios drive data 1 0 w₁ = (status, w₂))
    (hs : status ≠ 0) :
    ∃ d w₃, diskOpen bios answer data raw drive w = diskFailureFinalize ptr d w₃ ∧
      w₃.state.heap = w₂.state.heap ∧ w₃.state.err ≠ .no := by
  refine ⟨{ raw with id := drive, type := .unknown }, w₂.setErr (readFailureErr status), ?_, rfl,
    readFailureErr_ne_no status⟩
  simp only [diskOpen, diskCreate, e, e₂, if_neg hptr, if_pos hs]

variable (e₂ : Installer.diskRead bios drive data 1 0 w₁ = (0, w₂))
include e₂

/-- No blank and no NUL ends the name: `strchr` never returns. -/
theorem diskOpen_endless (hstr : strchr w₂.mem 0x20 addressSpace (data + 54) = none) :
    diskOpen bios answer data raw drive w = .lost w₂ := by
  have hok : ¬ (0 : BitVec 8) ≠ 0 := fun h => h rfl
  simp only [diskOpen, diskCreate, e, e₂, if_neg hptr, if_neg hok, hstr]

variable {space : Word} (hstr : strchr w₂.mem 0x20 addressSpace (data + 54) = some space)
include hstr

theorem diskOpen_unknown_fs (hm : ¬ IsFat12 w₂.mem (data + 54)) :
    ∃ d w₃, diskOpen bios answer data raw drive w = diskFailureFinalize ptr d w₃ ∧
      w₃.state.heap = w₂.state.heap ∧ w₃.state.err ≠ .no := by
  have hok : ¬ (0 : BitVec 8) ≠ 0 := fun h => h rfl
  by_cases h0 : space = 0
  · refine ⟨{ raw with id := drive, type := .unknown }, w₂.setErr .unknfs, ?_, rfl, by simp⟩
    simp only [diskOpen, diskCreate, e, e₂, if_neg hptr, if_neg hok, hstr, if_pos h0]
  · have hname := mt (isFat12_iff hstr h0).mp hm
    refine ⟨{ raw with id := drive, type := .unknown },
      World.setErr { w₂ with mem := Function.update w₂.mem space 0 } .unknfs, ?_, rfl, by simp⟩
    simp only [diskOpen, diskCreate, e, e₂, if_neg hptr, if_neg hok, hstr, if_neg h0, if_neg hname]

variable (hend : data.toNat + 512 < 2 ^ 32) (hm : IsFat12 w₂.mem (data + 54))
include hend hm

/-- A FAT12 disk is returned, whatever `disk_create_fat12` has run into. -/
theorem diskOpen_fat12 {d : DiskT} (hd : d = { raw with id := drive, type := .unknown }) :
    diskOpen bios answer data raw drive w =
      .done (ptr, (diskCreateFat12 bios answer d data (cutName data w₂)).1)
        (diskCreateFat12 bios answer d data (cutName data w₂)).2 := by
  have hok : ¬ (0 : BitVec 8) ≠ 0 := fun h => h rfl
  have hspace : space = data + 59 := by
    have := hm.space_eq hstr
    bv_omega
  subst hspace
  have h0 : data + 59 ≠ 0 := by bv_omega
  have hname := (isFat12_iff hstr h0).mpr hm
  subst hd
  simp only [diskOpen, diskCreate, e, e₂, if_neg hptr, if_neg hok, hstr, if_neg h0, if_pos hname,
    cutName]

theorem not_allOrNothing (hp : ¬ ParamsRead bios answer drive (cutName data w₂)) :
    ¬ AllOrNothing bios answer data raw drive w := by
  intro h
  obtain ⟨ptr', d', w', ho', hdone, -⟩ := h
  rw [diskOpen_fat12 answer raw e hptr e₂ hstr hend hm rfl] at ho'
  cases ho'
  have hparams := (hdone hptr).1.params
  simp only [headerWorld, e, e₂] at hparams
  exact hp hparams

end

section

variable {lo hi : Nat} (hlo : 0 < lo) (hhi : hi < 2 ^ 32)
include hlo hhi

/-- `disk_open` is all or nothing exactly when, once the disk is allocated and the header is read,
the name of the file system comes to an end and, if it is FAT12, the drive parameters are read. -/
theorem diskOpen_iff {w : World} (hinv : w.state.heap.Inv lo hi) {data : Word} (hdata : data ≠ 0)
    (hend : data.toNat + 512 < 2 ^ 32) (bios : Bios) (answer : DriveParams) (raw : DiskT)
    (drive : BitVec 8) :
    AllOrNothing bios answer data raw drive w ↔
      ((w.malloc 44).1 ≠ 0 → (Installer.diskRead bios drive data 1 0 (w.malloc 44).2).1 = 0 →
        strchr (headerWorld bios data drive w).mem 0x20 addressSpace (data + 54) ≠ none ∧
          (IsFat12 (headerWorld bios data drive w).mem (data + 54) →
            ParamsRead bios answer drive (cutName data (headerWorld bios data drive w)))) := by
  rcases World.malloc_spec hlo hhi hinv 44 with ⟨w₁, e, hr⟩ | ⟨ptr, w₁, e, hg⟩
  · rw [e]
    refine iff_of_true ⟨0, raw, w₁, ?_, fun h => absurd rfl h, fun _ => ⟨hr.err, hr.live⟩⟩
      fun h => absurd rfl h
    simp only [diskOpen, diskCreate, e, if_true]
  have hptr : ptr ≠ 0 := hg.ne_zero
  have hstate := @diskRead_state bios drive data 1 hdata hend 0 w₁
  obtain ⟨⟨status, w₂⟩, e₂⟩ : ∃ r, Installer.diskRead bios drive data 1 0 w₁ = r := ⟨_, rfl⟩
  have hheader : headerWorld bios data drive w = w₂ := by simp only [headerWorld, e, e₂]
  simp only [hheader, e, e₂]
  rw [e₂] at hstate
  -- a failure exit is all the property asks for
  have hfail : (∃ d w₃, diskOpen bios answer data raw drive w = diskFailureFinalize ptr d w₃ ∧
      w₃.state.heap = w₂.state.heap ∧ w₃.state.err ≠ .no) →
      AllOrNothing bios answer data raw drive w := by
    intro h
    obtain ⟨d, w₃, ho, hheap, herr⟩ := h
    obtain ⟨w', e', herr', hlive⟩ := diskFailureFinalize_spec hlo hhi hg
      (hheap.trans (congrArg State.heap hstate)) herr d
    exact ⟨0, d, w', ho.trans e', fun h => absurd rfl h, fun _ => ⟨herr', hlive⟩⟩
  by_cases hs : status = 0
  · subst hs
    cases hstr : strchr w₂.mem 0x20 addressSpace (data + 54) with
    | none =>
      refine iff_of_false ?_ fun h => (h hptr rfl).1 rfl
      intro h
      obtain ⟨ptr', d', w', ho, -⟩ := h
      rw [diskOpen_endless answer raw e hptr e₂ hstr] at ho
      cases ho
    | some space =>
      by_cases hm : IsFat12 w₂.mem (data + 54)
      · by_cases hp : ParamsRead bios answer drive (cutName data w₂)
        · refine iff_of_true ?_ fun _ _ => ⟨by simp, fun _ => hp⟩
          have ho := diskOpen_fat12 answer raw e hptr e₂ hstr hend hm rfl
          refine ⟨ptr, _, _, ho, fun _ => ⟨⟨by rw [e, e₂], hheader ▸ hm, hheader ▸ hp⟩, ?_⟩,
            fun h0 => absurd h0 hptr⟩
          rw [diskCreateFat12_err hp]
          exact (congrArg State.err hstate).trans hg.err
        · exact iff_of_false (not_allOrNothing answer raw e hptr e₂ hstr hend hm hp)
            fun h => hp ((h hptr rfl).2 hm)
      · exact iff_of_true (hfail (diskOpen_unknown_fs answer raw e hptr e₂ hstr hm))
          fun _ _ => ⟨by simp, fun h => absurd h hm⟩
  · exact iff_of_true (hfail (diskOpen_header_failure answer raw e hptr e₂ hs)) fun _ h => absurd h hs

end

/-- A disk whose sectors all have the name FAT12 where the header has it. -/
def namedDisk : Sectors := fun _ i => if 54 ≤ i ∧ i < 60 then fsTypeByte (i - 54) else 0

def emptyDiskT : DiskT := ⟨0, .unknown, ⟨⟨0, 0, 0, 0, 0, 0⟩, 0, 0, 0, 0, 0, List.replicate 12 0⟩⟩

theorem diskOpen_iff_init :
    AllOrNothing (idealBios namedDisk) ⟨false, 0, 0x4F12, 0x0102⟩ 0x7000 emptyDiskT 0 World.init ↔
      ((World.init.malloc 44).1 ≠ 0 → (Installer.diskRead (idealBios namedDisk) 0 0x7000 1 0
          (World.init.malloc 44).2).1 = 0 →
        strchr (headerWorld (idealBios namedDisk) 0x7000 0 World.init).mem 0x20 addressSpace
            (0x7000 + 54) ≠ none ∧
          (IsFat12 (headerWorld (idealBios namedDisk) 0x7000 0 World.init).mem (0x7000 + 54) →
            ParamsRead (idealBios namedDisk) ⟨false, 0, 0x4F12, 0x0102⟩ 0
              (cutName 0x7000 (headerWorld (idealBios namedDisk) 0x7000 0 World.init)))) :=
  diskOpen_iff (by decide) (by decide) World.init_inv (by decide) (by decide) _ _ _ _

/-- The header of such a disk, read after the `disk_t` is taken. -/
theorem namedDisk_header : ∃ w₁ w₂ space, World.init.malloc 44 = (0x00100000, w₁) ∧
    Installer.diskRead (idealBios namedDisk) 0 0x7000 1 0 w₁ = (0, w₂) ∧ w₂.state = w₁.state ∧
    w₂.mem.Holds 0x7000 512 (namedDisk 0) ∧ IsFat12 w₂.mem (0x7000 + 54) ∧
    strchr w₂.mem 0x20 addressSpace (0x7000 + 54) = some space := by
  obtain ⟨⟨ptr, w₁⟩, e⟩ : ∃ r, World.init.malloc 44 = r := ⟨_, rfl⟩
  have hptr : ptr = 0x00100000 := by
    have h := @malloc_allocInit 0x00100000 0x000FFFFF 44 .no (by decide) (by decide)
    exact (congrArg Prod.fst e).symm.trans h
  obtain ⟨w₂, e₂, hstate, hmem⟩ := @diskRead_direct 0x7000 1 (by decide) 0 namedDisk _
    (idealBios_delivers 0 namedDisk) (by decide) 0 w₁
  have hbytes : w₂.mem.Holds 0x7000 512 (namedDisk 0) := by
    intro i hi
    have h := hmem 0 (by decide) i hi
    rw [Nat.mul_zero, Nat.zero_add] at h
    exact h
  have hm : IsFat12 w₂.mem (0x7000 + 54) := by
    intro i hi
    have haddr : (0x7000 : Word) + 54 + BitVec.ofNat 32 i = 0x7000 + BitVec.ofNat 32 (54 + i) := by
      rw [← add_add_ofNat]
      rfl
    rw [haddr, hbytes _ (by omega), namedDisk, if_pos (by omega), Nat.add_sub_cancel_left]
  cases hstr : strchr w₂.mem 0x20 addressSpace (0x7000 + 54) with
  | none => exact absurd hstr (strchr_ne_none (i := 5) (by decide) (hm 5 (by decide)))
  | some space => exact ⟨w₁, w₂, space, by rw [e, hptr], e₂, hstate, hbytes, hm, hstr⟩

/-- A disk is returned although the drive parameters cannot be read, whatever AL is. -/
theorem diskOpen_params_failure : ¬ ∃ al : BitVec 8,
    AllOrNothing (idealBios namedDisk) ⟨true, al, 0, 0⟩ 0x7000 emptyDiskT 0 World.init := by
  intro ⟨al, hall⟩
  obtain ⟨w₁, w₂, space, e, e₂, -, -, hm, hstr⟩ := namedDisk_header
  exact not_allOrNothing ⟨true, al, 0, 0⟩ emptyDiskT e (by decide) e₂ hstr (by decide) hm
    (fun hp => Bool.noConfusion hp.2) hall

end Installer
end Amethyst
