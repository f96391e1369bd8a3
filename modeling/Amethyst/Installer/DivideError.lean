import Amethyst.Installer.Checked
import Amethyst.Installer.Loading

/-!
# Amethyst.Installer.DivideError

Divisions by `bytes_per_sector`. `disk_create_fat12` takes the field from the header as it is, and the
processor stops a division by zero.

A disk with sectors of 0 bytes has FATs of 0 bytes, which `malloc` refuses, so a path is given up
before anything is divided. The root directory is read without the FATs. The field of a mounted disk can
also become zero later, when the last copy of a `disk_read` reaches the `disk_t`.

`reader_stopped_iff`: as long as no transfer of a call on a mounted disk reaches the `disk_t`, the call
divides by zero exactly when it opens the root directory of a disk with sectors of 0 bytes.
-/

namespace Amethyst
namespace Installer

namespace Checked

/-! ## Sectors of 0 bytes -/

section

variable {disk : DiskPtr} {w : World} (h : (disk w.mem).info.bytesPerSector = 0) (dr : DiskRead)
  (garbage : Word)
include h

theorem fat12ReadFats_refused : fat12ReadFats dr (some (disk w.mem).fat12) w = (0, w.setErr .invarg) := by
  have hsize : (disk w.mem).info.bytesPerSector.setWidth 32 *
      (disk w.mem).info.sectorPerFat.setWidth 32 * (disk w.mem).info.fatCount.setWidth 32 = (0 : Word) := by
    rw [h]
    simp
  simp only [fat12ReadFats, DiskT.fat12, hsize, World.malloc_zero_bytes, if_true]

/-- The root directory is read without the FATs: its size is the first thing computed. -/
theorem readRoot_stopped : readRoot dr garbage disk w = divideError w := by
  simp only [readRoot, fat12ReadRootDirectory, DiskT.fat12, h, divide]
  rfl

theorem fat12ReadDirectory_refused (pEntry : Word) (dirname : List Byte) (w' : World) :
    fat12ReadDirectory dr garbage pEntry disk dirname w ≠ divideError w' := by
  have herr : (w.setErr .invarg).state.err ≠ .no := by simp
  simp only [fat12ReadDirectory, fat12ReadFats_refused h, if_pos herr]
  split <;> exact ok_ne_divideError _ w'

theorem fat12FileRead_refused (filename : List Byte) (w' : World) :
    fat12FileRead dr garbage (some disk) (some filename) w ≠ divideError w' := by
  have herr : (w.setErr .invarg).state.err ≠ .no := by simp
  simp only [fat12FileRead, fat12ReadFats_refused h, if_pos herr]
  split
  · exact ok_ne_divideError _ w'
  · split <;> exact ok_ne_divideError _ w'

end

end Checked

/-! ## Transfers apart from the `disk_t` -/

/-- All that the copies of a transfer write lies apart from the `disk_t` at `ptr`. -/
structure Request.Spares (t : Request) (ptr : Word) : Prop where
  dest : t.ptr ≠ 0
  ends : t.ptr.toNat + copied t.count < 2 ^ 32
  apart : t.ptr.toNat + copied t.count ≤ ptr.toNat ∨ ptr.toNat + sizeofDisk ≤ t.ptr.toNat

theorem diskRead_diskAt {bios : Bios} (hc : Confined bios) {ptr : Word} (hlow : 0xF000 ≤ ptr.toNat)
    (hhigh : ptr.toNat + sizeofDisk ≤ 2 ^ 32) {t : Request} (ht : t.Spares ptr) (w : World) :
    diskAt ptr (diskRead bios t.drive t.ptr t.count t.lba w).2.mem = diskAt ptr w.mem := by
  have hsize : sizeofDisk = 44 := rfl
  refine diskAt_congr fun i hi => ?_
  have haddr : (ptr + BitVec.ofNat 32 i).toNat = ptr.toNat + i := toNat_add_ofNat (by omega)
  refine diskRead_frame hc ht.dest ht.ends ?_ ?_ _ _ _
  · have hends := ht.ends
    have hapart := ht.apart
    rw [inRange_iff (by omega)]
    omega
  · have hbuf : buffer.toNat = 0xE000 := rfl
    rw [bufferSize_eq, inRange_iff (by omega)]
    omega

/-- `bytes_per_sector` after the transfers `ts`, if they spared the `disk_t`. -/
def FieldKept (ptr : Word) (w w' : World) : Prop :=
  ∃ ts, w'.reads = w.reads ++ ts ∧ ((∀ t ∈ ts, t.Spares ptr) →
    (diskAt ptr w'.mem).info.bytesPerSector = (diskAt ptr w.mem).info.bytesPerSector)

theorem fieldKept_kept {bios : Bios} (hc : Confined bios) {ptr : Word} (hlow : 0xF000 ≤ ptr.toNat)
    (hhigh : ptr.toNat + sizeofDisk ≤ 2 ^ 32) (w₀ : World) : Kept (diskRead bios) (FieldKept ptr w₀) where
  setErr _ _ h := h
  malloc _ _ h := h
  free w p w' h hfree := by
    obtain ⟨s, -, rfl⟩ := Option.map_eq_some_iff.mp hfree
    exact h
  diskRead w drive p count lba h := by
    obtain ⟨ts, hts, hkept⟩ := h
    refine ⟨ts ++ [⟨drive, p, count, lba⟩], ?_, fun hspares => ?_⟩
    · simp [World.diskRead, hts]
    · have hlast : Request.Spares ⟨drive, p, count, lba⟩ ptr := hspares _ (by simp)
      rw [← hkept fun t ht => hspares t (by simp [ht]), ← diskRead_diskAt hc hlow hhigh hlast w]
      rfl

/-! ## Calls of the reader -/

/-- A call of the reader with its path. -/
inductive ReaderCall where
  | fileRead (filename : Option (List Byte))
  | dirOpen (dirname : Option (List Byte))
deriving DecidableEq, Repr

/-- The call on the disk at `ptr` executes a division by zero, in the world `w'`. -/
def ReaderCall.StoppedAt (dr : DiskRead) (garbage ptr : Word) (w w' : World) : ReaderCall → Prop
  | .fileRead filename => Checked.fileRead dr garbage ptr filename w = .divideError w'
  | .dirOpen dirname => Checked.dirOpen dr garbage ptr dirname w = .divideError w'

/-- The call opens the root directory. -/
def ReaderCall.OpensRoot : ReaderCall → Prop
  | .fileRead _ => False
  | .dirOpen dirname => ∀ name ∈ dirname, strcmp name rootName = 0

section

variable (dr : DiskRead) (garbage : Word) {ptr : Word}

open Checked

theorem fat12DirOpen_stopped_iff (hptr : ptr ≠ 0) {dir : Word} {w : World} (htype : (diskAt ptr w.mem).type = .fat12)
    (hdir : dir ≠ 0) (dirname : Option (List Byte)) (w' : World) :
    Checked.fat12DirOpen dr garbage (diskPtr ptr) dir dirname w = .divideError w' ↔
      Checked.readEntries dr garbage (diskAt ptr) dirname w = .divideError w' := by
  have hguard : ¬ ((diskAt ptr w.mem).type ≠ .fat12 ∨ dir = 0) := fun h => h.elim (fun h => h htype) hdir
  rw [diskPtr_of_ne_zero hptr, Checked.fat12DirOpen, if_neg hguard]
  refine bind_eq_divideError fun r => ?_
  cases r with
  | lost w => exact ok_ne_divideError _ w'
  | done entries w =>
    simp only
    split
    · exact ok_ne_divideError _ w'
    · split
      · exact ok_ne_divideError _ w'
      · split
        · exact ok_ne_divideError _ w'
        · split
          · exact ok_ne_divideError _ w'
          · split <;> exact ok_ne_divideError _ w'

theorem readEntries_stopped_iff {w : World} (h : (diskAt ptr w.mem).info.bytesPerSector = 0)
    (dirname : Option (List Byte)) (w' : World) :
    Checked.readEntries dr garbage (diskAt ptr) dirname w = .divideError w' ↔
      (ReaderCall.dirOpen dirname).OpensRoot ∧ w' = w := by
  have hroot : Checked.readRoot dr garbage (diskAt ptr) w = .divideError w' ↔ w' = w := by
    rw [readRoot_stopped h]
    exact ⟨fun he => (Checked.divideError.inj he).symm, fun he => he ▸ rfl⟩
  cases dirname with
  | none => exact hroot.trans (and_iff_right fun name h => absurd h (Option.not_mem_none name)).symm
  | some dirname =>
    simp only [Checked.readEntries, ReaderCall.OpensRoot, Option.mem_some_iff, forall_eq']
    split
    · rename_i he
      exact hroot.trans (and_iff_right he).symm
    · rename_i hne
      exact iff_of_false (fat12ReadDirectory_refused h dr garbage garbage dirname w') fun h => hne h.1

/-- The `disk_t` is a live block, so the `dir_t` is apart from it. -/
theorem diskAt_dir {lo hi : Nat} (hlo : 0 < lo) (hhi : hi < 2 ^ 32) {w : World}
    (hinv : w.state.heap.Inv lo hi) (hlive : (⟨ptr, 44⟩ : Chunk) ∈ w.live)
    (hdir : (w.malloc dirSize).1 ≠ 0) :
    diskAt ptr ((w.malloc dirSize).2.store32 (w.malloc dirSize).1 ptr).mem = diskAt ptr w.mem := by
  rcases World.malloc_spec hlo hhi hinv dirSize with ⟨w₁, e, -⟩ | ⟨dir, w₁, e, hg⟩
  · rw [e] at hdir
    exact absurd rfl hdir
  rw [e]
  refine diskAt_congr fun i hi => ?_
  have hx : InRange ptr (44 : Word).toNat (ptr + BitVec.ofNat 32 i) :=
    (inRange_add (Nat.lt_trans hi (by decide))).mpr hi
  have hne : (⟨ptr, 44⟩ : Chunk) ≠ ⟨dir, dirSize⟩ := by
    rintro he
    exact hg.fresh (he ▸ hlive)
  have hapart := live_apart hhi hg.inv (hg.live ▸ Set.mem_insert_of_mem _ hlive)
    (hg.live ▸ Set.mem_insert _ _) hne hx
  rw [World.store32_mem, Mem.write32_frame fun h => hapart (h.mono (show 4 ≤ dirSize.toNat by decide)), hg.mem]

theorem dirOpen_stopped_iff (hptr : ptr ≠ 0) {lo hi : Nat} (hlo : 0 < lo) (hhi : hi < 2 ^ 32) {w : World}
    (hinv : w.state.heap.Inv lo hi) (hlive : (⟨ptr, 44⟩ : Chunk) ∈ w.live)
    (htype : (diskAt ptr w.mem).type = .fat12) (dirname : Option (List Byte)) (w' : World) :
    Checked.dirOpen dr garbage ptr dirname w = .divideError w' ↔ (w.malloc dirSize).1 ≠ 0 ∧
      Checked.readEntries dr garbage (diskAt ptr) dirname
        ((w.malloc dirSize).2.store32 (w.malloc dirSize).1 ptr) = .divideError w' := by
  have hdisk := fun h => diskAt_dir hlo hhi hinv hlive h
  simp only [Checked.dirOpen]
  obtain ⟨⟨dir, w₁⟩, e⟩ : ∃ r, w.malloc dirSize = r := ⟨_, rfl⟩
  rw [e] at hdisk ⊢
  by_cases hdir : dir = 0
  · rw [if_pos hdir]
    exact iff_of_false (ok_ne_divideError _ w') fun h => h.1 hdir
  have htype' : (diskAt ptr (w₁.store32 dir ptr).mem).type = .fat12 := (hdisk hdir) ▸ htype
  simp only [htype', ne_eq, hdir, not_false_eq_true, true_and]
  exact fat12DirOpen_stopped_iff dr garbage hptr htype' hdir dirname w'

/-- With sectors of 0 bytes. -/
theorem stoppedAt_iff_of_zero (hptr : ptr ≠ 0) {lo hi : Nat} (hlo : 0 < lo) (hhi : hi < 2 ^ 32) {w : World}
    (hinv : w.state.heap.Inv lo hi) (hlive : (⟨ptr, 44⟩ : Chunk) ∈ w.live)
    (htype : (diskAt ptr w.mem).type = .fat12) (h : (diskAt ptr w.mem).info.bytesPerSector = 0)
    (call : ReaderCall) (w' : World) :
    call.StoppedAt dr garbage ptr w w' ↔ (w.malloc dirSize).1 ≠ 0 ∧ call.OpensRoot ∧
      w' = (w.malloc dirSize).2.store32 (w.malloc dirSize).1 ptr := by
  cases call with
  | fileRead filename =>
    refine iff_of_false ?_ fun hr => hr.2.1
    simp only [ReaderCall.StoppedAt, Checked.fileRead]
    split
    · exact ok_ne_divideError _ w'
    rename_i hguard
    obtain ⟨-, hname⟩ := not_or.mp hguard
    obtain ⟨filename, rfl⟩ := Option.ne_none_iff_exists'.mp hname
    rw [htype, diskPtr_of_ne_zero hptr]
    exact fat12FileRead_refused h dr garbage filename w'
  | dirOpen dirname =>
    rw [ReaderCall.StoppedAt, dirOpen_stopped_iff dr garbage hptr hlo hhi hinv hlive htype]
    refine and_congr_right fun hdir => ?_
    exact readEntries_stopped_iff dr garbage (by rw [diskAt_dir hlo hhi hinv hlive hdir, h]) dirname w'

/-- With transfers apart from the `disk_t` a division by zero finds the field as it was. -/
theorem Checked.Spec.field_eq_zero {α : Type} {w w' : World} {x : Checked α} {a : α} {R : α → Prop}
    (h : Spec (diskAt ptr) (FieldKept ptr w) x a R) (hx : x = .divideError w') {ts : List Request}
    (hreads : w'.reads = w.reads ++ ts) (hts : ∀ t ∈ ts, t.Spares ptr) :
    (diskAt ptr w.mem).info.bytesPerSector = 0 := by
  subst hx
  rcases h.agrees with he | ⟨w'', he, ⟨ts', hreads', hkept⟩, hzero⟩
  · cases he
  cases he
  have hsame : ts' = ts := List.append_cancel_left (hreads'.symm.trans hreads)
  rw [← hkept (hsame ▸ hts), hzero]

theorem ReaderCall.StoppedAt.field_eq_zero (hptr : ptr ≠ 0) {lo hi : Nat} (hlo : 0xF000 ≤ lo)
    (hhi : hi < 2 ^ 32) {w : World} (hinv : w.state.heap.Inv lo hi) (hlive : (⟨ptr, 44⟩ : Chunk) ∈ w.live)
    (htype : (diskAt ptr w.mem).type = .fat12) {bios : Bios} (hc : Confined bios) {call : ReaderCall}
    {w' : World} (h : call.StoppedAt (Installer.diskRead bios) garbage ptr w w') {ts : List Request}
    (hreads : w'.reads = w.reads ++ ts) (hts : ∀ t ∈ ts, t.Spares ptr) :
    (diskAt ptr w.mem).info.bytesPerSector = 0 := by
  have hlo' : 0 < lo := by omega
  have hinside : lo ≤ ptr.toNat ∧ ptr.toNat + sizeofDisk ≤ hi := Heap.Inv.inside hinv hlive
  have hlow : 0xF000 ≤ ptr.toNat := hlo.trans hinside.1
  have hhigh : ptr.toNat + sizeofDisk ≤ 2 ^ 32 := hinside.2.trans (Nat.le_of_lt hhi)
  have hkept := fieldKept_kept hc hlow hhigh
  have hstart : ∀ w, FieldKept ptr w w := fun w => ⟨[], by simp, fun _ => rfl⟩
  cases call with
  | fileRead filename =>
    simp only [ReaderCall.StoppedAt, Checked.fileRead] at h
    split at h
    · cases h
    rename_i hguard
    obtain ⟨-, hname⟩ := not_or.mp hguard
    obtain ⟨filename, rfl⟩ := Option.ne_none_iff_exists'.mp hname
    rw [htype, diskPtr_of_ne_zero hptr] at h
    exact (fat12FileRead_spec (hkept w) garbage filename (hstart w)).field_eq_zero h hreads hts
  | dirOpen dirname =>
    obtain ⟨hdir, h⟩ := (dirOpen_stopped_iff _ garbage hptr hlo' hhi hinv hlive htype dirname w').mp h
    rw [← diskAt_dir hlo' hhi hinv hlive hdir]
    exact (readEntries_spec (hkept _) garbage dirname (hstart _)).field_eq_zero h hreads hts

end

/-! ## What `disk_open` accepts -/

section

variable (bios : Bios) (answer : DriveParams) (data : Word) (raw : DiskT) (drive : BitVec 8) (w : World)

/-- `bytes_per_sector` of a disk that is opened: the field of the header, or what the new block held
where the drive parameters cannot be read. -/
def mountedBytesPerSector : BitVec 16 :=
  match diskGetParamInt13 bios answer drive (cutName data (headerWorld bios data drive w)) with
  | (status, _, w) => if status ≠ 0 then raw.info.bytesPerSector else w.mem.read16 (data + 11)

theorem diskCreateFat12_bytesPerSector (d : DiskT) (w : World) :
    (diskCreateFat12 bios answer d data w).1.type = .fat12 ∧
      (diskCreateFat12 bios answer d data w).1.info.bytesPerSector =
        match diskGetParamInt13 bios answer d.id w with
        | (status, _, w) => if status ≠ 0 then d.info.bytesPerSector else w.mem.read16 (data + 11) := by
  simp only [diskCreateFat12]
  obtain ⟨status, params, w'⟩ := diskGetParamInt13 bios answer d.id w
  simp only
  split <;> exact ⟨rfl, rfl⟩

variable {bios answer data raw drive w} {ptr : Word} {d : DiskT} {w₁ : World}
  (hend : data.toNat + 512 < 2 ^ 32) (hopen : diskOpen bios answer data raw drive w = .done (ptr, d) w₁)
  (hptr : ptr ≠ 0)
include hend hopen hptr

/-- A disk that is returned is the one `disk_create_fat12` has filled. -/
theorem diskOpen_mounted : (d, w₁) = diskCreateFat12 bios answer
    { raw with id := drive, type := .unknown } data (cutName data (headerWorld bios data drive w)) := by
  have hfail : ∀ p d' w', diskFailureFinalize p d' w' ≠ .done (ptr, d) w₁ := by
    intro p d' w' h
    rw [diskFailureFinalize] at h
    split at h <;> cases h
    exact hptr rfl
  obtain ⟨⟨p, w₂⟩, e⟩ : ∃ r, w.malloc 44 = r := ⟨_, rfl⟩
  obtain ⟨⟨status, w₃⟩, e₂⟩ : ∃ r, Installer.diskRead bios drive data 1 0 w₂ = r := ⟨_, rfl⟩
  have hheader : headerWorld bios data drive w = w₃ := by simp only [headerWorld, e, e₂]
  rw [hheader]
  by_cases hp : p = 0
  · simp only [diskOpen, diskCreate, e, if_pos hp] at hopen
    cases hopen
    exact absurd rfl hptr
  by_cases hs : status = 0
  · subst hs
    cases hstr : strchr w₃.mem 0x20 addressSpace (data + 54) with
    | none =>
      rw [diskOpen_endless answer raw e hp e₂ hstr] at hopen
      cases hopen
    | some space =>
      by_cases hm : IsFat12 w₃.mem (data + 54)
      · rw [diskOpen_fat12 answer raw e hp e₂ hstr hend hm rfl] at hopen
        cases hopen
        rfl
      · obtain ⟨d', w', he, -⟩ := diskOpen_unknown_fs answer raw e hp e₂ hstr hm
        exact absurd (he.symm.trans hopen) (hfail _ _ _)
  · obtain ⟨d', w', he, -⟩ := diskOpen_header_failure answer raw e hp e₂ hs
    exact absurd (he.symm.trans hopen) (hfail _ _ _)

theorem mounted_bytesPerSector : d.type = .fat12 ∧
    d.info.bytesPerSector = mountedBytesPerSector bios answer data raw drive w := by
  have h := diskCreateFat12_bytesPerSector bios answer data
    { raw with id := drive, type := .unknown } (cutName data (headerWorld bios data drive w))
  rwa [← diskOpen_mounted hend hopen hptr] at h

/-- As long as no transfer reaches the `disk_t`, the reader divides by zero exactly where it opens the
root directory of a disk whose sectors have 0 bytes, with memory left for the directory. -/
theorem reader_stopped_iff {lo hi : Nat} (hlo : 0xF000 ≤ lo) (hhi : hi < 2 ^ 32) {w₂ : World}
    (hinv : w₂.state.heap.Inv lo hi) (hlive : (⟨ptr, 44⟩ : Chunk) ∈ w₂.live)
    (htype : (diskAt ptr w₂.mem).type = d.type)
    (hfield : (diskAt ptr w₂.mem).info.bytesPerSector = d.info.bytesPerSector) {bios' : Bios}
    (hc : Confined bios') (garbage : Word) (call : ReaderCall) :
    (¬ ∃ w' ts, call.StoppedAt (Installer.diskRead bios') garbage ptr w₂ w' ∧
        w'.reads = w₂.reads ++ ts ∧ ∀ t ∈ ts, t.Spares ptr) ↔
      mountedBytesPerSector bios answer data raw drive w ≠ 0 ∨ ¬ call.OpensRoot ∨
        (w₂.malloc dirSize).1 = 0 := by
  obtain ⟨htype₁, hbytes⟩ := mounted_bytesPerSector hend hopen hptr
  rw [← hbytes, ← hfield]
  have htype' := htype.trans htype₁
  by_cases h : (diskAt ptr w₂.mem).info.bytesPerSector = 0
  · have hiff := stoppedAt_iff_of_zero (Installer.diskRead bios') garbage hptr (by omega) hhi hinv hlive
      htype' h call
    rw [or_iff_right (not_not.mpr h)]
    constructor
    · intro hno
      by_contra hor
      obtain ⟨hroot, hdir⟩ := not_or.mp hor
      refine hno ⟨_, [], (hiff _).mpr ⟨hdir, not_not.mp hroot, rfl⟩, ?_, fun t ht => ?_⟩
      · exact (List.append_nil _).symm
      · cases ht
    · rintro hor ⟨w', ts, hstop, -⟩
      obtain ⟨hdir, hroot, -⟩ := (hiff w').mp hstop
      exact hor.elim (fun h => h hroot) fun h => hdir h
  · refine iff_of_true ?_ (.inl h)
    rintro ⟨w', ts, hstop, hreads, hts⟩
    exact h (hstop.field_eq_zero garbage hptr hlo hhi hinv hlive htype' hc hreads hts)

end

/-- A disk that has the name FAT12 and nothing else is accepted. -/
theorem namedDisk_opened (raw : DiskT) : ∃ d w₁, diskOpen (idealBios namedDisk)
      ⟨false, 0, 0x4F12, 0x0102⟩ 0x7000 raw 0 World.init = .done (0x00100000, d) w₁ ∧
    mountedBytesPerSector (idealBios namedDisk) ⟨false, 0, 0x4F12, 0x0102⟩ 0x7000 raw 0
      World.init = 0 ∧ d.type = .fat12 ∧ d.info.bytesPerSector = 0 ∧
    w₁.state.heap.Stacked 0x00100000 0x001FFFFF 0x0010002C ∧ w₁.live = {⟨0x00100000, 44⟩} := by
  obtain ⟨w₁, w₂, space, e, e₂, hstate, hbytes, hm, hstr⟩ := namedDisk_header
  have hheader : headerWorld (idealBios namedDisk) 0x7000 0 World.init = w₂ := by
    simp only [headerWorld, e, e₂]
  have hzero : ∀ i < 54, (cutName 0x7000 w₂).mem (0x7000 + BitVec.ofNat 32 i) = 0 := by
    intro i hi
    have hne : (0x7000 : Word) + BitVec.ofNat 32 i ≠ 0x7000 + 59 := by bv_omega
    have hbyte : w₂.mem (0x7000 + BitVec.ofNat 32 i) = 0 := by
      rw [hbytes i (by omega), namedDisk, if_neg (by omega)]
    exact (Function.update_of_ne hne _ _).trans hbyte
  have hmounted : mountedBytesPerSector (idealBios namedDisk) ⟨false, 0, 0x4F12, 0x0102⟩ 0x7000 raw 0
      World.init = 0 := by
    have h11 : (cutName 0x7000 w₂).mem (0x7000 + 11) = 0 := hzero 11 (by decide)
    have h12 : (cutName 0x7000 w₂).mem (0x7000 + 11 + 1) = 0 := hzero 12 (by decide)
    rw [mountedBytesPerSector, hheader]
    change Mem.read16 (cutName 0x7000 w₂).mem (0x7000 + 11) = 0
    rw [Mem.read16, h11, h12]
    rfl
  have hopen := diskOpen_fat12 ⟨false, 0, 0x4F12, 0x0102⟩ raw e (by decide) e₂ hstr (by decide) hm rfl
  obtain ⟨htype, hfield⟩ := mounted_bytesPerSector (by decide) hopen (by decide)
  obtain ⟨w', e', hstacked, hlive, -, -⟩ := World.malloc_stacked (by decide) (by decide)
    World.init_stacked (show (44 : Word) ≠ 0 by decide) (by decide) (World.ncard_init_live ▸ by decide)
  have hw : w' = w₁ := congrArg Prod.snd (e'.symm.trans e)
  subst hw
  refine ⟨_, _, hopen, hmounted, htype, hfield.trans hmounted, ?_, ?_⟩
  · change w₂.state.heap.Stacked 0x00100000 0x001FFFFF 0x0010002C
    rw [hstate]
    exact hstacked
  · change w₂.state.heap.live = _
    rw [hstate]
    have hinit : World.init.live = ∅ := Heap.live_allocInit _ _
    rw [hinit] at hlive
    exact hlive.trans (insert_empty_eq _)

theorem reader_stopped_iff_named : ∃ d w₁, diskOpen (idealBios namedDisk)
      ⟨false, 0, 0x4F12, 0x0102⟩ 0x7000 emptyDiskT 0 World.init = .done (0x00100000, d) w₁ ∧
    ((¬ ∃ w' ts, (ReaderCall.fileRead (some [0x41])).StoppedAt (diskRead (idealBios namedDisk)) 0 0x00100000
        (w₁.storeDisk 0x00100000 d) w' ∧ w'.reads = (w₁.storeDisk 0x00100000 d).reads ++ ts ∧
          ∀ t ∈ ts, t.Spares 0x00100000) ↔
      mountedBytesPerSector (idealBios namedDisk) ⟨false, 0, 0x4F12, 0x0102⟩ 0x7000 emptyDiskT 0
          World.init ≠ 0 ∨
        ¬ (ReaderCall.fileRead (some [0x41])).OpensRoot ∨
          ((w₁.storeDisk 0x00100000 d).malloc dirSize).1 = 0) := by
  obtain ⟨d, w₁, hopen, -, -, -, hstacked, hlive⟩ := namedDisk_opened emptyDiskT
  have hinv : (w₁.storeDisk 0x00100000 d).state.heap.Inv 0x00100000 0x001FFFFF := hstacked.toWhole.toInv
  exact ⟨d, w₁, hopen, reader_stopped_iff (by decide) hopen (by decide) (by decide) (by decide) hinv
    (hlive ▸ rfl)
    (storeDisk_type _ d _) (congrArg Fat12.bytesPerSector (storeDisk_toFat12 0x00100000 d w₁.mem))
    (idealBios_confined namedDisk) 0 _⟩

/-- Its root directory cannot be opened: the header has 0 bytes in a sector. -/
theorem named_root_stopped : ∃ d w₁, diskOpen (idealBios namedDisk)
      ⟨false, 0, 0x4F12, 0x0102⟩ 0x7000 emptyDiskT 0 World.init = .done (0x00100000, d) w₁ ∧
    ∀ dr garbage, ∃ w', (ReaderCall.dirOpen (some rootName)).StoppedAt dr garbage 0x00100000
      (w₁.storeDisk 0x00100000 d) w' := by
  obtain ⟨d, w₁, hopen, -, htype, hfield, hstacked, hlive⟩ := namedDisk_opened emptyDiskT
  have hstored : (w₁.storeDisk 0x00100000 d).state.heap.Stacked 0x00100000 0x001FFFFF 0x0010002C := hstacked
  have hslots : (w₁.storeDisk 0x00100000 d).live.ncard < chunkQty := by
    rw [show (w₁.storeDisk 0x00100000 d).live = {⟨0x00100000, 44⟩} from hlive, Set.ncard_singleton]
    decide
  obtain ⟨w₂, e, -⟩ := World.malloc_stacked (by decide) (by decide) hstored
    (show dirSize ≠ 0 by decide) (by decide) hslots
  refine ⟨d, w₁, hopen, fun dr garbage => ⟨_, (stoppedAt_iff_of_zero dr garbage (by decide) (by decide)
    (by decide) hstacked.toWhole.toInv (w := w₁.storeDisk 0x00100000 d) (hlive ▸ rfl) ?_ ?_ _ _).mpr
      ⟨?_, fun name hname => ?_, rfl⟩⟩⟩
  · exact (storeDisk_type _ d _).trans htype
  · exact (congrArg Fat12.bytesPerSector (storeDisk_toFat12 0x00100000 d w₁.mem)).trans hfield
  · rw [e]
    exact show (0x0010002C : Word) ≠ 0 by decide
  · cases hname
    decide

end Installer
end Amethyst
