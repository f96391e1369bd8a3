import Amethyst.Installer.Disk

/-!
# Amethyst.Installer.DiskStatus

What `disk_read` reports of the reads it makes. The page loop keeps the status of each read in a
variable that the next one overwrites, so the transfer has the status of its last read.

`diskRead_reports_iff`: every failure is reported exactly when there is no page before the last read.
-/

namespace Amethyst
namespace Installer

/-- The values that `disk_read_int13` returns in the page loop. -/
def pageStatuses (bios : Bios) (drive : BitVec 8) : Nat → Word → BitVec 64 → World → List (BitVec 8)
  | 0, _, _, _ => []
  | n + 1, ptr, lba, w =>
    let (status, w) := diskReadInt13 bios drive (BitVec.ofNat 16 bufferPgSize) (buffer.setWidth 16) 0
      (lbalo lba) (lbahi lba) w
    let (_, w) := memcpy ptr buffer (BitVec.ofNat 32 bufferSize) w
    status :: pageStatuses bios drive n (ptr + BitVec.ofNat 32 bufferSize) (lba + 4) w

/-- The last call of `disk_read_int13`, the only one of a direct transfer. -/
def lastRead (bios : Bios) (drive : BitVec 8) (ptr : Word) (count : BitVec 16) (lba : BitVec 64)
    (w : World) : BitVec 8 × World :=
  if Direct ptr count then
    diskReadInt13 bios drive count (ptr.setWidth 16) 0 (lbalo lba) (lbahi lba) w
  else
    let (_, lba, w) := readPages bios drive (count.toNat / bufferPgSize) ptr lba w
    diskReadInt13 bios drive (BitVec.ofNat 16 (count.toNat % bufferPgSize)) (buffer.setWidth 16) 0
      (lbalo lba) (lbahi lba) w

/-- The values that `disk_read_int13` returns in a transfer. -/
def readStatuses (bios : Bios) (drive : BitVec 8) (ptr : Word) (count : BitVec 16) (lba : BitVec 64)
    (w : World) : List (BitVec 8) :=
  (if Direct ptr count then [] else
    pageStatuses bios drive (count.toNat / bufferPgSize) ptr lba w) ++
      [(lastRead bios drive ptr count lba w).1]

/-- If the transfer succeeds, each of its reads has. -/
def Reports (bios : Bios) (drive : BitVec 8) (ptr : Word) (count : BitVec 16) (lba : BitVec 64)
    (w : World) : Prop :=
  (diskRead bios drive ptr count lba w).1 = 0 → ∀ s ∈ readStatuses bios drive ptr count lba w, s = 0

/-- A drive with one sector that no read can start at. -/
def badSector (bad : BitVec 64) : Bios
  | _, .reset _, m => ⟨false, m⟩
  | _, .extendedRead _ dap, m => ⟨dap.lba == bad, m⟩

theorem diskReadInt13_badSector (bad : BitVec 64) (drive : BitVec 8) (count offset segment : BitVec 16)
    (lba : BitVec 64) (w : World) :
    (diskReadInt13 (badSector bad) drive count offset segment (lbalo lba) (lbahi lba) w).1 =
      if lba = bad then dataSeg else 0 := by
  simp only [diskReadInt13, World.int13, lbahi_append_lbalo, badSector, readTries]
  by_cases h : lba = bad
  · simp [h]
  · have hfound : (lba == bad) = false := beq_false_of_ne h
    simp only [hfound, if_neg h]

/-- The first page of a transfer that starts at the bad sector fails. -/
theorem pageStatuses_badSector (drive : BitVec 8) (n : Nat) (ptr : Word) (lba : BitVec 64) (w : World) :
    dataSeg ∈ pageStatuses (badSector lba) drive (n + 1) ptr lba w := by
  simp only [pageStatuses, diskReadInt13_badSector, if_true, List.mem_cons, true_or]

theorem readPages_lba (bios : Bios) (drive : BitVec 8) : ∀ (n : Nat) (ptr : Word) (lba : BitVec 64)
    (w : World), (readPages bios drive n ptr lba w).2.1 = lba + BitVec.ofNat 64 (4 * n) := by
  intro n
  induction n with
  | zero => exact fun _ lba _ => (BitVec.add_zero lba).symm
  | succ n ih =>
    intro ptr lba w
    have h4 : (4 : BitVec 64) = BitVec.ofNat 64 4 := rfl
    simp only [readPages]
    rw [ih, h4, add_add_ofNat, Nat.mul_succ, Nat.add_comm]

section

variable (drive : BitVec 8) (ptr : Word) (count : BitVec 16) (lba : BitVec 64) (w : World)

/-- The transfer has the status of its last read. -/
theorem diskRead_status (bios : Bios) :
    (diskRead bios drive ptr count lba w).1 = (lastRead bios drive ptr count lba w).1 := by
  simp only [diskRead, lastRead]
  split
  · rfl
  · split
    · rfl
    · rename_i h
      exact (not_not.mp h).symm

theorem reports_iff (bios : Bios) : Reports bios drive ptr count lba w ↔
    Direct ptr count ∨
      (∀ s ∈ pageStatuses bios drive (count.toNat / bufferPgSize) ptr lba w, s = 0) ∨
      (lastRead bios drive ptr count lba w).1 ≠ 0 := by
  unfold Reports readStatuses
  rw [diskRead_status]
  by_cases hd : Direct ptr count
  · simp [hd]
  · simp only [hd, if_false, List.mem_append, List.mem_singleton, false_or]
    constructor
    · intro h
      by_cases hlast : (lastRead bios drive ptr count lba w).1 = 0
      · exact .inl fun s hs => h hlast s (.inl hs)
      · exact .inr hlast
    · intro h hlast s hs
      cases hs with
      | inl hpage => exact h.resolve_right (not_not.mpr hlast) s hpage
      | inr he => exact he.trans hlast

/-- If the first sector is bad, the first page fails and the last read does not. -/
theorem not_reports_badSector (hd : ¬ Direct ptr count) (hpage : bufferPgSize ≤ count.toNat) :
    ¬ Reports (badSector lba) drive ptr count lba w := by
  obtain ⟨n, hn⟩ : ∃ n, count.toNat / bufferPgSize = n + 1 :=
    ⟨count.toNat / bufferPgSize - 1, by rw [bufferPgSize_eq] at *; omega⟩
  have hcount := count.isLt
  have hlast : (lastRead (badSector lba) drive ptr count lba w).1 = 0 := by
    simp only [lastRead, if_neg hd]
    have hne : lba + BitVec.ofNat 64 (4 * (n + 1)) ≠ lba := by
      rw [bufferPgSize_eq] at hn
      bv_omega
    rw [readPages_lba, hn, diskReadInt13_badSector, if_neg hne]
  rw [reports_iff]
  intro h
  rcases h with hd' | hzero | hnot
  · exact hd hd'
  · have hfirst := hzero dataSeg
    rw [hn] at hfirst
    exact absurd (hfirst (pageStatuses_badSector drive n ptr lba w)) (by decide)
  · exact hnot hlast

/-- A failure goes unreported exactly when a page fails and the last read does not; none ever does
exactly when the transfer is direct or has no whole page. -/
theorem diskRead_reports_iff :
    (∀ bios, Reports bios drive ptr count lba w ↔ Direct ptr count ∨
      (∀ s ∈ pageStatuses bios drive (count.toNat / bufferPgSize) ptr lba w, s = 0) ∨
      (lastRead bios drive ptr count lba w).1 ≠ 0) ∧
    ((∀ bios, Reports bios drive ptr count lba w) ↔
      Direct ptr count ∨ count.toNat < bufferPgSize) := by
  refine ⟨reports_iff drive ptr count lba w, fun hall => ?_, fun hor bios => ?_⟩
  · by_contra hno
    rw [not_or, Nat.not_lt] at hno
    exact not_reports_badSector drive ptr count lba w hno.1 hno.2 (hall _)
  · rw [reports_iff]
    cases hor with
    | inl hd => exact .inl hd
    | inr hlt =>
      refine .inr (.inl ?_)
      rw [Nat.div_eq_of_lt hlt]
      simp [pageStatuses]

end

/-- The FATs of a floppy: sector 1 cannot be read, and the transfer succeeds. -/
theorem diskRead_bad_first_page :
    (diskRead (badSector 1) 0 0x00100000 18 1 World.init).1 = 0 ∧
      dataSeg ∈ readStatuses (badSector 1) 0 0x00100000 18 1 World.init ∧
      ¬ Reports (badSector 1) 0 0x00100000 18 1 World.init := by
  have hd : ¬ Direct 0x00100000 18 := by decide
  have hpages : (18 : BitVec 16).toNat / bufferPgSize = 2 := by decide
  refine ⟨?_, ?_, not_reports_badSector 0 0x00100000 18 1 World.init hd (by decide)⟩
  · rw [diskRead_status]
    simp only [lastRead, if_neg hd]
    rw [readPages_lba, diskReadInt13_badSector, hpages]
    decide
  · rw [readStatuses, if_neg hd, hpages]
    exact List.mem_append_left _ (pageStatuses_badSector 0 1 0x00100000 1 World.init)

end Installer
end Amethyst
