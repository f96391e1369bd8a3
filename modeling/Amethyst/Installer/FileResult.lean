import Amethyst.Installer.FileRead

/-!
# Amethyst.Installer.FileResult

What `_err` does to `fat12_file_read` and what it tells of it.

`fat12FileRead_reports_iff`: when a failed read is reported.
`fat12FileRead_agree_iff`: on which values of `_err` before the call the result depends.
-/

namespace Amethyst
namespace Installer

/-! ## A failed read -/

/-- A `disk_read` that returns these statuses, one for each call. -/
def statuses (status : Nat → BitVec 8)
    (data : BitVec 8 → Word → BitVec 16 → BitVec 64 → World → World) : DiskRead :=
  fun drive ptr count lba w => (status w.reads.length, data drive ptr count lba w)

/-- A read that was issued between the two worlds failed. -/
def FailedRead (status : Nat → BitVec 8) (w w' : World) : Prop :=
  ∃ i, w.reads.length ≤ i ∧ i < w'.reads.length ∧ status i ≠ 0

/-- The call returns `NULL` with `_ERR_IO`. -/
def ReportsIo (r : Result Word) : Prop := ∃ w', r = .done 0 w' ∧ w'.state.err = .io

theorem reportsIo_done {ptr : Word} {w' : World} :
    ReportsIo (.done ptr w') ↔ ptr = 0 ∧ w'.state.err = .io := by
  constructor
  · intro ⟨w'', he, hio⟩
    cases he
    exact ⟨rfl, hio⟩
  · intro ⟨h0, hio⟩
    exact ⟨w', by rw [h0], hio⟩

theorem not_reportsIo_lost {w' : World} : ¬ ReportsIo (.lost w') := by
  intro ⟨w'', he, _⟩
  cases he

section

variable {lo hi : Nat} (hlo : 0 < lo) (hhi : hi < 2 ^ 32) {dr : DiskRead} (hk : Keeps lo hi dr)
  {w : World} (hinv : w.state.heap.Inv lo hi) (hno : w.state.err = .no) {garbage : Word} {disk : DiskPtr}
  {filename : List Byte}
include hlo hhi hk hinv hno

/-- Only the read of an intermediate directory is reported so. -/
theorem reportsIo_iff (hlen : filename.length < 512) :
    ReportsIo (fat12FileRead dr garbage (some disk) (some filename) w) ↔
      pathExit dr garbage disk filename w = .entry .unreadable ∧
        ∀ fats entry w₁, LooksUp dr garbage disk filename w fats (.done entry w₁) →
          w₁.Takes fats := by
  have hout := fileOutcome hlo hhi hk hinv hno garbage disk hlen
  revert hout
  generalize fat12FileRead dr garbage (some disk) (some filename) w = r
  intro hout
  cases hout with
  | noFats hexit hnone hlive herr =>
    rw [reportsIo_done, herr, hexit]
    simp
  | endlessLookup h hend =>
    refine iff_of_false not_reportsIo_lost fun hcond => ?_
    rw [hcond.1] at hend
    rcases hend with he | he | he | he
    all_goals cases he
  | @noFile fats size entry w₁ w' h hfresh hleft hnot hfreed =>
    have hmem := hleft.mem (Set.mem_insert (⟨fats, size⟩ : Chunk) w.live)
    rw [reportsIo_done, hfreed.err_iff (by simp), ← hleft.io, and_iff_right rfl, and_comm]
    refine and_congr_right fun _ => ?_
    rw [← World.takes_iff hlo hhi hleft.inv hmem]
    constructor
    · intro ht fats' entry' w₁' hl
      obtain ⟨rfl, he⟩ := h.unique hl
      cases he
      exact ht
    · intro hall
      exact hall _ _ _ h
  | endlessFile h hexit hend =>
    rw [hexit]
    exact iff_of_false not_reportsIo_lost (by simp)
  | @file fats size start w₁ e buffer w₂ w' h hexit hfresh hlive hentry hread hout hfreed hinv₂ hmem =>
    rw [hexit, reportsIo_done, hfreed.err_iff (by simp)]
    refine iff_of_false ?_ (by simp)
    intro ⟨hzero, _, hio⟩
    cases hout with
    | badCluster hbad => simp at hio
    | refused hlt hrefused => exact hrefused.notIo hio
    | errorSet hlt hgranted hset => exact hgranted.ne_zero hzero
    | unreadable hlt h1 _ hlive₂ hio' hne => exact hne hzero
    | read hlt h1 hend hgranted hstatus hstate => exact hgranted.ne_zero hzero

end

section

variable {lo hi : Nat} (hlo : 0 < lo) (hhi : hi < 2 ^ 32) {status : Nat → BitVec 8}
  {data : BitVec 8 → Word → BitVec 16 → BitVec 64 → World → World}
  (hk : Keeps lo hi (statuses status data)) {w : World} (hinv : w.state.heap.Inv lo hi)
  (hno : w.state.err = .no) {garbage : Word} {disk : DiskPtr} {filename : List Byte}
include hlo hhi hk hinv hno

/-- When a read fails, `NULL` and `_ERR_IO` come back exactly if the lookup ends at a directory that
cannot be read, and `free(fats)` leaves `_err` alone. -/
theorem fat12FileRead_reports_iff
    (hfail : FailedRead status w
      (fat12FileRead (statuses status data) garbage (some disk) (some filename) w).world) :
    ReportsIo (fat12FileRead (statuses status data) garbage (some disk) (some filename) w) ↔
      pathExit (statuses status data) garbage disk filename w = .entry .unreadable ∧
        ∀ fats entry w₁, LooksUp (statuses status data) garbage disk filename w fats (.done entry w₁) →
          w₁.Takes fats := by
  apply reportsIo_iff hlo hhi hk hinv hno
  by_contra hle
  obtain ⟨i, h1, h2, -⟩ := hfail
  simp only [fat12FileRead, if_pos (Nat.le_of_not_lt hle), Result.world] at h2
  omega

end

/-- The disk does not answer any read. -/
def deadRead : DiskRead := statuses (fun _ => 1) fun _ _ _ _ w => w

theorem deadRead_flat (b : Byte) : FlatRead b 1 deadRead := fun _ _ _ _ w _ _ _ => ⟨w.calls, rfl⟩

/-- The path `A` on a disk that does not answer: the FATs and the root directory are taken as read. -/
theorem deadRead_run : ∃ w', fat12FileRead deadRead 0 (some (diskAt flatDisk)) (some [0x41]) (flatWorld 0) =
    .done 0 w' ∧ w'.state.err = .notfound ∧ w'.reads.length = 2 := by
  obtain ⟨entries, w, hne, hfresh, h, hlook⟩ := flat_lookup (deadRead_flat 0) 0 [0x41]
  have hw : (w.setErr .notfound).state.heap.Whole 0x00100000 0x001FFFFF := h.whole
  have hlive : (w.setErr .notfound).live = insert ⟨entries, 7168⟩ {firstFats} := h.live
  have hmem : (⟨entries, 7168⟩ : Chunk) ∈ (w.setErr .notfound).live := hlive ▸ Set.mem_insert _ _
  obtain ⟨w₁, e₁, hf₁, hw₁, herr₁⟩ := World.free_of_whole (by decide) (by decide) hw hmem
  have hmem₁ : firstFats ∈ w₁.live := by
    rw [hf₁.live, hlive, Set.insert_sdiff_self_of_notMem hfresh]
    exact Set.mem_singleton _
  obtain ⟨w₂, e₂, hf₂, -, herr₂⟩ := World.free_of_whole (by decide) (by decide) hw₁ hmem₁
  refine ⟨w₂, ?_, herr₂.trans herr₁, by rw [hf₂.reads, hf₁.reads, World.setErr_reads, h.reads]⟩
  obtain ⟨k, hk⟩ : ∃ k, addressSlots = k + 1 := ⟨2 ^ 27 - 1, rfl⟩
  have hzero : w.mem entries = 0 := by simpa using h.byte (Set.mem_insert _ _) (Nat.zero_le _)
  have hset : ¬ w.state.err ≠ .no := not_not.mpr h.err
  have hpass : lookupPass deadRead 0 0 (diskAt flatDisk) 0x00100000
      ⟨entries, skipSlash (fat12RegularfilenameToFilename [0x41]), w⟩ = .leave (.done 0 w₁) := by
    have htok : fat12FilenameTokenize (skipSlash (fat12RegularfilenameToFilename [0x41])) w =
      ([0x41], none, w) := rfl
    have hfind : fat12FindEntry 0 entries [0x41] w = .done 0 (w.setErr .notfound) := by
      simp only [fat12FindEntry, if_neg hne, hk, findEntryLoop, hzero, if_true]
    have hagain : (w.setErr .notfound).setErr .notfound = w.setErr .notfound := rfl
    have herr : (w.setErr .notfound).state.err ≠ .no := by simp
    simp only [lookupPass, htok, if_neg hset, hfind, if_pos herr, hagain, fat12FindFailure, e₁]
  have herr₁' : w₁.state.err ≠ .no := by simp [herr₁]
  rw [fat12FileRead_tail (by decide) rfl (hlook _ rfl _ hpass).1, fileReadTail, if_pos herr₁',
    fileReadFailure, show w₁.free 0x00100000 = some w₂ from e₂]

theorem deadRead_failed : FailedRead (fun _ => 1) (flatWorld 0)
    (fat12FileRead deadRead 0 (some (diskAt flatDisk)) (some [0x41]) (flatWorld 0)).world := by
  obtain ⟨w', e, -, hreads⟩ := deadRead_run
  rw [e]
  exact ⟨0, Nat.le_refl _, by simp [Result.world, hreads], by decide⟩

theorem fat12FileRead_reports_iff_dead :
    FailedRead (fun _ => 1) (flatWorld 0)
      (fat12FileRead deadRead 0 (some (diskAt flatDisk)) (some [0x41]) (flatWorld 0)).world ∧
    (ReportsIo (fat12FileRead deadRead 0 (some (diskAt flatDisk)) (some [0x41]) (flatWorld 0)) ↔
      pathExit deadRead 0 (diskAt flatDisk) [0x41] (flatWorld 0) = .entry .unreadable ∧
        ∀ fats entry w₁, LooksUp deadRead 0 (diskAt flatDisk) [0x41] (flatWorld 0) fats (.done entry w₁) →
          w₁.Takes fats) :=
  ⟨deadRead_failed, @fat12FileRead_reports_iff 0x00100000 0x001FFFFF (by decide) (by decide)
    (fun _ => 1) (fun _ _ _ _ w => w) (fun _ _ _ _ _ _ _ => rfl) (flatWorld 0)
    (flatWorld_flat _).whole.toInv rfl 0 (diskAt flatDisk) [0x41] deadRead_failed⟩

/-- No sector can be read, and the file is not there. -/
theorem fat12FileRead_dead_disk_notfound :
    FailedRead (fun _ => 1) (flatWorld 0)
      (fat12FileRead deadRead 0 (some (diskAt flatDisk)) (some [0x41]) (flatWorld 0)).world ∧
    (∃ w', fat12FileRead deadRead 0 (some (diskAt flatDisk)) (some [0x41]) (flatWorld 0) = .done 0 w' ∧
      w'.state.err = .notfound) ∧
    ¬ ReportsIo (fat12FileRead deadRead 0 (some (diskAt flatDisk)) (some [0x41]) (flatWorld 0)) := by
  obtain ⟨w', e, herr, -⟩ := deadRead_run
  refine ⟨deadRead_failed, ⟨w', e, herr⟩, ?_⟩
  rw [e, reportsIo_done, herr]
  simp

/-! ## An error from before -/

/-- The two calls return the same, and leave the same memory and allocator. -/
def Agree : Result Word → Result Word → Prop
  | .done ptr w, .done ptr' w' => ptr = ptr' ∧ (w.state.err = .no ↔ w'.state.err = .no) ∧
      w.mem = w'.mem ∧ w.state.heap = w'.state.heap
  | .lost w, .lost w' => w.mem = w'.mem ∧ w.state.heap = w'.state.heap
  | _, _ => False

theorem Agree.refl : ∀ r, Agree r r
  | .done _ _ => ⟨rfl, Iff.rfl, rfl, rfl⟩
  | .lost _ => ⟨rfl, rfl⟩

section

variable (dr : DiskRead) (garbage : Word) (disk : DiskPtr) {filename : List Byte} {w : World}

/-- With an error on record nothing is done, and the error stays. -/
theorem fat12FileRead_sticky (hlen : filename.length < 512) (h : w.state.err ≠ .no) :
    fat12FileRead dr garbage (some disk) (some filename) w = .done 0 w := by
  simp only [fat12FileRead, if_neg (Nat.not_le.mpr hlen), if_pos h]

theorem fat12FileRead_overflow (hlen : ¬ filename.length < 512) :
    fat12FileRead dr garbage (some disk) (some filename) w = .lost w := by
  simp only [fat12FileRead, if_pos (Nat.le_of_not_lt hlen)]

end

theorem agree_of_set (dr : DiskRead) (garbage : Word) (disk : DiskPtr) (filename : List Byte) (w : World)
    {e₁ e₂ : Err} (h₁ : e₁ ≠ .no) (h₂ : e₂ ≠ .no) :
    Agree (fat12FileRead dr garbage (some disk) (some filename) (w.setErr e₁))
      (fat12FileRead dr garbage (some disk) (some filename) (w.setErr e₂)) := by
  by_cases hlen : filename.length < 512
  · rw [fat12FileRead_sticky dr garbage disk hlen (w := w.setErr e₁) h₁,
      fat12FileRead_sticky dr garbage disk hlen (w := w.setErr e₂) h₂]
    exact ⟨rfl, iff_of_false h₁ h₂, rfl, rfl⟩
  · rw [fat12FileRead_overflow dr garbage disk hlen, fat12FileRead_overflow dr garbage disk hlen]
    exact ⟨rfl, rfl⟩

/-- A file that is there is read after no error, and not after one. -/
theorem not_agree_of_clear {e : Err} (h : e ≠ .no) :
    ¬ Agree (fat12FileRead (diskRead (idealBios fun _ _ => 0xEF)) 0 (some (diskAt flatDisk)) (some (flatName 0xEF))
        ((flatWorld 0xEF).setErr .no))
      (fat12FileRead (diskRead (idealBios fun _ _ => 0xEF)) 0 (some (diskAt flatDisk)) (some (flatName 0xEF))
        ((flatWorld 0xEF).setErr e)) := by
  obtain ⟨buffer, w', e', hne, -⟩ := flat_file_read (diskRead_flat 0xEF)
  have hclear : (flatWorld 0xEF).setErr .no = flatWorld 0xEF := rfl
  rw [hclear, e', fat12FileRead_sticky _ _ _ (by decide) (w := (flatWorld 0xEF).setErr e) h]
  intro hagree
  exact hne hagree.1

theorem Agree.symm : ∀ {r r' : Result Word}, Agree r r' → Agree r' r
  | .done _ _, .done _ _, ⟨h1, h2, h3, h4⟩ => ⟨h1.symm, h2.symm, h3.symm, h4.symm⟩
  | .lost _, .lost _, ⟨h1, h2⟩ => ⟨h1.symm, h2.symm⟩

/-- The value of `_err` before the call matters only as far as it is `_ERR_NO` or not. If it is not,
the call returns `NULL` and changes nothing. -/
theorem fat12FileRead_agree_iff (e₁ e₂ : Err) :
    ((∀ dr garbage disk filename (w : World),
      Agree (fat12FileRead dr garbage (some disk) (some filename) (w.setErr e₁))
        (fat12FileRead dr garbage (some disk) (some filename) (w.setErr e₂))) ↔
      (e₁ = .no ↔ e₂ = .no)) ∧
    ∀ dr garbage disk filename (w : World), filename.length < 512 → e₁ ≠ .no →
      fat12FileRead dr garbage (some disk) (some filename) (w.setErr e₁) = .done 0 (w.setErr e₁) := by
  refine ⟨?_, fun dr garbage disk filename w hlen h => fat12FileRead_sticky dr garbage disk hlen h⟩
  by_cases h₁ : e₁ = .no
  · by_cases h₂ : e₂ = .no
    · refine iff_of_true (fun dr garbage disk filename w => ?_) (iff_of_true h₁ h₂)
      rw [h₁, h₂]
      exact .refl _
    · refine iff_of_false (fun hall => not_agree_of_clear h₂ ?_) fun h => h₂ (h.mp h₁)
      rw [← h₁]
      exact hall _ _ _ _ _
  · by_cases h₂ : e₂ = .no
    · refine iff_of_false (fun hall => not_agree_of_clear h₁ ?_) fun h => h₁ (h.mpr h₂)
      rw [← h₂]
      apply Agree.symm
      exact hall _ _ _ _ _
    · exact iff_of_true (fun dr garbage disk filename w => agree_of_set dr garbage disk filename w h₁ h₂)
        (iff_of_false h₁ h₂)

/-- The same file, from the same disk and allocator: with `_ERR_NO` it is read, with the error of a
call before it is not. -/
theorem fat12FileRead_poisoned :
    (∃ buffer w', fat12FileRead (diskRead (idealBios fun _ _ => 0xEF)) 0 (some (diskAt flatDisk))
      (some (flatName 0xEF)) (flatWorld 0xEF) = .done buffer w' ∧ buffer ≠ 0 ∧ w'.state.err = .no) ∧
    fat12FileRead (diskRead (idealBios fun _ _ => 0xEF)) 0 (some (diskAt flatDisk)) (some (flatName 0xEF))
      ((flatWorld 0xEF).setErr .notfound) = .done 0 ((flatWorld 0xEF).setErr .notfound) ∧
    ¬ Agree (fat12FileRead (diskRead (idealBios fun _ _ => 0xEF)) 0 (some (diskAt flatDisk)) (some (flatName 0xEF))
        ((flatWorld 0xEF).setErr .no))
      (fat12FileRead (diskRead (idealBios fun _ _ => 0xEF)) 0 (some (diskAt flatDisk)) (some (flatName 0xEF))
        ((flatWorld 0xEF).setErr .notfound)) :=
  ⟨flat_file_read (diskRead_flat 0xEF), fat12FileRead_sticky _ _ _ (by decide) (by simp), not_agree_of_clear (by simp)⟩

end Installer
end Amethyst
