import Amethyst.Installer.DirListing

/-!
# Amethyst.Installer.DirScan

How far the loops over a directory go: the scan of `fat12_find_entry` and the two passes of
`fat12_dir_open`. None of them knows how many slots the block has, so each is taken with as many steps
as there are.

`scans_inside_iff`: a loop is done inside the block exactly when one of the slots in it ends the loop.
-/

namespace Amethyst
namespace Installer

/-- Something in the first `n` slots is an end marker. -/
theorem exists_endsAt {m : Mem 32} {n : Nat} {dir : Word} :
    (∃ k < n, EndsAt m dir k) ↔ ∃ i < n, m (slotAt dir i) = 0 := by
  constructor
  · intro h
    obtain ⟨k, hk, hend⟩ := h
    exact ⟨k, hk, hend.marker⟩
  · intro h
    obtain ⟨i, hi, hzero⟩ := h
    have hex : ∃ k, m (slotAt dir k) = 0 := ⟨i, hzero⟩
    exact ⟨Nat.find hex, Nat.lt_of_le_of_lt (Nat.find_min' hex hzero) hi,
      fun j hj => Nat.find_min hex hj, Nat.find_spec hex⟩

/-- A scan that has come to its end looks at no further slot. -/
theorem findEntryLoop_mono {pEntry : Word} {name : List Byte} {it : Word} {w' : World} :
    ∀ {n k : Nat} {dir : Word} {w : World}, n ≤ k →
      findEntryLoop pEntry name n dir w = .done it w' → findEntryLoop pEntry name k dir w = .done it w' := by
  intro n
  induction n with
  | zero =>
    intro k dir w _ h
    cases h
  | succ n ih =>
    intro k dir w hle h
    obtain ⟨k, rfl⟩ : ∃ l, k = l + 1 := ⟨k - 1, by omega⟩
    have hle' : n ≤ k := by omega
    by_cases hzero : w.mem dir = 0
    · simpa only [findEntryLoop, if_pos hzero] using h
    simp only [findEntryLoop, if_neg hzero, if_neg (signExtend_ne_deleted _)] at h ⊢
    by_cases herr : (fat12ClusterfilenameToFilename dir w).2.state.err ≠ .no
    · simpa only [if_pos herr] using h
    simp only [if_neg herr] at h ⊢
    by_cases hname : strcmp (stringOf (fat12ClusterfilenameToFilename dir w).1) name = 0
    · simpa only [if_pos hname] using h
    · simp only [if_neg hname] at h ⊢
      exact ih hle' h

theorem countEntries_mono {m : Mem 32} {c : Word} : ∀ {n k : Nat} {entry count : Word}, n ≤ k →
    countEntries m n entry count = some c → countEntries m k entry count = some c := by
  intro n
  induction n with
  | zero =>
    intro k entry count _ h
    cases h
  | succ n ih =>
    intro k entry count hle h
    obtain ⟨k, rfl⟩ : ∃ l, k = l + 1 := ⟨k - 1, by omega⟩
    have hle' : n ≤ k := by omega
    by_cases hzero : m entry = 0
    · simpa only [countEntries, if_pos hzero] using h
    · simp only [countEntries, if_neg hzero, if_neg (signExtend_ne_deleted _)] at h ⊢
      exact ih hle' h

theorem fillEntries_mono {listing total : Word} {w' : World} :
    ∀ {n k : Nat} {entry count : Word} {w : World}, n ≤ k →
      fillEntries listing total n entry count w = some w' →
      fillEntries listing total k entry count w = some w' := by
  intro n
  induction n with
  | zero =>
    intro k entry count w _ h
    cases h
  | succ n ih =>
    intro k entry count w hle h
    obtain ⟨k, rfl⟩ : ∃ l, k = l + 1 := ⟨k - 1, by omega⟩
    have hle' : n ≤ k := by omega
    by_cases hzero : w.mem entry = 0
    · simpa only [fillEntries, if_pos hzero] using h
    simp only [fillEntries, if_neg hzero, if_neg (signExtend_ne_deleted _)] at h ⊢
    by_cases hlabel : isVolumeLabel w.mem entry
    · simp only [if_pos hlabel] at h ⊢
      exact ih hle' h
    simp only [if_neg hlabel] at h ⊢
    by_cases hfull : count = total
    · simp only [if_pos hfull] at h
      cases h
    · simp only [if_neg hfull] at h ⊢
      exact ih hle' h

/-- What ends a scan for a name: the end marker, or a slot of that name. -/
def Stops (m : Mem 32) (name : List Byte) (slot : Word) : Prop :=
  m slot = 0 ∨ strcmp (stringOf (clusterfilename m slot)) name = 0

/-- `fat12_find_entry` is done within the first `n` slots: it finds one of them or reports that there is
none. -/
def FindInside (n : Nat) (pEntry dir : Word) (name : List Byte) (w : World) : Prop :=
  ∃ it w', findEntryLoop pEntry name n dir w = .done it w' ∧
    fat12FindEntry pEntry dir name w = .done it w' ∧
    (w' = w.setErr .notfound ∨ w' = w ∧ it ∈ slots n dir)

/-- Both passes of `fat12_dir_open` are done within the first `n` slots. -/
def PassesInside (n : Nat) (entries : Word) (w : World) : Prop :=
  ∃ count, countEntries w.mem n entries 0 = some count ∧
    countEntries w.mem addressSlots entries 0 = some count ∧
    ∀ listing w', w.malloc (count * dirEntrySize) = (listing, w') → listing ≠ 0 →
      ∃ w'', fillEntries listing count n entries 0 w' = some w'' ∧
        fillEntries listing count addressSlots entries 0 w' = some w''

theorem exists_slot_succ {P : Word → Prop} {n : Nat} {dir : Word} :
    (∃ i < n + 1, P (slotAt dir i)) ↔ P dir ∨ ∃ i < n, P (slotAt (dir + 32) i) := by
  rw [Nat.exists_lt_succ_left]
  simp only [slotAt_zero, slotAt_succ]

section

variable (pEntry : Word) (name : List Byte) {w : World} (hno : w.state.err = .no)
include hno

/-- A slot that does not end the scan is passed over. -/
theorem findEntryLoop_succ {n : Nat} {dir : Word} (hdir : dir ≠ 0) (h : ¬ Stops w.mem name dir) :
    findEntryLoop pEntry name (n + 1) dir w = findEntryLoop pEntry name n (dir + 32) w := by
  have hzero : w.mem dir ≠ 0 := fun hz => h (.inl hz)
  have hname : strcmp (stringOf (clusterfilename w.mem dir)) name ≠ 0 := fun hs => h (.inr hs)
  simp only [findEntryLoop, if_neg hzero, if_neg (signExtend_ne_deleted _),
    fat12ClusterfilenameToFilename, if_neg hdir, if_neg (not_not.mpr hno), if_neg hname]

/-- A slot of the name ends the scan. -/
theorem findEntryLoop_named {n : Nat} {dir : Word} (hdir : dir ≠ 0) (hzero : w.mem dir ≠ 0)
    (hname : strcmp (stringOf (clusterfilename w.mem dir)) name = 0) :
    findEntryLoop pEntry name (n + 1) dir w = .done dir w := by
  simp only [findEntryLoop, if_neg hzero, if_neg (signExtend_ne_deleted _),
    fat12ClusterfilenameToFilename, if_neg hdir, if_neg (not_not.mpr hno), if_pos hname]

theorem findEntryLoop_stops {n : Nat} {dir : Word} (hdir : dir ≠ 0) (h : Stops w.mem name dir) :
    findEntryLoop pEntry name (n + 1) dir w = .done pEntry (w.setErr .notfound) ∨
      findEntryLoop pEntry name (n + 1) dir w = .done dir w := by
  by_cases hzero : w.mem dir = 0
  · left
    rw [findEntryLoop, if_pos hzero]
  · exact .inr (findEntryLoop_named pEntry name hno hdir hzero (h.resolve_left hzero))

/-- By induction on the slots. -/
theorem findEntryLoop_of_stops : ∀ (n : Nat) (dir : Word), (∀ i < n, slotAt dir i ≠ 0) →
    (∃ i < n, Stops w.mem name (slotAt dir i)) →
    ∃ it w', findEntryLoop pEntry name n dir w = .done it w' ∧
      (w' = w.setErr .notfound ∨ w' = w ∧ it ∈ slots n dir) := by
  intro n
  induction n with
  | zero =>
    intro dir _ h
    obtain ⟨i, hi, -⟩ := h
    exact absurd hi (Nat.not_lt_zero i)
  | succ n ih =>
    intro dir hne h
    have hdir : dir ≠ 0 := by simpa using hne 0 (Nat.succ_pos n)
    by_cases hstop : Stops w.mem name dir
    · cases findEntryLoop_stops pEntry name hno (n := n) hdir hstop with
      | inl e => exact ⟨_, _, e, .inl rfl⟩
      | inr e => exact ⟨_, _, e, .inr ⟨rfl, List.mem_cons_self⟩⟩
    · rw [findEntryLoop_succ pEntry name hno hdir hstop]
      have htail : ∀ i < n, slotAt (dir + 32) i ≠ 0 := by
        intro i hi
        rw [← slotAt_succ]
        exact hne (i + 1) (Nat.succ_lt_succ hi)
      obtain ⟨it, w', e, hout⟩ := ih (dir + 32) htail ((exists_slot_succ.mp h).resolve_left hstop)
      exact ⟨it, w', e, hout.imp_right fun h => ⟨h.1, List.mem_cons_of_mem _ h.2⟩⟩

/-- By induction on the slots. -/
theorem stops_of_findEntryLoop {it : Word} {w' : World} : ∀ (n : Nat) (dir : Word),
    (∀ i < n, slotAt dir i ≠ 0) → findEntryLoop pEntry name n dir w = .done it w' →
    ∃ i < n, Stops w.mem name (slotAt dir i) := by
  intro n
  induction n with
  | zero =>
    intro dir _ h
    cases h
  | succ n ih =>
    intro dir hne h
    have hdir : dir ≠ 0 := by simpa using hne 0 (Nat.succ_pos n)
    rw [exists_slot_succ]
    by_cases hstop : Stops w.mem name dir
    · exact .inl hstop
    · rw [findEntryLoop_succ pEntry name hno hdir hstop] at h
      refine .inr (ih (dir + 32) (fun i hi => ?_) h)
      rw [← slotAt_succ]
      exact hne (i + 1) (Nat.succ_lt_succ hi)

end

section

variable {lo hi : Nat} (hlo : 0 < lo) (hhi : hi < 2 ^ 32) {w : World} (hinv : w.state.heap.Inv lo hi)
  {dir size : Word} (hbuffer : (⟨dir, size⟩ : Chunk) ∈ w.live)
include hlo hhi hinv hbuffer

/-- No slot of a live block is at address 0. -/
theorem slotAt_ne_zero {i : Nat} (hi' : i < size.toNat / 32) : slotAt dir i ≠ 0 := by
  have hin := Heap.Inv.inside hinv hbuffer
  intro h0
  have := congrArg BitVec.toNat h0
  simp only [] at hin
  rw [slotAt, toNat_add_ofNat (by omega)] at this
  simp at this
  omega

theorem findInside_iff (hno : w.state.err = .no) (pEntry : Word) (name : List Byte) :
    FindInside (size.toNat / 32) pEntry dir name w ↔
      ∃ i < size.toNat / 32, Stops w.mem name (slotAt dir i) := by
  have hne : ∀ i < size.toNat / 32, slotAt dir i ≠ 0 :=
    fun i => slotAt_ne_zero hlo hhi hinv hbuffer
  have hslots : size.toNat / 32 ≤ addressSlots := by
    have := size.isLt
    rw [addressSlots]
    omega
  constructor
  · intro h
    obtain ⟨it, w', e, -⟩ := h
    exact stops_of_findEntryLoop pEntry name hno _ dir hne e
  · intro h
    obtain ⟨it, w', e, hout⟩ := findEntryLoop_of_stops pEntry name hno _ dir hne h
    refine ⟨it, w', e, ?_, hout⟩
    rw [fat12FindEntry, if_neg (Heap.Inv.start_ne_zero hlo hhi hinv hbuffer)]
    exact findEntryLoop_mono hslots e

theorem passesInside_iff : PassesInside (size.toNat / 32) dir w ↔
    ∃ i < size.toNat / 32, w.mem (slotAt dir i) = 0 := by
  have hslots : size.toNat / 32 ≤ addressSlots := by
    have := size.isLt
    rw [addressSlots]
    omega
  rw [← exists_endsAt]
  constructor
  · intro h
    obtain ⟨count, e, -⟩ := h
    exact endsAt_of_count _ _ _ e
  · intro h
    obtain ⟨k, hk, hend⟩ := h
    have hcount : countEntries w.mem (size.toNat / 32) dir 0 =
        some (BitVec.ofNat 32 (listedSlots w.mem k dir).length) := by
      rw [countEntries_spec k _ dir 0 hend hk]
      simp
    refine ⟨_, hcount, countEntries_mono hslots hcount, fun listing w' e hserved => ?_⟩
    rcases World.malloc_spec hlo hhi hinv
      (BitVec.ofNat 32 (listedSlots w.mem k dir).length * dirEntrySize) with
      ⟨w₁, e₁, -⟩ | ⟨ptr, w₁, e₁, hg⟩
    · rw [e₁] at e
      cases e
      exact absurd rfl hserved
    · rw [e₁] at e
      cases e
      have hold : (⟨dir, size⟩ : Chunk) ∈ w'.live := hg.live ▸ Set.mem_insert_of_mem _ hbuffer
      have hmem : ∀ x, InRange dir size.toNat x → w'.mem x = w.mem x := fun x _ => by rw [hg.mem]
      obtain ⟨w'', hfill, -⟩ := fillEntries_of_live hlo hhi hg.inv hold hmem hend (by omega) hk
        (hg.live ▸ Set.mem_insert _ _) fun he => hg.fresh (he ▸ hbuffer)
      exact ⟨w'', hfill, fillEntries_mono hslots hfill⟩

theorem scans_inside_iff (hno : w.state.err = .no) (pEntry : Word) (name : List Byte) :
    (FindInside (size.toNat / 32) pEntry dir name w ↔
      ∃ i < size.toNat / 32, Stops w.mem name (slotAt dir i)) ∧
    (PassesInside (size.toNat / 32) dir w ↔ ∃ i < size.toNat / 32, w.mem (slotAt dir i) = 0) :=
  ⟨findInside_iff hlo hhi hinv hbuffer hno pEntry name, passesInside_iff hlo hhi hinv hbuffer⟩

end

/-- A root directory whose bytes are all `b`, read for a `dir_t` at the start of the heap. -/
theorem flat_dir_root (b : Byte) : ∃ w₁ entries w₂,
    fat12ReadRootDirectory (idealRead 512 fun _ _ => b) (some 0) (some floppyDisk.fat12) w₁ =
      some (some entries, w₂) ∧ Flat b 1 {⟨entries, 7168⟩, ⟨0x00100000, dirSize⟩} w₂ := by
  obtain ⟨w₁, -, h₁⟩ := @flat_first b dirSize (by decide) (by decide)
  obtain ⟨entries, w₂, e₂, -, -, h₂⟩ := flat_root (idealRead_flat b) 0 h₁ rfl (by decide)
  exact ⟨w₁, entries, w₂, e₂, h₂⟩

/-- The root directory of a floppy disk has 224 slots. -/
theorem scans_inside_iff_full : ∃ dir w, (⟨dir, 7168⟩ : Chunk) ∈ w.live ∧
    (FindInside 224 0 dir [0x42] w ↔ ∃ i < 224, Stops w.mem [0x42] (slotAt dir i)) ∧
    (PassesInside 224 dir w ↔ ∃ i < 224, w.mem (slotAt dir i) = 0) := by
  obtain ⟨-, dir, w, -, h⟩ := flat_dir_root 0x41
  have hbuffer : (⟨dir, 7168⟩ : Chunk) ∈ w.live := h.live ▸ Set.mem_insert _ _
  exact ⟨dir, w, hbuffer, scans_inside_iff (by decide) (by decide) h.whole.toInv hbuffer h.err 0 [0x42]⟩

/-- In a root directory that is full, no scan ends inside: all names are `AAAAAAAA.AAA`. -/
theorem scans_leave_full_directory : ∃ w₁ dir w,
    fat12ReadRootDirectory (idealRead 512 fun _ _ => 0x41) (some 0) (some floppyDisk.fat12) w₁ =
      some (some dir, w) ∧ (⟨dir, 7168⟩ : Chunk) ∈ w.live ∧ w.state.err = .no ∧
    ¬ FindInside 224 0 dir [0x42] w ∧ ¬ PassesInside 224 dir w := by
  obtain ⟨w₁, dir, w, hread, h⟩ := flat_dir_root 0x41
  have hblock : (⟨dir, 7168⟩ : Chunk) ∈ ({⟨dir, 7168⟩, ⟨0x00100000, dirSize⟩} : Set Chunk) :=
    Set.mem_insert _ _
  have hbuffer : (⟨dir, 7168⟩ : Chunk) ∈ w.live := h.live ▸ hblock
  have hsize : (⟨dir, 7168⟩ : Chunk).size.toNat = 7168 := rfl
  have hused : ∀ i < 224, w.mem (slotAt dir i) ≠ 0 := by
    intro i hi
    rw [slotAt, h.byte hblock (i := 32 * i) (by omega)]
    decide
  have hname : ∀ i < 224, strcmp (stringOf (clusterfilename w.mem (slotAt dir i))) [0x42] ≠ 0 := by
    intro i hi
    rw [slotAt, h.name hblock (i := 32 * i) (by omega)]
    decide
  refine ⟨w₁, dir, w, hread, hbuffer, h.err, fun hin => ?_, fun hin => ?_⟩
  · obtain ⟨i, hi, hstop⟩ := (findInside_iff (by decide) (by decide) h.whole.toInv hbuffer h.err 0
      [0x42]).mp hin
    exact hstop.elim (hused i hi) (hname i hi)
  · obtain ⟨i, hi, hzero⟩ := (passesInside_iff (by decide) (by decide) h.whole.toInv hbuffer).mp hin
    exact hused i hi hzero

end Installer
end Amethyst
