import Amethyst.Installer.FatWalk

/-!
# Amethyst.Installer.FileRead

What `fat12_file_read` returns and what it leaves behind. A read frees the FATs on every way out, so
what can go wrong is decided by where the lookup of the path leaves (`pathExit`) and by what
`fat12_read_entry` does with the entry that it found.

`fileOutcome` is the list of the ways through. A disk and a memory that are one byte over and over
(`Flat`) take the call down some of them.
-/

namespace Amethyst
namespace Installer

/-- The world that a call has come to. -/
def Result.world {α : Type} : Result α → World
  | done _ w => w
  | lost w => w

/-- `freed` takes the block at this address back. -/
def World.Takes (w : World) (ptr : Word) : Prop :=
  ∀ c ∈ w.live, c.start = ptr → ¬ w.state.heap.NoPlace c

section

variable (dr : DiskRead) (garbage : Word) (disk : DiskPtr) (filename : List Byte) (w : World)

/-- Where the lookup of the path leaves. -/
def pathExit : LookupExit :=
  let (fats, w) := fat12ReadFats dr (some (disk w.mem).fat12) w
  if w.state.err ≠ .no then .noFats
  else lookupExit dr garbage disk fats (fat12RegularfilenameToFilename filename) w

/-- With the FATs at `fats` the lookup of the path comes to `r`. -/
def LooksUp (fats : Word) (r : Result Word) : Prop :=
  ∃ w₀, fat12ReadFats dr (some (disk w.mem).fat12) w = (fats, w₀) ∧ w₀.state.err = .no ∧
    fat12GetEntryOfFilename dr garbage garbage (some disk) fats
      (some (fat12RegularfilenameToFilename filename)) w₀ = r

/-- The path leads to a directory. -/
def FindsDirectory (fats : Word) (w₁ : World) : Prop :=
  ∃ entry, LooksUp dr garbage disk filename w fats (.done entry w₁) ∧ w₁.state.err = .no ∧
    isSubdirectory w₁.mem entry

/-- The path leads to a file, with this first cluster. -/
def FindsFile (fats : Word) (start : Cluster) (w₁ : World) : Prop :=
  ∃ entry, LooksUp dr garbage disk filename w fats (.done entry w₁) ∧ w₁.state.err = .no ∧
    ¬ isSubdirectory w₁.mem entry ∧ start = firstCluster w₁.mem entry

/-- The file is read to `buffer`. -/
def ReadsFile (fats : Word) (start : Cluster) (w₁ : World) (buffer : Word) (w₂ : World) : Prop :=
  FindsFile dr garbage disk filename w fats start w₁ ∧ entryExit dr disk fats start w₁ = .read ∧
    disk.fat12ReadEntry dr garbage fats start w₁ = some (buffer, w₂)

end

/-! ## The ways through `fat12_file_read` -/

theorem World.free_zero (w : World) : w.free 0 = some (w.setErr .invarg) := by
  simp [World.free, Installer.free, Heap.free, World.setErr]

/-- What is left to do when the FATs are read and the lookup has returned. -/
def fileReadTail (dr : DiskRead) (garbage : Word) (disk : DiskPtr) (fats entry : Word) (w : World) :
    Result Word :=
  if w.state.err ≠ .no then fileReadFailure fats w
  else if isSubdirectory w.mem entry then fileReadFailure fats w
  else
    match disk.fat12ReadEntry dr garbage fats (firstCluster w.mem entry) w with
    | none => .lost w
    | some (buffer, w) =>
      match w.free fats with
      | none => .lost w
      | some w => .done buffer w

section

variable {dr : DiskRead} {garbage : Word} {disk : DiskPtr} {filename : List Byte} {w w' : World}
  {fats : Word} {r r' : Result Word}

theorem LooksUp.unique {fats' : Word} (h : LooksUp dr garbage disk filename w fats r)
    (h' : LooksUp dr garbage disk filename w fats' r') : fats = fats' ∧ r = r' := by
  obtain ⟨w₀, e, -, rfl⟩ := h
  obtain ⟨w₀', e', -, rfl⟩ := h'
  rw [e] at e'
  cases e'
  exact ⟨rfl, rfl⟩

theorem FindsFile.unique {start start' : Cluster} {fats' : Word} {w₁ w₁' : World}
    (h : FindsFile dr garbage disk filename w fats start w₁)
    (h' : FindsFile dr garbage disk filename w fats' start' w₁') :
    fats = fats' ∧ start = start' ∧ w₁ = w₁' := by
  obtain ⟨entry, hl, -, -, rfl⟩ := h
  obtain ⟨entry', hl', -, -, rfl⟩ := h'
  obtain ⟨rfl, he⟩ := hl.unique hl'
  cases he
  exact ⟨rfl, rfl, rfl⟩

/-- A path that leads to no file is not read. -/
theorem LooksUp.not_findsFile {entry : Word} {w₁ : World}
    (h : LooksUp dr garbage disk filename w fats (.done entry w₁))
    (hnot : w₁.state.err ≠ .no ∨ isSubdirectory w₁.mem entry) (fats' : Word) (start : Cluster)
    (w₁' : World) : ¬ FindsFile dr garbage disk filename w fats' start w₁' := by
  intro ⟨entry', hl, hno, hdir, _⟩
  obtain ⟨-, he⟩ := h.unique hl
  cases he
  cases hnot with
  | inl herr => exact herr hno
  | inr hd => exact hdir hd

theorem FindsFile.forall_reads {start : Cluster} {w₁ w₂ : World} {buffer : Word}
    (h : FindsFile dr garbage disk filename w fats start w₁)
    (hread : disk.fat12ReadEntry dr garbage fats start w₁ = some (buffer, w₂))
    {P : Word → Cluster → World → Word → World → Prop} :
    (∀ fats start w₁ buffer w₂, ReadsFile dr garbage disk filename w fats start w₁ buffer w₂ →
        P fats start w₁ buffer w₂) ↔
      (entryExit dr disk fats start w₁ = .read → P fats start w₁ buffer w₂) := by
  constructor
  · intro hall he
    exact hall _ _ _ _ _ ⟨h, he, hread⟩
  · intro hp fats' start' w₁' buffer' w₂' hr
    obtain ⟨h', he, hread'⟩ := hr
    obtain ⟨rfl, rfl, rfl⟩ := h.unique h'
    rw [hread] at hread'
    cases hread'
    exact hp he

theorem pathExit_noFats (e : fat12ReadFats dr (some (disk w.mem).fat12) w = (fats, w')) (h : w'.state.err ≠ .no) :
    pathExit dr garbage disk filename w = .noFats := by
  simp only [pathExit, e, if_pos h]

theorem not_looksUp (e : fat12ReadFats dr (some (disk w.mem).fat12) w = (fats, w')) (h : w'.state.err ≠ .no)
    (fats' : Word) : ¬ LooksUp dr garbage disk filename w fats' r := by
  intro ⟨w₀, e₀, h₀, _⟩
  rw [e] at e₀
  cases e₀
  exact h h₀

section

variable (hlen : filename.length < 512) (hno : w.state.err = .no)
include hlen hno

theorem fat12FileRead_noFats (e : fat12ReadFats dr (some (disk w.mem).fat12) w = (0, w')) (h : w'.state.err ≠ .no) :
    fat12FileRead dr garbage (some disk) (some filename) w = .done 0 (w'.setErr .invarg) := by
  simp only [fat12FileRead, if_neg (Nat.not_le.mpr hlen), if_neg (not_not.mpr hno), e, if_pos h,
    fileReadFailure, World.free_zero]

theorem fat12FileRead_lost (h : LooksUp dr garbage disk filename w fats (.lost w')) :
    fat12FileRead dr garbage (some disk) (some filename) w = .lost w' := by
  obtain ⟨w₀, e, h₀, hr⟩ := h
  simp only [fat12FileRead, if_neg (Nat.not_le.mpr hlen), if_neg (not_not.mpr hno), e,
    if_neg (not_not.mpr h₀), hr]

theorem fat12FileRead_tail {entry : Word} (h : LooksUp dr garbage disk filename w fats (.done entry w')) :
    fat12FileRead dr garbage (some disk) (some filename) w =
      fileReadTail dr garbage disk fats entry w' := by
  obtain ⟨w₀, e, h₀, hr⟩ := h
  simp only [fat12FileRead, if_neg (Nat.not_le.mpr hlen), if_neg (not_not.mpr hno), e,
    if_neg (not_not.mpr h₀), hr]
  rfl

end

end

/-- What `fat12_file_read` comes to, on each way through it. -/
inductive FileOutcome (lo hi : Nat) (dr : DiskRead) (garbage : Word) (disk : DiskPtr)
    (filename : List Byte) (w : World) : Result Word → Prop where
  | noFats {w' : World} (hexit : pathExit dr garbage disk filename w = .noFats)
      (hnone : ∀ fats r, ¬ LooksUp dr garbage disk filename w fats r) (hlive : w'.live = w.live)
      (herr : w'.state.err = .invarg) :
      FileOutcome lo hi dr garbage disk filename w (.done 0 w')
  | endlessLookup {fats : Word} {w' : World} (h : LooksUp dr garbage disk filename w fats (.lost w'))
      (hend : (pathExit dr garbage disk filename w).Endless) :
      FileOutcome lo hi dr garbage disk filename w (.lost w')
  | noFile {fats size entry : Word} {w₁ w' : World}
      (h : LooksUp dr garbage disk filename w fats (.done entry w₁))
      (hfresh : (⟨fats, size⟩ : Chunk) ∉ w.live)
      (hleft : Left lo hi (insert ⟨fats, size⟩ w.live) (pathExit dr garbage disk filename w) w₁)
      (hnot : w₁.state.err ≠ .no ∨ isSubdirectory w₁.mem entry)
      (hfreed : Freed lo hi w₁ ⟨fats, size⟩ w') :
      FileOutcome lo hi dr garbage disk filename w (.done 0 w')
  | endlessFile {fats : Word} {start : Cluster} {w₁ : World}
      (h : FindsFile dr garbage disk filename w fats start w₁)
      (hexit : pathExit dr garbage disk filename w = .found)
      (hend : (LookupExit.entry (entryExit dr disk fats start w₁)).Endless) :
      FileOutcome lo hi dr garbage disk filename w (.lost w₁)
  | file {fats size : Word} {start : Cluster} {w₁ : World} {e : EntryExit} {buffer : Word}
      {w₂ w' : World} (h : FindsFile dr garbage disk filename w fats start w₁)
      (hexit : pathExit dr garbage disk filename w = .found)
      (hfresh : (⟨fats, size⟩ : Chunk) ∉ w.live) (hlive : w₁.live = insert ⟨fats, size⟩ w.live)
      (hentry : entryExit dr disk fats start w₁ = e)
      (hread : disk.fat12ReadEntry dr garbage fats start w₁ = some (buffer, w₂))
      (hout : EntryOutcome lo hi dr disk fats start garbage w₁ e (some (buffer, w₂)))
      (hfreed : Freed lo hi w₂ ⟨fats, size⟩ w') (hinv : w₂.state.heap.Inv lo hi)
      (hmem : (⟨fats, size⟩ : Chunk) ∈ w₂.live) :
      FileOutcome lo hi dr garbage disk filename w (.done buffer w')

theorem Left.mem {lo hi : Nat} {base : Set Chunk} {e : LookupExit} {w' : World}
    (h : Left lo hi base e w') {c : Chunk} (hc : c ∈ base) : c ∈ w'.live := by
  by_cases hleak : e.Leaks
  · obtain ⟨d, -, hlive⟩ := h.leak hleak
    rw [hlive]
    exact Set.mem_insert_of_mem d hc
  · rw [h.live hleak]
    exact hc

theorem EntryOutcome.keeps {lo hi : Nat} {dr : DiskRead} {disk : DiskPtr} {fats : Word} {start : Cluster}
    {pOutput output : Word} {w w' : World} {e : EntryExit} (hinv : w.state.heap.Inv lo hi)
    (h : EntryOutcome lo hi dr disk fats start pOutput w e (some (output, w'))) :
    w'.state.heap.Inv lo hi ∧ w.live ⊆ w'.live := by
  cases h with
  | badCluster h => exact ⟨hinv, fun _ hc => hc⟩
  | refused h hrefused => exact ⟨hrefused.inv, by rw [hrefused.live]⟩
  | errorSet h hgranted hset =>
    rw [hgranted.live]
    exact ⟨hgranted.inv, Set.subset_insert _ _⟩
  | unreadable h hno hinv' hlive hio hne => exact ⟨hinv', by rw [hlive]⟩
  | read h hno hend hgranted hread hstate =>
    have howns := hgranted.owns hstate
    rw [howns.live]
    exact ⟨howns.inv, Set.subset_insert _ _⟩

section

variable {lo hi : Nat} (hlo : 0 < lo) (hhi : hi < 2 ^ 32)
include hlo hhi

theorem fileReadFailure_freed {w : World} (hinv : w.state.heap.Inv lo hi) {fats size : Word}
    (hc : (⟨fats, size⟩ : Chunk) ∈ w.live) :
    ∃ w', fileReadFailure fats w = .done 0 w' ∧ Freed lo hi w ⟨fats, size⟩ w' := by
  obtain ⟨w', e, hf⟩ := World.free_spec hlo hhi hinv hc
  exact ⟨w', by simp only [fileReadFailure, e], hf⟩

theorem World.takes_iff {w : World} (hinv : w.state.heap.Inv lo hi) {c : Chunk} (hc : c ∈ w.live) :
    w.Takes c.start ↔ ¬ w.state.heap.NoPlace c := by
  constructor
  · intro h
    exact h c hc rfl
  · intro h d hd he
    have hdc : d = c := hinv.live_inj hlo hhi hd hc he
    rw [hdc]
    exact h

variable {dr : DiskRead} (hk : Keeps lo hi dr) {w : World} (hinv : w.state.heap.Inv lo hi)
  (hno : w.state.err = .no) (garbage : Word) (disk : DiskPtr) {filename : List Byte}
  (hlen : filename.length < 512)
include hk hinv hno hlen

theorem fileOutcome : FileOutcome lo hi dr garbage disk filename w
    (fat12FileRead dr garbage (some disk) (some filename) w) := by
  rcases fat12ReadFats_cases hlo hhi hk hinv hno (disk w.mem).fat12 with
    ⟨w₀, e, hr⟩ | ⟨fats, size, w₀, e, howns, h₀⟩
  · rw [fat12FileRead_noFats hlen hno e hr.err]
    exact .noFats (pathExit_noFats e hr.err) (fun _ _ => not_looksUp e hr.err _) hr.live rfl
  have hfats := Heap.Inv.start_ne_zero hlo hhi howns.inv howns.mem
  have hexit : pathExit dr garbage disk filename w =
      lookupExit dr garbage disk fats (fat12RegularfilenameToFilename filename) w₀ := by
    simp only [pathExit, e, if_neg (not_not.mpr h₀)]
  have hlook : ∀ r, fat12GetEntryOfFilename dr garbage garbage (some disk) fats
      (some (fat12RegularfilenameToFilename filename)) w₀ = r →
      LooksUp dr garbage disk filename w fats r := fun r hr => ⟨w₀, e, h₀, hr⟩
  rcases fat12GetEntryOfFilename_cases hlo hhi hk howns.inv h₀ garbage disk hfats
    (fat12RegularfilenameToFilename filename) with ⟨w₁, he, hend⟩ | ⟨entry, w₁, he, hleft⟩
  · rw [fat12FileRead_lost hlen hno (hlook _ he)]
    exact .endlessLookup (hlook _ he) (hexit ▸ hend)
  rw [fat12FileRead_tail hlen hno (hlook _ he), fileReadTail]
  rw [howns.live, ← hexit] at hleft
  have hmem : (⟨fats, size⟩ : Chunk) ∈ w₁.live := hleft.mem (Set.mem_insert _ _)
  obtain ⟨w', hfail, hfreed⟩ := fileReadFailure_freed hlo hhi hleft.inv hmem
  by_cases herr : w₁.state.err = .no
  · rw [if_neg (not_not.mpr herr)]
    by_cases hdir : isSubdirectory w₁.mem entry
    · rw [if_pos hdir, hfail]
      exact .noFile (hlook _ he) howns.fresh hleft (.inr hdir) hfreed
    rw [if_neg hdir]
    have hfound := hleft.no herr
    have hlive : w₁.live = insert ⟨fats, size⟩ w.live := hleft.live (by rw [hfound]; decide)
    have hfile : FindsFile dr garbage disk filename w fats (firstCluster w₁.mem entry) w₁ :=
      ⟨entry, hlook _ he, herr, hdir, rfl⟩
    have hout := entryOutcome hlo hhi hk hleft.inv disk hfats (firstCluster w₁.mem entry)
      garbage
    cases hread : disk.fat12ReadEntry dr garbage fats (firstCluster w₁.mem entry) w₁ with
    | none =>
      rw [hread] at hout
      refine .endlessFile hfile hfound ?_
      generalize entryExit dr disk fats (firstCluster w₁.mem entry) w₁ = exit at hout
      cases hout with
      | stopped => exact entry_endless_iff.mpr (.inr rfl)
      | endless => exact entry_endless_iff.mpr (.inl rfl)
    | some r =>
      obtain ⟨buffer, w₂⟩ := r
      rw [hread] at hout
      obtain ⟨hinv₂, hsub⟩ := hout.keeps hleft.inv
      obtain ⟨w', hfree, hfreed⟩ := World.free_spec hlo hhi hinv₂ (hsub hmem)
      simp only [hfree]
      exact .file hfile hfound howns.fresh hlive rfl hread hout hfreed hinv₂ (hsub hmem)
  · rw [if_pos herr, hfail]
    exact .noFile (hlook _ he) howns.fresh hleft (.inl herr) hfreed

end

/-! ## One byte over and over -/

/-- A floppy disk, as `disk_open` leaves it but for the fields that nothing here reads. -/
def floppyDisk : DiskT := ⟨0, .fat12, { floppy with
  sectorCount := 2880
  sectorPerTrack := 18
  headCount := 2
  bootSignature := 0x29
  volumeId := 0
  volumeLabel := List.replicate 12 0 }⟩

/-- A `disk_t` that lies below the heap. -/
def flatDisk : Word := 0x00090000

/-- A memory of one byte, but for the `disk_t` of a floppy disk. -/
def flatMem (b : Byte) : Mem 32 := storeDisk flatDisk floppyDisk fun _ => b

theorem diskAt_flatMem (b : Byte) : diskAt flatDisk (flatMem b) = floppyDisk := diskAt_storeDisk _ rfl _

theorem flatMem_apart {a : Word} (h : a.toNat < 0x00090000 ∨ 0x00100000 ≤ a.toNat) (b : Byte) :
    flatMem b a = b := by
  refine storeDisk_frame ?_
  rw [inRange_iff (by decide)]
  have hdisk : flatDisk.toNat = 0x00090000 := rfl
  have hsize : sizeofDisk = 44 := rfl
  omega

theorem flatMem_add {a : Word} (h : 0x00100000 ≤ a.toNat) {i : Nat} (hi : a.toNat + i < 2 ^ 32)
    (b : Byte) : flatMem b (a + BitVec.ofNat 32 i) = b := by
  apply flatMem_apart
  rw [toNat_add_ofNat hi]
  omega

/-- A memory and a heap with these live blocks, after `n` reads. -/
structure Flat (b : Byte) (n : Nat) (blocks : Set Chunk) (w : World) : Prop where
  mem : w.mem = flatMem b
  err : w.state.err = .no
  whole : w.state.heap.Whole 0x00100000 0x001FFFFF
  live : w.live = blocks
  reads : w.reads.length = n

/-- A disk whose reads to the heap leave such a memory as it is. -/
def FlatRead (b : Byte) (status : BitVec 8) (dr : DiskRead) : Prop :=
  ∀ drive ptr count lba w, 0x00100000 ≤ ptr.toNat → ptr.toNat < 0x00200000 → w.mem = flatMem b →
    ∃ calls, dr drive ptr count lba w = (status, { w with calls })

/-- The world after `alloc_init`, on such a memory. -/
def flatWorld (b : Byte) : World := { World.init with mem := flatMem b }

theorem flatWorld_flat (b : Byte) : Flat b 0 ∅ (flatWorld b) where
  mem := rfl
  err := rfl
  whole := @Heap.whole_allocInit 0x00100000 0x000FFFFF ⟨by decide, by decide, by decide⟩
  live := Heap.live_allocInit _ _
  reads := rfl

/-- The FATs of a floppy disk, as the first block of the heap. -/
def firstFats : Chunk := ⟨0x00100000, 9216⟩

section

variable {b : Byte} {n : Nat} {blocks : Set Chunk} {w : World} (h : Flat b n blocks w)
include h

theorem Flat.disk : diskAt flatDisk w.mem = floppyDisk := by
  rw [h.mem]
  exact diskAt_flatMem b

theorem Flat.field_ne_zero : (diskAt flatDisk w.mem).info.bytesPerSector ≠ 0 := by
  rw [h.disk]
  decide

theorem Flat.inside {c : Chunk} (hc : c ∈ blocks) :
    0x00100000 ≤ c.start.toNat ∧ c.start.toNat + c.size.toNat ≤ 0x001FFFFF :=
  Heap.Inv.inside h.whole.toInv (show c ∈ w.live from h.live ▸ hc)

theorem Flat.byte {c : Chunk} (hc : c ∈ blocks) {i : Nat} (hi : i ≤ c.size.toNat) :
    w.mem (c.start + BitVec.ofNat 32 i) = b := by
  obtain ⟨h1, h2⟩ := h.inside hc
  rw [h.mem]
  exact flatMem_add h1 (by omega) b

theorem Flat.read {status : BitVec 8} {dr : DiskRead} (hd : FlatRead b status dr) {c : Chunk}
    (hc : c ∈ blocks) (drive : BitVec 8) (count : BitVec 16) (lba : BitVec 64) :
    ∃ w', w.diskRead dr drive c.start count lba = (status, w') ∧ Flat b (n + 1) blocks w' := by
  obtain ⟨h1, h2⟩ := h.inside hc
  obtain ⟨calls, e⟩ := hd drive c.start count lba w h1 (by omega) h.mem
  simp only [World.diskRead, e]
  exact ⟨_, rfl, h.mem, h.err, h.whole, h.live, by simp [h.reads]⟩

theorem Flat.free {c : Chunk} {others : Set Chunk} (hb : blocks = insert c others) (hc : c ∉ others) :
    ∃ w', w.free c.start = some w' ∧ Flat b n others w' := by
  have hmem : c ∈ w.live := by
    rw [h.live, hb]
    exact Set.mem_insert _ _
  obtain ⟨w', e, hf, hw, herr⟩ := World.free_of_whole (by decide) (by decide) h.whole hmem
  refine ⟨w', e, hf.mem.trans h.mem, herr.trans h.err, hw, ?_, by rw [hf.reads, h.reads]⟩
  rw [hf.live, h.live, hb, Set.insert_sdiff_self_of_notMem hc]

theorem Flat.malloc (size : Word) {c : Chunk} (hb : blocks ⊆ {c}) (hstart : c.start = 0x00100000)
    (hs : size ≠ 0) (hfit : c.size.toNat + size.toNat ≤ 0x000FFFFF) :
    ∃ ptr w', w.malloc size = (ptr, w') ∧ ptr ≠ 0 ∧ (⟨ptr, size⟩ : Chunk) ∉ blocks ∧
      Flat b n (insert ⟨ptr, size⟩ blocks) w' := by
  obtain ⟨ptr, w', e, hg, hw⟩ := World.malloc_beside (by decide) (by decide) h.whole (c := c)
    (h.live ▸ hb) (by rw [hstart]; rfl) hs (by omega)
  refine ⟨ptr, w', e, hg.ne_zero, h.live ▸ hg.fresh, hg.mem.trans h.mem, hg.err.trans h.err, hw, ?_,
    by rw [hg.reads, h.reads]⟩
  rw [hg.live, h.live]

end

section

variable {b : Byte} {status : BitVec 8} {dr : DiskRead} (hd : FlatRead b status dr)
include hd

omit hd in
/-- The first block of the fresh heap is at its start. -/
theorem flat_first (b : Byte) {size : Word} (hs : size ≠ 0) (hle : size ≤ 0x000FFFFF) :
    ∃ w', (flatWorld b).malloc size = (0x00100000, w') ∧ Flat b 0 {⟨0x00100000, size⟩} w' := by
  have hfit : size.toNat ≤ 0x000FFFFF := hle
  obtain ⟨ptr, w', e, -, -, h⟩ := (flatWorld_flat b).malloc size (c := ⟨0x00100000, 0⟩)
    (Set.empty_subset _) rfl hs (by simpa using hfit)
  have hfirst : ((flatWorld b).malloc size).1 = 0x00100000 :=
    @malloc_allocInit 0x00100000 0x000FFFFF size .no hs hle
  have hptr : ptr = 0x00100000 := (congrArg Prod.fst e).symm.trans hfirst
  subst hptr
  exact ⟨w', e, by simpa using h⟩

theorem flat_fats : ∃ w', fat12ReadFats dr (some floppyDisk.fat12) (flatWorld b) = (0x00100000, w') ∧
    Flat b 1 {firstFats} w' := by
  obtain ⟨w₁, e, h₁⟩ := @flat_first b 9216 (by decide) (by decide)
  obtain ⟨w₂, e₂, h₂⟩ := h₁.read hd (Set.mem_singleton _) 0 18 1
  refine ⟨w₂, ?_, h₂⟩
  have hsize : (floppyDisk.fat12.info.bytesPerSector.setWidth 32 *
    floppyDisk.fat12.info.sectorPerFat.setWidth 32 * floppyDisk.fat12.info.fatCount.setWidth 32 : Word) =
    9216 := by decide
  have hcount : ((floppyDisk.fat12.info.sectorPerFat.setWidth 32 *
    floppyDisk.fat12.info.fatCount.setWidth 32 : Word).setWidth 16 : BitVec 16) = 18 := by decide
  have hid : floppyDisk.fat12.id = 0 := rfl
  simp only [fat12ReadFats, hsize, e, hcount, hid, e₂]
  rfl

omit hd in
/-- The root directory of a floppy disk, once its block is granted. -/
theorem floppy_root {dr : DiskRead} (garbage : Word) {status : BitVec 8} {w w₁ w₂ : World} {entries : Word}
    (e : w.malloc 7168 = (entries, w₁)) (hne : entries ≠ 0)
    (e₂ : w₁.diskRead dr 0 entries 14 0x13 = (status, w₂)) (herr : w₂.state.err = .no) :
    fat12ReadRootDirectory dr (some garbage) (some floppyDisk.fat12) w = some (some entries, w₂) := by
  obtain ⟨g, hg⟩ : ∃ g : Fat12, g = floppyDisk.fat12.info := ⟨_, rfl⟩
  have hsectors : (32 * g.maxRootEntryCount.setWidth 32 / g.bytesPerSector.setWidth 32 : Word) = 14 := by
    rw [hg]
    decide
  have hbytes : (((14 : Word).setWidth 64 * g.bytesPerSector.setWidth 64 : BitVec 64).setWidth 32 :
    Word) = 7168 := by
    rw [hg]
    decide
  have hcount : (((14 : Word).setWidth 64 : BitVec 64).setWidth 16 : BitVec 16) = 14 := by decide
  have hlba : ((g.sectorPerFat.setWidth 32 * g.fatCount.setWidth 32 +
    g.reservedSectorCount.setWidth 32 : Word).setWidth 64 * 0 + 0x13 : BitVec 64) = 0x13 := by
    rw [hg]
    decide
  have hid : floppyDisk.fat12.id = 0 := rfl
  simp only [fat12ReadRootDirectory, ← hg, hsectors, hbytes, e, if_neg hne, hcount, hlba, hid, e₂]
  rw [if_neg (not_not.mpr herr)]

/-- The root directory is read to a block beside the one at the start of the heap. -/
theorem flat_root (garbage : Word) {n : Nat} {c : Chunk} {w : World} (h : Flat b n {c} w)
    (hstart : c.start = 0x00100000) (hsize : c.size.toNat ≤ 9216) :
    ∃ entries w', fat12ReadRootDirectory dr (some garbage) (some floppyDisk.fat12) w =
        some (some entries, w') ∧ entries ≠ 0 ∧ (⟨entries, 7168⟩ : Chunk) ∉ ({c} : Set Chunk) ∧
      Flat b (n + 1) (insert ⟨entries, 7168⟩ {c}) w' := by
  obtain ⟨entries, w₁, e, hne, hfresh, h₁⟩ := h.malloc 7168 (Set.Subset.refl _) hstart (by decide)
    (Nat.le_trans (Nat.add_le_add_right hsize _) (by decide))
  obtain ⟨w₂, e₂, h₂⟩ := h₁.read hd (Set.mem_insert _ _) 0 14 0x13
  exact ⟨entries, w₂, floppy_root garbage e hne e₂ h₂.err, hne, hfresh, h₂⟩

/-- A lookup that takes one pass. -/
theorem flat_lookup (garbage : Word) (filename : List Byte) :
    ∃ entries w, entries ≠ 0 ∧ (⟨entries, 7168⟩ : Chunk) ∉ ({firstFats} : Set Chunk) ∧
      Flat b 2 (insert ⟨entries, 7168⟩ {firstFats}) w ∧
      ∀ p : Position, p = ⟨entries, skipSlash (fat12RegularfilenameToFilename filename), w⟩ → ∀ r,
        lookupPass dr garbage garbage (diskAt flatDisk) 0x00100000 p = .leave r →
        LooksUp dr garbage (diskAt flatDisk) filename (flatWorld b) 0x00100000 r ∧
        pathExit dr garbage (diskAt flatDisk) filename (flatWorld b) =
          passExit dr garbage (diskAt flatDisk) 0x00100000 p := by
  obtain ⟨w₁, e₁, h₁⟩ := flat_fats hd
  obtain ⟨entries, w₂, e₂, hne, hfresh, h₂⟩ := flat_root hd garbage h₁ rfl (Nat.le_refl _)
  have hdisk := (flatWorld_flat b).disk
  have hroot : (diskAt flatDisk).fat12ReadRootDirectory dr garbage w₁ = some (some entries, w₂) := by
    rw [DiskPtr.fat12ReadRootDirectory_ok h₁.field_ne_zero, h₁.disk, e₂]
  refine ⟨entries, w₂, hne, hfresh, h₂, fun p hp r hleave => ⟨⟨w₁, hdisk ▸ e₁, h₁.err, ?_⟩, ?_⟩⟩
  · subst hp
    simp only [fat12GetEntryOfFilename, hroot, if_neg (not_not.mpr h₂.err), Option.getD_some,
      Loop.run_leave hleave]
  · subst hp
    simp only [pathExit, hdisk, e₁, if_neg (not_not.mpr h₁.err), lookupExit, if_neg h₁.field_ne_zero,
      lookupStart, hroot, if_neg (not_not.mpr h₂.err), Option.getD_some, lookupEnd,
      Loop.last_leave hleave]

/-- The name of every entry. -/
def flatName (b : Byte) : List Byte := List.replicate 8 b ++ 0x2E :: List.replicate 3 b

omit hd in
/-- The name of a slot that lies in a live block. -/
theorem Flat.name {n : Nat} {blocks : Set Chunk} {w : World} (h : Flat b n blocks w) {c : Chunk}
    (hc : c ∈ blocks) {i : Nat} (hi : i + 32 ≤ c.size.toNat) :
    clusterfilename w.mem (c.start + BitVec.ofNat 32 i) = clusterfilename (fun _ => b) 0 := by
  have hbyte : ∀ j < 32, w.mem (c.start + BitVec.ofNat 32 i + BitVec.ofNat 32 j) = b := by
    intro j hj
    rw [add_add_ofNat]
    exact h.byte hc (by omega)
  have hname : bytes w.mem (c.start + BitVec.ofNat 32 i) 8 = bytes (fun _ => b) 0 8 :=
    List.map_congr_left fun j hj => hbyte j (Nat.lt_trans (List.mem_range.mp hj) (by decide))
  have hext : bytes w.mem (c.start + BitVec.ofNat 32 i + 8) 3 = bytes (fun _ => b) (0 + 8) 3 := by
    refine List.map_congr_left fun j hj => ?_
    have hj' := List.mem_range.mp hj
    rw [show (8 : Word) = BitVec.ofNat 32 8 from rfl, add_add_ofNat]
    exact hbyte (8 + j) (by omega)
  have h8 : w.mem (c.start + BitVec.ofNat 32 i + 8) = b := hbyte 8 (by decide)
  simp only [clusterfilename, hname, hext, h8]

omit hd in
theorem flat_find {n : Nat} {blocks : Set Chunk} {w : World} (h : Flat b n blocks w) (hb : b ≠ 0)
    (hname : strcmp (stringOf (clusterfilename (fun _ => b) 0)) (flatName b) = 0)
    (garbage : Word) {entries size : Word} (hc : (⟨entries, size⟩ : Chunk) ∈ blocks)
    (hsize : 32 ≤ size.toNat) :
    fat12FindEntry garbage entries (flatName b) w = .done entries w := by
  obtain ⟨k, hk⟩ : ∃ k, addressSlots = k + 1 := ⟨2 ^ 27 - 1, rfl⟩
  have hne : entries ≠ 0 :=
    Heap.Inv.start_ne_zero (by decide) (by decide) h.whole.toInv (show _ ∈ w.live from h.live ▸ hc)
  have hbyte : w.mem entries = b := by simpa using h.byte hc (Nat.zero_le _)
  have hslot : clusterfilename w.mem entries = clusterfilename (fun _ => b) 0 := by
    simpa using h.name hc (i := 0) (by simpa using hsize)
  simp only [fat12FindEntry, if_neg hne, hk, findEntryLoop, hbyte, if_neg hb,
    if_neg (signExtend_ne_deleted b), fat12ClusterfilenameToFilename,
    if_neg (not_not.mpr h.err), hslot, hname, if_true]

/-- The path that names an entry there is read as such. -/
structure Named (b : Byte) : Prop where
  ne_zero : b ≠ 0
  entry : strcmp (stringOf (clusterfilename (fun _ => b) 0)) (flatName b) = 0
  path : skipSlash (fat12RegularfilenameToFilename (flatName b)) = flatName b
  token : ∀ w, fat12FilenameTokenize (flatName b) w = (flatName b, none, w)

/-- The lookup of the path finds the first entry of the root directory and frees the directory. -/
theorem flat_looksUp (hb : Named b) (garbage : Word) :
    ∃ entry w, LooksUp dr garbage (diskAt flatDisk) (flatName b) (flatWorld b) 0x00100000
        (.done entry w) ∧
      (∀ i < 32, w.mem (entry + BitVec.ofNat 32 i) = b) ∧ Flat b 2 {firstFats} w := by
  obtain ⟨entries, w, hne, hfresh, h, hlook⟩ := flat_lookup hd garbage (flatName b)
  obtain ⟨w', e', h'⟩ := h.free rfl hfresh
  have hc := Set.mem_insert (⟨entries, 7168⟩ : Chunk) {firstFats}
  have hsize : 32 ≤ (7168 : Word).toNat := by decide
  refine ⟨entries, w', (hlook _ rfl _ ?_).1, fun i hi => ?_, h'⟩
  · have hset : ¬ w.state.err ≠ .no := not_not.mpr h.err
    simp only [lookupPass, hb.path, hb.token, if_neg hset,
      flat_find h hb.ne_zero hb.entry garbage hc hsize, e']
  · rw [h'.mem, ← h.mem]
    exact h.byte hc (Nat.le_trans (Nat.le_of_lt hi) hsize)

end

theorem idealRead_flat (b : Byte) : FlatRead b 0 (idealRead 512 fun _ _ => b) := by
  intro drive ptr count lba w h1 h2 hw
  have hcount := count.isLt
  have hfill : w.mem.fill ptr (512 * count.toNat) (Sectors.byte (fun _ _ => b) 512 lba) = w.mem := by
    funext x
    simp only [Mem.fill, Sectors.byte]
    split
    · rename_i hx
      obtain ⟨i, hi, rfl⟩ := hx.exists_add
      rw [hw]
      exact (flatMem_add h1 (by omega) b).symm
    · rfl
  simp only [idealRead, hfill]
  exact ⟨w.calls, rfl⟩

theorem named_directory : Named 0x51 where
  ne_zero := by decide
  entry := rfl
  path := by decide
  token _ := rfl

theorem named_file : Named 0xEF where
  ne_zero := by decide
  entry := rfl
  path := by decide
  token _ := rfl

/-- A file of one cluster, on a disk that is one byte over and over, is read. -/
theorem flat_file_read {dr : DiskRead} (hd : FlatRead 0xEF 0 dr) :
    ∃ buffer w', fat12FileRead dr 0 (some (diskAt flatDisk)) (some (flatName 0xEF)) (flatWorld 0xEF) =
      .done buffer w' ∧ buffer ≠ 0 ∧ w'.state.err = .no := by
  obtain ⟨entry, w, hlook, hslot, h⟩ := flat_looksUp hd named_file 0
  have hdir : ¬ isSubdirectory w.mem entry := by
    simp only [isSubdirectory, show w.mem (entry + 11) = 0xEF from hslot 11 (by decide)]
    decide
  have hstart : firstCluster w.mem entry = 0xFEF := by
    have h27 : w.mem (entry + 26 + 1) = 0xEF := by
      rw [show entry + 26 + 1 = entry + BitVec.ofNat 32 27 from add_add_ofNat entry 26 1]
      exact hslot 27 (by decide)
    simp only [firstCluster, Mem.read16, show w.mem (entry + 26) = 0xEF from hslot 26 (by decide), h27]
    decide
  have hend : EndsAfter floppyDisk.fat12.info 0x00100000 w.mem 0xFEF 1 := by
    rw [h.mem]
    exact ⟨by decide, by decide⟩
  obtain ⟨buffer, w₁, e₁, hne, hfresh, h₁⟩ := h.malloc 512 (Set.Subset.refl _) rfl
    (by decide) (by decide)
  obtain ⟨w₂, e₂, h₂⟩ := h₁.read hd (Set.mem_insert _ _) 0 1 (clusterToLba floppyDisk.fat12.info 0xFEF)
  obtain ⟨w₃, e₃, h₃⟩ := h₂.free (Set.pair_comm _ _) (Ne.symm hfresh)
  refine ⟨buffer, w₃, ?_, hne, h₃.err⟩
  have hcount := countClusters_spec (by decide) 1 0xFEF 0 clusterValues hend (by decide)
  have hread : (diskAt flatDisk).fat12ReadEntry dr 0 0x00100000 0xFEF w = some (buffer, w₂) := by
    rw [DiskPtr.fat12ReadEntry_counted (by decide) h.field_ne_zero (congrArg DiskT.fat12 h.disk) hcount e₁,
      if_neg (not_not.mpr h₁.err),
      show readCluster dr floppyDisk.fat12 buffer 0xFEF w₁ = (0, w₂) from e₂, if_neg (not_not.mpr rfl),
      if_neg h₂.field_ne_zero]
  rw [fat12FileRead_tail (by decide) rfl hlook, fileReadTail, if_neg (not_not.mpr h.err), if_neg hdir,
    hstart]
  simp only [hread, show w₂.free 0x00100000 = some w₃ from e₃]

/-! ### `disk_read` of such a disk -/

section

variable {b : Byte} {w : World} (hw : w.mem = flatMem b)
include hw

theorem bufferRead_flat (drive : BitVec 8) {k : Nat} (hk : k ≤ 8) (lba : BitVec 64) :
    ∃ calls, diskReadInt13 (idealBios fun _ _ => b) drive (BitVec.ofNat 16 k) (buffer.setWidth 16) 0
      (lbalo lba) (lbahi lba) w = (0, { w with calls }) := by
  obtain ⟨calls, e⟩ := diskReadInt13_delivers (idealBios_delivers drive fun _ _ => b) (BitVec.ofNat 16 k)
    (buffer.setWidth 16) 0 lba w
  have hcount : (BitVec.ofNat 16 k).toNat = k := by
    rw [BitVec.toNat_ofNat, Nat.mod_eq_of_lt (by omega)]
  rw [linear_buffer, hcount] at e
  have hfill : w.mem.fill buffer (512 * k) (Sectors.byte (fun _ _ => b) 512 lba) = w.mem := by
    funext x
    simp only [Mem.fill, Sectors.byte]
    split
    · rename_i hx
      have hbuf : buffer.toNat = 0xE000 := rfl
      rw [inRange_iff (by omega)] at hx
      rw [hw]
      exact (flatMem_apart (.inl (by omega)) b).symm
    · rfl
  rw [hfill] at e
  exact ⟨calls, e⟩

theorem memcpy_flat {ptr : Word} (hptr : 0x00100000 ≤ ptr.toNat) {n : Nat} (hn : n ≤ 28672)
    (hend : ptr.toNat + n < 2 ^ 32) : memcpy ptr buffer (BitVec.ofNat 32 n) w = (ptr, w) := by
  have hne : ptr ≠ 0 := by
    intro h0
    rw [h0] at hptr
    exact absurd hptr (by decide)
  have hlen : (BitVec.ofNat 32 n).toNat = n := by rw [BitVec.toNat_ofNat, Nat.mod_eq_of_lt (by omega)]
  have hcopy : Mem.copy ptr buffer n w.mem = w.mem := by
    refine Mem.copy_same fun i hi => ?_
    have hbuf : buffer.toNat = 0xE000 := rfl
    have hsrc : (buffer + BitVec.ofNat 32 i).toNat = 0xE000 + i := toNat_add_ofNat (by omega)
    rw [hw, flatMem_add hptr (by omega) b]
    exact (flatMem_apart (.inl (by omega)) b).symm
  rw [memcpy_of_ne_zero hne, hlen, hcopy]

omit hw in
theorem readPages_flat (drive : BitVec 8) : ∀ (n : Nat) (ptr : Word) (lba : BitVec 64) (w : World),
    w.mem = flatMem b → 0x00100000 ≤ ptr.toNat → ptr.toNat + 4096 * n < 2 ^ 32 →
    ∃ lba' calls, readPages (idealBios fun _ _ => b) drive n ptr lba w =
      (ptr + BitVec.ofNat 32 (4096 * n), lba', { w with calls }) := by
  intro n
  induction n with
  | zero =>
    intro ptr lba w _ _ _
    exact ⟨lba, w.calls, by simp [readPages]⟩
  | succ n ih =>
    intro ptr lba w hw hptr hend
    obtain ⟨calls, e⟩ := bufferRead_flat hw drive (Nat.le_refl 8) lba
    have hfirst : ptr.toNat + 4096 < 2 ^ 32 :=
      Nat.lt_of_le_of_lt (Nat.add_le_add_left (Nat.le_mul_of_pos_right _ n.succ_pos) _) hend
    have hcopy := memcpy_flat (w := { w with calls }) hw hptr (n := 4096) (by omega) hfirst
    have hnext : (ptr + BitVec.ofNat 32 4096).toNat = ptr.toNat + 4096 := toNat_add_ofNat hfirst
    obtain ⟨lba', calls', e'⟩ := ih (ptr + BitVec.ofNat 32 4096) (lba + 4) { w with calls } hw (by omega)
      (by omega)
    refine ⟨lba', calls', ?_⟩
    simp only [readPages, bufferPgSize_eq, bufferSize_eq, e, hcopy, e', add_add_ofNat, Nat.mul_succ,
      Nat.add_comm]

end

theorem diskRead_flat (b : Byte) : FlatRead b 0 (diskRead (idealBios fun _ _ => b)) := by
  intro drive ptr count lba w h1 h2 hw
  have hcount := count.isLt
  have hd : ¬ Direct ptr count := by
    rw [direct_iff (by omega)]
    omega
  obtain ⟨lba', calls, e⟩ := readPages_flat drive (count.toNat / 8) ptr lba w hw h1 (by omega)
  obtain ⟨calls', e'⟩ := bufferRead_flat (w := { w with calls }) hw drive
    (k := count.toNat % 8) (by omega) lba'
  have hend : (ptr + BitVec.ofNat 32 (4096 * (count.toNat / 8))).toNat =
      ptr.toNat + 4096 * (count.toNat / 8) := toNat_add_ofNat (by omega)
  have hn : count.toNat % 8 * 4096 ≤ 28672 := by omega
  have hcopy := memcpy_flat (w := { w with calls := calls' }) hw (Nat.le_trans (by omega) hend.ge) hn
    (by omega)
  refine ⟨calls', ?_⟩
  simp only [diskRead, if_neg hd, bufferPgSize_eq, bufferSize_eq, e, e', hcopy]
  rfl

end Installer
end Amethyst
