import Amethyst.Installer.DirOpen

/-!
# Amethyst.Installer.DirBalance

What `dir_open` and `dir_close` (`dir.c`) leave of each other. Nothing is given back when `dir_open`
fails, and `dir_close` reads the type of the file system again, from a `disk_t` that the last copy of a
`disk_read` may have changed.

`dirOpen_balanced_iff`: when they are balanced.
-/

namespace Amethyst
namespace Installer

/-! ## What the filling pass writes -/

section

variable {x : Word}

theorem fat12CreateDirEntry_frame {slot entry : Word} (w : World) (hx : ¬ InRange entry 20 x) :
    (fat12CreateDirEntry slot entry w).mem x = w.mem x := by
  by_cases h : slot = 0 ∨ entry = 0
  · rw [fat12CreateDirEntry, if_pos h]
    rfl
  have hslot : slot ≠ 0 := fun h0 => h (.inl h0)
  have hlen : (clusterfilename w.mem slot).length ≤ 12 := length_clusterfilename_le slot
  simp only [fat12CreateDirEntry, if_neg h, fat12ClusterfilenameToFilename, if_neg hslot]
  rw [storeBytes_frame, storeBytes_frame]
  · intro hin
    rw [show (4 : Word) = BitVec.ofNat 32 4 from rfl, List.length_append, List.length_singleton] at hin
    exact hx ((hin.of_add (by omega)).mono (by omega))
  · exact fun hin => hx (hin.mono (by simp))

/-- Only the listing. By induction on the slots; `count` records are stored. -/
theorem fillEntries_frame {listing total : Word} (htotal : total.toNat < 2 ^ 27)
    (hx : ¬ InRange listing (20 * total.toNat) x) : ∀ (n : Nat) (entry count : Word) (w : World)
    {w' : World}, count.toNat ≤ total.toNat → fillEntries listing total n entry count w = some w' →
    w'.mem x = w.mem x := by
  intro n
  induction n with
  | zero =>
    intro entry count w w' _ h
    cases h
  | succ n ih =>
    intro entry count w w' hcount h
    simp only [fillEntries] at h
    split at h
    · cases h
      rfl
    split at h
    · exact ih _ _ _ hcount h
    split at h
    · exact ih _ _ _ hcount h
    split at h
    · cases h
    rename_i hne
    have hlt : count.toNat < total.toNat :=
      Nat.lt_of_le_of_ne hcount fun he => hne (BitVec.eq_of_toNat_eq he)
    have hnext : (count + 1).toNat = count.toNat + 1 := by
      rw [BitVec.toNat_add, show (1 : Word).toNat = 1 from rfl, Nat.mod_eq_of_lt (by omega)]
    rw [ih _ _ _ (by omega) h]
    refine fat12CreateDirEntry_frame w fun hin => hx ?_
    have hoffset : count * dirEntrySize = BitVec.ofNat 32 (20 * count.toNat) := by
      apply BitVec.eq_of_toNat_eq
      rw [BitVec.toNat_mul, show dirEntrySize.toNat = 20 from rfl, BitVec.toNat_ofNat, Nat.mul_comm]
    rw [hoffset] at hin
    exact (hin.of_add (by omega)).mono (by omega)

end

/-- A count of slots is small. -/
theorem count_lt {m : Mem 32} {entries count : Word} (h : countEntries m addressSlots entries 0 = some count) :
    count.toNat < 2 ^ 27 := by
  obtain ⟨k, hk, hend⟩ := endsAt_of_count _ _ _ h
  have hslots : k < 2 ^ 27 := hk
  have hle : (listedSlots m k entries).length ≤ k := length_listedSlots_le k
  rw [countEntries_spec k addressSlots entries 0 hend hk, Option.some.injEq] at h
  rw [← h, BitVec.toNat_add, BitVec.toNat_ofNat]
  simp
  omega

/-! ## Opening and closing -/

section

variable (dr : DiskRead) (garbage disk : Word) (dirname : Option (List Byte)) (w : World)

/-- Once the `dir_t` is allocated nothing fails: the file system is known, the entries are read, they
come to an end, and their listing is allocated. -/
def DirReady : Prop :=
  disk ≠ 0 ∧ (diskAt disk w.mem).type = .fat12 ∧ ∃ entries w' count,
    ReadsEntries dr garbage (diskAt disk) dirname w entries w' ∧
      countEntries w'.mem addressSlots entries 0 = some count ∧ (w'.malloc (count * dirEntrySize)).1 ≠ 0

end

/-- Without a directory the live blocks are those from before, with one they are so again once it is
closed. -/
def DirBalanced (w : World) (dir : Word) (w' : World) : Prop :=
  ∃ w'', dirClose dir w' = some w'' ∧ w''.live = w.live

/-- The file system that `dir_close` finds. -/
def closedType (dir : Word) (w : World) : FsType := (diskAt (w.mem.read32 dir) w.mem).type

/-- What is behind the first field of the `dir_t` and apart from the `disk_t` does not matter. -/
theorem closedType_congr {dir disk : Word} {w w' : World} (hfirst : ∀ x, InRange dir 4 x → w'.mem x = w.mem x)
    (hdisk : ∀ x, InRange disk sizeofDisk x → w'.mem x = w.mem x) (hptr : w.mem.read32 dir = disk) :
    closedType dir w' = (diskAt disk w.mem).type := by
  have hat : diskAt disk w'.mem = diskAt disk w.mem :=
    diskAt_congr fun i hi => hdisk _ ((inRange_add (Nat.lt_trans hi (by decide))).mpr hi)
  rw [closedType, Mem.read32_congr hfirst, hptr, hat]

section

variable {lo hi : Nat} (hlo : 0 < lo) (hhi : hi < 2 ^ 32)

/-- A block taken on the way is live when the call fails. -/
theorem not_dirBalanced {w w₁ w' : World} {c : Chunk} (hg : Granted lo hi w c w₁)
    (hsub : w₁.live ⊆ w'.live) : ¬ DirBalanced w 0 w' := by
  intro ⟨w'', hclose, hlive⟩
  cases hclose
  have hmem : c ∈ w'.live := hsub (hg.live ▸ Set.mem_insert _ _)
  exact hg.fresh (hlive ▸ hmem)

include hlo hhi

/-- Closing gives back the listing and the `dir_t` if the file system is known, else only the latter. -/
theorem dirBalanced_of_owns {w w₁ w' : World} {dir listing n : Word}
    (hg : Granted lo hi w ⟨dir, dirSize⟩ w₁) (howns : Owns lo hi w₁.live ⟨listing, n⟩ w')
    (hentries : w'.mem.read32 (dir + 4) = listing) : DirBalanced w dir w' ↔ closedType dir w' = .fat12 := by
  have hne := hg.ne_zero
  rw [DirBalanced, dirClose, if_neg hne, ← closedType]
  cases closedType dir w' with
  | fat12 =>
    obtain ⟨w₂, hfree, hinv, hlive, -⟩ := howns.free hlo hhi
    obtain ⟨w₃, hfree', -, hlive', -⟩ := Owns.free hlo hhi ⟨hinv, hg.fresh, hlive.trans hg.live⟩
    refine iff_of_true ⟨w₃, ?_, hlive'⟩ rfl
    simp only [fat12DirClose, hentries]
    rw [show w'.free listing = some w₂ from hfree]
    exact hfree'
  | unknown =>
    refine iff_of_false ?_ (by simp)
    rintro ⟨w₂, hfree, hlive⟩
    have hdir : (⟨dir, dirSize⟩ : Chunk) ∈ w'.live :=
      howns.live ▸ Set.mem_insert_of_mem _ (hg.live ▸ Set.mem_insert _ _)
    obtain ⟨w₃, hfree', hf⟩ := World.free_spec (w := w'.setErr .unknfs) hlo hhi howns.inv hdir
    obtain rfl : w₃ = w₂ := Option.some.inj (hfree'.symm.trans hfree)
    have hin : (⟨listing, n⟩ : Chunk) ∈ w₃.live := by
      rw [hf.live]
      refine ⟨howns.mem, fun he => howns.fresh ?_⟩
      rw [show _ = (⟨dir, dirSize⟩ : Chunk) from he, hg.live]
      exact Set.mem_insert _ _
    rw [hlive] at hin
    exact howns.fresh (hg.live ▸ Set.mem_insert_of_mem _ hin)

/-- The end of `fat12_dir_open`: the raw entries are given back and the listing stays. The filling pass
stores into the listing alone, which is apart from the blocks from before. -/
theorem listing_owned {w w₁ w₂ w₃ : World} {dir entries size listing count : Word}
    (hdir : (⟨dir, dirSize⟩ : Chunk) ∈ w.live) (howns : Owns lo hi w.live ⟨entries, size⟩ w₁)
    (hcount : countEntries w₁.mem addressSlots entries 0 = some count)
    (hg : Granted lo hi w₁ ⟨listing, count * dirEntrySize⟩ w₂)
    (hfill : fillEntries listing count addressSlots entries 0
      ((w₂.store32 (dir + 8) count).store32 (dir + 4) listing) = some w₃) :
    ∃ w₄, w₃.free entries = some w₄ ∧ Owns lo hi w.live ⟨listing, count * dirEntrySize⟩ w₄ ∧
      w₄.mem.read32 (dir + 4) = listing ∧
      (∀ c ∈ w.live, ∀ x, InRange c.start c.size.toNat x → ¬ InRange dir dirSize.toNat x →
        w₄.mem x = w₁.mem x) ∧ ∀ x, InRange dir 4 x → w₄.mem x = w₁.mem x := by
  have hheap : w₃.state.heap = w₂.state.heap := (fillEntries_heap _ _ _ _ hfill).trans rfl
  have hlisting : Owns lo hi (insert ⟨entries, size⟩ w.live) ⟨listing, count * dirEntrySize⟩ w₃ := by
    refine ⟨hheap ▸ hg.inv, howns.live ▸ hg.fresh, ?_⟩
    rw [World.live, hheap]
    exact hg.live.trans (by rw [howns.live])
  obtain ⟨hown, hfresh⟩ := hlisting.comm howns.fresh
  obtain ⟨w₄, hfree, hf⟩ := World.free_spec hlo hhi hown.inv hown.mem
  have hlive : w₄.live = insert ⟨listing, count * dirEntrySize⟩ w.live := by
    rw [hf.live, hown.live, Set.insert_sdiff_self_of_notMem hown.fresh]
  have hbytes : (count * dirEntrySize).toNat = 20 * count.toNat := by
    have hlt := count_lt hcount
    rw [BitVec.toNat_mul, show dirEntrySize.toNat = 20 from rfl]
    omega
  have hframe : ∀ c ∈ w.live, ∀ x, InRange c.start c.size.toNat x →
      w₃.mem x = ((w₂.store32 (dir + 8) count).store32 (dir + 4) listing).mem x := by
    intro c hc x hx
    refine fillEntries_frame (count_lt hcount) (fun hin => ?_) _ _ _ _ (Nat.zero_le _) hfill
    have hold : c ∈ w₁.live := howns.live ▸ Set.mem_insert_of_mem _ hc
    have hne : c ≠ ⟨listing, count * dirEntrySize⟩ := by
      rintro rfl
      exact hg.fresh hold
    rw [← hbytes] at hin
    exact live_apart hhi hg.inv (hg.live ▸ Set.mem_insert_of_mem _ hold) (hg.live ▸ Set.mem_insert _ _)
      hne hx hin
  have hat : DirAt w₃.mem dir listing count := (dirAt_stores _ _ _ _).congr (hframe _ hdir)
  refine ⟨w₄, hfree, ⟨hf.inv, hfresh, hlive⟩, ?_, fun c hc x hx hout => ?_, fun x hx => ?_⟩
  · rw [hf.mem]
    exact hat.entries
  · rw [hf.mem, hframe c hc x hx, World.store32_mem, World.store32_mem, dirStores_frame hout, hg.mem]
  · have hfirst : InRange dir dirSize.toNat x := hx.mono (by decide)
    rw [hf.mem, hframe _ hdir x hfirst, World.store32_mem, World.store32_mem, Mem.write32_frame,
      Mem.write32_frame, hg.mem]
    all_goals
      obtain ⟨i, hi, rfl⟩ := hx.exists_add
    · exact not_inRange_of_lt (a := dir) (k := 8) (by omega) (by decide)
    · exact not_inRange_of_lt (a := dir) (k := 4) hi (by decide)

variable {dr : DiskRead} (hk : Keeps lo hi dr) {w : World} (hinv : w.state.heap.Inv lo hi)
  (hno : w.state.err = .no) {garbage disk : Word} {dirname : Option (List Byte)}
include hk hinv hno

variable (garbage dirname) in
/-- `fat12_dir_open` does not return, fails with what was live still so, or opens the directory and
leaves one block more, the listing. What is stored behind the read of the entries is the listing and the
second half of the `dir_t`. -/
theorem fat12DirOpen_cases (htype : (diskAt disk w.mem).type = .fat12) {dir : Word}
    (hdir : (⟨dir, dirSize⟩ : Chunk) ∈ w.live) :
    (∃ w', fat12DirOpen dr garbage (diskPtr disk) dir dirname w = .lost w') ∨
    (∃ w', fat12DirOpen dr garbage (diskPtr disk) dir dirname w = .done 0 w' ∧ w.live ⊆ w'.live ∧
      ¬ DirReady dr garbage disk dirname w) ∨
    ∃ listing n w' entries w₁, fat12DirOpen dr garbage (diskPtr disk) dir dirname w = .done dir w' ∧
      Owns lo hi w.live ⟨listing, n⟩ w' ∧ w'.mem.read32 (dir + 4) = listing ∧
      ReadsEntries dr garbage (diskAt disk) dirname w entries w₁ ∧
      (∀ c ∈ w.live, ∀ x, InRange c.start c.size.toNat x → ¬ InRange dir dirSize.toNat x →
        w'.mem x = w₁.mem x) ∧ (∀ x, InRange dir 4 x → w'.mem x = w₁.mem x) ∧
      DirReady dr garbage disk dirname w := by
  by_cases hnull : disk = 0
  · refine .inr (.inl ⟨w.setErr .invarg, ?_, Set.Subset.refl _, fun hready => hready.1 hnull⟩)
    rw [diskPtr, if_pos hnull]
    rfl
  have hne := Heap.Inv.start_ne_zero hlo hhi hinv hdir
  have hguard : ¬ ((diskAt disk w.mem).type ≠ .fat12 ∨ dir = 0) := fun h => h.elim (fun hn => hn htype) hne
  simp only [diskPtr_of_ne_zero hnull, fat12DirOpen, if_neg hguard]
  rcases readEntries_cases hlo hhi hk hinv hno garbage (diskAt disk) dirname with
    ⟨w₁, e⟩ | ⟨x, w₁, e, hf, hnone⟩ | ⟨entries, size, w₁, e, h₁, howns, hentries⟩
  · simp only [e]
    exact .inl ⟨w₁, rfl⟩
  · simp only [e, if_pos hf.err]
    refine .inr (.inl ⟨w₁, rfl, hf.live, fun hready => ?_⟩)
    obtain ⟨-, -, entries, w', count, hd, -⟩ := hready
    exact hnone _ _ hd
  simp only [e, if_neg (not_not.mpr h₁)]
  cases hcount : countEntries w₁.mem addressSlots entries 0 with
  | none => exact .inl ⟨w₁, rfl⟩
  | some count =>
    simp only [World.malloc_store32]
    rcases World.malloc_spec hlo hhi howns.inv (count * dirEntrySize) with
      ⟨w₂, e₂, hr⟩ | ⟨listing, w₂, e₂, hg⟩
    · simp only [e₂, World.store32_state, if_pos hr.err]
      refine .inr (.inl ⟨_, rfl, ?_, fun hready => ?_⟩)
      · rw [World.store32_live, World.store32_live, hr.live, howns.live]
        exact Set.subset_insert _ _
      · obtain ⟨-, -, entries', w', count', hd, hc, hm⟩ := hready
        obtain ⟨rfl, rfl⟩ := hentries.unique hd
        rw [hcount] at hc
        cases hc
        rw [e₂] at hm
        exact hm rfl
    simp only [e₂, World.store32_state, if_neg (not_not.mpr (hg.err.trans h₁))]
    cases hfill : fillEntries listing count addressSlots entries 0
        ((w₂.store32 (dir + 8) count).store32 (dir + 4) listing) with
    | none => exact .inl ⟨_, rfl⟩
    | some w₃ =>
      obtain ⟨w₄, hfree, howned, hat, hblocks, hfirst⟩ := listing_owned hlo hhi hdir howns hcount hg hfill
      simp only [show w₃.free entries = some w₄ from hfree]
      refine .inr (.inr ⟨listing, _, w₄, entries, w₁, rfl, howned, hat, hentries, hblocks, hfirst, hnull, htype,
        entries, w₁, count, hentries, hcount, ?_⟩)
      rw [e₂]
      exact hg.ne_zero

/-- A directory that is opened, where the read of the entries has left the first field of the `dir_t` and the
`disk_t` alone. -/
theorem fat12DirOpen_ready (htype : (diskAt disk w.mem).type = .fat12) {dir : Word}
    (hdir : (⟨dir, dirSize⟩ : Chunk) ∈ w.live) (hheld : (⟨disk, 44⟩ : Chunk) ∈ w.live)
    (hne : (⟨disk, 44⟩ : Chunk) ≠ ⟨dir, dirSize⟩) {w' : World}
    (hrun : fat12DirOpen dr garbage (diskPtr disk) dir dirname w = .done dir w') {entries : Word} {w₁ : World}
    (hread : ReadsEntries dr garbage (diskAt disk) dirname w entries w₁)
    (hfirst : ∀ x, InRange dir 4 x → w₁.mem x = w.mem x)
    (hdisk : ∀ x, InRange disk sizeofDisk x → w₁.mem x = w.mem x) (hptr : w.mem.read32 dir = disk) :
    DirReady dr garbage disk dirname w ∧ closedType dir w' = .fat12 ∧
      ∃ listing n, Owns lo hi w.live ⟨listing, n⟩ w' ∧ w'.mem.read32 (dir + 4) = listing := by
  rcases fat12DirOpen_cases hlo hhi hk hinv hno garbage dirname htype hdir with ⟨w₂, e⟩ | ⟨w₂, e, -⟩ |
      ⟨listing, n, w₂, entries', w₃, e, howns, hentries, hread', hblocks, hfirst', hready⟩
  · rw [hrun] at e
    cases e
  · rw [hrun] at e
    cases e
    exact absurd rfl (Heap.Inv.start_ne_zero hlo hhi hinv hdir)
  · rw [hrun] at e
    cases e
    obtain ⟨-, rfl⟩ := hread'.unique hread
    have hsame : ∀ x, InRange disk sizeofDisk x → w'.mem x = w.mem x := fun x hx =>
      (hblocks _ hheld x hx (live_apart hhi hinv hheld hdir hne hx)).trans (hdisk x hx)
    exact ⟨hready, (closedType_congr (fun x hx => (hfirst' x hx).trans (hfirst x hx)) hsame hptr).trans htype,
      listing, n, howns, hentries⟩

/-- `dir_open` and `dir_close` are balanced exactly when the `dir_t` is refused, or nothing fails once
it is allocated and `dir_close` still finds the type of the file system. -/
theorem dirOpen_balanced_iff {dir : Word} {w' : World}
    (hrun : dirOpen dr garbage disk dirname w = .done dir w') :
    DirBalanced w dir w' ↔ (w.malloc dirSize).1 = 0 ∨
      DirReady dr garbage disk dirname ((w.malloc dirSize).2.store32 (w.malloc dirSize).1 disk) ∧
        closedType dir w' = .fat12 := by
  rcases World.malloc_spec hlo hhi hinv dirSize with ⟨w₁, e, hr⟩ | ⟨ptr, w₁, e, hg⟩
  · simp only [dirOpen, e, if_true] at hrun
    cases hrun
    rw [e]
    exact iff_of_true ⟨_, rfl, hr.live⟩ (.inl rfl)
  simp only [dirOpen, e, if_neg hg.ne_zero] at hrun
  rw [e, or_iff_right hg.ne_zero]
  cases htype : (diskAt disk (w₁.store32 ptr disk).mem).type with
  | unknown =>
    simp only [htype] at hrun
    cases hrun
    refine iff_of_false (not_dirBalanced hg (Set.Subset.refl _)) fun hready => ?_
    have ht := hready.1.2.1
    rw [htype] at ht
    cases ht
  | fat12 =>
    simp only [htype] at hrun
    have hdir : (⟨ptr, dirSize⟩ : Chunk) ∈ (w₁.store32 ptr disk).live := hg.live ▸ Set.mem_insert _ _
    rcases fat12DirOpen_cases hlo hhi hk (w := w₁.store32 ptr disk) hg.inv (hg.err.trans hno) garbage dirname
      htype hdir with ⟨w₂, e₂⟩ | ⟨w₂, e₂, hsub, hready⟩ |
        ⟨listing, n, w₂, -, -, e₂, howns, hentries, -, -, -, hready⟩
    · rw [e₂] at hrun
      cases hrun
    · rw [e₂] at hrun
      cases hrun
      exact iff_of_false (not_dirBalanced hg hsub) fun h => hready h.1
    · rw [e₂] at hrun
      cases hrun
      rw [and_iff_right hready]
      exact dirBalanced_of_owns hlo hhi hg howns hentries

end

/-! ## Root directories of a floppy disk -/

section

variable {content : Sectors} {w₀ w w₁ : World} (h : RootRead content w₀ w w₁)
include h

theorem RootRead.dirOpen_eq : dirOpen (diskRead (idealBios content)) 0 0x00100000 none w₀ =
    fat12DirOpen (diskRead (idealBios content)) 0 (diskPtr 0x00100000) 0x0010002C none w := by
  obtain ⟨w', e, hw⟩ := h.made
  have hdir : ¬ (0x0010002C : Word) = 0 := by decide
  simp only [dirOpen, e, if_neg hdir, ← hw, h.type]

theorem RootRead.granted :
    ∃ w', Granted 0x00100000 0x001FFFFF w₀ ⟨0x0010002C, dirSize⟩ w' ∧ w.live = w'.live := by
  obtain ⟨w', e, hw⟩ := h.made
  refine ⟨w', granted_top (by decide) (by decide) h.floppy.stacked (by decide) e, ?_⟩
  rw [hw, World.store32_live]

end

/-- A directory that is opened and closed. -/
theorem dirOpen_balanced_iff_floppy : ∃ w₀ dir w', FloppyOpen w₀ ∧
    dirOpen (diskRead (idealBios (fourSlotsDisk true))) 0 0x00100000 none w₀ = .done dir w' ∧ dir ≠ 0 ∧
    DirBalanced w₀ dir w' := by
  obtain ⟨w₀, w, w₁, h⟩ := root_read (fourSlotsDisk true)
  have hk : Keeps 0x00100000 0x001FFFFF (diskRead (idealBios (fourSlotsDisk true))) :=
    diskRead_keeps (by decide) (by decide) _
  have hsome : listedSlots w₁.mem 4 0x00100038 ≠ [] := by
    intro h0
    have hlive := h.live_eq
    rw [liveSlots_eq, h0] at hlive
    cases hlive
  obtain ⟨w', e, -⟩ := (fat12DirOpen_listed (by decide) (by decide) hk h.inv h.err h.type h.dir h.read h.buffer
    h.endsAt (by decide)).2 hsome (h.serve (by decide) hsome)
  rw [← diskPtr_of_ne_zero (by decide : (0x00100000 : Word) ≠ 0)] at e
  refine ⟨w₀, 0x0010002C, w', h.floppy, h.dirOpen_eq.trans e, by decide, ?_⟩
  rw [dirOpen_balanced_iff (by decide) (by decide) hk h.floppy.stacked.toWhole.toInv h.floppy.err
    (h.dirOpen_eq.trans e)]
  obtain ⟨w₂, emade, hw⟩ := h.made
  rw [emade, ← hw]
  have hptr : w.mem.read32 0x0010002C = 0x00100000 := by rw [hw, World.store32_mem, Mem.read32_write32]
  have hfirst : ∀ x, InRange 0x0010002C 4 x → w₁.mem x = w.mem x := by
    intro x hx
    rw [inRange_iff (by decide)] at hx
    exact h.below x (Nat.le_trans (by decide) hx.1) (Nat.lt_trans hx.2 (by decide))
  have hdisk : ∀ x, InRange 0x00100000 sizeofDisk x → w₁.mem x = w.mem x := by
    intro x hx
    rw [inRange_iff (by decide)] at hx
    exact h.below x hx.1 (Nat.lt_trans hx.2 (by decide))
  obtain ⟨hready, hclosed, -⟩ := fat12DirOpen_ready (by decide) (by decide) hk h.inv h.err h.type h.dir h.held
    (by decide) e h.read hfirst hdisk hptr
  exact .inr ⟨hready, hclosed⟩

/-- Opening an empty root directory fails and leaves blocks behind. -/
theorem dirOpen_empty_root_leaks : ∃ w₀ w', FloppyOpen w₀ ∧
    dirOpen (diskRead (idealBios fun _ _ => 0)) 0 0x00100000 none w₀ = .done 0 w' ∧
    w'.state.err = .invarg ∧ ¬ DirBalanced w₀ 0 w' := by
  obtain ⟨w₀, w, w₁, h⟩ := root_read fun _ _ => 0
  have hk : Keeps 0x00100000 0x001FFFFF (diskRead (idealBios fun _ _ => 0)) :=
    diskRead_keeps (by decide) (by decide) _
  have hend : EndsAt w₁.mem 0x00100038 0 := endsAt_zero.mpr (h.holds 0 (by decide))
  obtain ⟨w', e, herr⟩ := (fat12DirOpen_listed (by decide) (by decide) hk h.inv h.err h.type h.dir h.read
    h.buffer hend (by decide)).1 rfl
  rw [← diskPtr_of_ne_zero (by decide : (0x00100000 : Word) ≠ 0)] at e
  refine ⟨w₀, w', h.floppy, h.dirOpen_eq.trans e, herr, ?_⟩
  obtain ⟨w₂, hg, hlive⟩ := h.granted
  rcases fat12DirOpen_cases (by decide) (by decide) hk h.inv h.err 0 none h.type h.dir with
    ⟨w₃, e₃⟩ | ⟨w₃, e₃, hsub, -⟩ | ⟨listing, n, w₃, entries, w₄, e₃, -⟩
  · rw [e] at e₃
    cases e₃
  · rw [e] at e₃
    cases e₃
    exact not_dirBalanced hg (hlive ▸ hsub)
  · rw [e] at e₃
    cases e₃

end Installer
end Amethyst
