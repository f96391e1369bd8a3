import Amethyst.Installer.FileRead

/-!
# Amethyst.Installer.FatDir

Directories (`installer/src/sys/disk/dir.c`, `fat12_create_dir_entry`, `fat12_dir_open` and
`fat12_dir_close` of `fat12.c`). The entries of a directory are counted, a listing of as many records
is allocated, and a second pass over the same entries fills it. Both passes run to an end marker.

The `dir_t` is in memory, as the `disk_t` that it points to is: `dir_close` reads both again.

`readEntries_cases`: the ways through the read of the entries.
-/

namespace Amethyst
namespace Installer

/-- `dir_entry_type` -/
inductive DirEntryType where
  | unknown
  | dir
  | file
deriving DecidableEq, Repr

def DirEntryType.value : DirEntryType → Byte
  | .unknown => 0
  | .dir => 1
  | .file => 2

/-- `sizeof(dir_t)`: `disk`, `entries` and `entry_count`, four bytes each. -/
def dirSize : Word := 12

def World.store32 (w : World) (a v : Word) : World := { w with mem := w.mem.write32 a v }

/-- `sizeof(dir_entry_t)`: the type, an array of 13 bytes for the name, and three bytes of padding. -/
def dirEntrySize : Word := 20

def storeBytes (m : Mem 32) (a : Word) (bs : List Byte) : Mem 32 :=
  m.fill a bs.length fun i => bs.getD i 0

/-- `fat12_create_dir_entry` -/
def fat12CreateDirEntry (slot entry : Word) (w : World) : World :=
  if slot = 0 ∨ entry = 0 then w.setErr .invarg
  else
    let (name, w) := fat12ClusterfilenameToFilename slot w
    let m := storeBytes w.mem (entry + 4) (name ++ [0])
    let type : DirEntryType := if isSubdirectory m slot then .dir else .file
    { w with mem := storeBytes m entry [type.value, 0, 0, 0] }

/-- The loop that counts the entries, for at most `n` slots. -/
def countEntries (m : Mem 32) : Nat → Word → Word → Option Word
  | 0, _, _ => none
  | n + 1, entry, count =>
    if m entry = 0 then some count
    else if (m entry).signExtend 32 = (0xE5 : Word) then countEntries m n (entry + 32) count
    else countEntries m n (entry + 32) (if isVolumeLabel m entry then count else count + 1)

/-- The loop that copies the entries to a listing of `total` records, for at most `n` slots. -/
def fillEntries (listing total : Word) : Nat → Word → Word → World → Option World
  | 0, _, _, _ => none
  | n + 1, entry, count, w =>
    if w.mem entry = 0 then some w
    else if (w.mem entry).signExtend 32 = (0xE5 : Word) then
      fillEntries listing total n (entry + 32) count w
    else if isVolumeLabel w.mem entry then fillEntries listing total n (entry + 32) count w
    -- a record behind the listing would overwrite what is none of its own
    else if count = total then none
    else
      fillEntries listing total n (entry + 32) (count + 1)
        (fat12CreateDirEntry entry (listing + count * dirEntrySize) w)

/-- `"/"` -/
def rootName : List Byte := [0x2F]

/-- The entries of the root directory, as `fat12_dir_open` asks for them. -/
def readRoot (dr : DiskRead) (garbage : Word) (disk : DiskPtr) (w : World) : Result Word :=
  match disk.fat12ReadRootDirectory dr garbage w with
  | none => .lost w
  | some (entries, w) => .done (entries.getD garbage) w

def readEntries (dr : DiskRead) (garbage : Word) (disk : DiskPtr) (dirname : Option (List Byte))
    (w : World) : Result Word :=
  match dirname with
  | none => readRoot dr garbage disk w
  | some dirname =>
    if strcmp dirname rootName = 0 then readRoot dr garbage disk w
    else fat12ReadDirectory dr garbage garbage disk dirname w

/-- `fat12_dir_open`. `dir->entries` is not read back for each record: the listing is not where the
`dir_t` is. -/
def fat12DirOpen (dr : DiskRead) (garbage : Word) (disk : Option DiskPtr) (dir : Word)
    (dirname : Option (List Byte)) (w : World) : Result Word :=
  match disk with
  | none => .done 0 (w.setErr .invarg)
  | some disk =>
    if (disk w.mem).type ≠ .fat12 ∨ dir = 0 then .done 0 (w.setErr .invarg)
    else
      match readEntries dr garbage disk dirname w with
      | .lost w => .lost w
      | .done entries w =>
        if w.state.err ≠ .no then .done 0 w
        else
          match countEntries w.mem addressSlots entries 0 with
          | none => .lost w
          | some count =>
            let w := w.store32 (dir + 8) count
            let (listing, w) := w.malloc (count * dirEntrySize)
            let w := w.store32 (dir + 4) listing
            if w.state.err ≠ .no then .done 0 w
            else
              match fillEntries listing count addressSlots entries 0 w with
              | none => .lost w
              | some w =>
                match w.free entries with
                | none => .lost w
                | some w => .done dir w

def fat12DirClose (dir : Word) (w : World) : Option World := w.free (w.mem.read32 (dir + 4))

def dirOpen (dr : DiskRead) (garbage disk : Word) (dirname : Option (List Byte)) (w : World) :
    Result Word :=
  let (dir, w) := w.malloc dirSize
  if dir = 0 then .done 0 w
  else
    let w := w.store32 dir disk
    match (diskAt disk w.mem).type with
    | .fat12 => fat12DirOpen dr garbage (diskPtr disk) dir dirname w
    | .unknown => .done 0 w

def dirClose (dir : Word) (w : World) : Option World :=
  if dir = 0 then some w
  else
    match (diskAt (w.mem.read32 dir) w.mem).type with
    | .fat12 => (fat12DirClose dir w).bind fun w => w.free dir
    | .unknown => (w.setErr .unknfs).free dir

section

variable (w : World) (a v : Word)

@[simp] theorem World.store32_state : (w.store32 a v).state = w.state := rfl

@[simp] theorem World.store32_live : (w.store32 a v).live = w.live := rfl

@[simp] theorem World.store32_mem : (w.store32 a v).mem = w.mem.write32 a v := rfl

@[simp] theorem World.store32_reads : (w.store32 a v).reads = w.reads := rfl

theorem World.malloc_store32 (size : Word) :
    (w.store32 a v).malloc size = ((w.malloc size).1, (w.malloc size).2.store32 a v) := rfl

end

/-! ## The `dir_t` -/

/-- The fields of a `dir_t` that is open. -/
structure DirAt (m : Mem 32) (dir entries entryCount : Word) : Prop where
  entries : m.read32 (dir + 4) = entries
  entryCount : m.read32 (dir + 8) = entryCount

/-- The fields are in the block. -/
theorem inRange_field {dir x : Word} {k : Nat} (hk : k ≤ 8)
    (h : InRange (dir + BitVec.ofNat 32 k) 4 x) : InRange dir dirSize.toNat x :=
  (h.of_add (by omega)).mono (by rw [show dirSize.toNat = 12 from rfl]; omega)

theorem DirAt.congr {m m' : Mem 32} {dir entries entryCount : Word} (h : DirAt m dir entries entryCount)
    (hm : ∀ x, InRange dir dirSize.toNat x → m' x = m x) : DirAt m' dir entries entryCount where
  entries := (Mem.read32_congr fun x hx => hm x (inRange_field (k := 4) (by decide) hx)).trans h.entries
  entryCount := (Mem.read32_congr fun x hx => hm x (inRange_field (k := 8) (by decide) hx)).trans h.entryCount

/-- `fat12_dir_open` stores `entry_count` and then `entries`. -/
theorem dirAt_stores (m : Mem 32) (dir entries entryCount : Word) :
    DirAt ((m.write32 (dir + 8) entryCount).write32 (dir + 4) entries) dir entries entryCount where
  entries := Mem.read32_write32 _ _ _
  entryCount := by
    refine (Mem.read32_congr fun x hx => Mem.write32_frame ?_).trans (Mem.read32_write32 _ _ _)
    obtain ⟨i, hi, rfl⟩ := hx.exists_add
    have haddr : dir + 8 + BitVec.ofNat 32 i = dir + 4 + BitVec.ofNat 32 (4 + i) := by
      rw [show (8 : Word) = 4 + BitVec.ofNat 32 4 from rfl, ← BitVec.add_assoc, add_add_ofNat]
    rw [haddr, inRange_add (by omega)]
    omega

theorem dirStores_frame {m : Mem 32} {dir entries entryCount x : Word}
    (hx : ¬ InRange dir dirSize.toNat x) :
    (m.write32 (dir + 8) entryCount).write32 (dir + 4) entries x = m x := by
  have h4 : ¬ InRange (dir + 4) 4 x := fun h => hx (inRange_field (k := 4) (by decide) h)
  have h8 : ¬ InRange (dir + 8) 4 x := fun h => hx (inRange_field (k := 8) (by decide) h)
  rw [Mem.write32_frame h4, Mem.write32_frame h8]

/-! ## The passes and the allocator -/

theorem fat12CreateDirEntry_heap (slot entry : Word) (w : World) :
    (fat12CreateDirEntry slot entry w).state.heap = w.state.heap := by
  by_cases h : slot = 0 ∨ entry = 0
  · rw [fat12CreateDirEntry, if_pos h]
    rfl
  · have hslot : slot ≠ 0 := fun h0 => h (.inl h0)
    simp only [fat12CreateDirEntry, if_neg h, fat12ClusterfilenameToFilename, if_neg hslot]

/-- By induction on the slots. -/
theorem fillEntries_heap {listing total : Word} : ∀ (n : Nat) (entry count : Word) (w : World)
    {w' : World}, fillEntries listing total n entry count w = some w' →
    w'.state.heap = w.state.heap := by
  intro n
  induction n with
  | zero =>
    intro entry count w w' h
    cases h
  | succ n ih =>
    intro entry count w w' h
    simp only [fillEntries] at h
    split at h
    · cases h
      rfl
    split at h
    · exact ih _ _ _ h
    split at h
    · exact ih _ _ _ h
    split at h
    · cases h
    · rw [ih _ _ _ h, fat12CreateDirEntry_heap]

/-! ## Opening and closing -/

section

variable (dr : DiskRead) (garbage : Word) (disk : DiskPtr) (dirname : List Byte) (w : World)

/-- The path leads to a directory that is read to `entries`, and the FATs are given back. -/
structure ReadsDirectory (entries : Word) (w' : World) : Prop where
  length : dirname.length < 512
  found : ∃ fats entry w₁ w₂, LooksUp dr garbage disk dirname w fats (.done entry w₁) ∧
    w₁.state.err = .no ∧ isSubdirectory w₁.mem entry ∧
    entryExit dr disk fats (firstCluster w₁.mem entry) w₁ = .read ∧
    disk.fat12ReadEntry dr garbage fats (firstCluster w₁.mem entry) w₁ = some (entries, w₂) ∧
    w₂.Takes fats ∧ w₂.free fats = some w'

end

section

variable (dr : DiskRead) (garbage : Word) (disk : DiskPtr) (dirname : Option (List Byte)) (w : World)

/-- The entries of the directory are read. -/
def ReadsEntries (entries : Word) (w' : World) : Prop :=
  (∀ name ∈ dirname, strcmp name rootName = 0) ∧
    disk.fat12ReadRootDirectory dr garbage w = some (some entries, w') ∧
    entries ≠ 0 ∨
  ∃ name ∈ dirname, strcmp name rootName ≠ 0 ∧ ReadsDirectory dr garbage disk name w entries w'

end

section

variable {lo hi : Nat} (hlo : 0 < lo) (hhi : hi < 2 ^ 32) {dr : DiskRead} (hk : Keeps lo hi dr)
include hlo hhi hk

/-- `fat12_read_entry` and then `free(fats)`, when no error is set: only a block that is read and FATs
that are taken back leave none. -/
theorem readEntry_free {base : Set Chunk} {fats size : Word} {w : World}
    (h : Owns lo hi base ⟨fats, size⟩ w) (hno : w.state.err = .no) (disk : DiskPtr) (start : Cluster)
    (pOutput : Word) :
    disk.fat12ReadEntry dr pOutput fats start w = none ∨
      ∃ output w₁ w', disk.fat12ReadEntry dr pOutput fats start w =
          some (output, w₁) ∧ w₁.free fats = some w' ∧ base ⊆ w'.live ∧
        (w'.state.err = .no ↔ entryExit dr disk fats start w = .read ∧ w₁.Takes fats) ∧
        (entryExit dr disk fats start w = .read → ∃ n, Owns lo hi base ⟨output, n⟩ w') := by
  have hfats := Heap.Inv.start_ne_zero hlo hhi h.inv h.mem
  have hout := entryOutcome hlo hhi hk h.inv disk hfats start pOutput
  cases hread : disk.fat12ReadEntry dr pOutput fats start w with
  | none => exact .inl rfl
  | some r =>
    obtain ⟨output, w₁⟩ := r
    rw [hread] at hout
    obtain ⟨hinv₁, hsub⟩ := hout.keeps h.inv
    have hmem := hsub h.mem
    obtain ⟨w', hfree, hf⟩ := World.free_spec hlo hhi hinv₁ hmem
    refine .inr ⟨output, w₁, w', rfl, hfree, fun c hc => ?_, ?_, fun he => ?_⟩
    · rw [hf.live]
      refine ⟨hsub (h.live ▸ Set.mem_insert_of_mem _ hc), fun heq => h.fresh ?_⟩
      exact heq ▸ hc
    · rw [hf.err_iff (by simp), ← World.takes_iff hlo hhi hinv₁ hmem, and_comm]
      refine and_congr_left fun _ => ?_
      generalize entryExit dr disk fats start w = exit at hout
      cases hout with
      | badCluster => simp
      | refused _ hrefused => simp [hrefused.err]
      | errorSet _ _ hset => exact absurd hno hset
      | unreadable _ _ _ _ hio => simp [hio]
      | read _ _ _ hgranted _ hstate => simp [hstate, hgranted.err, hno]
    · rw [he] at hout
      cases hout with
      | @read _ w₂ _ n _ _ _ hgranted _ hstate =>
        have howns := hgranted.owns hstate
        rw [h.live] at howns
        obtain ⟨hfats', hnew⟩ := howns.comm h.fresh
        exact ⟨_, hf.inv, hnew, hfats'.freed hf⟩

end

/-- The call has set an error, and what was live before it still is. -/
structure Failed (w w' : World) : Prop where
  err : w'.state.err ≠ .no
  live : w.live ⊆ w'.live

section

variable {lo hi : Nat} (hlo : 0 < lo) (hhi : hi < 2 ^ 32) {dr : DiskRead} (hk : Keeps lo hi dr)
  {w : World} (hinv : w.state.heap.Inv lo hi) (hno : w.state.err = .no) (garbage : Word) (disk : DiskPtr)
include hlo hhi hk hinv hno

theorem fat12ReadDirectory_cases (dirname : List Byte) :
    (∃ w', fat12ReadDirectory dr garbage garbage disk dirname w = .lost w') ∨
    (∃ x w', fat12ReadDirectory dr garbage garbage disk dirname w = .done x w' ∧ Failed w w' ∧
      ∀ entries w'', ¬ ReadsDirectory dr garbage disk dirname w entries w'') ∨
    ∃ entries size w', fat12ReadDirectory dr garbage garbage disk dirname w = .done entries w' ∧
      w'.state.err = .no ∧ Owns lo hi w.live ⟨entries, size⟩ w' ∧
      ReadsDirectory dr garbage disk dirname w entries w' := by
  by_cases hlen : 512 ≤ dirname.length
  · exact .inl ⟨w, by simp only [fat12ReadDirectory, if_pos hlen]⟩
  have hlen' := Nat.lt_of_not_le hlen
  rcases fat12ReadFats_cases hlo hhi hk hinv hno (disk w.mem).fat12 with
    ⟨w₀, e, hr⟩ | ⟨fats, size, w₀, e, howns, h₀⟩
  · refine .inr (.inl ⟨garbage, w₀, by simp only [fat12ReadDirectory, if_neg hlen, e, if_pos hr.err],
      ⟨hr.err, by rw [hr.live]⟩, fun entries w'' hd => ?_⟩)
    obtain ⟨fats, entry, w₁, w₂, hl, -⟩ := hd.found
    exact not_looksUp e hr.err fats hl
  have hfats := Heap.Inv.start_ne_zero hlo hhi howns.inv howns.mem
  have hrun : ∀ r, fat12GetEntryOfFilename dr garbage garbage (some disk) fats
      (some (fat12RegularfilenameToFilename dirname)) w₀ = r →
      LooksUp dr garbage disk dirname w fats r := fun r hr => ⟨w₀, e, h₀, hr⟩
  rcases fat12GetEntryOfFilename_cases hlo hhi hk howns.inv h₀ garbage disk hfats
    (fat12RegularfilenameToFilename dirname) with ⟨w₁, he, -⟩ | ⟨entry, w₁, he, hleft⟩
  · exact .inl ⟨w₁, by simp only [fat12ReadDirectory, if_neg hlen, e, if_neg (not_not.mpr h₀), he]⟩
  rw [howns.live] at hleft
  have hlook := hrun _ he
  -- where the lookup led is the same for every way to read the directory
  have hsame : ∀ entries w'', ReadsDirectory dr garbage disk dirname w entries w'' →
      w₁.state.err = .no ∧ isSubdirectory w₁.mem entry ∧
      entryExit dr disk fats (firstCluster w₁.mem entry) w₁ = .read ∧
      ∃ w₂, disk.fat12ReadEntry dr garbage fats (firstCluster w₁.mem entry) w₁ = some (entries, w₂) ∧ w₂.Takes fats := by
    intro entries w'' hd
    obtain ⟨fats', entry', w₁', w₂, hl, h1, h2, h3, h4, h5, -⟩ := hd.found
    obtain ⟨rfl, heq⟩ := hlook.unique hl
    cases heq
    exact ⟨h1, h2, h3, w₂, h4, h5⟩
  have hsub : w.live ⊆ w₁.live := fun c hc => hleft.mem (Set.mem_insert_of_mem _ hc)
  simp only [fat12ReadDirectory, if_neg hlen, e, if_neg (not_not.mpr h₀), he]
  by_cases herr : w₁.state.err = .no
  · simp only [if_neg (not_not.mpr herr)]
    by_cases hdir : isSubdirectory w₁.mem entry
    · simp only [hdir, Bool.not_true, Bool.false_eq_true, if_false]
      have hfound := hleft.no herr
      have hlive := hleft.live (by rw [hfound]; decide)
      have howns₁ : Owns lo hi w.live ⟨fats, size⟩ w₁ := ⟨hleft.inv, howns.fresh, hlive⟩
      rcases readEntry_free hlo hhi hk howns₁ herr disk
        (firstCluster w₁.mem entry) garbage with
        hnone | ⟨output, w₂, w', hread, hfree, hbase, hiff, hbuffer⟩
      · simp only [hnone]
        exact .inl ⟨w₁, rfl⟩
      · simp only [hread, hfree]
        by_cases hok : w'.state.err = .no
        · obtain ⟨hexit, htakes⟩ := hiff.mp hok
          obtain ⟨n, howns'⟩ := hbuffer hexit
          exact .inr (.inr ⟨output, n, w', rfl, hok, howns', hlen', fats, entry, w₁, w₂, hlook, herr,
            hdir, hexit, hread, htakes, hfree⟩)
        · refine .inr (.inl ⟨output, w', rfl, ⟨hok, hbase⟩, fun entries w'' hd => ?_⟩)
          obtain ⟨-, -, hexit, w₂', hread', htakes⟩ := hsame _ _ hd
          rw [hread] at hread'
          cases hread'
          exact hok (hiff.mpr ⟨hexit, htakes⟩)
    · simp only [hdir, Bool.not_false, if_true]
      exact .inr (.inl ⟨garbage, w₁.setErr .notadir, rfl, ⟨by simp, hsub⟩,
        fun entries w'' hd => hdir (hsame _ _ hd).2.1⟩)
  · simp only [if_pos herr]
    exact .inr (.inl ⟨garbage, w₁, rfl, ⟨herr, hsub⟩, fun entries w'' hd => herr (hsame _ _ hd).1⟩)

theorem readRoot_cases :
    readRoot dr garbage disk w = .lost w ∨
    (∃ w', readRoot dr garbage disk w = .done 0 w' ∧ Failed w w' ∧ ∀ entries w'', entries ≠ 0 →
      disk.fat12ReadRootDirectory dr garbage w ≠ some (some entries, w'')) ∨
    ∃ entries size w', readRoot dr garbage disk w = .done entries w' ∧ w'.state.err = .no ∧
      Owns lo hi w.live ⟨entries, size⟩ w' ∧ entries ≠ 0 ∧
      disk.fat12ReadRootDirectory dr garbage w = some (some entries, w') := by
  by_cases hzero : (disk w.mem).info.bytesPerSector = 0
  · exact .inl (by simp only [readRoot, DiskPtr.fat12ReadRootDirectory_stopped hzero])
  simp only [readRoot, DiskPtr.fat12ReadRootDirectory_ok hzero]
  rcases fat12ReadRootDirectory_cases hlo hhi hk hinv hno (disk w.mem).fat12 garbage with
    ⟨w', e, hr⟩ | ⟨entries, size, w', e, howns, herr⟩
  · refine .inr (.inl ⟨w', by simp [e], ⟨hr.err, by rw [hr.live]⟩, fun entries w'' hne he => ?_⟩)
    rw [e] at he
    cases he
    exact hne rfl
  · exact .inr (.inr ⟨entries, size, w', by simp [e], herr, howns,
      Heap.Inv.start_ne_zero hlo hhi howns.inv howns.mem, e⟩)

theorem readEntries_cases (dirname : Option (List Byte)) :
    (∃ w', readEntries dr garbage disk dirname w = .lost w') ∨
    (∃ x w', readEntries dr garbage disk dirname w = .done x w' ∧ Failed w w' ∧
      ∀ entries w'', ¬ ReadsEntries dr garbage disk dirname w entries w'') ∨
    ∃ entries size w', readEntries dr garbage disk dirname w = .done entries w' ∧
      w'.state.err = .no ∧ Owns lo hi w.live ⟨entries, size⟩ w' ∧
      ReadsEntries dr garbage disk dirname w entries w' := by
  by_cases hroot : ∀ name ∈ dirname, strcmp name rootName = 0
  · have heq : readEntries dr garbage disk dirname w = readRoot dr garbage disk w := by
      cases dirname with
      | none => rfl
      | some name => simp only [readEntries, if_pos (hroot name rfl)]
    rw [heq]
    rcases readRoot_cases hlo hhi hk hinv hno garbage disk with
      e | ⟨w', e, hf, hnone⟩ | ⟨entries, size, w', e, herr, howns, hne, hread⟩
    · exact .inl ⟨w, e⟩
    · refine .inr (.inl ⟨0, w', e, hf, fun entries w'' hd => ?_⟩)
      cases hd with
      | inl hd => exact hnone _ _ hd.2.2 hd.2.1
      | inr hd =>
        obtain ⟨name, hname, hne, -⟩ := hd
        exact hne (hroot name hname)
    · exact .inr (.inr ⟨entries, size, w', e, herr, howns, .inl ⟨hroot, hread, hne⟩⟩)
  · simp only [not_forall] at hroot
    obtain ⟨name, hname, hne⟩ := hroot
    cases hname
    simp only [readEntries, if_neg hne]
    rcases fat12ReadDirectory_cases hlo hhi hk hinv hno garbage disk name with
      ⟨w', e⟩ | ⟨x, w', e, hf, hnone⟩ | ⟨entries, size, w', e, herr, howns, hd⟩
    · exact .inl ⟨w', e⟩
    · refine .inr (.inl ⟨x, w', e, hf, fun entries w'' hd => ?_⟩)
      cases hd with
      | inl hd => exact hne (hd.1 name rfl)
      | inr hd =>
        obtain ⟨name', hname', -, hd⟩ := hd
        cases hname'
        exact hnone _ _ hd
    · exact .inr (.inr ⟨entries, size, w', e, herr, howns, .inr ⟨name, rfl, hne, hd⟩⟩)

end

theorem ReadsDirectory.unique {dr : DiskRead} {garbage : Word} {disk : DiskPtr} {name : List Byte}
    {w w' w'' : World} {entries entries' : Word}
    (h : ReadsDirectory dr garbage disk name w entries w')
    (h' : ReadsDirectory dr garbage disk name w entries' w'') : entries = entries' ∧ w' = w'' := by
  obtain ⟨fats, entry, w₁, w₂, hl, -, -, -, hread, -, hfree⟩ := h.found
  obtain ⟨fats', entry', w₁', w₂', hl', -, -, -, hread', -, hfree'⟩ := h'.found
  obtain ⟨rfl, he⟩ := hl.unique hl'
  cases he
  rw [hread] at hread'
  cases hread'
  rw [hfree] at hfree'
  cases hfree'
  exact ⟨rfl, rfl⟩

theorem ReadsEntries.unique {dr : DiskRead} {garbage : Word} {disk : DiskPtr}
    {dirname : Option (List Byte)} {w w' w'' : World} {entries entries' : Word}
    (h : ReadsEntries dr garbage disk dirname w entries w')
    (h' : ReadsEntries dr garbage disk dirname w entries' w'') : entries = entries' ∧ w' = w'' := by
  rcases h with ⟨hroot, hread, -⟩ | ⟨name, hname, hne, hd⟩
  · rcases h' with ⟨-, hread', -⟩ | ⟨name, hname, hne, -⟩
    · rw [hread] at hread'
      cases hread'
      exact ⟨rfl, rfl⟩
    · exact absurd (hroot name hname) hne
  · rcases h' with ⟨hroot, -⟩ | ⟨name', hname', -, hd'⟩
    · exact absurd (hroot name hname) hne
    · cases hname
      cases hname'
      exact hd.unique hd'

theorem ReadsDirectory.run {dr : DiskRead} {garbage : Word} {disk : DiskPtr} {name : List Byte}
    {w w' : World} {entries : Word} (h : ReadsDirectory dr garbage disk name w entries w') :
    fat12ReadDirectory dr garbage garbage disk name w = .done entries w' := by
  obtain ⟨fats, entry, w₁, w₂, ⟨w₀, e, h₀, he⟩, h₁, hdir, -, hread, -, hfree⟩ := h.found
  have hlen : ¬ 512 ≤ name.length := Nat.not_le_of_lt h.length
  simp only [fat12ReadDirectory, if_neg hlen, e, if_neg (not_not.mpr h₀), he, if_neg (not_not.mpr h₁),
    hdir, Bool.not_true, Bool.false_eq_true, if_false, hread, hfree]

theorem ReadsEntries.run {dr : DiskRead} {garbage : Word} {disk : DiskPtr}
    {dirname : Option (List Byte)} {w w' : World} {entries : Word}
    (h : ReadsEntries dr garbage disk dirname w entries w') :
    readEntries dr garbage disk dirname w = .done entries w' := by
  rcases h with ⟨hroot, hread, -⟩ | ⟨name, hname, hne, hd⟩
  · have hrun : readRoot dr garbage disk w = .done entries w' := by simp [readRoot, hread]
    cases dirname with
    | none => exact hrun
    | some name => rw [readEntries, if_pos (hroot name rfl), hrun]
  · cases hname
    rw [readEntries, if_neg hne, hd.run]

end Installer
end Amethyst
