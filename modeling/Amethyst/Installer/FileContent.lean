import Amethyst.Installer.DiskBytes
import Amethyst.Installer.FileRead

/-!
# Amethyst.Installer.FileContent

The pointer that `fat12_file_read` returns, and `_err`, over the `disk_read` of `disk.c` and a BIOS that
tells the truth.

The file is the one that the FATs have as they were read, on the volume that the `disk_t` describes
before the call; its sectors need not have the 512 bytes of the device's.

`fat12FileRead_consistent_iff`: the two agree exactly when the call takes none of the ways through on
which they do not, and the read of the first cluster lands every byte of the file.
-/

namespace Amethyst
namespace Installer

/-- The sectors of `size` bytes that a device with sectors of 512 bytes has. -/
def Sectors.ofSize (device : Sectors) (size : Nat) : Sectors :=
  fun s j => device.byte 512 0 (size * s.toNat + j)

/-- Byte `i` of these clusters in order. -/
def chainByte (g : Fat12) (content : Sectors) (clusters : Nat → Cluster) (i : Nat) : BitVec 8 :=
  content.byte g.bytesPerSector.toNat (clusterToLba g (clusters (i / g.clusterBytes))) (i % g.clusterBytes)

section

variable (bios : Bios) (garbage : Word) (disk : DiskPtr) (filename : List Byte)
  (content : BitVec 8 → Sectors) (w : World)

/-- The sectors of the volume. -/
def volumeSectors (d : Disk) : Sectors := (content d.id).ofSize d.info.bytesPerSector.toNat

/-- The block at `ptr` is live and holds the clusters of the file that the path leads to. -/
def HoldsFile (ptr : Word) (w' : World) : Prop :=
  ∃ fats start w₁ n, FindsFile (diskRead bios) garbage disk filename w fats start w₁ ∧
    EndsAfter (disk w.mem).fat12.info fats w₁.mem start n ∧
    ReadWhole (disk w.mem).fat12.info (volumeSectors content (disk w.mem).fat12)
      (chain (disk w.mem).fat12.info fats w₁.mem start) n ptr w'

/-- The call returns a pointer to the file and sets no error, or `NULL` and an error. -/
def Consistent (r : Result Word) : Prop :=
  ∃ ptr w', r = .done ptr w' ∧ (ptr ≠ 0 ↔ w'.state.err = .no) ∧
    (ptr ≠ 0 → HoldsFile bios garbage disk filename content w ptr w')

/-- The block has the size of the file, and the read of the first cluster into it, with what the block
held before, comes to the bytes of the file: `d` is the volume, `d'` what `fat12_read_entry` takes for
it. -/
def Lands (d d' : Disk) (fats : Word) (start : Cluster) (buffer : Word) : Prop :=
  ∀ n', EndsAfter d'.info fats w.mem start n' → ∃ n, EndsAfter d.info fats w.mem start n ∧
    n' * d'.info.clusterBytes = n * d.info.clusterBytes ∧
    ∀ i < n * d.info.clusterBytes,
      landed content bios d'.id buffer (d'.info.sectorPerCluster.setWidth 16) (clusterToLba d'.info start)
          (w.malloc (d'.info.entrySize (BitVec.ofNat 32 n'))).2 i =
        chainByte d.info (volumeSectors content d) (chain d.info fats w.mem start) i

/-- None of the ways through the call is taken on which the pointer and `_err` disagree. -/
structure FileReady : Prop where
  /-- The copy of the path fits its buffer. -/
  length : filename.length < 512
  /-- It ends, and no division by zero stops it. -/
  lookup : ∀ fats w', ¬ LooksUp (diskRead bios) garbage disk filename w fats (.lost w')
  /-- `not_a_file_error` sets no error; only a `free(fats)` that fails does. -/
  directory : ∀ fats w₁, FindsDirectory (diskRead bios) garbage disk filename w fats w₁ → ¬ w₁.Takes fats
  /-- `fat12_read_entry` leaves `buffer` as it was, goes round for ever, is stopped at a division by zero,
  or frees `buffer` and keeps it. -/
  file : ∀ fats start w₁, FindsFile (diskRead bios) garbage disk filename w fats start w₁ →
    (entryExit (diskRead bios) disk fats start w₁ = .badCluster → garbage = 0) ∧
      entryExit (diskRead bios) disk fats start w₁ ≠ .endless ∧
      entryExit (diskRead bios) disk fats start w₁ ≠ .stopped ∧
      entryExit (diskRead bios) disk fats start w₁ ≠ .unreadable
  read : ∀ fats start w₁ buffer w₂,
    ReadsFile (diskRead bios) garbage disk filename w fats start w₁ buffer w₂ →
      w₂.Takes fats ∧ Lands bios content w₁ (disk w.mem).fat12 (disk w₁.mem).fat12 fats start buffer

end

section

variable {bios : Bios} {garbage : Word} {disk : DiskPtr} {filename : List Byte}
  {content : BitVec 8 → Sectors} {w w' : World}

theorem not_consistent_lost : ¬ Consistent bios garbage disk filename content w (.lost w') := by
  intro ⟨ptr, w'', he, _⟩
  cases he

/-- With an error set the pointer has to be `NULL`. -/
theorem consistent_of_error {ptr : Word} (herr : w'.state.err ≠ .no) :
    Consistent bios garbage disk filename content w (.done ptr w') ↔ ptr = 0 := by
  constructor
  · intro ⟨ptr', w'', he, hiff, _⟩
    cases he
    by_contra hne
    exact herr (hiff.mp hne)
  · intro h0
    exact ⟨ptr, w', rfl, iff_of_false (fun hne => hne h0) herr, fun hne => absurd h0 hne⟩

theorem consistent_null :
    Consistent bios garbage disk filename content w (.done 0 w') ↔ w'.state.err ≠ .no := by
  constructor
  · intro ⟨ptr, w'', he, hiff, _⟩ hno
    cases he
    exact hiff.mpr hno rfl
  · intro herr
    exact (consistent_of_error herr).mpr rfl

end

/-! ## The bytes of the block -/

theorem Fat12.clusterBytes_lt (g : Fat12) : g.clusterBytes < 2 ^ 8 * 2 ^ 16 :=
  Nat.mul_lt_mul'' g.sectorPerCluster.isLt g.bytesPerSector.isLt

/-- The size of the block does not wrap: no chain is long enough. -/
theorem entrySize_toNat (g : Fat12) {n : Nat} (hn : n ≤ longestChain) :
    (g.entrySize (BitVec.ofNat 32 n)).toNat = n * g.clusterBytes := by
  have hcb := g.clusterBytes_lt
  have hle := Nat.mul_le_mul hn (Nat.le_of_lt hcb)
  rw [entrySize_eq, BitVec.toNat_ofNat, Nat.mod_eq_of_lt]
  simp only [longestChain] at hle
  omega

theorem readWhole_iff_bytes {g : Fat12} {content : Sectors} {clusters : Nat → Cluster} {n : Nat}
    {output : Word} {w : World} : ReadWhole g content clusters n output w ↔
      (∃ c ∈ w.state.heap.allocated, c.start = output ∧ c.size.toNat = n * g.clusterBytes) ∧
      ∀ i < n * g.clusterBytes, w.mem (output + BitVec.ofNat 32 i) = chainByte g content clusters i := by
  constructor
  · intro h
    refine ⟨h.live, fun i hi => ?_⟩
    have hpos : 0 < g.clusterBytes := Nat.pos_of_ne_zero fun h0 => by simp [h0] at hi
    have hbyte := h.slices (i / g.clusterBytes) ((Nat.div_lt_iff_lt_mul hpos).mpr hi)
      (i % g.clusterBytes) (Nat.mod_lt _ hpos)
    rwa [add_add_ofNat, Nat.div_add_mod'] at hbyte
  · intro ⟨hlive, hbytes⟩
    refine ⟨hlive, fun k hk j hj => ?_⟩
    have hlt : k * g.clusterBytes + j < n * g.clusterBytes := by
      have := Nat.mul_le_mul_right g.clusterBytes (Nat.succ_le_of_lt hk)
      rw [Nat.succ_mul] at this
      omega
    have hdiv : (k * g.clusterBytes + j) / g.clusterBytes = k := by
      rw [Nat.add_comm, Nat.add_mul_div_right _ _ (by omega), Nat.div_eq_of_lt hj, Nat.zero_add]
    have hmod : (k * g.clusterBytes + j) % g.clusterBytes = j := by
      rw [Nat.add_comm, Nat.add_mul_mod_self_right, Nat.mod_eq_of_lt hj]
    rw [add_add_ofNat, hbytes _ hlt, chainByte, hdiv, hmod]

section

variable {lo hi : Nat} (hlo : 0x15000 ≤ lo) (hhi : hi + 2 ^ 26 ≤ 2 ^ 32) {bios : Bios}
  {content : BitVec 8 → Sectors} (ht : Truthful content bios)
include hlo hhi ht

/-- The first cluster is read, so the block holds the file exactly if that lands it. -/
theorem lands_iff {d d' : Disk} {fats buffer : Word} {start : Cluster} {w₁ wₘ w₂ w' : World} {n' : Nat}
    (hend : EndsAfter d'.info fats w₁.mem start n')
    (hblock : w₁.malloc (d'.info.entrySize (BitVec.ofNat 32 n')) = (buffer, wₘ))
    (hread : readCluster (diskRead bios) d' buffer start wₘ = (0, w₂))
    (hinv : w'.state.heap.Inv lo hi)
    (hkept : (⟨buffer, d'.info.entrySize (BitVec.ofNat 32 n')⟩ : Chunk) ∈ w'.live)
    (hmem : w'.mem = w₂.mem) :
    (∃ n, EndsAfter d.info fats w₁.mem start n ∧
      ReadWhole d.info (volumeSectors content d) (chain d.info fats w₁.mem start) n buffer w') ↔
      Lands bios content w₁ d d' fats start buffer := by
  have hlo' : 0 < lo := by omega
  have hhi' : hi < 2 ^ 32 := by omega
  have hsize := entrySize_toNat d'.info hend.le_longestChain
  obtain ⟨hstart, hstop⟩ : lo ≤ buffer.toNat ∧
    buffer.toNat + (d'.info.entrySize (BitVec.ofNat 32 n')).toNat ≤ hi := hinv.inside hkept
  have hne := Heap.Inv.start_ne_zero hlo' hhi' hinv hkept
  -- what the read left in the block
  have hbyte : ∀ i < n' * d'.info.clusterBytes, w'.mem (buffer + BitVec.ofNat 32 i) =
      landed content bios d'.id buffer (d'.info.sectorPerCluster.setWidth 16)
        (clusterToLba d'.info start) wₘ i := by
    intro i hlt
    have hok : (diskRead bios d'.id buffer (d'.info.sectorPerCluster.setWidth 16)
        (clusterToLba d'.info start) wₘ).1 = 0 := congrArg Prod.fst hread
    have hmem₂ : (diskRead bios d'.id buffer (d'.info.sectorPerCluster.setWidth 16)
        (clusterToLba d'.info start) wₘ).2.mem = w₂.mem := by
      rw [← congrArg (fun r => r.2.mem) hread]
      rfl
    rw [hmem, ← hmem₂]
    exact diskRead_landed ht (by omega) (by omega) hok (by omega)
  constructor
  · intro ⟨n, hend₀, hw⟩ m hm
    obtain rfl := hm.length_unique hend
    obtain ⟨⟨c, hc, hcs, hcn⟩, hbytes⟩ := readWhole_iff_bytes.mp hw
    have hceq : c = ⟨buffer, d'.info.entrySize (BitVec.ofNat 32 m)⟩ :=
      hinv.live_inj hlo' hhi' ⟨hc, fun h0 => hne (by rw [← hcs, h0]; rfl)⟩ hkept hcs
    rw [hceq, hsize] at hcn
    refine ⟨n, hend₀, hcn, fun i hlt => ?_⟩
    rw [hblock, ← hbyte i (by rwa [hcn])]
    exact hbytes i hlt
  · intro h
    obtain ⟨n, hend₀, hcn, hbytes⟩ := h n' hend
    refine ⟨n, hend₀, readWhole_iff_bytes.mpr ⟨⟨_, hkept.1, rfl, by rw [hsize, hcn]⟩, fun i hlt => ?_⟩⟩
    rw [hbyte i (by rwa [hcn]), ← hbytes i hlt, hblock]

end

section

variable {bios : Bios} {garbage : Word} {disk : DiskPtr} {filename : List Byte}
  {content : BitVec 8 → Sectors} {w w₁ w₂ w' : World} {fats buffer : Word} {start : Cluster}
  (h : FindsFile (diskRead bios) garbage disk filename w fats start w₁)
include h

theorem FindsFile.consistent_iff :
    Consistent bios garbage disk filename content w (.done buffer w') ↔
      (buffer ≠ 0 ↔ w'.state.err = .no) ∧
      (buffer ≠ 0 → ∃ n, EndsAfter (disk w.mem).fat12.info fats w₁.mem start n ∧
        ReadWhole (disk w.mem).fat12.info (volumeSectors content (disk w.mem).fat12)
          (chain (disk w.mem).fat12.info fats w₁.mem start) n buffer w') := by
  constructor
  · intro ⟨ptr, w'', he, hiff, hholds⟩
    cases he
    refine ⟨hiff, fun hne => ?_⟩
    obtain ⟨fats', start', w₁', n, h', hend, hw⟩ := hholds hne
    obtain ⟨rfl, rfl, rfl⟩ := h.unique h'
    exact ⟨n, hend, hw⟩
  · intro ⟨hiff, hholds⟩
    refine ⟨buffer, w', rfl, hiff, fun hne => ?_⟩
    obtain ⟨n, hend, hw⟩ := hholds hne
    exact ⟨fats, start, w₁, n, h, hend, hw⟩

theorem FindsFile.ready_iff (hlen : filename.length < 512)
    (hread : disk.fat12ReadEntry (diskRead bios) garbage fats start w₁ =
      some (buffer, w₂)) :
    FileReady bios garbage disk filename content w ↔
      (entryExit (diskRead bios) disk fats start w₁ = .badCluster → garbage = 0) ∧
      entryExit (diskRead bios) disk fats start w₁ ≠ .endless ∧
      entryExit (diskRead bios) disk fats start w₁ ≠ .stopped ∧
      entryExit (diskRead bios) disk fats start w₁ ≠ .unreadable ∧
      (entryExit (diskRead bios) disk fats start w₁ = .read →
        w₂.Takes fats ∧
          Lands bios content w₁ (disk w.mem).fat12 (disk w₁.mem).fat12 fats start buffer) := by
  constructor
  · intro hready
    obtain ⟨h1, h2, h3, h4⟩ := hready.file _ _ _ h
    exact ⟨h1, h2, h3, h4, fun he => hready.read _ _ _ _ _ ⟨h, he, hread⟩⟩
  · intro ⟨h1, h2, h3, h4, h5⟩
    obtain ⟨entry, hl, -, hdir, -⟩ := id h
    refine ⟨hlen, fun fats' w'' hl' => ?_, fun fats' w₁' hd => ?_, fun fats' start' w₁' h' => ?_,
      (h.forall_reads hread (P := fun fats start w₁ buffer w₂ => w₂.Takes fats ∧
        Lands bios content w₁ (disk w.mem).fat12 (disk w₁.mem).fat12 fats start buffer)).mpr h5⟩
    · obtain ⟨-, he⟩ := hl.unique hl'
      cases he
    · obtain ⟨entry', hl', -, hdir'⟩ := hd
      obtain ⟨-, he⟩ := hl.unique hl'
      cases he
      exact absurd hdir' hdir
    · obtain ⟨rfl, rfl, rfl⟩ := h.unique h'
      exact ⟨h1, h2, h3, h4⟩

end

section

variable {lo hi : Nat} (hlo : 0 < lo) (hhi : hi < 2 ^ 32) {bios : Bios} {garbage : Word}
  {disk : DiskPtr} {filename : List Byte} {content : BitVec 8 → Sectors} {w w₁ w' : World}
  {fats size : Word}
include hlo hhi

/-- A path that leads to no file: `NULL` comes with an error unless the path leads to a directory and
`freed` takes the FATs. -/
theorem LooksUp.consistent_iff {entry : Word}
    (h : LooksUp (diskRead bios) garbage disk filename w fats (.done entry w₁))
    (hlen : filename.length < 512) (hinv : w₁.state.heap.Inv lo hi)
    (hmem : (⟨fats, size⟩ : Chunk) ∈ w₁.live)
    (hnot : w₁.state.err ≠ .no ∨ isSubdirectory w₁.mem entry) (hfreed : Freed lo hi w₁ ⟨fats, size⟩ w') :
    Consistent bios garbage disk filename content w (.done 0 w') ↔
      FileReady bios garbage disk filename content w := by
  have herr : w'.state.err ≠ .no ↔ (w₁.state.err = .no → ¬ w₁.Takes fats) := by
    rw [ne_eq, hfreed.err_iff (by simp), ← World.takes_iff hlo hhi hinv hmem]
    exact ⟨fun hn he ht => hn ⟨ht, he⟩, fun himp hs => himp hs.2 hs.1⟩
  rw [consistent_null, herr]
  constructor
  · intro hfull
    refine ⟨hlen, fun fats' w'' hl => ?_, fun fats' w₁' hd => ?_,
      fun fats' start w₁' hf => absurd hf (h.not_findsFile hnot _ _ _),
      fun fats' start w₁' buffer w₂ hf => absurd hf.1 (h.not_findsFile hnot _ _ _)⟩
    · obtain ⟨-, he⟩ := h.unique hl
      cases he
    · obtain ⟨entry', hl, herr₁, -⟩ := hd
      obtain ⟨rfl, he⟩ := h.unique hl
      cases he
      exact hfull herr₁
  · intro hready herr₁
    exact hready.directory _ _ ⟨entry, h, herr₁, hnot.resolve_left fun hn => hn herr₁⟩

end

section

variable {lo hi : Nat} (hlo : 0x15000 ≤ lo) (hhi : hi + 2 ^ 26 ≤ 2 ^ 32) {bios : Bios}
  {content : BitVec 8 → Sectors} (ht : Truthful content bios) {garbage : Word} {disk : DiskPtr}
  {filename : List Byte} {w : World}
include hlo hhi ht

/-- A file that is read: the call succeeds if `freed` takes the FATs, and then the block has to hold
the file. -/
theorem FindsFile.consistent_read_iff {w₁ wₘ w₂ w' : World} {fats size buffer : Word} {start : Cluster}
    (h : FindsFile (diskRead bios) garbage disk filename w fats start w₁)
    (hlive : w₁.live = insert ⟨fats, size⟩ w.live) (hmem : (⟨fats, size⟩ : Chunk) ∈ w₂.live)
    (hfreed : Freed lo hi w₂ ⟨fats, size⟩ w') (herr : w₂.state.err = .no) {n : Nat}
    (hend : EndsAfter (disk w₁.mem).fat12.info fats w₁.mem start n)
    (hblock : w₁.malloc ((disk w₁.mem).fat12.info.entrySize (BitVec.ofNat 32 n)) = (buffer, wₘ))
    (hread : readCluster (diskRead bios) (disk w₁.mem).fat12 buffer start wₘ = (0, w₂))
    (howns : Owns lo hi w₁.live ⟨buffer, (disk w₁.mem).fat12.info.entrySize (BitVec.ofNat 32 n)⟩ w₂) :
    Consistent bios garbage disk filename content w (.done buffer w') ↔
      w₂.Takes fats ∧ Lands bios content w₁ (disk w.mem).fat12 (disk w₁.mem).fat12 fats start buffer := by
  have hlo' : 0 < lo := by omega
  have hhi' : hi < 2 ^ 32 := by omega
  have herr' : w'.state.err = .no ↔ w₂.Takes fats := by
    rw [hfreed.err_iff (by simp), ← World.takes_iff hlo' hhi' howns.inv hmem, and_iff_left herr]
  have hkept : (⟨buffer, (disk w₁.mem).fat12.info.entrySize (BitVec.ofNat 32 n)⟩ : Chunk) ∈ w'.live := by
    rw [hfreed.live]
    refine ⟨howns.mem, fun he => howns.fresh ?_⟩
    rw [he, hlive]
    exact Set.mem_insert _ _
  have hlands := lands_iff hlo hhi ht (d := (disk w.mem).fat12) hend hblock hread hfreed.inv hkept
    hfreed.mem
  have hne : buffer ≠ 0 := Heap.Inv.start_ne_zero hlo' hhi' howns.inv howns.mem
  rw [h.consistent_iff, herr', hlands]
  constructor
  · intro ⟨hiff, hholds⟩
    exact ⟨hiff.mp hne, hholds hne⟩
  · intro ⟨htakes, hrest⟩
    exact ⟨iff_of_true hne htakes, fun _ => hrest⟩

variable (hinv : w.state.heap.Inv lo hi) (hno : w.state.err = .no)
include hinv hno

end

end Installer
end Amethyst
