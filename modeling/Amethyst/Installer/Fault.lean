import Amethyst.Installer.DiskPtr
import Amethyst.Installer.FatChain

/-!
# Amethyst.Installer.Fault

The functions of `fat12.c` that divide by `bytes_per_sector`, with the fault of the processor where the
field is zero, and with a `disk_t` behind a pointer: `Checked.f` is `f` that divides by `divide` and
`remainder`.

`DiskPtr.fat12ReadRootDirectory` and `DiskPtr.fat12ReadEntry` are what the callers see of them. A call
that is stopped at a division does not return.
-/

namespace Amethyst
namespace Installer

/-- A computation that the processor may stop, in the world that it has come to. -/
inductive Checked (α : Type) where
  | divideError (w : World)
  | ok (a : α)

namespace Checked

variable {α β : Type}

protected def bind : Checked α → (α → Checked β) → Checked β
  | divideError w, _ => divideError w
  | ok a, f => f a

instance : Monad Checked where
  pure := ok
  bind := Checked.bind

@[simp] theorem ok_bind (a : α) (f : α → Checked β) : (ok a >>= f) = f a := rfl

@[simp] theorem divideError_bind (w : World) (f : α → Checked β) :
    (divideError w >>= f) = divideError w := rfl

theorem ok_ne_divideError (a : α) (w : World) : ok a ≠ divideError w := by
  intro h
  cases h

/-- Where the rest divides nothing, only the first part can be stopped. -/
theorem bind_eq_divideError {x : Checked α} {f : α → Checked β} {w : World}
    (hf : ∀ a, f a ≠ divideError w) : (x >>= f) = divideError w ↔ x = divideError w := by
  cases x with
  | divideError w' => simp
  | ok a => exact iff_of_false (hf a) (ok_ne_divideError a w)

def divide (w : World) (a b : Word) : Checked Word := if b = 0 then divideError w else ok (a / b)

def remainder (w : World) (a b : Word) : Checked Word := if b = 0 then divideError w else ok (a % b)

def nextCluster (g : Fat12) (fats : Word) (w : World) (cluster : Cluster) : Checked Cluster := do
  let _fatSector ← divide w (fatOffset cluster) (g.bytesPerSector.setWidth 32)
  let entOffset ← remainder w (fatOffset cluster) (g.bytesPerSector.setWidth 32)
  let tableValue : Word := (w.mem (fats + entOffset)).signExtend 32
  ok ((if cluster &&& 1 ≠ 0 then tableValue.sshiftRight 4 else tableValue &&& 0xfff).setWidth 16)

def fat12NextCluster (disk : Option Disk) (fats : Word) (cluster : Cluster) (w : World) :
    Checked (Cluster × World) :=
  match disk with
  | none => ok (0, w.setErr .invarg)
  | some disk =>
    if fats = 0 then ok (0, w.setErr .invarg)
    else do
      let next ← nextCluster disk.info fats w cluster
      ok (next, w)

def fat12ReadRootDirectory (dr : DiskRead) (pOutput : Option Word) (disk : Option Disk) (w : World) :
    Checked (Option (Option Word × World)) :=
  match disk, pOutput with
  | some disk, some _ => do
    let g := disk.info
    let size ← divide w (32 * g.maxRootEntryCount.setWidth 32) (g.bytesPerSector.setWidth 32)
    let rootdirSize : BitVec 64 := size.setWidth 64
    let rootdirLba : BitVec 64 := (g.sectorPerFat.setWidth 32 * g.fatCount.setWidth 32
      + g.reservedSectorCount.setWidth 32 : Word).setWidth 64
    let (output, w) := w.malloc ((rootdirSize * g.bytesPerSector.setWidth 64).setWidth 32)
    if output = 0 then ok (some (some 0, w))
    else
      let (_, w) := w.diskRead dr disk.id output (rootdirSize.setWidth 16) (rootdirLba * 0 + 0x13)
      if w.state.err ≠ .no then ok ((w.free output).map fun w => (some output, w))
      else ok (some (some output, w))
  | _, _ => ok (some (pOutput, w.setErr .invarg))

def clusterToLba (g : Fat12) (cluster : Cluster) (w : World) : Checked (BitVec 64) := do
  let rootDirSectors ← divide w (g.maxRootEntryCount.setWidth 32 <<< 5
    + (g.bytesPerSector.setWidth 32 - 1)) (g.bytesPerSector.setWidth 32)
  let firstDataSector : Word := g.reservedSectorCount.setWidth 32
    + g.fatCount.setWidth 32 * g.sectorPerFat.setWidth 32 + rootDirSectors
  ok (((cluster.setWidth 32 - 2) * g.sectorPerCluster.setWidth 32 + firstDataSector : Word).setWidth 64)

def fat12ClusterToLba (disk : Option Disk) (cluster : Cluster) (w : World) :
    Checked (BitVec 64 × World) :=
  match disk with
  | none => ok (0, w.setErr .invarg)
  | some disk => do
    let lba ← clusterToLba disk.info cluster w
    ok (lba, w)

def countClusters (disk : Disk) (fats : Word) :
    Nat → Cluster → Word → World → Checked (Option (Word × World))
  | 0, _, _, _ => ok none
  | fuel + 1, current, size, w =>
    if current < 0xFF8 then do
      let (next, w) ← fat12NextCluster (some disk) fats current w
      countClusters disk fats fuel next (size + 1) w
    else ok (some (size, w))

/-- The last call of `fat12_next_cluster` comes behind the `disk_read`, and reads the field again. -/
def fat12ReadEntry (dr : DiskRead) (fuel : Nat) (pOutput : Word) (disk : Option DiskPtr) (fats : Word)
    (start : Cluster) (w : World) : Checked (Option (Word × World)) :=
  match disk with
  | none => ok (some (pOutput, w.setErr .invarg))
  | some disk =>
    let bytesPerSector := (disk w.mem).fat12.info.bytesPerSector
    let sectorPerCluster := (disk w.mem).fat12.info.sectorPerCluster
    if fats = 0 ∨ 0xFF8 ≤ start then ok (some (pOutput, w.setErr .invarg))
    else do
      match ← countClusters (disk w.mem).fat12 fats fuel start 0 w with
      | none => ok none
      | some (size, w) =>
        let (output, w) :=
          w.malloc (size * sectorPerCluster.setWidth 32 * bytesPerSector.setWidth 32)
        if w.state.err ≠ .no then ok (some (output, w))
        else
          let offset : BitVec 16 := 0
          let (lba, w) ← fat12ClusterToLba (some (disk w.mem).fat12) start w
          let (status, w) := w.diskRead dr (disk w.mem).fat12.id (output + offset.setWidth 32)
            (sectorPerCluster.setWidth 16) lba
          if status ≠ 0 then ok ((w.free output).map fun w => (output, w.setErr .io))
          else
            let (_, w) ← fat12NextCluster (some (disk w.mem).fat12) fats start w
            ok (some (output, w))

/-- What a call that may be stopped returns. -/
def returned : Checked (Option α) → Option α
  | divideError _ => none
  | ok r => r

@[simp] theorem returned_ok (r : Option α) : returned (ok r) = r := rfl

@[simp] theorem returned_divideError (w : World) : returned (divideError w : Checked (Option α)) = none := rfl

/-! ## With a field that is not zero -/

section

variable {g : Fat12} (h : g.bytesPerSector ≠ 0)
include h

theorem divisor_ne_zero : g.bytesPerSector.setWidth 32 ≠ (0 : Word) := by
  intro h0
  refine h (BitVec.eq_of_toNat_eq ?_)
  have hz := congrArg BitVec.toNat h0
  rwa [BitVec.toNat_setWidth_of_le (by decide)] at hz

theorem nextCluster_ok (fats : Word) (w : World) (cluster : Cluster) :
    nextCluster g fats w cluster = ok (Installer.nextCluster g fats w.mem cluster) := by
  simp only [nextCluster, divide, remainder, if_neg (divisor_ne_zero h), ok_bind]
  rfl

theorem clusterToLba_ok (cluster : Cluster) (w : World) :
    clusterToLba g cluster w = ok (Installer.clusterToLba g cluster) := by
  simp only [clusterToLba, divide, if_neg (divisor_ne_zero h), ok_bind]
  rfl

end

section

variable {disk : Disk} (h : disk.info.bytesPerSector ≠ 0)
include h

theorem fat12NextCluster_ok (fats : Word) (cluster : Cluster) (w : World) :
    fat12NextCluster (some disk) fats cluster w =
      ok (Installer.fat12NextCluster (some disk) fats cluster w) := by
  simp only [fat12NextCluster, Installer.fat12NextCluster, nextCluster_ok h, ok_bind]
  split <;> rfl

/-- By induction on the fuel. -/
theorem countClusters_ok (fats : Word) : ∀ (fuel : Nat) (current : Cluster) (size : Word) (w : World),
    countClusters disk fats fuel current size w =
      ok (Installer.countClusters disk fats fuel current size w) := by
  intro fuel
  induction fuel with
  | zero => exact fun _ _ _ => rfl
  | succ fuel ih =>
    intro current size w
    simp only [countClusters, Installer.countClusters, fat12NextCluster_ok h, ok_bind, ih]
    split <;> rfl

theorem fat12ReadRootDirectory_ok (dr : DiskRead) (pOutput : Option Word) (w : World) :
    fat12ReadRootDirectory dr pOutput (some disk) w =
      ok (Installer.fat12ReadRootDirectory dr pOutput (some disk) w) := by
  cases pOutput with
  | none => rfl
  | some pOutput =>
    simp only [fat12ReadRootDirectory, Installer.fat12ReadRootDirectory, divide,
      if_neg (divisor_ne_zero h), ok_bind]
    split
    · rfl
    · split <;> rfl

end

/-- With a field that is zero. -/
theorem fat12NextCluster_stopped {disk : DiskT} (h : disk.info.bytesPerSector = 0) {fats : Word}
    (hfats : fats ≠ 0) (cluster : Cluster) (w : World) :
    fat12NextCluster (some disk.fat12) fats cluster w = divideError w := by
  simp only [fat12NextCluster, if_neg hfats, nextCluster, DiskT.fat12, h]
  rfl

end Checked

/-! ## The two reads -/

/-- The values of a `fat12_cluster`. -/
def clusterValues : Nat := 2 ^ 16

section

variable (dr : DiskRead) (disk : DiskPtr)

/-- `fat12_read_root_directory`, to a local pointer. -/
def DiskPtr.fat12ReadRootDirectory (garbage : Word) (w : World) : Option (Option Word × World) :=
  (Checked.fat12ReadRootDirectory dr (some garbage) (some (disk w.mem).fat12) w).returned

/-- `fat12_read_entry` -/
def DiskPtr.fat12ReadEntry (pOutput fats : Word) (start : Cluster) (w : World) : Option (Word × World) :=
  (Checked.fat12ReadEntry dr clusterValues pOutput (some disk) fats start w).returned

end

section

variable {dr : DiskRead} {disk : DiskPtr} {w : World}

theorem DiskPtr.fat12ReadRootDirectory_ok (h : (disk w.mem).info.bytesPerSector ≠ 0) (garbage : Word) :
    disk.fat12ReadRootDirectory dr garbage w =
      Installer.fat12ReadRootDirectory dr (some garbage) (some (disk w.mem).fat12) w := by
  have hfield : (disk w.mem).fat12.info.bytesPerSector ≠ 0 := h
  rw [DiskPtr.fat12ReadRootDirectory, Checked.fat12ReadRootDirectory_ok hfield, Checked.returned_ok]

/-- The size of the directory is the first thing computed. -/
theorem DiskPtr.fat12ReadRootDirectory_stopped (h : (disk w.mem).info.bytesPerSector = 0)
    (garbage : Word) : disk.fat12ReadRootDirectory dr garbage w = none := by
  simp only [DiskPtr.fat12ReadRootDirectory, Checked.fat12ReadRootDirectory, DiskT.fat12, h]
  rfl

variable {fats pOutput : Word} {start : Cluster}

theorem DiskPtr.fat12ReadEntry_guarded (hguard : fats = 0 ∨ 0xFF8 ≤ start) :
    disk.fat12ReadEntry dr pOutput fats start w = some (pOutput, w.setErr .invarg) := by
  simp only [DiskPtr.fat12ReadEntry, Checked.fat12ReadEntry, if_pos hguard, Checked.returned_ok]

variable (hguard : ¬ (fats = 0 ∨ 0xFF8 ≤ start))
include hguard

/-- The next cluster of the first one is asked for. -/
theorem DiskPtr.fat12ReadEntry_stopped (h : (disk w.mem).info.bytesPerSector = 0) :
    disk.fat12ReadEntry dr pOutput fats start w = none := by
  have hfats : fats ≠ 0 := fun h0 => hguard (.inl h0)
  have hlt : start < 0xFF8 := BitVec.not_le.mp fun h0 => hguard (.inr h0)
  obtain ⟨n, hn⟩ : ∃ n, clusterValues = n + 1 := ⟨2 ^ 16 - 1, rfl⟩
  simp only [DiskPtr.fat12ReadEntry, Checked.fat12ReadEntry, if_neg hguard, hn, Checked.countClusters,
    if_pos hlt, Checked.fat12NextCluster_stopped h hfats, Checked.divideError_bind,
    Checked.returned_divideError]

variable (h : (disk w.mem).info.bytesPerSector ≠ 0)
include h

theorem DiskPtr.fat12ReadEntry_endless
    (hcount : countClusters (disk w.mem).fat12 fats clusterValues start 0 w = none) :
    disk.fat12ReadEntry dr pOutput fats start w = none := by
  have hfield : (disk w.mem).fat12.info.bytesPerSector ≠ 0 := h
  simp only [DiskPtr.fat12ReadEntry, Checked.fat12ReadEntry, if_neg hguard,
    Checked.countClusters_ok hfield, hcount, Checked.ok_bind, Checked.returned_ok]

/-- The call after the count of the clusters. The last division comes behind the read. -/
theorem DiskPtr.fat12ReadEntry_counted {d : Disk} (hd : (disk w.mem).fat12 = d)
    {clusters output : Word} {w₁ : World}
    (hcount : countClusters d fats clusterValues start 0 w = some (clusters, w))
    (e : w.malloc (d.info.entrySize clusters) = (output, w₁)) :
    disk.fat12ReadEntry dr pOutput fats start w =
      if w₁.state.err ≠ .no then some (output, w₁)
      else if (readCluster dr d output start w₁).1 ≠ 0 then
        ((readCluster dr d output start w₁).2.free output).map
          fun w => (output, w.setErr .io)
      else if (disk (readCluster dr d output start w₁).2.mem).info.bytesPerSector = 0
        then none
      else some (output, (readCluster dr d output start w₁).2) := by
  subst hd
  have hfield : (disk w.mem).fat12.info.bytesPerSector ≠ 0 := h
  have hfats : fats ≠ 0 := fun h0 => hguard (.inl h0)
  have hoffset : output + (0 : BitVec 16).setWidth 32 = output := by
    rw [show (0 : BitVec 16).setWidth 32 = 0#32 from rfl, BitVec.add_zero]
  have hmem : w₁.mem = w.mem := congrArg (·.2.mem) e.symm
  have hlba : Checked.fat12ClusterToLba (some (disk w.mem).fat12) start w₁ =
      .ok (clusterToLba (disk w.mem).fat12.info start, w₁) := by
    rw [Checked.fat12ClusterToLba, Checked.clusterToLba_ok hfield]
    rfl
  unfold Fat12.entrySize at e
  simp only [DiskPtr.fat12ReadEntry, Checked.fat12ReadEntry, if_neg hguard,
    Checked.countClusters_ok hfield, hcount, Checked.ok_bind, e, hmem, hlba, hoffset]
  split
  · rfl
  obtain ⟨⟨status, w₂⟩, e₂⟩ : ∃ r, readCluster dr (disk w.mem).fat12 output start w₁ = r := ⟨_, rfl⟩
  have hread : w₁.diskRead dr (disk w.mem).fat12.id output
      ((disk w.mem).fat12.info.sectorPerCluster.setWidth 16)
      (clusterToLba (disk w.mem).fat12.info start) = (status, w₂) := e₂
  simp only [e₂, hread]
  split
  · rfl
  by_cases h₂ : (disk w₂.mem).info.bytesPerSector = 0
  · rw [if_pos h₂, Checked.fat12NextCluster_stopped h₂ hfats]
    rfl
  · rw [if_neg h₂, Checked.fat12NextCluster_ok (show (disk w₂.mem).fat12.info.bytesPerSector ≠ 0 from h₂)]
    simp only [Checked.ok_bind, Checked.returned_ok, fat12NextCluster_some hfats]

end

end Installer
end Amethyst
