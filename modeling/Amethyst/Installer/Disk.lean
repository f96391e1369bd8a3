import Amethyst.Installer.Allocator
import Amethyst.Memory

/-!
# Amethyst.Installer.Disk

`disk_read` (`installer/src/sys/disk/disk.c`) over the BIOS. A transfer that ends in low memory goes
there directly; any other one goes through the bounce buffer `buffer16`, a page of eight sectors at
a time, and `memcpy` moves each page to its destination.

The BIOS is a parameter. It answers each `int 0x13` call of `disk.asm` from the calls before it, the
call and the memory. `Delivers` is what is assumed of it where a result needs its reads to succeed.

* `readPages_spec`: the page loop. After `n` pages the destination holds them, in the order in which
  they were asked for, and nothing else has changed but the buffer.
* `diskRead_delivers_iff`: the destination gets the sectors it should exactly when the transfer is
  direct or the sectors fetched by the page loop, four apart from one page to the next where eight
  were read, happen to have the contents of the right ones.
-/

namespace Amethyst
namespace Installer

/-! ## The machine -/

/-- `dap`, without its constant first two bytes. -/
structure Dap where
  count : BitVec 16
  offset : BitVec 16
  segment : BitVec 16
  lba : BitVec 64
deriving DecidableEq, Repr

/-- The `int 0x13` calls of `disk_read_int13`: AH = 00h and AH = 42h. -/
inductive Int13 where
  | reset (drive : BitVec 8)
  | extendedRead (drive : BitVec 8) (dap : Dap)
deriving DecidableEq, Repr

/-- The carry flag and the memory after an `int 0x13`. -/
structure Outcome where
  carry : Bool
  mem : Mem 32

/-- The BIOS, as a function of the calls so far, the call and the memory. -/
abbrev Bios := List Int13 → Int13 → Mem 32 → Outcome

structure Request where
  drive : BitVec 8
  ptr : Word
  count : BitVec 16
  lba : BitVec 64
deriving DecidableEq, Repr

/-- The allocator with `_err`, the memory, the BIOS calls made, and the reads that the file system
has asked for. -/
structure World where
  state : State
  mem : Mem 32
  calls : List Int13
  reads : List Request

def World.int13 (bios : Bios) (call : Int13) (w : World) : Bool × World :=
  let r := bios w.calls call w.mem
  (r.carry, { w with mem := r.mem, calls := w.calls ++ [call] })

/-! ## `disk_read` -/

/-- `DATA_SEG`, which `protected_mode` leaves in EAX; both failure exits return it. -/
def dataSeg : BitVec 8 := 0x10

/-- The reads of `disk_read_int13`, `tries` in all, until one leaves the carry flag clear. The variables of
`disk.asm` are kept out of the memory, and so is the byte that the first instruction of `read_failure`, one
assembled for 32 bits but run in 16, stores elsewhere. -/
def readTries (bios : Bios) (drive : BitVec 8) (dap : Dap) : Nat → World → BitVec 8 × World
  | 0, w => (dataSeg, w)
  | tries + 1, w =>
    match w.int13 bios (.extendedRead drive dap) with
    | (false, w') => (0, w')
    | (true, w') => readTries bios drive dap tries w'

def diskReadInt13 (bios : Bios) (drive : BitVec 8) (count offset segment : BitVec 16)
    (lbalo lbahi : Word) (w : World) : BitVec 8 × World :=
  let dap : Dap := ⟨count, offset, segment, lbahi ++ lbalo⟩
  match w.int13 bios (.reset drive) with
  | (true, w') => (dataSeg, w')
  | (false, w') => readTries bios drive dap 3 w'

/-- `memcpy` of `string.c`. -/
def memcpy (dest src count : Word) (w : World) : Word × World :=
  let (dest, state) := if dest = 0 then malloc w.state count else (dest, w.state)
  (dest, { w with state, mem := Mem.copy dest src count.toNat w.mem })

def diskSectorSize : Nat := 512

/-- `__BUFFER`: the linker script puts `buffer16` here. -/
def buffer : Word := 0xE000

/-- `__BUFFER_SIZE` -/
def bufferSize : Nat := 0x1000

/-- `__BUFFER_PG_SIZE` -/
def bufferPgSize : Nat := bufferSize / diskSectorSize

def lbalo (lba : BitVec 64) : Word := lba.setWidth 32

def lbahi (lba : BitVec 64) : Word := (lba >>> 32).setWidth 32

/-- `for (i = 0; i < count / __BUFFER_PG_SIZE; ++i, ..)`, with the iterations left. -/
def readPages (bios : Bios) (drive : BitVec 8) :
    Nat → Word → BitVec 64 → World → Word × BitVec 64 × World
  | 0, ptr, lba, w => (ptr, lba, w)
  | n + 1, ptr, lba, w =>
    -- the status of the read is never looked at
    let (_, w) := diskReadInt13 bios drive (BitVec.ofNat 16 bufferPgSize) (buffer.setWidth 16) 0
      (lbalo lba) (lbahi lba) w
    let (_, w) := memcpy ptr buffer (BitVec.ofNat 32 bufferSize) w
    readPages bios drive n (ptr + BitVec.ofNat 32 bufferSize) (lba + 4) w

/-- The output can be accessed in real mode. -/
def Direct (ptr : Word) (count : BitVec 16) : Prop :=
  ptr + count.setWidth 32 * BitVec.ofNat 32 diskSectorSize < 0xFFF0

instance (ptr : Word) (count : BitVec 16) : Decidable (Direct ptr count) :=
  inferInstanceAs (Decidable (_ < _))

def diskRead (bios : Bios) (drive : BitVec 8) (ptr : Word) (count : BitVec 16) (lba : BitVec 64)
    (w : World) : BitVec 8 × World :=
  if Direct ptr count then
    diskReadInt13 bios drive count (ptr.setWidth 16) 0 (lbalo lba) (lbahi lba) w
  else
    let (ptr, lba, w) := readPages bios drive (count.toNat / bufferPgSize) ptr lba w
    let lastPageCount := count.toNat % bufferPgSize
    let (status, w) := diskReadInt13 bios drive (BitVec.ofNat 16 lastPageCount)
      (buffer.setWidth 16) 0 (lbalo lba) (lbahi lba) w
    if status ≠ 0 then (status, w)
    else (0, (memcpy ptr buffer (BitVec.ofNat 32 (lastPageCount * bufferSize)) w).2)

/-! ## The allocator under a `disk_read` -/

section

variable {lo hi : Nat} (hlo : 0 < lo) (hhi : hi < 2 ^ 32)

theorem readTries_state (bios : Bios) (drive : BitVec 8) (dap : Dap) (tries : Nat) (w : World) :
    (readTries bios drive dap tries w).2.state = w.state := by
  induction tries generalizing w with
  | zero => rfl
  | succ tries ih =>
    simp only [readTries]
    split
    · rename_i w' h
      exact congrArg (World.state ∘ Prod.snd) h.symm
    · rename_i w' h
      rw [ih]
      exact congrArg (World.state ∘ Prod.snd) h.symm

theorem diskReadInt13_state (bios : Bios) (drive : BitVec 8) (count offset segment : BitVec 16)
    (lbalo lbahi : Word) (w : World) :
    (diskReadInt13 bios drive count offset segment lbalo lbahi w).2.state = w.state := by
  simp only [diskReadInt13]
  split
  · rename_i w' h
    exact congrArg (World.state ∘ Prod.snd) h.symm
  · rename_i w' h
    rw [readTries_state]
    exact congrArg (World.state ∘ Prod.snd) h.symm

theorem diskReadInt13_inv (bios : Bios) (drive : BitVec 8) (count offset segment : BitVec 16)
    (lba : BitVec 64) {w : World} (h : w.state.heap.Inv lo hi) :
    (diskReadInt13 bios drive count offset segment (lbalo lba) (lbahi lba) w).2.state.heap.Inv
      lo hi := by
  rw [diskReadInt13_state]
  exact h

include hlo hhi

theorem malloc_heap_inv {s : State} (h : s.heap.Inv lo hi) (size : Word) :
    (malloc s size).2.heap.Inv lo hi := by
  obtain ⟨s', e, h'⟩ := step_inv hlo hhi h (.malloc size)
  cases e
  exact h'

theorem memcpy_inv {w : World} (h : w.state.heap.Inv lo hi) (dest src count : Word) :
    (memcpy dest src count w).2.state.heap.Inv lo hi := by
  simp only [memcpy]
  split
  · exact malloc_heap_inv hlo hhi h count
  · exact h

theorem readPages_inv (bios : Bios) (drive : BitVec 8) : ∀ (n : Nat) (ptr : Word) (lba : BitVec 64)
    (w : World), w.state.heap.Inv lo hi →
    (readPages bios drive n ptr lba w).2.2.state.heap.Inv lo hi := by
  intro n
  induction n with
  | zero => exact fun _ _ _ h => h
  | succ n ih =>
    intro ptr lba w h
    exact ih _ _ _ (memcpy_inv hlo hhi (diskReadInt13_inv _ _ _ _ _ _ h) _ _ _)

/-- `disk_read` may allocate, through `memcpy`, but keeps the tables packed. -/
theorem diskRead_inv (bios : Bios) (drive : BitVec 8) (ptr : Word) (count : BitVec 16)
    (lba : BitVec 64) {w : World} (h : w.state.heap.Inv lo hi) :
    (diskRead bios drive ptr count lba w).2.state.heap.Inv lo hi := by
  by_cases hd : Direct ptr count
  · rw [diskRead, if_pos hd]
    exact diskReadInt13_inv _ _ _ _ _ _ h
  · have hpages := readPages_inv hlo hhi bios drive (count.toNat / bufferPgSize) ptr lba w h
    simp only [diskRead, if_neg hd]
    split
    · exact diskReadInt13_inv _ _ _ _ _ _ hpages
    · exact memcpy_inv hlo hhi (diskReadInt13_inv _ _ _ _ _ _ hpages) _ _ _

end

/-! ## Reads that succeed -/

/-- The content of a disk: the bytes of each sector. -/
abbrev Sectors := BitVec 64 → Nat → BitVec 8

/-- Byte `i` of the sectors of `size` bytes from `lba` on. -/
def Sectors.byte (disk : Sectors) (size : Nat) (lba : BitVec 64) (i : Nat) : BitVec 8 :=
  disk (lba + BitVec.ofNat 64 (i / size)) (i % size)

theorem Sectors.byte_sector {disk : Sectors} {size : Nat} {lba : BitVec 64} {i j : Nat}
    (hj : j < size) : disk.byte size lba (size * i + j) = disk (lba + BitVec.ofNat 64 i) j := by
  rw [Sectors.byte, Nat.mul_add_div (by omega), Nat.div_eq_of_lt hj, Nat.add_zero,
    Nat.mul_add_mod, Nat.mod_eq_of_lt hj]

def Dap.linear (dap : Dap) : Word := dap.segment.setWidth 32 <<< 4 + dap.offset.setWidth 32

/-- Each call for the drive succeeds, and a read copies exactly the sectors it was asked for. -/
structure Delivers (drive : BitVec 8) (disk : Sectors) (bios : Bios) : Prop where
  reset : ∀ calls m, bios calls (.reset drive) m = ⟨false, m⟩
  read : ∀ calls dap m, bios calls (.extendedRead drive dap) m =
    ⟨false, m.fill dap.linear (512 * dap.count.toNat) (disk.byte 512 dap.lba)⟩

/-- A BIOS that does so for every drive. -/
def idealBios (disk : Sectors) : Bios
  | _, .reset _, m => ⟨false, m⟩
  | _, .extendedRead _ dap, m =>
    ⟨false, m.fill dap.linear (512 * dap.count.toNat) (disk.byte 512 dap.lba)⟩

theorem idealBios_delivers (drive : BitVec 8) (disk : Sectors) :
    Delivers drive disk (idealBios disk) :=
  ⟨fun _ _ => rfl, fun _ _ _ => rfl⟩

theorem lbahi_append_lbalo (lba : BitVec 64) : lbahi lba ++ lbalo lba = lba := by
  apply BitVec.eq_of_getLsbD_eq
  intro i hi
  simp only [lbahi, lbalo, BitVec.getLsbD_append, BitVec.getLsbD_setWidth,
    BitVec.getLsbD_ushiftRight]
  by_cases h : i < 32
  · simp [h]
  · have h1 : i - 32 < 32 := by omega
    have h2 : 32 + (i - 32) = i := by omega
    simp [h, h1, h2]

theorem diskSectorSize_eq : diskSectorSize = 512 := rfl
theorem bufferSize_eq : bufferSize = 4096 := rfl
theorem bufferPgSize_eq : bufferPgSize = 8 := rfl

theorem memcpy_of_ne_zero {dest : Word} (h : dest ≠ 0) (src count : Word) (w : World) :
    memcpy dest src count w = (dest, { w with mem := Mem.copy dest src count.toNat w.mem }) := by
  simp only [memcpy, if_neg h]

theorem linear_buffer (count : BitVec 16) (lba : BitVec 64) :
    Dap.linear ⟨count, buffer.setWidth 16, 0, lba⟩ = buffer := by
  simp [Dap.linear, buffer]

def High (ptr : Word) : Prop := 0xF000 ≤ ptr.toNat

theorem High.not_inRange {x : Word} (h : High x) : ¬ InRange buffer 4096 x := by
  rw [inRange_iff (by decide)]
  have : buffer.toNat = 0xE000 := rfl
  unfold High at h
  omega

theorem High.ne_zero {x : Word} (h : High x) : x ≠ 0 := by
  intro he
  rw [he] at h
  exact absurd (show 0xF000 ≤ 0 from h) (by decide)

theorem High.add {x : Word} (h : High x) {i : Nat} (hi : x.toNat + i < 2 ^ 32) :
    High (x + BitVec.ofNat 32 i) := by
  unfold High at *
  rw [toNat_add_ofNat hi]
  omega

section

variable {drive : BitVec 8} {disk : Sectors} {bios : Bios} (hb : Delivers drive disk bios)
include hb

theorem diskReadInt13_delivers (count offset segment : BitVec 16) (lba : BitVec 64) (w : World) :
    ∃ calls, diskReadInt13 bios drive count offset segment (lbalo lba) (lbahi lba) w =
      (0, { w with
            mem := w.mem.fill (Dap.linear ⟨count, offset, segment, lba⟩)
              (512 * count.toNat) (disk.byte 512 lba)
            calls }) := by
  simp only [diskReadInt13, World.int13, lbahi_append_lbalo, hb.reset, readTries, hb.read]
  exact ⟨_, rfl⟩

/-- One read through the buffer: `k` sectors are read, `n` bytes copied. -/
theorem page_spec {k n : Nat} (hk : k ≤ 8) (hkn : 512 * k ≤ n) (hn : n < 2 ^ 32) {ptr : Word} (hhigh : High ptr)
    (hend : ptr.toNat + 512 * k < 2 ^ 32) (lba : BitVec 64) (w : World) :
    ∃ w' w'', diskReadInt13 bios drive (BitVec.ofNat 16 k) (buffer.setWidth 16) 0 (lbalo lba)
        (lbahi lba) w = (0, w') ∧
      memcpy ptr buffer (BitVec.ofNat 32 n) w' = (ptr, w'') ∧
      w''.mem.Holds ptr (512 * k) (disk.byte 512 lba) ∧ w''.state = w.state ∧
      ∀ x, ¬ InRange ptr n x → ¬ InRange buffer 4096 x → w''.mem x = w.mem x := by
  obtain ⟨calls, e⟩ := diskReadInt13_delivers hb (BitVec.ofNat 16 k) (buffer.setWidth 16) 0 lba w
  have hcount : (BitVec.ofNat 16 k).toNat = k := by
    rw [BitVec.toNat_ofNat, Nat.mod_eq_of_lt (by omega)]
  have hlen : (BitVec.ofNat 32 n).toNat = n := by rw [BitVec.toNat_ofNat, Nat.mod_eq_of_lt hn]
  rw [linear_buffer, hcount] at e
  refine ⟨_, _, e, memcpy_of_ne_zero hhigh.ne_zero _ _ _, ?_, rfl, ?_⟩
  · simp only [hlen]
    refine Mem.copy_holds (by omega) hkn (Mem.fill_holds (by omega)) fun i hi => ?_
    -- the bytes copied before byte `i` lie above the buffer, byte `i` of the buffer in it
    intro hx
    obtain ⟨j, hj, he⟩ := hx.exists_add
    apply (hhigh.add (i := j) (by omega)).not_inRange
    rw [← he, inRange_add (by omega)]
    omega
  · intro x hx hx'
    simp only [hlen]
    rw [Mem.copy_frame hx, Mem.fill_frame fun h => hx' (h.mono (by omega))]

/-- After `n` pages. By induction on the pages left: the later pages leave the first one alone. -/
theorem readPages_spec : ∀ (n : Nat) (ptr : Word) (lba : BitVec 64) (w : World), High ptr →
    ptr.toNat + 4096 * n < 2 ^ 32 →
    ∃ w', readPages bios drive n ptr lba w =
        (ptr + BitVec.ofNat 32 (4096 * n), lba + BitVec.ofNat 64 (4 * n), w') ∧
      (∀ q < n, w'.mem.Holds (ptr + BitVec.ofNat 32 (4096 * q)) 4096
        (disk.byte 512 (lba + BitVec.ofNat 64 (4 * q)))) ∧
      w'.state = w.state ∧
      ∀ x, ¬ InRange ptr (4096 * n) x → ¬ InRange buffer 4096 x →
        w'.mem x = w.mem x := by
  intro n
  induction n with
  | zero =>
    intro ptr lba w _ _
    exact ⟨w, by simp [readPages], fun q hq => absurd hq (Nat.not_lt_zero q), rfl, fun _ _ _ => rfl⟩
  | succ n ih =>
    intro ptr lba w hhigh hend
    have hfirst : ptr.toNat + 4096 < 2 ^ 32 :=
      Nat.lt_of_le_of_lt (Nat.add_le_add_left (Nat.le_mul_of_pos_right _ n.succ_pos) _) hend
    obtain ⟨w₁, w₂, e1, e2, hpage, hst, hfr⟩ := page_spec hb (n := 4096) (Nat.le_refl 8)
      (by decide) (by decide) hhigh hfirst lba w
    have hnext : (ptr + BitVec.ofNat 32 4096).toNat = ptr.toNat + 4096 :=
      toNat_add_ofNat hfirst
    obtain ⟨w', e, hpages, hst', hfr'⟩ := ih (ptr + BitVec.ofNat 32 4096)
      (lba + BitVec.ofNat 64 4) w₂ (hhigh.add hfirst) (by omega)
    refine ⟨w', ?_, ?_, hst'.trans hst, ?_⟩
    · have hlba : (4 : BitVec 64) = BitVec.ofNat 64 4 := rfl
      simp only [readPages, bufferPgSize_eq, bufferSize_eq, e1, e2, hlba, e, add_add_ofNat, Nat.mul_succ, Nat.add_comm]
    · intro q hq
      cases q with
      | zero =>
        refine Mem.Holds.congr (by simpa using hpage) fun i hi => ?_
        simp only [Nat.mul_zero, BitVec.add_zero]
        apply hfr'
        · exact not_inRange_of_lt hi (by omega)
        · exact (hhigh.add (by omega)).not_inRange
      | succ q =>
        have := hpages q (by omega)
        rwa [add_add_ofNat, add_add_ofNat, Nat.add_comm, ← Nat.mul_succ, Nat.add_comm 4,
          ← Nat.mul_succ] at this
    · intro x hx hx'
      rw [hfr' x _ hx', hfr x _ hx']
      · exact fun h => hx (h.mono (by omega))
      · intro h
        obtain ⟨j, hj, rfl⟩ := h.exists_add
        rw [add_add_ofNat, inRange_add (by omega)] at hx
        omega

end

theorem holds_sector {disk : Sectors} {m : Mem 32} {ptr : Word} {lba : BitVec 64} {q k s j : Nat}
    (h : m.Holds (ptr + BitVec.ofNat 32 (4096 * q)) (512 * k)
      (disk.byte 512 (lba + BitVec.ofNat 64 (4 * q)))) (hs : s < k) (hj : j < 512) :
    m (ptr + BitVec.ofNat 32 (512 * (8 * q + s) + j)) =
      disk (lba + BitVec.ofNat 64 (4 * q + s)) j := by
  have haddr : 4096 * q + (512 * s + j) = 512 * (8 * q + s) + j := by omega
  have hb := h (512 * s + j) (by omega)
  rw [add_add_ofNat, haddr] at hb
  rw [hb, Sectors.byte_sector hj, add_add_ofNat]

section

variable {ptr : Word} {count : BitVec 16}
  (hend : ptr.toNat + 512 * count.toNat < 2 ^ 32)
include hend

theorem direct_iff : Direct ptr count ↔ ptr.toNat + 512 * count.toNat < 0xFFF0 := by
  simp only [Direct, diskSectorSize_eq]
  bv_omega

variable {drive : BitVec 8} {disk : Sectors} {bios : Bios} (hb : Delivers drive disk bios)
include hb

theorem diskRead_direct (hd : Direct ptr count) (lba : BitVec 64) (w : World) :
    ∃ w', diskRead bios drive ptr count lba w = (0, w') ∧ w'.state = w.state ∧
      ∀ i < count.toNat, ∀ j < 512,
        w'.mem (ptr + BitVec.ofNat 32 (512 * i + j)) =
          disk (lba + BitVec.ofNat 64 i) j := by
  obtain ⟨calls, e⟩ := diskReadInt13_delivers hb count (ptr.setWidth 16) 0 lba w
  have hlin : Dap.linear ⟨count, ptr.setWidth 16, 0, lba⟩ = ptr := by
    rw [direct_iff hend] at hd
    simp only [Dap.linear]
    bv_omega
  rw [hlin] at e
  refine ⟨_, (if_pos hd).trans e, rfl, fun i hi j hj => ?_⟩
  have hbyte := Mem.fill_holds (m := w.mem) (a := ptr) (f := disk.byte 512 lba)
    (n := 512 * count.toNat) (by omega) (512 * i + j) (by omega)
  exact hbyte.trans (Sectors.byte_sector hj)

variable (hdis : ∀ x, InRange ptr (512 * count.toNat) x →
  ¬ InRange buffer 4096 x)
include hdis

omit hb in
/-- The destination of a transfer through the buffer lies above it. -/
theorem high_of_not_direct (hd : ¬ Direct ptr count) : High ptr := by
  rw [direct_iff hend] at hd
  by_cases hhigh : High ptr
  · exact hhigh
  · -- then the destination, which reaches to `0xFFF0` at least, meets the buffer
    exfalso
    have hbuf : buffer.toNat = 0xE000 := rfl
    unfold High at hhigh
    have hx : (BitVec.ofNat 32 (max ptr.toNat 0xE000)).toNat = max ptr.toNat 0xE000 := by
      rw [BitVec.toNat_ofNat, Nat.mod_eq_of_lt (by omega)]
    apply hdis (BitVec.ofNat 32 (max ptr.toNat 0xE000))
    · rw [inRange_iff (by omega)]
      omega
    · rw [inRange_iff (by omega)]
      omega

/-- A transfer through the buffer delivers sector `lba + 4 * (i / 8) + i % 8` as sector `i`. -/
theorem diskRead_slow (hd : ¬ Direct ptr count) (lba : BitVec 64) (w : World) :
    ∃ w', diskRead bios drive ptr count lba w = (0, w') ∧ w'.state = w.state ∧
      ∀ i < count.toNat, ∀ j < 512,
        w'.mem (ptr + BitVec.ofNat 32 (512 * i + j)) =
          disk (lba + BitVec.ofNat 64 (4 * (i / 8) + i % 8)) j := by
  have hhigh := high_of_not_direct hend hdis hd
  obtain ⟨n, hn⟩ : ∃ n, count.toNat / 8 = n := ⟨_, rfl⟩
  obtain ⟨k, hk⟩ : ∃ k, count.toNat % 8 = k := ⟨_, rfl⟩
  obtain ⟨w₁, e1, hpages, hst, -⟩ := readPages_spec hb n ptr lba w hhigh (by omega)
  have hlast : (ptr + BitVec.ofNat 32 (4096 * n)).toNat = ptr.toNat + 4096 * n :=
    toNat_add_ofNat (by omega)
  obtain ⟨w₂, w₃, e2, e3, hpage, hst', hfr⟩ := page_spec hb (n := k * 4096) (k := k) (by omega) (by omega) (by omega)
    (hhigh.add (i := 4096 * n) (by omega)) (by omega)
    (lba + BitVec.ofNat 64 (4 * n)) w₁
  refine ⟨w₃, ?_, hst'.trans hst, fun i hi j hj => ?_⟩
  · simp only [diskRead, if_neg hd, bufferPgSize_eq, bufferSize_eq, hn, hk, e1, e2, e3]
    rfl
  · have hdiv : 8 * (i / 8) + i % 8 = i := Nat.div_add_mod _ _
    by_cases hq : i / 8 < n
    · -- a full page: the last copy starts after it
      have hpq := hpages _ hq
      have := holds_sector (k := 8) (s := i % 8) hpq (by omega) hj
      rw [hdiv] at this
      rw [← this]
      apply hfr
      · exact not_inRange_of_lt (by omega) (by omega)
      · exact (hhigh.add (by omega)).not_inRange
    · have hq' : i / 8 = n := by omega
      have := holds_sector (q := n) (s := i % 8) hpage (by omega) hj
      rwa [← hq', hdiv] at this

/-- `disk_read` returned 0, and the destination holds the sectors asked for. -/
def Delivered (disk : Sectors) (ptr : Word) (count : BitVec 16) (lba : BitVec 64)
    (r : BitVec 8 × World) : Prop :=
  r.1 = 0 ∧ ∀ i < count.toNat, ∀ j < 512,
    r.2.mem (ptr + BitVec.ofNat 32 (512 * i + j)) = disk (lba + BitVec.ofNat 64 i) j

/-- The sectors that the page loop fetches have the contents of those asked for. -/
def SameSectors (disk : Sectors) (count : BitVec 16) (lba : BitVec 64) : Prop :=
  ∀ i < count.toNat, ∀ j < 512,
    disk (lba + BitVec.ofNat 64 (4 * (i / 8) + i % 8)) j = disk (lba + BitVec.ofNat 64 i) j

theorem delivered_iff (lba : BitVec 64) (w : World) :
    Delivered disk ptr count lba (diskRead bios drive ptr count lba w) ↔
      Direct ptr count ∨ SameSectors disk count lba := by
  by_cases hd : Direct ptr count
  · obtain ⟨w', e, -, h⟩ := diskRead_direct hend hb hd lba w
    rw [e]
    exact iff_of_true ⟨rfl, h⟩ (.inl hd)
  · obtain ⟨w', e, -, h⟩ := diskRead_slow hend hb hdis hd lba w
    rw [e]
    constructor
    · intro ⟨_, hw⟩
      exact .inr fun i hi j hj => (h i hi j hj).symm.trans (hw i hi j hj)
    · intro hs
      exact ⟨rfl, fun i hi j hj => (h i hi j hj).trans (hs.resolve_left hd i hi j hj)⟩

end

theorem sameSectors_of_le {count : BitVec 16} (h : count.toNat ≤ 8) (disk : Sectors)
    (lba : BitVec 64) : SameSectors disk count lba := by
  intro i hi j _
  have : 4 * (i / 8) + i % 8 = i := by omega
  rw [this]

/-- Beyond one page there is always a disk on which the two differ. -/
theorem exists_not_sameSectors {count : BitVec 16} (h : 8 < count.toNat) (lba : BitVec 64) :
    ∃ disk, ¬ SameSectors disk count lba := by
  refine ⟨fun s _ => if s = lba + 8 then 1 else 0, fun hs => ?_⟩
  have h8 : (if lba + 4 = lba + 8 then 1 else 0 : BitVec 8) = if lba + 8 = lba + 8 then 1 else 0 :=
    hs 8 h 0 (by decide)
  have hne : lba + 4 ≠ lba + 8 := by bv_omega
  rw [if_neg hne, if_pos rfl] at h8
  exact absurd h8 (by decide)

/-- On a given disk a transfer delivers what was asked for exactly when it is direct or the page
loop happens to fetch equal sectors; on every disk, exactly when it is direct or fits in a page. -/
theorem diskRead_delivers_iff {ptr : Word} {count : BitVec 16}
    (hend : ptr.toNat + 512 * count.toNat < 2 ^ 32)
    (hdis : ∀ x, InRange ptr (512 * count.toNat) x → ¬ InRange buffer bufferSize x)
    (drive : BitVec 8) (lba : BitVec 64) (w : World) :
    (∀ disk bios, Delivers drive disk bios →
      (Delivered disk ptr count lba (diskRead bios drive ptr count lba w) ↔
        Direct ptr count ∨ SameSectors disk count lba)) ∧
    ((∀ disk bios, Delivers drive disk bios →
        Delivered disk ptr count lba (diskRead bios drive ptr count lba w)) ↔
      Direct ptr count ∨ count.toNat ≤ 8) := by
  refine ⟨fun disk bios hb => delivered_iff hend hb hdis lba w, ?_, ?_⟩
  · intro hall
    by_cases hc : count.toNat ≤ 8
    · exact .inr hc
    · obtain ⟨disk, hs⟩ := exists_not_sameSectors (Nat.lt_of_not_le hc) lba
      have hb := idealBios_delivers drive disk
      exact .inl (((delivered_iff hend hb hdis lba w).mp (hall disk _ hb)).resolve_right hs)
  · intro hor disk bios hb
    exact (delivered_iff hend hb hdis lba w).mpr
      (hor.imp_right fun h => sameSectors_of_le h disk lba)

/-- The world after `alloc_init`, on zeroed memory. -/
def World.init : World := ⟨⟨allocInit 0x00100000 0x000FFFFF, .no⟩, fun _ => 0, [], []⟩

theorem clear_of_buffer {n : Nat} (hn : n < 2 ^ 31) {x : Word} (h : InRange 0x00100000 n x) :
    ¬ InRange buffer bufferSize x := by
  have h0 : (0x00100000 : Word).toNat = 0x00100000 := rfl
  rw [inRange_iff (by omega)] at h
  exact High.not_inRange (show 0xF000 ≤ x.toNat by omega)

theorem diskRead_delivers_eight_sectors :
    (∀ disk bios, Delivers 0 disk bios → Delivered disk 0x00100000 8 0
      (diskRead bios 0 0x00100000 8 0 World.init)) ↔ Direct 0x00100000 8 ∨ (8 : BitVec 16).toNat ≤ 8 :=
  (diskRead_delivers_iff (by decide) (fun _ => clear_of_buffer (by decide)) 0 0 World.init).2

/-- Nine sectors, each filled with its number: the ninth one read is sector 4. -/
theorem diskRead_ninth_sector_wrong :
    Delivers 0 (fun s _ => s.setWidth 8) (idealBios fun s _ => s.setWidth 8) ∧
      (0x00100000 : Word).toNat + 512 * (9 : BitVec 16).toNat < 2 ^ 32 ∧
      (∀ x, InRange 0x00100000 (512 * (9 : BitVec 16).toNat) x → ¬ InRange buffer bufferSize x) ∧
      ¬ Delivered (fun s _ => s.setWidth 8) 0x00100000 9 0
        (diskRead (idealBios fun s _ => s.setWidth 8) 0 0x00100000 9 0 World.init) := by
  have hb := idealBios_delivers 0 fun s _ => s.setWidth 8
  have hend : (0x00100000 : Word).toNat + 512 * (9 : BitVec 16).toNat < 2 ^ 32 := by decide
  have hdis : ∀ x, InRange 0x00100000 (512 * (9 : BitVec 16).toNat) x →
      ¬ InRange buffer bufferSize x := fun _ => clear_of_buffer (by decide)
  refine ⟨hb, hend, hdis, fun h => ?_⟩
  cases (delivered_iff hend hb hdis 0 World.init).mp h with
  | inl hd => exact absurd hd (by decide)
  | inr hs => exact absurd (hs 8 (by decide) 0 (by decide)) (by decide)

end Installer
end Amethyst
