import Amethyst.Installer.Disk

/-!
# Amethyst.Installer.DiskFrame

The bytes that `disk_read` writes, over a BIOS whose reads stay inside the sectors they were asked
for. The page loop copies whole pages; the copy after it takes `__BUFFER_SIZE` bytes for each sector
that is left, eight times too many. A direct transfer whose end wraps goes to another address, and a
page at address 0 goes to a block that `memcpy` allocates.

`diskRead_writesOnly_iff`: nothing else but the destination and the buffer is written exactly when
the transfer ends below `0xFFF0` without wrapping, or goes through the buffer in whole pages none of
which is at address 0.
-/

namespace Amethyst
namespace Installer

/-- An `int 0x13` changes no memory but the target of the sectors it was asked for. -/
structure Confined (bios : Bios) : Prop where
  reset : ∀ calls drive m, (bios calls (.reset drive) m).mem = m
  read : ∀ calls drive dap m x, ¬ InRange dap.linear (512 * dap.count.toNat) x →
    (bios calls (.extendedRead drive dap) m).mem x = m x

/-- `disk_read` leaves every byte alone that is neither one of `count` sectors from `ptr` on nor one
of the buffer. -/
def WritesOnly (drive : BitVec 8) (ptr : Word) (count : BitVec 16) (lba : BitVec 64) : Prop :=
  ∀ bios, Confined bios → ∀ w x, ¬ InRange ptr (512 * count.toNat) x →
    ¬ InRange buffer bufferSize x → (diskRead bios drive ptr count lba w).2.mem x = w.mem x

theorem idealBios_confined (disk : Sectors) : Confined (idealBios disk) where
  reset _ _ _ := rfl
  read _ _ _ _ _ hx := Mem.fill_frame hx

/-! ## What is left alone -/

theorem memcpy_frame {dest x : Word} (hne : dest ≠ 0) {n : Nat} (hn : n < 2 ^ 32)
    (hx : ¬ InRange dest n x) (src : Word) (w : World) :
    (memcpy dest src (BitVec.ofNat 32 n) w).2.mem x = w.mem x := by
  rw [memcpy_of_ne_zero hne]
  simp only [BitVec.toNat_ofNat, Nat.mod_eq_of_lt hn]
  exact Mem.copy_frame hx

section

variable {bios : Bios} (hc : Confined bios) {x : Word}
include hc

theorem readTries_frame (drive : BitVec 8) {dap : Dap}
    (hx : ¬ InRange dap.linear (512 * dap.count.toNat) x) (tries : Nat) (w : World) :
    (readTries bios drive dap tries w).2.mem x = w.mem x := by
  induction tries generalizing w with
  | zero => rfl
  | succ tries ih =>
    have hread : (w.int13 bios (.extendedRead drive dap)).2.mem x = w.mem x :=
      hc.read w.calls drive dap w.mem x hx
    simp only [readTries]
    split
    · rename_i w' h
      rwa [h] at hread
    · rename_i w' h
      rw [h] at hread
      exact (ih w').trans hread

theorem diskReadInt13_frame (drive : BitVec 8) {count offset segment : BitVec 16} {lba : BitVec 64}
    (hx : ¬ InRange (Dap.linear ⟨count, offset, segment, lba⟩) (512 * count.toNat) x) (w : World) :
    (diskReadInt13 bios drive count offset segment (lbalo lba) (lbahi lba) w).2.mem x = w.mem x := by
  have hreset : (w.int13 bios (.reset drive)).2.mem = w.mem := hc.reset w.calls drive w.mem
  simp only [diskReadInt13, lbahi_append_lbalo]
  split
  · rename_i w' h
    rw [h] at hreset
    rw [hreset]
  · rename_i w' h
    rw [h] at hreset
    rw [readTries_frame hc drive hx, hreset]

/-- A read of at most a page into the buffer leaves the rest of it alone. -/
theorem bufferRead_rest (drive : BitVec 8) {k : Nat} (hk : k ≤ 8) (lba : BitVec 64)
    (hx : ¬ InRange buffer (512 * k) x) (w : World) :
    (diskReadInt13 bios drive (BitVec.ofNat 16 k) (buffer.setWidth 16) 0 (lbalo lba) (lbahi lba)
      w).2.mem x = w.mem x := by
  have hcount : (BitVec.ofNat 16 k).toNat = k := by
    rw [BitVec.toNat_ofNat, Nat.mod_eq_of_lt (by omega)]
  apply diskReadInt13_frame hc
  rwa [linear_buffer, hcount]

theorem bufferRead_frame (drive : BitVec 8) {k : Nat} (hk : k ≤ 8) (lba : BitVec 64)
    (hx : ¬ InRange buffer bufferSize x) (w : World) :
    (diskReadInt13 bios drive (BitVec.ofNat 16 k) (buffer.setWidth 16) 0 (lbalo lba) (lbahi lba)
      w).2.mem x = w.mem x :=
  bufferRead_rest hc drive hk lba (fun h => hx (h.mono (by rw [bufferSize_eq]; omega))) w

/-- By induction on the pages: the first one is the part of the destination that the later ones do
not touch. -/
theorem readPages_frame (drive : BitVec 8) (hbuf : ¬ InRange buffer bufferSize x) :
    ∀ (n : Nat) (ptr : Word) (lba : BitVec 64) (w : World), 4096 * n ≤ 2 ^ 32 →
      (∀ i < n, ptr + BitVec.ofNat 32 (4096 * i) ≠ 0) → ¬ InRange ptr (4096 * n) x →
      (readPages bios drive n ptr lba w).2.2.mem x = w.mem x := by
  intro n
  induction n with
  | zero => exact fun _ _ _ _ _ _ => rfl
  | succ n ih =>
    intro ptr lba w hn hne hx
    have hptr : ptr ≠ 0 := by simpa using hne 0 (Nat.succ_pos n)
    have hfirst : ¬ InRange ptr bufferSize x := fun h => hx (h.mono (by rw [bufferSize_eq]; omega))
    rw [readPages, ih, memcpy_frame hptr (by decide) hfirst]
    · exact bufferRead_frame hc drive (Nat.le_refl 8) lba hbuf w
    · omega
    · intro i hi
      have := hne (i + 1) (by omega)
      rwa [bufferSize_eq, add_add_ofNat, Nat.add_comm, ← Nat.mul_succ]
    · intro h
      obtain ⟨j, hj, rfl⟩ := h.exists_add
      rw [bufferSize_eq, add_add_ofNat, inRange_add (by omega)] at hx
      omega

end

/-! ## What is overwritten -/

theorem readPages_ptr (bios : Bios) (drive : BitVec 8) : ∀ (n : Nat) (ptr : Word) (lba : BitVec 64)
    (w : World), (readPages bios drive n ptr lba w).1 = ptr + BitVec.ofNat 32 (4096 * n) := by
  intro n
  induction n with
  | zero => exact fun ptr _ _ => (BitVec.add_zero ptr).symm
  | succ n ih =>
    intro ptr lba w
    simp only [readPages]
    rw [ih, bufferSize_eq, add_add_ofNat, Nat.mul_succ, Nat.add_comm]

/-- A direct transfer that does not wrap: the target of the read is the destination. -/
theorem linear_of_lt {ptr : Word} {count : BitVec 16} (h : ptr.toNat + 512 * count.toNat < 0xFFF0)
    (lba : BitVec 64) : Dap.linear ⟨count, ptr.setWidth 16, 0, lba⟩ = ptr := by
  simp only [Dap.linear]
  bv_omega

/-- The bytes of all the copies of a transfer: a page for each eight sectors, and `__BUFFER_SIZE`
bytes for each sector that is left. -/
def copied (count : BitVec 16) : Nat :=
  bufferSize * (count.toNat / bufferPgSize + count.toNat % bufferPgSize)

theorem diskRead_frame {bios : Bios} (hc : Confined bios) {x ptr : Word} {count : BitVec 16}
    (hne : ptr ≠ 0) (hend : ptr.toNat + copied count < 2 ^ 32) (hx : ¬ InRange ptr (copied count) x)
    (hbuf : ¬ InRange buffer bufferSize x) (drive : BitVec 8) (lba : BitVec 64) (w : World) :
    (diskRead bios drive ptr count lba w).2.mem x = w.mem x := by
  have hpos : 0 < ptr.toNat := Nat.pos_of_ne_zero fun h => hne (BitVec.eq_of_toNat_eq h)
  simp only [copied, bufferSize_eq, bufferPgSize_eq] at hend hx
  obtain ⟨n, hn⟩ : ∃ n, count.toNat / 8 = n := ⟨_, rfl⟩
  obtain ⟨k, hk⟩ : ∃ k, count.toNat % 8 = k := ⟨_, rfl⟩
  rw [hn, hk] at hend hx
  by_cases hd : Direct ptr count
  · have hlt : ptr.toNat + 512 * count.toNat < 0xFFF0 := (direct_iff (by omega)).mp hd
    rw [diskRead, if_pos hd]
    refine diskReadInt13_frame hc drive ?_ w
    rw [linear_of_lt hlt]
    exact fun h => hx (h.mono (by omega))
  · -- no page is at address 0
    have hpage : ∀ i ≤ n, ptr + BitVec.ofNat 32 (4096 * i) ≠ 0 := by
      intro i hi h0
      have := congrArg BitVec.toNat h0
      rw [toNat_add_ofNat (by omega)] at this
      exact absurd this (by simp; omega)
    have hpages := readPages_frame hc drive hbuf n ptr lba w (by omega)
      (fun i hi => hpage i (Nat.le_of_lt hi)) fun h => hx (h.mono (by omega))
    have hptr := readPages_ptr bios drive n ptr lba w
    obtain ⟨⟨p, l, w₁⟩, e⟩ : ∃ r, readPages bios drive n ptr lba w = r := ⟨_, rfl⟩
    rw [e] at hpages hptr
    have hread := bufferRead_frame hc drive (k := k) (by omega) l hbuf w₁
    simp only [diskRead, if_neg hd, bufferPgSize_eq, hn, hk, e, bufferSize_eq]
    split
    · exact hread.trans hpages
    · rw [show p = _ from hptr, memcpy_frame (hpage n (Nat.le_refl n)) (by omega), hread, hpages]
      intro h
      obtain ⟨j, hj, rfl⟩ := h.exists_add
      rw [add_add_ofNat, inRange_add (by omega)] at hx
      omega

theorem writesOnly_direct {ptr : Word} {count : BitVec 16}
    (h : ptr.toNat + 512 * count.toNat < 0xFFF0) (drive : BitVec 8) (lba : BitVec 64) :
    WritesOnly drive ptr count lba := by
  intro bios hc w x hx _
  have hd : Direct ptr count := (direct_iff (by omega)).mpr h
  rw [diskRead, if_pos hd]
  apply diskReadInt13_frame hc
  rw [linear_of_lt h]
  exact hx

theorem writesOnly_pages {ptr : Word} {count : BitVec 16} (hd : ¬ Direct ptr count)
    (hdvd : 8 ∣ count.toNat) (hne : ∀ i < count.toNat / 8, ptr + BitVec.ofNat 32 (4096 * i) ≠ 0)
    (drive : BitVec 8) (lba : BitVec 64) : WritesOnly drive ptr count lba := by
  intro bios hc w x hx hbuf
  have hlast : count.toNat % bufferPgSize = 0 := Nat.mod_eq_zero_of_dvd hdvd
  have hbytes : 4096 * (count.toNat / bufferPgSize) = 512 * count.toNat := by
    rw [bufferPgSize_eq]
    omega
  have hpages := readPages_frame hc drive hbuf (count.toNat / bufferPgSize) ptr lba w
    (by rw [hbytes]; omega) hne (by rw [hbytes]; exact hx)
  simp only [diskRead, if_neg hd, hlast]
  split
  · exact (bufferRead_frame hc drive (Nat.zero_le 8) _ hbuf _).trans hpages
  · -- nothing is left to copy
    rw [Nat.zero_mul]
    exact (bufferRead_frame hc drive (Nat.zero_le 8) _ hbuf _).trans hpages

/-- The bytes of `p` are zero. -/
def Blank (p : Word → Prop) (m : Mem 32) : Prop := ∀ x, p x → m x = 0

theorem Blank.copy {p : Word → Prop} {dst src : Word} {n : Nat} {m : Mem 32} (h : Blank p m)
    (hsrc : ∀ i < n, p (src + BitVec.ofNat 32 i)) : Blank p (Mem.copy dst src n m) := by
  induction n with
  | zero => exact h
  | succ n ih =>
    have hn := ih fun i hi => hsrc i (by omega)
    intro x hx
    rw [Mem.copy]
    by_cases hd : x = dst + BitVec.ofNat 32 n
    · rw [hd, Function.update_self]
      exact hn _ (hsrc n (Nat.lt_succ_self n))
    · rw [Function.update_of_ne hd]
      exact hn x hx

/-- A BIOS over a disk of zeros: the bytes that are read are zeros. -/
theorem zeroRead_blank {p : Word → Prop} (drive : BitVec 8) (count offset segment : BitVec 16)
    (lba : BitVec 64) {w : World} (h : Blank p w.mem) :
    ∃ w', diskReadInt13 (idealBios fun _ _ => 0) drive count offset segment (lbalo lba) (lbahi lba)
      w = (0, w') ∧ Blank p w'.mem ∧ w'.state = w.state := by
  obtain ⟨calls, e⟩ := diskReadInt13_delivers (idealBios_delivers drive fun _ _ => 0) count offset
    segment lba w
  refine ⟨_, e, fun x hx => ?_, rfl⟩
  simp only [Mem.fill]
  split
  · rfl
  · exact h x hx

theorem memcpy_null {a src : Word} {n : Nat} {w : World}
    (ha : (malloc w.state (BitVec.ofNat 32 n)).1 = a) (hn : 0 < (BitVec.ofNat 32 n).toNat) :
    (memcpy 0 src (BitVec.ofNat 32 n) w).2.mem a = w.mem src := by
  have h := @Mem.copy_get 32 w.mem a src (BitVec.ofNat 32 n).toNat 0 (Nat.le_of_lt (BitVec.isLt _))
    hn fun hlt => absurd hlt (Nat.not_lt_zero _)
  rw [BitVec.add_zero, BitVec.add_zero] at h
  simpa only [memcpy, if_true, ha] using h

section

variable {p : Word → Prop} (hp : ∀ x, InRange buffer bufferSize x → p x)
include hp

theorem page_blank (dest : Word) {w : World} (h : Blank p w.mem) :
    Blank p (memcpy dest buffer (BitVec.ofNat 32 bufferSize) w).2.mem := by
  have hlen : (BitVec.ofNat 32 bufferSize).toNat = bufferSize := by decide
  simp only [memcpy, hlen]
  exact h.copy fun i hi => hp _ ((inRange_add (Nat.lt_trans hi (by decide))).mpr hi)

theorem readPages_blank (drive : BitVec 8) : ∀ (n : Nat) (ptr : Word) (lba : BitVec 64) (w : World),
    Blank p w.mem → Blank p (readPages (idealBios fun _ _ => 0) drive n ptr lba w).2.2.mem := by
  intro n
  induction n with
  | zero => exact fun _ _ _ h => h
  | succ n ih =>
    intro ptr lba w h
    obtain ⟨w', e, h', -⟩ := zeroRead_blank drive (BitVec.ofNat 16 bufferPgSize)
      (buffer.setWidth 16) 0 lba h
    simp only [readPages, e]
    exact ih _ _ _ (page_blank hp ptr h')

/-- A page at address 0 goes to the block `a` that `malloc` gives: its first byte is overwritten. -/
theorem readPages_null {a : Word} (hother : ∀ x, x ≠ a → p x) {s : State}
    (ha : (malloc s (BitVec.ofNat 32 bufferSize)).1 = a) (drive : BitVec 8) :
    ∀ (n : Nat) (ptr : Word) (lba : BitVec 64) (w : World), w.state = s → Blank p w.mem →
      (∃ i < n, ptr + BitVec.ofNat 32 (4096 * i) = 0) →
      (readPages (idealBios fun _ _ => 0) drive n ptr lba w).2.2.mem a = 0 := by
  intro n
  induction n with
  | zero =>
    intro _ _ _ _ _ hex
    obtain ⟨i, hi, -⟩ := hex
    exact absurd hi (Nat.not_lt_zero i)
  | succ n ih =>
    intro ptr lba w hs h hex
    obtain ⟨w', e, h', hs'⟩ := zeroRead_blank drive (BitVec.ofNat 16 bufferPgSize)
      (buffer.setWidth 16) 0 lba h
    simp only [readPages, e]
    by_cases hptr : ptr = 0
    · subst hptr
      rw [← hs, ← hs'] at ha
      have hzero : Blank (fun _ => True) (memcpy 0 buffer (BitVec.ofNat 32 bufferSize) w').2.mem := by
        intro x _
        by_cases hx : x = a
        · rw [hx, memcpy_null ha (by decide)]
          exact h' buffer (hp buffer (by decide))
        · exact page_blank hp 0 h' x (hother x hx)
      exact readPages_blank (fun _ _ => trivial) drive n _ _ _ hzero a trivial
    · rw [memcpy_of_ne_zero hptr]
      refine ih _ _ _ (hs'.trans hs) ?_ ?_
      · have := page_blank hp ptr h'
        rwa [memcpy_of_ne_zero hptr] at this
      · obtain ⟨i, hi, he⟩ := hex
        cases i with
        | zero => exact absurd (by simpa using he) hptr
        | succ i =>
          refine ⟨i, by omega, ?_⟩
          rwa [bufferSize_eq, add_add_ofNat, Nat.add_comm, ← Nat.mul_succ]

end

/-- One byte is set, and the heap has one free block, far from the destination of any transfer. -/
def farWorld (a : Word) : World where
  state := ⟨allocInit 0x80000000 0x1000, .no⟩
  mem x := if x = a then 1 else 0
  calls := []
  reads := []

theorem farWorld_blank (a : Word) : Blank (· ≠ a) (farWorld a).mem := fun _ hx => if_neg hx

/-- The first block of a fresh heap is where the heap starts. -/
theorem malloc_allocInit {start cap size : Word} {err : Err} (hs : size ≠ 0) (hle : size ≤ cap) :
    (malloc ⟨allocInit start cap, err⟩ size).1 = start := by
  obtain ⟨r, h', e⟩ : ∃ r h', (allocInit start cap).malloc size = (r, h') := ⟨_, _, rfl⟩
  rw [(malloc_heap _ _).1]
  simp only [e]
  have hpos : 0 < (List.replicate chunkQty Chunk.empty).length := by
    rw [List.length_replicate]
    exact chunkQty_pos
  rcases Heap.malloc_cases e with ⟨-, h0, -⟩ | ⟨-, -, hno, -⟩ | ⟨-, i, c, p, c', hc, hcut, h3⟩
  · exact absurd h0 hs
  · exact absurd hle (hno _ (List.mem_set hpos _))
  · obtain ⟨hfit, rfl⟩ := Chunk.cut_fits hcut
    cases h3 with
    | inl h3 => exact absurd rfl (h3.2.1 Chunk.empty (List.mem_replicate.mpr ⟨by decide, rfl⟩))
    | inr h3 =>
      rw [h3.1]
      -- the only entry with bytes is the first one
      cases i with
      | zero =>
        rw [allocInit, List.getElem?_set_self hpos] at hc
        cases hc
        rfl
      | succ i =>
        rw [allocInit, List.getElem?_set_ne (by omega)] at hc
        have := List.eq_of_mem_replicate (List.mem_of_getElem? hc)
        subst this
        have hfit' : size ≤ 0 := hfit
        exact absurd (by bv_omega) hs

theorem farWorld_malloc (a : Word) :
    (malloc (farWorld a).state (BitVec.ofNat 32 bufferSize)).1 = 0x80000000 :=
  malloc_allocInit (by decide) (by decide)

/-- The byte that is set shows a write. -/
theorem not_writesOnly_of_zeroed {drive : BitVec 8} {ptr a : Word} {count : BitVec 16}
    {lba : BitVec 64} (hx : ¬ InRange ptr (512 * count.toNat) a) (hbuf : ¬ InRange buffer bufferSize a)
    (h0 : (diskRead (idealBios fun _ _ => 0) drive ptr count lba (farWorld a)).2.mem a = 0) :
    ¬ WritesOnly drive ptr count lba := by
  intro h
  have h1 := h _ (idealBios_confined fun _ _ => 0) (farWorld a) a hx hbuf
  rw [h0] at h1
  exact absurd h1 (by simp [farWorld])

/-- The last copy writes the byte right after the destination. -/
theorem diskRead_overrun {ptr a : Word} {count : BitVec 16} (hd : ¬ Direct ptr count)
    (hdvd : ¬ 8 ∣ count.toNat) (ha : ptr + BitVec.ofNat 32 (512 * count.toNat) = a)
    (drive : BitVec 8) (lba : BitVec 64) :
    ¬ InRange ptr (512 * count.toNat) a ∧ ¬ InRange buffer bufferSize a ∧
      (diskRead (idealBios fun _ _ => 0) drive ptr count lba (farWorld a)).2.mem a = 0 := by
  have hhigh : 0xFFF0 ≤ a.toNat := by
    rw [← ha]
    simp only [Direct, diskSectorSize_eq] at hd
    bv_omega
  have hbuf : ¬ InRange buffer bufferSize a := High.not_inRange (Nat.le_trans (by decide) hhigh)
  have hx : ¬ InRange ptr (512 * count.toNat) a := by
    rw [← ha, inRange_add (by omega)]
    exact Nat.lt_irrefl _
  refine ⟨hx, hbuf, ?_⟩
  obtain ⟨k, hk⟩ : ∃ k, count.toNat % 8 = k := ⟨_, rfl⟩
  have hp : ∀ x, InRange buffer bufferSize x → x ≠ a := fun x hx he => hbuf (he ▸ hx)
  obtain ⟨ptr', lba', w₁, e⟩ : ∃ ptr' lba' w₁, readPages (idealBios fun _ _ => 0) drive
    (count.toNat / 8) ptr lba (farWorld a) = (ptr', lba', w₁) := ⟨_, _, _, rfl⟩
  have hptr' : ptr' + BitVec.ofNat 32 (512 * k) = a := by
    have := readPages_ptr (idealBios fun _ _ => 0) drive (count.toNat / 8) ptr lba (farWorld a)
    rw [e] at this
    rw [← ha, show ptr' = _ from this, add_add_ofNat]
    congr 2
    omega
  have hblank := readPages_blank hp drive (count.toNat / 8) ptr lba (farWorld a) (farWorld_blank a)
  rw [e] at hblank
  obtain ⟨w₂, e₂, hblank₂, -⟩ := zeroRead_blank drive (BitVec.ofNat 16 k) (buffer.setWidth 16) 0 lba'
    hblank
  have hne : ptr' ≠ 0 := by bv_omega
  have hlen : (BitVec.ofNat 32 (k * bufferSize)).toNat = k * 4096 := by
    rw [bufferSize_eq, BitVec.toNat_ofNat, Nat.mod_eq_of_lt (by omega)]
  simp only [diskRead, if_neg hd, bufferPgSize_eq, e, hk, e₂, memcpy_of_ne_zero hne, hlen]
  have hsrc : buffer + BitVec.ofNat 32 (512 * k) ≠ a := by
    have h0 : buffer.toNat = 0xE000 := rfl
    intro he
    have := congrArg BitVec.toNat he
    rw [toNat_add_ofNat (by omega)] at this
    omega
  have hover : ¬ InRange ptr' (512 * k) (buffer + BitVec.ofNat 32 (512 * k)) := by
    have h0 : buffer.toNat = 0xE000 := rfl
    rw [inRange_iff (by bv_omega), toNat_add_ofNat (by omega)]
    bv_omega
  have hget := Mem.copy_get (m := w₂.mem) (n := k * 4096) (i := 512 * k) (by omega) (by omega) hover
  rw [hptr'] at hget
  exact hget.trans (hblank₂ _ hsrc)

theorem not_writesOnly_null {ptr : Word} {count : BitVec 16} (hd : ¬ Direct ptr count)
    {i : Nat} (hi : i < count.toNat / 8) (h0 : ptr + BitVec.ofNat 32 (4096 * i) = 0)
    (drive : BitVec 8) (lba : BitVec 64) :
    ¬ WritesOnly drive ptr count lba := by
  have hc := count.isLt
  have hp : ∀ x, InRange buffer bufferSize x → x ≠ 0x80000000 := by
    intro x hx he
    subst he
    exact absurd hx (by decide)
  have hx : ¬ InRange ptr (512 * count.toNat) 0x80000000 := by
    intro h
    obtain ⟨j, hj, he⟩ := h.exists_add
    bv_omega
  refine not_writesOnly_of_zeroed hx (by decide) ?_
  obtain ⟨ptr', lba', w₁, e⟩ : ∃ ptr' lba' w₁, readPages (idealBios fun _ _ => 0) drive
    (count.toNat / 8) ptr lba (farWorld 0x80000000) = (ptr', lba', w₁) := ⟨_, _, _, rfl⟩
  have hblank := readPages_blank hp drive (count.toNat / 8) ptr lba _ (farWorld_blank 0x80000000)
  have hnull := readPages_null hp (fun _ hne => hne) (farWorld_malloc 0x80000000) drive
    (count.toNat / 8) ptr lba _ rfl (farWorld_blank 0x80000000) ⟨i, hi, h0⟩
  rw [e] at hblank hnull
  have hzero : Blank (fun _ => True) w₁.mem := by
    intro x _
    by_cases hxa : x = 0x80000000
    · rw [hxa]
      exact hnull
    · exact hblank x hxa
  obtain ⟨w₂, e₂, hzero₂, -⟩ := zeroRead_blank drive (BitVec.ofNat 16 (count.toNat % 8))
    (buffer.setWidth 16) 0 lba' hzero
  simp only [diskRead, if_neg hd, bufferPgSize_eq, e, e₂]
  exact (hzero₂.copy fun _ _ => trivial) _ trivial

theorem not_writesOnly_wrapped {ptr : Word} {count : BitVec 16} (hd : Direct ptr count)
    (hwrap : 0xFFF0 ≤ ptr.toNat + 512 * count.toNat) (drive : BitVec 8) (lba : BitVec 64) :
    ¬ WritesOnly drive ptr count lba := by
  intro h
  have hc := count.isLt
  have hp := ptr.isLt
  have hend : 2 ^ 32 ≤ ptr.toNat + 512 * count.toNat ∧
      ptr.toNat + 512 * count.toNat < 2 ^ 32 + 0xFFF0 := by
    simp only [Direct, diskSectorSize_eq] at hd
    bv_omega
  -- the last byte of the target, which lies above `0xFFFF` and below `ptr`
  obtain ⟨t, ht⟩ : ∃ t, Dap.linear ⟨count, ptr.setWidth 16, 0, lba⟩ = t := ⟨_, rfl⟩
  have htn : t.toNat = ptr.toNat % 2 ^ 16 := by
    rw [← ht]
    simp only [Dap.linear]
    bv_omega
  obtain ⟨a, ha⟩ : ∃ a, t + BitVec.ofNat 32 (512 * count.toNat - 1) = a := ⟨_, rfl⟩
  have han : a.toNat = t.toNat + (512 * count.toNat - 1) := by
    rw [← ha, toNat_add_ofNat (by omega)]
  have hbuf : ¬ InRange buffer bufferSize a := High.not_inRange (show 0xF000 ≤ a.toNat by omega)
  have hx : ¬ InRange ptr (512 * count.toNat) a := by
    intro hin
    obtain ⟨j, hj, he⟩ := hin.exists_add
    have := congrArg BitVec.toNat he
    rw [BitVec.toNat_add, BitVec.toNat_ofNat] at this
    omega
  have hlo := h _ (idealBios_confined fun _ _ => 1) { World.init with mem := fun _ => 0 } a hx hbuf
  obtain ⟨calls, e⟩ := diskReadInt13_delivers (idealBios_delivers drive fun _ _ => 1) count
    (ptr.setWidth 16) 0 lba { World.init with mem := fun _ => 0 }
  have hin : InRange t (512 * count.toNat) a := by
    rw [← ha, inRange_add (by omega)]
    omega
  rw [diskRead, if_pos hd, e, ht] at hlo
  simp only [Mem.fill, if_pos hin] at hlo
  exact absurd (show (1 : BitVec 8) = 0 from hlo) (by decide)

/-- `disk_read` writes nothing but its destination and the buffer, whatever a confined BIOS does and
whatever the state, exactly when it transfers directly to an address range that does not wrap, or
in whole pages through the buffer with no page at address 0. -/
theorem diskRead_writesOnly_iff (drive : BitVec 8) (ptr : Word) (count : BitVec 16)
    (lba : BitVec 64) :
    WritesOnly drive ptr count lba ↔
      ptr.toNat + 512 * count.toNat < 0xFFF0 ∨
        ¬ Direct ptr count ∧ 8 ∣ count.toNat ∧
          ∀ i < count.toNat / 8, ptr + BitVec.ofNat 32 (4096 * i) ≠ 0 := by
  constructor
  · intro h
    by_cases hd : Direct ptr count
    · by_cases hlt : ptr.toNat + 512 * count.toNat < 0xFFF0
      · exact .inl hlt
      · exact absurd h (not_writesOnly_wrapped hd (Nat.le_of_not_lt hlt) drive lba)
    · right
      by_cases hdvd : 8 ∣ count.toNat
      · exact ⟨hd, hdvd, fun i hi h0 => not_writesOnly_null hd hi h0 drive lba h⟩
      · obtain ⟨hx, hbuf, h0⟩ := diskRead_overrun hd hdvd rfl drive lba
        exact absurd h (not_writesOnly_of_zeroed hx hbuf h0)
  · intro h
    cases h with
    | inl hlt => exact writesOnly_direct hlt drive lba
    | inr h => exact writesOnly_pages h.1 h.2.1 h.2.2 drive lba

/-- Reading one sector to the start of the heap zeroes the byte after it. -/
theorem diskRead_overruns_sector :
    Confined (idealBios fun _ _ => 0) ∧
      (¬ InRange (0x00100000 : Word) (512 * (1 : BitVec 16).toNat) 0x00100200 ∧
        ¬ InRange buffer bufferSize 0x00100200) ∧
      (farWorld 0x00100200).mem 0x00100200 = 1 ∧
      (diskRead (idealBios fun _ _ => 0) 0 0x00100000 1 0 (farWorld 0x00100200)).2.mem 0x00100200 =
        0 ∧ ¬ WritesOnly 0 0x00100000 1 0 := by
  obtain ⟨hx, hbuf, h0⟩ := @diskRead_overrun 0x00100000 0x00100200 1 (by decide) (by decide)
    (by decide) 0 0
  exact ⟨idealBios_confined _, ⟨hx, hbuf⟩, rfl, h0, not_writesOnly_of_zeroed hx hbuf h0⟩

end Installer
end Amethyst
