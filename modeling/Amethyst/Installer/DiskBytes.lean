import Amethyst.Installer.DiskFrame
import Amethyst.Installer.DiskStatus

/-!
# Amethyst.Installer.DiskBytes

Where each byte of the destination of a `disk_read` comes from, over a BIOS whose reads may fail
(`Truthful`). `landed` says so for a transfer through the buffer, and `diskRead_landed` that it is what
a transfer which reports success leaves there.
-/

namespace Amethyst
namespace Installer

/-- A BIOS over these disks, one for each drive number. A read that leaves the carry flag clear has
copied exactly the sectors it was asked for; any other may have written some of them. -/
structure Truthful (content : BitVec 8 → Sectors) (bios : Bios) : Prop extends Confined bios where
  read_ok : ∀ calls drive dap m, (bios calls (.extendedRead drive dap) m).carry = false →
    (bios calls (.extendedRead drive dap) m).mem =
      m.fill dap.linear (512 * dap.count.toNat) ((content drive).byte 512 dap.lba)

theorem idealBios_truthful (disk : Sectors) : Truthful (fun _ => disk) (idealBios disk) where
  toConfined := idealBios_confined disk
  read_ok _ _ _ _ _ := rfl

/-- The read of page `q` of the loop: its status, and the world after it. -/
def pageRead (bios : Bios) (drive : BitVec 8) (ptr : Word) (lba : BitVec 64) (w : World) (q : Nat) :
    BitVec 8 × World :=
  let (_, lba, w) := readPages bios drive q ptr lba w
  diskReadInt13 bios drive (BitVec.ofNat 16 bufferPgSize) (buffer.setWidth 16) 0 (lbalo lba) (lbahi lba) w

/-- What byte `i` of the destination gets. The pages come from sectors four apart, and one that could
not be read is what the buffer then held. Behind its sectors the last copy goes on through the buffer
and the memory above it. -/
def landed (content : BitVec 8 → Sectors) (bios : Bios) (drive : BitVec 8) (ptr : Word)
    (count : BitVec 16) (lba : BitVec 64) (w : World) (i : Nat) : BitVec 8 :=
  let pages := count.toNat / bufferPgSize
  let last := count.toNat % bufferPgSize
  if i < bufferSize * pages then
    let (status, w') := pageRead bios drive ptr lba w (i / bufferSize)
    if status = 0 then
      (content drive).byte 512 (lba + BitVec.ofNat 64 (4 * (i / bufferSize))) (i % bufferSize)
    else w'.mem (buffer + BitVec.ofNat 32 (i % bufferSize))
  else if i < bufferSize * pages + 512 * last then
    (content drive).byte 512 (lba + BitVec.ofNat 64 (4 * pages)) (i - bufferSize * pages)
  else if i < bufferSize * (pages + last) then
    (readPages bios drive pages ptr lba w).2.2.mem (buffer + BitVec.ofNat 32 (i - bufferSize * pages))
  else w.mem (ptr + BitVec.ofNat 32 i)

theorem readPages_snoc (bios : Bios) (drive : BitVec 8) : ∀ (n : Nat) (ptr : Word) (lba : BitVec 64)
    (w : World), (readPages bios drive (n + 1) ptr lba w).2.2 =
      (memcpy (ptr + BitVec.ofNat 32 (4096 * n)) buffer (BitVec.ofNat 32 bufferSize)
        (pageRead bios drive ptr lba w n).2).2 := by
  intro n
  induction n with
  | zero =>
    intro ptr lba w
    simp [readPages, pageRead]
  | succ n ih =>
    intro ptr lba w
    simp only [readPages, pageRead] at ih ⊢
    rw [ih, bufferSize_eq, add_add_ofNat, Nat.mul_succ, Nat.add_comm (4096 * n)]

/-- A transfer through the buffer that reports success: the pages, the read of the last sectors, and the
copy of these. -/
theorem diskRead_buffered {bios : Bios} {drive : BitVec 8} {ptr : Word} {count : BitVec 16} {lba : BitVec 64}
    {w : World} {n k : Nat} (hn : count.toNat / bufferPgSize = n) (hk : count.toNat % bufferPgSize = k)
    (hd : ¬ Direct ptr count) (hne : ptr + BitVec.ofNat 32 (4096 * n) ≠ 0)
    (hok : (diskRead bios drive ptr count lba w).1 = 0) :
    ∃ w', diskReadInt13 bios drive (BitVec.ofNat 16 k) (buffer.setWidth 16) 0
        (lbalo (lba + BitVec.ofNat 64 (4 * n))) (lbahi (lba + BitVec.ofNat 64 (4 * n)))
        (readPages bios drive n ptr lba w).2.2 = (0, w') ∧
      (diskRead bios drive ptr count lba w).2.mem =
        Mem.copy (ptr + BitVec.ofNat 32 (4096 * n)) buffer (4096 * k) w'.mem := by
  have hlen : (BitVec.ofNat 32 (k * bufferSize)).toNat = 4096 * k := by
    have hk8 : k < 8 := hk ▸ Nat.mod_lt _ (by decide)
    rw [bufferSize_eq, BitVec.toNat_ofNat, Nat.mod_eq_of_lt (by omega), Nat.mul_comm]
  have hlba := readPages_lba bios drive n ptr lba w
  have hptr := readPages_ptr bios drive n ptr lba w
  obtain ⟨p, l, w₁, e⟩ : ∃ p l w₁, readPages bios drive n ptr lba w = (p, l, w₁) := ⟨_, _, _, rfl⟩
  rw [e] at hlba hptr
  obtain rfl : p = ptr + BitVec.ofNat 32 (4096 * n) := hptr
  obtain rfl : l = lba + BitVec.ofNat 64 (4 * n) := hlba
  obtain ⟨status, w₂, e₂⟩ : ∃ status w₂, diskReadInt13 bios drive (BitVec.ofNat 16 k) (buffer.setWidth 16) 0
    (lbalo (lba + BitVec.ofNat 64 (4 * n))) (lbahi (lba + BitVec.ofNat 64 (4 * n))) w₁ = (status, w₂) :=
    ⟨_, _, rfl⟩
  simp only [diskRead, if_neg hd, hn, hk, e, e₂] at hok ⊢
  by_cases hs : status = 0
  · subst hs
    rw [if_neg (by simp), memcpy_of_ne_zero hne, hlen]
    exact ⟨w₂, rfl, rfl⟩
  · rw [if_pos hs] at hok
    exact absurd hok hs

/-- A copy from the buffer to memory above what it reads. -/
theorem copy_buffer_get {p : Word} {n j : Nat} (habove : buffer.toNat + n ≤ p.toNat)
    (hj : j < n) (hend : p.toNat + j < 2 ^ 32) (m : Mem 32) :
    Mem.copy p buffer n m (p + BitVec.ofNat 32 j) = m (buffer + BitVec.ofNat 32 j) := by
  refine Mem.copy_get (by omega) hj fun hin => ?_
  rw [inRange_iff (by omega), toNat_add_ofNat (by omega)] at hin
  omega

/-- The same with the rest of the memory, for a copy to `a` bytes behind `ptr`. -/
theorem copy_buffer_eq {ptr : Word} {a n i : Nat} (habove : buffer.toNat + n ≤ ptr.toNat + a)
    (hend : ptr.toNat + (a + n) < 2 ^ 32) (hi : ptr.toNat + i < 2 ^ 32) (m : Mem 32) :
    Mem.copy (ptr + BitVec.ofNat 32 a) buffer n m (ptr + BitVec.ofNat 32 i) =
      if a ≤ i ∧ i < a + n then m (buffer + BitVec.ofNat 32 (i - a)) else m (ptr + BitVec.ofNat 32 i) := by
  have hdest : (ptr + BitVec.ofNat 32 a).toNat = ptr.toNat + a := toNat_add_ofNat (by omega)
  have haddr : (ptr + BitVec.ofNat 32 i).toNat = ptr.toNat + i := toNat_add_ofNat hi
  split
  · rename_i hin
    obtain ⟨j, rfl⟩ : ∃ j, i = a + j := ⟨i - a, by omega⟩
    rw [Nat.add_sub_cancel_left, ← add_add_ofNat]
    exact copy_buffer_get (by omega) (by omega) (by omega) m
  · rename_i hout
    apply Mem.copy_frame
    rw [inRange_iff (by omega)]
    omega

section

variable {content : BitVec 8 → Sectors} {bios : Bios} (ht : Truthful content bios)
include ht

/-- A call that fails writes none but the bytes that the one that succeeds overwrites. -/
theorem readTries_ok (drive : BitVec 8) (dap : Dap) (tries : Nat) (w : World)
    (h : (readTries bios drive dap tries w).1 = 0) :
    (readTries bios drive dap tries w).2.mem =
      w.mem.fill dap.linear (512 * dap.count.toNat) ((content drive).byte 512 dap.lba) := by
  induction tries generalizing w with
  | zero =>
    have hne : dataSeg ≠ 0 := by decide
    exact absurd h hne
  | succ tries ih =>
    have hok := ht.read_ok w.calls drive dap w.mem
    have hframe := fun x => ht.read w.calls drive dap w.mem x
    cases hc : (bios w.calls (.extendedRead drive dap) w.mem).carry with
    | false =>
      simp only [readTries, World.int13, hc]
      exact hok hc
    | true =>
      simp only [readTries, World.int13, hc] at h ⊢
      rw [ih _ h]
      exact Mem.fill_congr fun x hx => hframe x hx

theorem diskReadInt13_ok {drive : BitVec 8} {count offset segment : BitVec 16} {lba : BitVec 64}
    {w : World} (h : (diskReadInt13 bios drive count offset segment (lbalo lba) (lbahi lba) w).1 = 0) :
    (diskReadInt13 bios drive count offset segment (lbalo lba) (lbahi lba) w).2.mem =
      w.mem.fill (Dap.linear ⟨count, offset, segment, lba⟩) (512 * count.toNat)
        ((content drive).byte 512 lba) := by
  have hreset := ht.reset w.calls drive w.mem
  cases hc : (bios w.calls (.reset drive) w.mem).carry with
  | true =>
    simp only [diskReadInt13, World.int13, hc] at h
    exact absurd h (by decide)
  | false =>
    simp only [diskReadInt13, World.int13, hc, lbahi_append_lbalo] at h ⊢
    rw [readTries_ok ht _ _ _ _ h, hreset]

/-- A read of at most a page into the buffer. -/
theorem bufferRead_ok {drive : BitVec 8} {k : Nat} (hk : k ≤ 8) {lba : BitVec 64} {w : World}
    (h : (diskReadInt13 bios drive (BitVec.ofNat 16 k) (buffer.setWidth 16) 0 (lbalo lba) (lbahi lba)
      w).1 = 0) {j : Nat} (hj : j < 512 * k) :
    (diskReadInt13 bios drive (BitVec.ofNat 16 k) (buffer.setWidth 16) 0 (lbalo lba) (lbahi lba)
      w).2.mem (buffer + BitVec.ofNat 32 j) = (content drive).byte 512 lba j := by
  have hcount : (BitVec.ofNat 16 k).toNat = k := by
    rw [BitVec.toNat_ofNat, Nat.mod_eq_of_lt (by omega)]
  rw [diskReadInt13_ok ht h, linear_buffer, hcount]
  exact Mem.fill_holds (by omega) j hj

/-- The byte that a page holds after the read of it. -/
theorem pageRead_byte (drive : BitVec 8) (ptr : Word) (lba : BitVec 64) (w : World) (q : Nat) {j : Nat}
    (hj : j < 4096) : (pageRead bios drive ptr lba w q).2.mem (buffer + BitVec.ofNat 32 j) =
      if (pageRead bios drive ptr lba w q).1 = 0 then
        (content drive).byte 512 (lba + BitVec.ofNat 64 (4 * q)) j
      else (pageRead bios drive ptr lba w q).2.mem (buffer + BitVec.ofNat 32 j) := by
  split
  · rename_i h
    have hlba := readPages_lba bios drive q ptr lba w
    simp only [pageRead] at h ⊢
    exact (bufferRead_ok ht (Nat.le_refl 8) h (by omega)).trans (by rw [hlba])
  · rfl

/-- After `n` pages. By induction on the pages: the last one leaves those before it alone. -/
theorem readPages_byte (drive : BitVec 8) {ptr : Word} (hhigh : High ptr) (lba : BitVec 64) (w : World) :
    ∀ n, ptr.toNat + 4096 * n < 2 ^ 32 → ∀ q < n, ∀ j < 4096,
      (readPages bios drive n ptr lba w).2.2.mem (ptr + BitVec.ofNat 32 (4096 * q + j)) =
        if (pageRead bios drive ptr lba w q).1 = 0 then
          (content drive).byte 512 (lba + BitVec.ofNat 64 (4 * q)) j
        else (pageRead bios drive ptr lba w q).2.mem (buffer + BitVec.ofNat 32 j) := by
  intro n
  induction n with
  | zero => exact fun _ q hq => absurd hq (Nat.not_lt_zero q)
  | succ n ih =>
    intro hend q hq j hj
    have hpage : (ptr + BitVec.ofNat 32 (4096 * n)).toNat = ptr.toNat + 4096 * n :=
      toNat_add_ofNat (by omega)
    have hdest := hhigh.add (i := 4096 * n) (by omega)
    have hlen : (BitVec.ofNat 32 bufferSize).toNat = 4096 := by decide
    have hbuf : buffer.toNat = 0xE000 := rfl
    rw [readPages_snoc, memcpy_of_ne_zero hdest.ne_zero, hlen]
    dsimp only
    by_cases hqn : q = n
    · subst hqn
      rw [← add_add_ofNat, ← pageRead_byte ht drive ptr lba w q hj]
      have habove : buffer.toNat + 4096 ≤ (ptr + BitVec.ofNat 32 (4096 * q)).toNat := by
        unfold High at hhigh
        omega
      have hend' : (ptr + BitVec.ofNat 32 (4096 * q)).toNat + j < 2 ^ 32 := by omega
      exact copy_buffer_get habove hj hend' _
    · have hx : (ptr + BitVec.ofNat 32 (4096 * q + j)).toNat = ptr.toNat + (4096 * q + j) :=
        toNat_add_ofNat (by omega)
      have hapart : ¬ InRange (ptr + BitVec.ofNat 32 (4096 * n)) 4096
          (ptr + BitVec.ofNat 32 (4096 * q + j)) := by
        rw [inRange_iff (by omega)]
        omega
      have hnot : ¬ InRange buffer bufferSize (ptr + BitVec.ofNat 32 (4096 * q + j)) :=
        (hhigh.add (by omega)).not_inRange
      rw [← ih (by omega) q (by omega) j hj]
      refine (Mem.copy_frame (n := 4096) hapart).trans ?_
      simp only [pageRead]
      exact bufferRead_frame ht.toConfined drive (Nat.le_refl 8) _ hnot _

/-- The bytes of a destination above the buffer and the memory that the last copy may read. -/
theorem diskRead_landed {drive : BitVec 8} {ptr : Word} {count : BitVec 16} {lba : BitVec 64} {w : World}
    (hptr : 0x15000 ≤ ptr.toNat) (hend : ptr.toNat + 2 ^ 26 ≤ 2 ^ 32)
    (hok : (diskRead bios drive ptr count lba w).1 = 0) {i : Nat} (hi : ptr.toNat + i < 2 ^ 32) :
    (diskRead bios drive ptr count lba w).2.mem (ptr + BitVec.ofNat 32 i) =
      landed content bios drive ptr count lba w i := by
  have hc := count.isLt
  have hhigh : High ptr := Nat.le_trans (by decide) hptr
  have hd : ¬ Direct ptr count := by
    rw [direct_iff (by omega)]
    omega
  obtain ⟨n, hn⟩ : ∃ n, count.toNat / bufferPgSize = n := ⟨_, rfl⟩
  obtain ⟨k, hk⟩ : ∃ k, count.toNat % bufferPgSize = k := ⟨_, rfl⟩
  have hk8 : k < 8 := hk ▸ Nat.mod_lt _ (by decide)
  have hn' : n ≤ 8192 := by
    rw [bufferPgSize_eq] at hn
    omega
  have hne : ptr + BitVec.ofNat 32 (4096 * n) ≠ 0 := (hhigh.add (by omega)).ne_zero
  obtain ⟨w₂, e₂, hmem⟩ := diskRead_buffered hn hk hd hne hok
  have hpages := readPages_byte ht drive hhigh lba w n (by omega)
  have hframe := fun x h1 => readPages_frame ht.toConfined drive (x := x) h1 n ptr lba w (by omega)
  obtain ⟨w₁, e⟩ : ∃ w₁, (readPages bios drive n ptr lba w).2.2 = w₁ := ⟨_, rfl⟩
  rw [e] at e₂ hpages hframe
  have hread : ∀ j < 512 * k, w₂.mem (buffer + BitVec.ofNat 32 j) =
      (content drive).byte 512 (lba + BitVec.ofNat 64 (4 * n)) j := by
    intro j hj
    have h := bufferRead_ok ht (Nat.le_of_lt hk8) (congrArg Prod.fst e₂) hj
    rwa [e₂] at h
  have hkeep : ∀ x, ¬ InRange buffer (512 * k) x → w₂.mem x = w₁.mem x := by
    intro x hx
    have h := bufferRead_rest ht.toConfined drive (Nat.le_of_lt hk8) (lba + BitVec.ofNat 64 (4 * n)) hx w₁
    rwa [e₂] at h
  have hbuf : buffer.toNat = 0xE000 := rfl
  have hlow : ∀ m ≤ 4096, ¬ InRange buffer m (ptr + BitVec.ofNat 32 i) := by
    intro m hm
    rw [inRange_iff (by omega), toNat_add_ofNat hi]
    omega
  rw [hmem, copy_buffer_eq (by omega) (by omega) hi]
  simp only [landed, hn, hk, bufferSize_eq, e]
  by_cases hpage : i < 4096 * n
  · have hdiv : 4096 * (i / 4096) + i % 4096 = i := Nat.div_add_mod i 4096
    have hbyte := hpages (i / 4096) (by omega) (i % 4096) (Nat.mod_lt _ (by decide))
    rw [hdiv] at hbyte
    rw [if_pos hpage, if_neg (by omega), hkeep _ (hlow _ (by omega))]
    exact hbyte
  rw [if_neg hpage]
  by_cases hcopied : i < 4096 * (n + k)
  · rw [if_pos (show 4096 * n ≤ i ∧ i < 4096 * n + 4096 * k by omega), if_pos hcopied]
    split
    · rename_i hlast
      exact hread _ (by omega)
    · rename_i hlast
      apply hkeep
      rw [inRange_iff (by omega), toNat_add_ofNat (by omega)]
      omega
  · rw [if_neg (show ¬ (4096 * n ≤ i ∧ i < 4096 * n + 4096 * k) by omega), if_neg (by omega), if_neg hcopied,
      hkeep _ (hlow _ (by omega))]
    refine hframe _ (hlow _ (by decide)) (fun q hq => (hhigh.add (by omega)).ne_zero) ?_
    rw [inRange_iff (by omega), toNat_add_ofNat hi]
    omega

end

end Installer
end Amethyst
