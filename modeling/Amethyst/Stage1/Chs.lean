import Amethyst.RealMode
import Mathlib.Data.BitVec

/-!
# Amethyst.Stage1.Chs

The drive's geometry in the boot sector (`stage1/boot.asm`): `.setup_fat` stores it in the header and
`lbachs` divides by it. The header is at the start of the data segment.

`lbachs_spec`: CX, DX and the stack after `lbachs`. `lbachs_exact`: what the BIOS reads there is the
address that AX had.
-/

namespace Amethyst
namespace Stage1

open RealMode RealMode.Op

/-! ## The header -/

def bsBytePerSector : BitVec 16 := 11
def bpbReservedSectorCount : BitVec 16 := 14
def bpbNumberFats : BitVec 16 := 16
def bpbRootEntryCount : BitVec 16 := 17
def bpbSectorsPerFat : BitVec 16 := 22
def bpbSectorsPerTrack : BitVec 16 := 24
def bpbHeadCount : BitVec 16 := 26
def bsDriveNumber : BitVec 16 := 36

/-! ## `lbachs` -/

/-- From the second `div` of `lbachs` on, to its `ret`. -/
def lbachs.pack : Op :=
  exec [mov dh dl, mov ch al, shl ah 6, or cl ah, pop ax, mov dl al, pop ax]

/-- `lbachs`; `none` is a divide error. -/
def lbachs (m : Machine) : Option Machine :=
  (div16 (word (abs bpbSectorsPerTrack)) (exec [push ax, push dx, xor dx dx] m)).bind fun m =>
    (div16 (word (abs bpbHeadCount)) (exec [inc dx, mov cx dx, xor dx dx] m)).map lbachs.pack

/-- The geometry in the header: `S` sectors per track, `H` heads. -/
structure Geometry (S H : Nat) (mem : Mem 16) : Prop where
  sectors : (mem.read16 bpbSectorsPerTrack).toNat = S
  heads : (mem.read16 bpbHeadCount).toNat = H

/-! ## The address -/

structure Chs where
  cylinder : Nat
  head : Nat
  sector : Nat
deriving DecidableEq, Repr

/-- What the BIOS reads in CX and DX. -/
def chs (cx dx : BitVec 16) : Chs where
  cylinder := (cx.extractLsb' 8 8).toNat + 256 * (cx.extractLsb' 0 8 >>> 6).toNat
  head := (dx.extractLsb' 8 8).toNat
  sector := (cx.extractLsb' 0 8 &&& 63).toNat

def Chs.lba (S H : Nat) (a : Chs) : Nat := (a.cylinder * H + a.head) * S + a.sector - 1

/-- The geometries that a CHS address has room for. -/
structure Drive (S H : Nat) : Prop where
  sectors_pos : 1 ≤ S
  sectors_le : S ≤ 63
  heads_pos : 1 ≤ H
  heads_le : H ≤ 255

/-- A sector number has six bits: the two above it are free for the cylinder. -/
theorem sector_bits (s : BitVec 8) (hs : s.toNat < 64) : s >>> 6 = 0#8 ∧ s &&& 63 = s := by
  have h : ∀ s : BitVec 8, s.toNat < 64 → s >>> 6 = 0#8 ∧ s &&& 63 = s := by decide
  exact h s hs

theorem cylinder_bits : ∀ c : BitVec 8, (c <<< 6 >>> 6).toNat = c.toNat % 4 ∧ c <<< 6 &&& 63 = 0#8 := by
  decide

theorem chs_packed (c h : BitVec 16) (s : BitVec 8) (d : BitVec 8) (hs : s.toNat < 64) :
    chs (c.extractLsb' 0 8 ++ (s ||| c.extractLsb' 8 8 <<< 6)) (h.extractLsb' 0 8 ++ d) =
      ⟨c.toNat % 1024, h.toNat % 256, s.toNat⟩ := by
  obtain ⟨hs₁, hs₂⟩ := sector_bits s hs
  obtain ⟨hc₁, hc₂⟩ := cylinder_bits (c.extractLsb' 8 8)
  have hcyl : ((s ||| c.extractLsb' 8 8 <<< 6) >>> 6).toNat = c.toNat / 256 % 4 := by
    rw [BitVec.ushiftRight_or_distrib, hs₁, BitVec.zero_or, hc₁, BitVec.extractLsb'_toNat]
    omega
  have hsec : (s ||| c.extractLsb' 8 8 <<< 6) &&& 63 = s := by
    rw [BitVec.and_comm, BitVec.and_or_distrib_left, BitVec.and_comm, hs₂, BitVec.and_comm, hc₂,
      BitVec.or_zero]
  simp only [chs, BitVec.extractLsb'_append_eq_left, BitVec.extractLsb'_append_eq_right, hcyl, hsec,
    BitVec.extractLsb'_toNat, Nat.shiftRight_zero, Chs.mk.injEq, and_true]
  omega

variable {S H : Nat} {m : Machine}

theorem lbachs_eq (hg : Geometry S H m.mem) (hd : Drive S H) : ∃ q₁ r₁ q₂ r₂ : BitVec 16,
    q₁.toNat = (ax.get m).toNat / S ∧ r₁.toNat = (ax.get m).toNat % S ∧ q₂.toNat = q₁.toNat / H ∧
    r₂.toNat = q₁.toNat % H ∧ ∃ m', lbachs m = some m' ∧ Kept 2 m m' ∧ m'.eax = m.eax ∧
      m'.ebx = m.ebx ∧ m'.di = m.di ∧ m'.es = m.es ∧ m'.ds = m.ds ∧ dl.get m' = dl.get m ∧
      cx.get m' = q₂.extractLsb' 0 8 ++ ((r₁ + 1).extractLsb' 0 8 ||| q₂.extractLsb' 8 8 <<< 6) ∧
      dh.get m' = r₂.extractLsb' 0 8 := by
  let m₁ := exec [push ax, push dx, Op.xor dx dx] m
  have hS : ((word (abs bpbSectorsPerTrack)).get m₁).toNat = S := hg.sectors
  obtain ⟨q₁, r₁, hq₁, hr₁, h₁⟩ := div16_eq (m := m₁) (by simp [m₁]) (hS.symm ▸ hd.sectors_pos)
  let m₂ := exec [inc dx, mov cx dx, Op.xor dx dx] (dx.set r₁ (ax.set q₁ m₁))
  have hH : ((word (abs bpbHeadCount)).get m₂).toNat = H := hg.heads
  obtain ⟨q₂, r₂, hq₂, hr₂, h₂⟩ := div16_eq (m := m₂) (by simp [m₂]) (hH.symm ▸ hd.heads_pos)
  have he : lbachs m = some (lbachs.pack (dx.set r₂ (ax.set q₂ m₂))) := by
    show (div16 _ m₁).bind _ = _
    rw [h₁, Option.bind_some]
    show (div16 _ m₂).map _ = _
    rw [h₂, Option.map_some]
  have hax₁ : ax.get m₁ = ax.get m := rfl
  have hax₂ : ax.get m₂ = q₁ := by simp [m₂]
  rw [hS, hax₁] at hq₁ hr₁
  rw [hH, hax₂] at hq₂ hr₂
  have hne : m.sp - 2#16 ≠ m.sp - 2#16 - 2#16 := by bv_omega
  refine ⟨q₁, r₁, q₂, r₂, hq₁, hr₁, hq₂, hr₂, _, he, ?_, ?_, rfl, rfl, rfl, rfl, ?_, ?_, ?_⟩
  · have hk : Kept 0 (push dx (push ax m)) (dx.set r₂ (ax.set q₂ m₂)) := .of_eq rfl rfl rfl rfl
    have hk' : Kept 1 (push ax m) (pop ax (dx.set r₂ (ax.set q₂ m₂))) := hk.popped rfl rfl rfl rfl
    exact hk'.popped rfl rfl rfl rfl
  · simp [lbachs.pack, m₂, m₁, hne]
  · simp [lbachs.pack, m₂, m₁, hne]
  · simp [lbachs.pack, m₂, m₁, low16_low8_append]
  · simp [lbachs.pack, m₂, m₁]

/-- CX and DX after `lbachs`, as the BIOS reads them. -/
theorem lbachs_spec (hg : Geometry S H m.mem) (hd : Drive S H) : ∃ m', lbachs m = some m' ∧
    Kept 2 m m' ∧ m'.eax = m.eax ∧ m'.ebx = m.ebx ∧ m'.di = m.di ∧ m'.es = m.es ∧ m'.ds = m.ds ∧
    dl.get m' = dl.get m ∧ chs (cx.get m') (dx.get m') =
      ⟨(ax.get m).toNat / S / H % 1024, (ax.get m).toNat / S % H, (ax.get m).toNat % S + 1⟩ := by
  obtain ⟨q₁, r₁, q₂, r₂, hq₁, hr₁, hq₂, hr₂, m', he, hk, hax, hbx, hdi, hes, hds, hdl, hcx, hdh⟩ :=
    lbachs_eq hg hd
  refine ⟨m', he, hk, hax, hbx, hdi, hes, hds, hdl, ?_⟩
  obtain ⟨hS, hS', hH, hH'⟩ := hd
  have hr : (ax.get m).toNat % S < S := Nat.mod_lt _ hS
  have hh : (ax.get m).toNat / S % H < H := Nat.mod_lt _ hH
  have hsec : ((r₁ + 1).extractLsb' 0 8).toNat = (ax.get m).toNat % S + 1 := by
    rw [BitVec.extractLsb'_toNat, Nat.shiftRight_zero, BitVec.toNat_add, hr₁]
    simp only [BitVec.reduceToNat]
    omega
  have hdx : dx.get m' = r₂.extractLsb' 0 8 ++ dl.get m' := by
    rw [← hdh]
    exact low16_eq_append _
  rw [hcx, hdx, chs_packed _ _ _ _ (by omega), hq₂, hr₂, hsec, hq₁]
  congr 1
  omega

/-- `lbachs` left in CX and DX the address that AX has. -/
structure Addressed (S H : Nat) (m m' : Machine) : Prop where
  sector_pos : 1 ≤ (chs (cx.get m') (dx.get m')).sector
  sector_le : (chs (cx.get m') (dx.get m')).sector ≤ S
  head_lt : (chs (cx.get m') (dx.get m')).head < H
  lba : (chs (cx.get m') (dx.get m')).lba S H = (ax.get m).toNat
  ax : ax.get m' = ax.get m
  dl : dl.get m' = dl.get m

/-- Sectors, heads and cylinders count up to the LBA. -/
theorem lba_split (lba S H : Nat) : (lba / S / H * H + lba / S % H) * S + lba % S = lba := by
  rw [Nat.mul_comm (lba / S / H), Nat.div_add_mod, Nat.mul_comm, Nat.div_add_mod]

theorem lbachs_addressed (hg : Geometry S H m.mem) (hd : Drive S H)
    (hc : (ax.get m).toNat / (S * H) < 1024) : ∃ m', lbachs m = some m' ∧ Addressed S H m m' := by
  obtain ⟨m', he, -, hax, -, -, -, -, hdl, hchs⟩ := lbachs_spec hg hd
  rw [← Nat.div_div_eq_div_mul] at hc
  rw [Nat.mod_eq_of_lt hc] at hchs
  refine ⟨m', he, ?_, ?_, ?_, ?_, congrArg (BitVec.extractLsb' 0 16) hax, hdl⟩
  · rw [hchs]
    exact Nat.succ_pos _
  · rw [hchs]
    exact Nat.mod_lt _ hd.sectors_pos
  · rw [hchs]
    exact Nat.mod_lt _ hd.heads_pos
  · rw [hchs]
    exact lba_split ..

/-- The conversion is exact, so different addresses stay different. -/
theorem lbachs_exact (S H : Nat) (hd : Drive S H) :
    (∀ m, Geometry S H m.mem → (ax.get m).toNat / (S * H) < 1024 →
      ∃ m', lbachs m = some m' ∧ Addressed S H m m') ∧
    (∀ m₁ m₂ m₁' m₂', Geometry S H m₁.mem → Geometry S H m₂.mem →
      (ax.get m₁).toNat / (S * H) < 1024 → (ax.get m₂).toNat / (S * H) < 1024 →
      lbachs m₁ = some m₁' → lbachs m₂ = some m₂' → ax.get m₁ ≠ ax.get m₂ →
      chs (cx.get m₁') (dx.get m₁') ≠ chs (cx.get m₂') (dx.get m₂')) := by
  refine ⟨fun m hg hc => lbachs_addressed hg hd hc, ?_⟩
  intro m₁ m₂ m₁' m₂' hg₁ hg₂ hc₁ hc₂ he₁ he₂ hne heq
  obtain ⟨_, h₁, ha₁⟩ := lbachs_addressed hg₁ hd hc₁
  obtain ⟨_, h₂, ha₂⟩ := lbachs_addressed hg₂ hd hc₂
  obtain rfl := Option.some.inj (he₁.symm.trans h₁)
  obtain rfl := Option.some.inj (he₂.symm.trans h₂)
  apply hne
  apply BitVec.eq_of_toNat_eq
  rw [← ha₁.lba, ← ha₂.lba, heq]

/-! ## A sample -/

/-- The header of the source, from `bs_byte_per_sector` to `bpb_head_count`. -/
def header : List (BitVec 8) :=
  [0x00, 0x02, 1, 1, 0, 2, 0xE0, 0, 0x40, 0x0B, 0xF0, 9, 0, 18, 0, 2, 0]

def bootSector : Mem 16 := fun a => header.getD (a - bsBytePerSector).toNat 0

/-- Stage 1 with this AX. -/
def booted (mem : Mem 16) (ax : BitVec 16) : Machine where
  eax := 0#16 ++ ax
  ebx := 0
  ecx := 0
  edx := 0
  si := 0
  di := 0
  bp := 0
  sp := 4096
  ds := 0x07C0
  es := 0
  cf := false
  zf := false
  lt := false
  mem := mem
  far _ _ := 0
  stack _ := 0
  out := []
  calls := []

theorem bootSector_geometry : Geometry 18 2 bootSector := by
  constructor <;> decide

theorem floppy_drive : Drive 18 2 := by
  constructor <;> decide

/-- LBA 19 and LBA 33 of a floppy. -/
theorem lbachs_exact_floppy : ∃ m₁ m₂, lbachs (booted bootSector 19) = some m₁ ∧
    lbachs (booted bootSector 33) = some m₂ ∧ Addressed 18 2 (booted bootSector 19) m₁ ∧
    chs (cx.get m₁) (dx.get m₁) ≠ chs (cx.get m₂) (dx.get m₂) := by
  obtain ⟨hexact, hdistinct⟩ := lbachs_exact 18 2 floppy_drive
  have hc₁ : (ax.get (booted bootSector 19)).toNat / (18 * 2) < 1024 := by decide
  have hc₂ : (ax.get (booted bootSector 33)).toNat / (18 * 2) < 1024 := by decide
  obtain ⟨m₁, h₁, ha₁⟩ := hexact _ bootSector_geometry hc₁
  obtain ⟨m₂, h₂, -⟩ := hexact _ bootSector_geometry hc₂
  have hne := hdistinct _ _ _ _ bootSector_geometry bootSector_geometry hc₁ hc₂ h₁ h₂ (by decide)
  exact ⟨m₁, m₂, h₁, h₂, ha₁, hne⟩

end Stage1
end Amethyst
