import Amethyst.Chunk
import Amethyst.Loop
import Amethyst.Memory

/-!
# Amethyst.Kernel.Pci

The PCI scan (`kernel/src/kernel/pci.c`, `kernel/include/kernel/pci.h`). The local `device` of
`pci_scan` is never initialised; its `bus`, `slot` and `function` are set by the loops, and `pci_read`
sets `field` and `enable` in a copy.

A machine is the configuration space of each function that is present. `inl` on the data port gives
the dword that the last value written to the address port selects.

`pciScan_records`: the functions that are present are recorded, each once and in order.
-/

namespace Amethyst
namespace Kernel

/-- The fields of `pci_device_t`, from the lowest bits to the highest. -/
structure PciDevice where
  zero : BitVec 2
  field : BitVec 6
  function : BitVec 3
  slot : BitVec 5
  bus : BitVec 8
  reserved : BitVec 7
  enable : BitVec 1
deriving DecidableEq, Repr

/-- A function of a device. -/
structure Location where
  bus : BitVec 8
  slot : BitVec 5
  function : BitVec 3
deriving DecidableEq, Repr

namespace PciDevice

def bits (d : PciDevice) : Word :=
  d.enable ++ d.reserved ++ d.bus ++ d.slot ++ d.function ++ d.field ++ d.zero

def ofBits (b : Word) : PciDevice where
  zero := b.extractLsb' 0 2
  field := b.extractLsb' 2 6
  function := b.extractLsb' 8 3
  slot := b.extractLsb' 11 5
  bus := b.extractLsb' 16 8
  reserved := b.extractLsb' 24 7
  enable := b.extractLsb' 31 1

def location (d : PciDevice) : Location := ⟨d.bus, d.slot, d.function⟩

end PciDevice

/-! ## The machine -/

/-- The configuration space of each function, if it is present. -/
abbrev Config := Location → Option (BitVec 6 → Word)

def Config.dword (config : Config) (loc : Location) (register : BitVec 6) : Word :=
  match config loc with
  | none => 0xFFFFFFFF
  | some space => space register

def Config.vendorId (config : Config) (loc : Location) : BitVec 16 := (config.dword loc 0).setWidth 16

/-- The variables of `pci.c`, with what was last written to `PCI_CONFIG_ADDRESS`. -/
structure Pci where
  configAddress : Word
  pciDeviceCount : Nat
  pciDevices : Nat → Word

/-- `outl(PCI_CONFIG_ADDRESS, ..)` -/
def Pci.outl (s : Pci) (v : Word) : Pci := { s with configAddress := v }

/-- `inl(PCI_CONFIG_DATA)` -/
def Pci.inl (config : Config) (s : Pci) : Word :=
  let selected := PciDevice.ofBits s.configAddress
  config.dword selected.location selected.field

/-! ## `pci.c` -/

/-- `PCI_DEV_MAX_COUNT` -/
def pciDevMaxCount : Nat := 256 * 32 * 8

/-- `pci_size_map`, without a value from its end on. -/
def pciSizeMap (field : BitVec 8) : Option Nat :=
  match field.toNat with
  | 0x00 | 0x02 | 0x04 | 0x06 => some 2
  | 0x08 | 0x09 | 0x0a | 0x0b | 0x0c | 0x0d | 0x0e | 0x0f | 0x3C => some 1
  | 0x10 | 0x14 | 0x18 | 0x1C | 0x20 | 0x24 => some 4
  | n => if n ≤ 0x3C then some 0 else none

/-- The part of the dword that is returned. A size of 0 halts the machine. -/
def pciPart (field : BitVec 8) (data : Word) : Option Word :=
  match pciSizeMap field with
  | some 1 => some (data >>> ((field &&& 3).toNat * 8) &&& 0xFF)
  | some 2 => some (data >>> ((field &&& 2).toNat * 8) &&& 0xFFFF)
  | some 4 => some data
  | _ => none

def pciRead (config : Config) (dev : PciDevice) (field : BitVec 8) (s : Pci) : Option Word × Pci :=
  let dev := { dev with enable := 1, field := ((field &&& 0xFC) >>> 2).setWidth 6 }
  let s := s.outl dev.bits
  let data := s.inl config
  (pciPart field data, s)

def pciAddDevice (dev : PciDevice) (s : Pci) : Pci :=
  { s with
    pciDevices := Function.update s.pciDevices s.pciDeviceCount dev.bits
    pciDeviceCount := s.pciDeviceCount + 1 }

/-- The body of the innermost loop; `none` if the machine halts. -/
def scanFunction (config : Config) (fn : Nat) (p : PciDevice × Pci) : Option (PciDevice × Pci) :=
  let device := { p.1 with function := BitVec.ofNat 3 fn }
  match pciRead config device 0x00 p.2 with
  | (none, _) => none
  | (some vendor, s) => some (device, if vendor = 0xFFFF then s else pciAddDevice device s)

def scanSlot (config : Config) (slot : Nat) (p : PciDevice × Pci) : Option (PciDevice × Pci) :=
  Loop.tryTimes (scanFunction config) 8 ({ p.1 with slot := BitVec.ofNat 5 slot }, p.2)

def scanBus (config : Config) (bus : Nat) (p : PciDevice × Pci) : Option (PciDevice × Pci) :=
  Loop.tryTimes (scanSlot config) 32 ({ p.1 with bus := BitVec.ofNat 8 bus }, p.2)

def pciScan (config : Config) (device : PciDevice) (s : Pci) : Option Pci :=
  (Loop.tryTimes (scanBus config) 256 (device, { s with pciDeviceCount := 0 })).map Prod.snd

/-! ## The bit-fields -/

namespace PciDevice

theorem bits_toNat (d : PciDevice) : d.bits.toNat = d.zero.toNat + 2 ^ 2 * d.field.toNat +
    2 ^ 8 * d.function.toNat + 2 ^ 11 * d.slot.toNat + 2 ^ 16 * d.bus.toNat +
    2 ^ 24 * d.reserved.toNat + 2 ^ 31 * d.enable.toNat := by
  simp only [bits, append_toNat]
  omega

theorem extract_bits (d : PciDevice) {k n : Nat} {x : BitVec n} (h : (d.zero.toNat +
    2 ^ 2 * d.field.toNat + 2 ^ 8 * d.function.toNat + 2 ^ 11 * d.slot.toNat + 2 ^ 16 * d.bus.toNat +
    2 ^ 24 * d.reserved.toNat + 2 ^ 31 * d.enable.toNat) / 2 ^ k % 2 ^ n = x.toNat) :
    d.bits.extractLsb' k n = x := by
  apply BitVec.eq_of_toNat_eq
  rw [BitVec.extractLsb'_toNat, Nat.shiftRight_eq_div_pow, bits_toNat, h]

theorem ofBits_bits (d : PciDevice) : ofBits d.bits = d := by
  have h1 := d.zero.isLt
  have h2 := d.field.isLt
  have h3 := d.function.isLt
  have h4 := d.slot.isLt
  have h5 := d.bus.isLt
  have h6 := d.reserved.isLt
  have h7 := d.enable.isLt
  have hzero : d.bits.extractLsb' 0 2 = d.zero := d.extract_bits (by omega)
  have hfield : d.bits.extractLsb' 2 6 = d.field := d.extract_bits (by omega)
  have hfunction : d.bits.extractLsb' 8 3 = d.function := d.extract_bits (by omega)
  have hslot : d.bits.extractLsb' 11 5 = d.slot := d.extract_bits (by omega)
  have hbus : d.bits.extractLsb' 16 8 = d.bus := d.extract_bits (by omega)
  have hreserved : d.bits.extractLsb' 24 7 = d.reserved := d.extract_bits (by omega)
  have henable : d.bits.extractLsb' 31 1 = d.enable := d.extract_bits (by omega)
  simp only [ofBits, hzero, hfield, hfunction, hslot, hbus, hreserved, henable]

end PciDevice

/-! ## Accesses -/

/-- An access is one to the device's function, whatever else the device's bits are. -/
theorem pciRead_location (config : Config) (dev : PciDevice) (field : BitVec 8) (s : Pci) :
    (PciDevice.ofBits (pciRead config dev field s).2.configAddress).location = dev.location := by
  simp only [pciRead, Pci.outl, PciDevice.ofBits_bits, PciDevice.location]

theorem pciRead_value (config : Config) (dev : PciDevice) (field : BitVec 8) (s : Pci) :
    (pciRead config dev field s).1 =
      pciPart field (config.dword dev.location (((field &&& 0xFC) >>> 2).setWidth 6)) := by
  simp only [pciRead, Pci.outl, Pci.inl, PciDevice.ofBits_bits, PciDevice.location]

theorem pciPart_vendorId (data : Word) : pciPart 0x00 data = some ((data.setWidth 16).setWidth 32) := by
  have hpart : pciPart 0x00 data = some (data >>> ((0x00 &&& 2 : BitVec 8).toNat * 8) &&& 0xFFFF) := rfl
  rw [hpart]
  congr 1
  apply BitVec.eq_of_toNat_eq
  have hmask : (0xFFFF : Word).toNat = 2 ^ 16 - 1 := rfl
  rw [BitVec.toNat_and, hmask, Nat.and_two_pow_sub_one_eq_mod, BitVec.toNat_setWidth,
    BitVec.toNat_setWidth, BitVec.toNat_ushiftRight]
  simp
  omega

theorem pciRead_vendorId (config : Config) (dev : PciDevice) (s : Pci) : ∃ address,
    pciRead config dev 0x00 s = (some ((config.vendorId dev.location).setWidth 32), s.outl address) := by
  have hvalue := pciRead_value config dev 0x00 s
  rw [pciPart_vendorId] at hvalue
  exact ⟨_, Prod.ext hvalue rfl⟩

theorem vendor_eq_none_iff (vendor : BitVec 16) : vendor.setWidth 32 = (0xFFFF : Word) ↔ vendor = 0xFFFF := by
  rw [← BitVec.toNat_inj, ← BitVec.toNat_inj, BitVec.toNat_setWidth,
    Nat.mod_eq_of_lt (Nat.lt_trans vendor.isLt (by decide))]
  rfl

/-! ## The order of the scan -/

/-- Increasing in the bus, then the slot, then the function. -/
def Location.Before (a b : Location) : Prop :=
  a.bus.toNat < b.bus.toNat ∨ a.bus = b.bus ∧
    (a.slot.toNat < b.slot.toNat ∨ a.slot = b.slot ∧ a.function.toNat < b.function.toNat)

/-- The `k`-th function that the scan comes to. -/
def locationAt (k : Nat) : Location := ⟨BitVec.ofNat 8 (k / 256), BitVec.ofNat 5 (k / 8), BitVec.ofNat 3 k⟩

theorem locationAt_before {i j : Nat} (h : i < j) (hj : j < pciDevMaxCount) :
    (locationAt i).Before (locationAt j) := by
  rw [pciDevMaxCount] at hj
  simp only [Location.Before, locationAt, ← BitVec.toNat_inj, BitVec.toNat_ofNat]
  omega

theorem exists_locationAt (loc : Location) : ∃ k < pciDevMaxCount, locationAt k = loc := by
  obtain ⟨bus, slot, function⟩ := loc
  have hb := bus.isLt
  have hs := slot.isLt
  have hf := function.isLt
  refine ⟨bus.toNat * 256 + slot.toNat * 8 + function.toNat, by rw [pciDevMaxCount]; omega, ?_⟩
  simp only [locationAt, Location.mk.injEq, ← BitVec.toNat_inj, BitVec.toNat_ofNat]
  omega

/-- The functions that are present, of the first `k`. -/
def present (config : Config) (k : Nat) : List Location :=
  ((List.range k).map locationAt).filter fun loc => config.vendorId loc ≠ 0xFFFF

theorem present_succ (config : Config) (k : Nat) : present config (k + 1) =
    present config k ++ if config.vendorId (locationAt k) = 0xFFFF then [] else [locationAt k] := by
  rw [present, List.range_succ, List.map_append, List.filter_append]
  split
  · next h => rw [List.map_singleton, List.filter_cons_of_neg (by simpa using h), List.filter_nil, present]
  · next h => rw [List.map_singleton, List.filter_cons_of_pos (by simpa using h), List.filter_nil, present]

theorem mem_present {config : Config} {loc : Location} :
    loc ∈ present config pciDevMaxCount ↔ config.vendorId loc ≠ 0xFFFF := by
  obtain ⟨k, hk, rfl⟩ := exists_locationAt loc
  rw [present, List.mem_filter, decide_eq_true_eq]
  exact and_iff_right (List.mem_map_of_mem (List.mem_range.mpr hk))

theorem length_present_le (config : Config) (k : Nat) : (present config k).length ≤ k :=
  calc
    (present config k).length ≤ ((List.range k).map locationAt).length := List.length_filter_le _ _
    _ = k := by rw [List.length_map, List.length_range]

theorem present_pairwise (config : Config) :
    (present config pciDevMaxCount).Pairwise Location.Before := by
  refine List.Pairwise.filter _ (List.pairwise_map.mpr ?_)
  refine List.pairwise_lt_range.imp_of_mem fun _ hj h => ?_
  exact locationAt_before h (List.mem_range.mp hj)

/-! ## The scan -/

/-- The functions that are recorded. -/
def Pci.recorded (s : Pci) : List Location :=
  (List.range s.pciDeviceCount).map fun i => (PciDevice.ofBits (s.pciDevices i)).location

/-- The first `k` functions have been scanned. -/
structure Scanned (config : Config) (s₀ : Pci) (k : Nat) (s : Pci) : Prop where
  recorded : s.recorded = present config k
  rest : ∀ i, s.pciDeviceCount ≤ i → s.pciDevices i = s₀.pciDevices i

theorem Scanned.count {config : Config} {s₀ s : Pci} {k : Nat} (h : Scanned config s₀ k s) :
    s.pciDeviceCount = (present config k).length := by
  rw [← h.recorded, Pci.recorded, List.length_map, List.length_range]

theorem pciAddDevice_recorded (dev : PciDevice) (s : Pci) :
    (pciAddDevice dev s).recorded = s.recorded ++ [dev.location] := by
  simp only [Pci.recorded, pciAddDevice, List.range_succ, List.map_append, List.map_singleton,
    Function.update_self, PciDevice.ofBits_bits]
  congr 1
  refine List.map_congr_left fun i hi => ?_
  rw [Function.update_of_ne (Nat.ne_of_lt (List.mem_range.mp hi))]

section

variable {config : Config} {s₀ : Pci} {bus slot : Nat} {p : PciDevice × Pci}

theorem Scanned.outl {k : Nat} {s : Pci} (h : Scanned config s₀ k s) (address : Word) :
    Scanned config s₀ k (s.outl address) := ⟨h.recorded, h.rest⟩

theorem Scanned.skip {k : Nat} {s : Pci} (h : Scanned config s₀ k s)
    (hnone : config.vendorId (locationAt k) = 0xFFFF) : Scanned config s₀ (k + 1) s where
  recorded := by rw [h.recorded, present_succ, if_pos hnone, List.append_nil]
  rest := h.rest

theorem Scanned.add {k : Nat} {s : Pci} (h : Scanned config s₀ k s) {dev : PciDevice}
    (hloc : dev.location = locationAt k) (hsome : config.vendorId (locationAt k) ≠ 0xFFFF) :
    Scanned config s₀ (k + 1) (pciAddDevice dev s) where
  recorded := by rw [pciAddDevice_recorded, h.recorded, present_succ, if_neg hsome, hloc]
  rest i hi := by
    have hlt : s.pciDeviceCount < i := hi
    simp only [pciAddDevice, Function.update_of_ne (Nat.ne_of_gt hlt)]
    exact h.rest i (Nat.le_of_lt hlt)

/-- One function: it is recorded if it is present. -/
theorem scanFunction_spec {fn : Nat} (hbus : p.1.bus = BitVec.ofNat 8 bus)
    (hslot : p.1.slot = BitVec.ofNat 5 slot) (hs : slot < 32) (hf : fn < 8)
    (h : Scanned config s₀ ((bus * 32 + slot) * 8 + fn) p.2) :
    ∃ p', scanFunction config fn p = some p' ∧ p'.1.bus = p.1.bus ∧ p'.1.slot = p.1.slot ∧
      Scanned config s₀ ((bus * 32 + slot) * 8 + fn + 1) p'.2 := by
  obtain ⟨device, hdev⟩ : ∃ device, { p.1 with function := BitVec.ofNat 3 fn } = device := ⟨_, rfl⟩
  have hloc : device.location = locationAt ((bus * 32 + slot) * 8 + fn) := by
    rw [← hdev]
    simp only [PciDevice.location, locationAt, hbus, hslot, Location.mk.injEq, ← BitVec.toNat_inj,
      BitVec.toNat_ofNat]
    omega
  obtain ⟨address, hread⟩ := pciRead_vendorId config device p.2
  simp only [scanFunction, hdev, hread, vendor_eq_none_iff, hloc]
  refine ⟨_, rfl, hdev ▸ rfl, hdev ▸ rfl, ?_⟩
  split
  · next hnone => exact (h.outl address).skip hnone
  · next hsome => exact (h.outl address).add hloc hsome

theorem scanSlot_spec (hbus : p.1.bus = BitVec.ofNat 8 bus) (hs : slot < 32)
    (h : Scanned config s₀ ((bus * 32 + slot) * 8) p.2) :
    ∃ p', scanSlot config slot p = some p' ∧ p'.1.bus = p.1.bus ∧
      Scanned config s₀ ((bus * 32 + (slot + 1)) * 8) p'.2 := by
  obtain ⟨p', e, h1, -, h3⟩ := Loop.tryTimes_rule
    (I := fun fn q => q.1.bus = p.1.bus ∧ q.1.slot = BitVec.ofNat 5 slot ∧
      Scanned config s₀ ((bus * 32 + slot) * 8 + fn) q.2)
    (s := ({ p.1 with slot := BitVec.ofNat 5 slot }, p.2)) (n := 8) (f := scanFunction config)
    ⟨rfl, rfl, h⟩ fun fn hf q ⟨h1, h2, h3⟩ => by
      obtain ⟨q', e, h1', h2', h3'⟩ := scanFunction_spec (h1.trans hbus) h2 hs hf h3
      exact ⟨q', e, h1'.trans h1, h2'.trans h2, h3'⟩
  exact ⟨p', e, h1, by rwa [← Nat.add_assoc, Nat.succ_mul]⟩

theorem scanBus_spec (h : Scanned config s₀ (bus * 32 * 8) p.2) :
    ∃ p', scanBus config bus p = some p' ∧ Scanned config s₀ ((bus + 1) * 32 * 8) p'.2 := by
  obtain ⟨p', e, -, h2⟩ := Loop.tryTimes_rule
    (I := fun slot q => q.1.bus = BitVec.ofNat 8 bus ∧ Scanned config s₀ ((bus * 32 + slot) * 8) q.2)
    (s := ({ p.1 with bus := BitVec.ofNat 8 bus }, p.2)) (n := 32) (f := scanSlot config)
    ⟨rfl, h⟩ fun slot hs q ⟨h1, h2⟩ => by
      obtain ⟨q', e, h1', h2'⟩ := scanSlot_spec h1 hs h2
      exact ⟨q', e, h1'.trans h1, h2'⟩
  exact ⟨p', e, by rwa [Nat.succ_mul]⟩

end

theorem pciScan_spec (config : Config) (device : PciDevice) (s : Pci) :
    ∃ s', pciScan config device s = some s' ∧ Scanned config s pciDevMaxCount s' := by
  obtain ⟨p', e, h⟩ := Loop.tryTimes_rule
    (I := fun bus q => Scanned config s (bus * 32 * 8) q.2)
    (s := (device, { s with pciDeviceCount := 0 })) (n := 256) (f := scanBus config)
    ⟨rfl, fun _ _ => rfl⟩ fun _ _ _ h => scanBus_spec h
  exact ⟨p'.2, by rw [pciScan, e, Option.map_some], h⟩

/-- After the scan the entries are the functions that are present, each once and in order, the others
are as before, and an access with an entry is one to its function. -/
theorem pciScan_records (config : Config) (device : PciDevice) (s : Pci) :
    ∃ s', pciScan config device s = some s' ∧ s'.pciDeviceCount ≤ pciDevMaxCount ∧
      (∀ loc, loc ∈ s'.recorded ↔ config.vendorId loc ≠ 0xFFFF) ∧
      s'.recorded.Pairwise Location.Before ∧
      (∀ i, s'.pciDeviceCount ≤ i → s'.pciDevices i = s.pciDevices i) ∧
      ∀ i < s'.pciDeviceCount, ∃ loc, s'.recorded[i]? = some loc ∧ ∀ field t,
        (PciDevice.ofBits (pciRead config (.ofBits (s'.pciDevices i)) field t).2.configAddress).location
            = loc ∧
          (pciRead config (.ofBits (s'.pciDevices i)) field t).1 =
            pciPart field (config.dword loc (((field &&& 0xFC) >>> 2).setWidth 6)) := by
  obtain ⟨s', e, h⟩ := pciScan_spec config device s
  refine ⟨s', e, ?_, ?_, ?_, h.rest, fun i hi => ?_⟩
  · rw [h.count]
    exact length_present_le config pciDevMaxCount
  · intro loc
    rw [h.recorded]
    exact mem_present
  · rw [h.recorded]
    exact present_pairwise config
  · refine ⟨(PciDevice.ofBits (s'.pciDevices i)).location, ?_, fun field t => ⟨?_, ?_⟩⟩
    · rw [Pci.recorded, List.getElem?_map, List.getElem?_range hi, Option.map_some]
    · exact pciRead_location ..
    · exact pciRead_value ..

end Kernel
end Amethyst
