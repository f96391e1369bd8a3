import Amethyst.Heap
import Amethyst.Kernel.Interrupts
import Amethyst.Kernel.Pci
import Amethyst.Printf.Call

/-!
# Amethyst.Kernel.Start

`_start` of the kernel (`kernel/src/start.c`): the screen is cleared, the interrupts, the allocator and the
list of PCI functions are set up, and the list is printed.

* `reportDevice_spec`: the line of one function.
* `start_shows`: the screen shows the lines of the functions that are present, in the order of the scan.
-/

namespace Amethyst
namespace Kernel

open Installer (Byte)
open Printf (ascii Site IsAscii Fmt Simple callText hexText hexSpec printfCall)

/-! ## `_start` -/

/-- The calls of `printf`. -/
inductive Message where
  | ready
  | vendor
  | ehci
  | xhci
  | cl
deriving DecidableEq, Repr

def Message.format : Message → List Byte
  | ready => ascii "Everything is init!\n"
  | vendor => ascii "Vendor:%04X, Device:%04X, "
  | ehci => ascii "EHCI:%08X\n"
  | xhci => ascii "XHCI:%08X.%08X\n"
  | cl => ascii "Cl: %02X-%02X\n"

/-- The number of arguments, which for `vendor` is more than the format takes. -/
def Message.args : Message → Nat
  | ready => 0
  | vendor => 4
  | ehci => 1
  | xhci => 2
  | cl => 2

/-- Where the linker and the compiler have put things. -/
structure Image where
  fontdata6x8 : Word
  idt : Word
  symbol : Isr → Word
  dispatch : Word
  stack : Word
  stackSize : Nat
  site : Message → Site

/-- The machine and the variables of the kernel. -/
structure System where
  machine : Machine
  console : Console
  heap : Heap
  pci : Pci

namespace System

def screen (s : System) : Screen := ⟨s.console, s.machine.mem⟩

def withScreen (s : System) (t : Screen) : System :=
  { s with console := t.console, machine := { s.machine with mem := t.mem } }

/-- `pci_read` -/
def read (config : Config) (dev : PciDevice) (field : BitVec 8) (s : System) : Option (Word × System) :=
  match pciRead config dev field s.pci with
  | (none, _) => none
  | (some v, pci) => some (v, { s with pci })

/-- `printf` -/
def print (site : Site) (args : List Word) (s : System) : Option System :=
  (printfCall .kernel site args s.screen).map s.withScreen

end System

section

variable (config : Config) (image : Image)

/-- The loop body of `_start`, with `pci_read` of the device and `printf`. -/
def reportBody (read : BitVec 8 → System → Option (Word × System))
    (print : Message → List Word → System → Option System) (s : System) : Option System := do
  let (vendorID, s) ← read 0x00 s
  let (deviceID, s) ← read 0x02 s
  let (cls, s) ← read 0x0b s
  let (subclass, s) ← read 0x0a s
  let (progIf, s) ← read 0x09 s
  let s ← print .vendor [vendorID, deviceID, cls, subclass] s
  if cls = 0xC ∧ subclass = 0x3 then
    let (bar0, s) ← read 0x10 s
    if progIf = 0x20 then print .ehci [bar0] s
    else if progIf = 0x30 then
      let (bar1, s) ← read 0x14 s
      print .xhci [bar1, bar0] s
    else some s
  else print .cl [cls, subclass] s

def reportDevice (i : Nat) (s : System) : Option System :=
  reportBody (System.read config (PciDevice.ofBits (s.pci.pciDevices i))) (fun msg => System.print (image.site msg)) s

/-- `HEAP_START` and `HEAP_SIZE` are the same number. -/
def heapStart : Word := 0x1000000

/-- `_start` up to `alloc_init` -/
def setUp (s : System) : System :=
  let s := s.withScreen (Screen.run .kernel [.clear, .print (.setFont (some (font6x8 image.fontdata6x8)))] s.screen)
  let s := { s with
    machine := (bootSteps image.idt (isrAddress image.symbol) image.dispatch).foldl (fun m a => m.step image.idt a) s.machine }
  { s with heap := allocInit heapStart heapStart }

/-- `_start` up to its last loop, which is empty; `device` is what `pci_scan` finds in its local. -/
def start (device : PciDevice) (s : System) : Option System := do
  let s := setUp image s
  let pci ← pciScan config device s.pci
  let s ← { s with pci }.print (image.site .ready) []
  Loop.tryTimes (reportDevice config image) s.pci.pciDeviceCount s

end

/-! ## The report -/

/-- What the kernel looks at of a function. -/
structure Info where
  vendorId : BitVec 16
  deviceId : BitVec 16
  cls : Byte
  subclass : Byte
  progIf : Byte
  bar0 : Word
  bar1 : Word
deriving DecidableEq, Repr

def Config.info (config : Config) (loc : Location) : Info where
  vendorId := (config.dword loc 0).extractLsb' 0 16
  deviceId := (config.dword loc 0).extractLsb' 16 16
  cls := (config.dword loc 2).extractLsb' 24 8
  subclass := (config.dword loc 2).extractLsb' 16 8
  progIf := (config.dword loc 2).extractLsb' 8 8
  bar0 := config.dword loc 4
  bar1 := config.dword loc 5

/-- The line of a function. That of a USB controller which is neither EHCI nor XHCI does not end. -/
def Info.line (f : Info) : List Byte :=
  ascii "Vendor:" ++ hexText 4 (f.vendorId.setWidth 32) ++ ascii ", Device:" ++ hexText 4 (f.deviceId.setWidth 32) ++
    ascii ", " ++
    if f.cls = 0x0C ∧ f.subclass = 0x03 then
      if f.progIf = 0x20 then ascii "EHCI:" ++ hexText 8 f.bar0 ++ ascii "\n"
      else if f.progIf = 0x30 then ascii "XHCI:" ++ hexText 8 f.bar1 ++ ascii "." ++ hexText 8 f.bar0 ++ ascii "\n"
      else []
    else ascii "Cl: " ++ hexText 2 (f.cls.setWidth 32) ++ ascii "-" ++ hexText 2 (f.subclass.setWidth 32) ++ ascii "\n"

def report (config : Config) : List Byte :=
  ascii "Everything is init!\n" ++ (present config pciDevMaxCount).flatMap fun loc => (config.info loc).line

/-! ## The formats -/

theorem Message.fmt (msg : Message) : Fmt msg.format msg.args := by
  have hascii : msg.format.all (fun c => IsAscii c) = true := by cases msg <;> decide +kernel
  have hsimple : (Printf.format msg.format).all (fun p => Simple p) = true := by cases msg <;> decide +kernel
  refine ⟨fun c hc => ?_, fun p hp => ?_, ?_, ?_, ?_⟩
  · exact of_decide_eq_true (List.all_eq_true.mp hascii c hc)
  · exact of_decide_eq_true (List.all_eq_true.mp hsimple p hp)
  all_goals cases msg <;> decide +kernel

section

open Printf (textOf_literals textOf_hex effects textOf)

theorem ready_text : callText Message.ready.format [] = ascii "Everything is init!\n" := by
  have hformat : Printf.format Message.ready.format = (ascii "Everything is init!\n").map .literal ++ [] := by
    decide +kernel
  rw [callText, hformat, textOf_literals, effects]
  simp [textOf]

theorem vendor_text (v d c s : Word) : callText Message.vendor.format [v, d, c, s] =
    ascii "Vendor:" ++ hexText 4 v ++ ascii ", Device:" ++ hexText 4 d ++ ascii ", " := by
  have hformat : Printf.format Message.vendor.format = (ascii "Vendor:").map .literal ++
      .directive (hexSpec 0x34) 0x58 :: ((ascii ", Device:").map .literal ++
        .directive (hexSpec 0x34) 0x58 :: ((ascii ", ").map .literal ++ [])) := by decide +kernel
  rw [callText, hformat, textOf_literals, textOf_hex (by decide), textOf_literals, textOf_hex (by decide),
    textOf_literals, effects]
  simp [textOf, Printf.listArgs]

theorem ehci_text (bar0 : Word) :
    callText Message.ehci.format [bar0] = ascii "EHCI:" ++ hexText 8 bar0 ++ ascii "\n" := by
  have hformat : Printf.format Message.ehci.format = (ascii "EHCI:").map .literal ++
      .directive (hexSpec 0x38) 0x58 :: ((ascii "\n").map .literal ++ []) := by decide +kernel
  rw [callText, hformat, textOf_literals, textOf_hex (by decide), textOf_literals, effects]
  simp [textOf, Printf.listArgs]

theorem xhci_text (bar1 bar0 : Word) : callText Message.xhci.format [bar1, bar0] =
    ascii "XHCI:" ++ hexText 8 bar1 ++ ascii "." ++ hexText 8 bar0 ++ ascii "\n" := by
  have hformat : Printf.format Message.xhci.format = (ascii "XHCI:").map .literal ++
      .directive (hexSpec 0x38) 0x58 :: ((ascii ".").map .literal ++
        .directive (hexSpec 0x38) 0x58 :: ((ascii "\n").map .literal ++ [])) := by decide +kernel
  rw [callText, hformat, textOf_literals, textOf_hex (by decide), textOf_literals, textOf_hex (by decide),
    textOf_literals, effects]
  simp [textOf, Printf.listArgs]

theorem cl_text (c s : Word) : callText Message.cl.format [c, s] =
    ascii "Cl: " ++ hexText 2 c ++ ascii "-" ++ hexText 2 s ++ ascii "\n" := by
  have hformat : Printf.format Message.cl.format = (ascii "Cl: ").map .literal ++
      .directive (hexSpec 0x32) 0x58 :: ((ascii "-").map .literal ++
        .directive (hexSpec 0x32) 0x58 :: ((ascii "\n").map .literal ++ [])) := by decide +kernel
  rw [callText, hformat, textOf_literals, textOf_hex (by decide), textOf_literals, textOf_hex (by decide),
    textOf_literals, effects]
  simp [textOf, Printf.listArgs]

end

/-! ## The accesses -/

/-- A part of a dword, as the code takes it. -/
theorem shift_mask (data mask : Word) {k n : Nat} (hmask : mask.toNat = 2 ^ n - 1) (hn : n ≤ 32) :
    data >>> k &&& mask = (data.extractLsb' k n).setWidth 32 := by
  apply BitVec.eq_of_toNat_eq
  have hlt : (data.extractLsb' k n).toNat < 2 ^ 32 :=
    Nat.lt_of_lt_of_le (data.extractLsb' k n).isLt (Nat.pow_le_pow_right (by decide) hn)
  rw [BitVec.toNat_and, hmask, Nat.and_two_pow_sub_one_eq_mod, BitVec.toNat_ushiftRight, BitVec.toNat_setWidth,
    Nat.mod_eq_of_lt hlt, BitVec.extractLsb'_toNat]

section

variable (config : Config) (loc : Location)

theorem part_vendorId : pciPart 0x00 (config.dword loc 0) = some ((config.info loc).vendorId.setWidth 32) :=
  congrArg some (shift_mask _ 0xFFFF rfl (by decide))

theorem part_deviceId : pciPart 0x02 (config.dword loc 0) = some ((config.info loc).deviceId.setWidth 32) :=
  congrArg some (shift_mask _ 0xFFFF rfl (by decide))

theorem part_cls : pciPart 0x0b (config.dword loc 2) = some ((config.info loc).cls.setWidth 32) :=
  congrArg some (shift_mask _ 0xFF rfl (by decide))

theorem part_subclass : pciPart 0x0a (config.dword loc 2) = some ((config.info loc).subclass.setWidth 32) :=
  congrArg some (shift_mask _ 0xFF rfl (by decide))

theorem part_progIf : pciPart 0x09 (config.dword loc 2) = some ((config.info loc).progIf.setWidth 32) :=
  congrArg some (shift_mask _ 0xFF rfl (by decide))

theorem part_bar0 : pciPart 0x10 (config.dword loc 4) = some (config.info loc).bar0 := rfl

theorem part_bar1 : pciPart 0x14 (config.dword loc 5) = some (config.info loc).bar1 := rfl

end

/-! ## The memory -/

/-- What no step of `_start` writes to. -/
def Image.Kept (image : Image) (x : Word) : Prop :=
  ¬ InRange vgaAddress screenSize x ∧ ¬ InRange image.idt (8 * idtEntryCount) x ∧
    ¬ InRange image.stack image.stackSize x

/-- A call of `printf` with the literal `str`; what it writes is on the stack. -/
structure Image.Prints (image : Image) (m : Mem 32) (site : Site) (str : List Byte) (n : Nat) : Prop where
  literal : Printf.Text image.Kept m site.fmt str
  frame : ∀ x, site.Frame n x → InRange image.stack image.stackSize x
  args : ∀ x, InRange site.va (4 * n) x → ¬ InRange site.buf Printf.printfBufSize x
  few : 4 * n < 2 ^ 32

/-- The font and the literals are in memory, and nothing overlaps. -/
structure Image.Linked (image : Image) (m : Mem 32) : Prop where
  font : ∀ i < 2048, image.Kept (image.fontdata6x8 + BitVec.ofNat 32 i)
  prints : ∀ msg, image.Prints m (image.site msg) msg.format msg.args
  stack : ∀ x, InRange image.stack image.stackSize x →
    ¬ InRange vgaAddress screenSize x ∧ ¬ InRange image.idt (8 * idtEntryCount) x
  idt : ∀ x, InRange image.idt (8 * idtEntryCount) x → ¬ InRange vgaAddress screenSize x

section

variable {image : Image} {m : Mem 32}

theorem Image.Linked.apart (h : image.Linked m) {site : Site} {str : List Byte} {n : Nat}
    (hp : image.Prints m site str n) : site.Apart image.Kept m str n where
  literal := hp.literal
  frame x hx := ⟨fun hkept => hkept.2.2 (hp.frame x hx), (h.stack x (hp.frame x hx)).1⟩
  args := hp.args
  few := hp.few

theorem Image.Linked.bitmaps (h : image.Linked m) {c : Byte} (hc : IsAscii c) :
    HasBitmaps .kernel (font6x8 image.fontdata6x8) image.Kept [c.signExtend 32] := by
  intro c' hc' _ _
  obtain rfl := List.mem_singleton.mp hc'
  have hsign : (c.signExtend 32).toNat = c.toNat := by
    have hmsb : c.msb = false := by
      rw [BitVec.msb_eq_false_iff_two_mul_lt]
      have hlt := hc.2
      omega
    rw [BitVec.signExtend_eq_setWidth_of_msb_false hmsb, BitVec.toNat_setWidth]
    omega
  have hlt := hc.2
  have hglyph := font6x8_getChar image.fontdata6x8 (c := c.signExtend 32) (by omega)
  have hkept : ∀ i < 8, image.Kept (fontGetChar (font6x8 image.fontdata6x8) (c.signExtend 32) + BitVec.ofNat 32 i) := by
    intro i hi
    rw [hglyph, add_add_ofNat]
    exact h.font _ (by omega)
  have hsize : (font6x8 image.fontdata6x8).height.toNat * widthByteCount (font6x8 image.fontdata6x8).width = 8 := by
    have hheight : (font6x8 image.fontdata6x8).height.toNat = 8 := rfl
    have hwidth : (font6x8 image.fontdata6x8).width = 6 := rfl
    rw [hheight, hwidth]
    decide
  exact ⟨⟨fun i hi => (hkept i (hsize ▸ hi)).1, fun hp => by cases hp⟩, fun i hi => hkept i (hsize ▸ hi)⟩

end

/-! ## The steps -/

/-- The display after `clear`. -/
def cleared : Display := { Display.init with back := some 0x00 }

theorem cleared_step (cols rows : Nat) (text : List Byte) : cleared.step cols rows (.print (.puts text)) =
    Display.run cols rows [.clear, .print (.puts text)] .init := rfl

/-- The screen shows `text`, and the list of the functions and the table are as in `s₀`. -/
structure Reported (image : Image) (m₀ : Mem 32) (s₀ : System) (text : List Byte) (s : System) : Prop where
  shows : Shows (font6x8 image.fontdata6x8) image.Kept m₀ s.screen
    (cleared.step (font6x8 image.fontdata6x8).cols (font6x8 image.fontdata6x8).rows (.print (.puts text)))
  ascii : ∀ c ∈ text, IsAscii c
  count : s.pci.pciDeviceCount = s₀.pci.pciDeviceCount
  devices : s.pci.pciDevices = s₀.pci.pciDevices
  idtr : s.machine.idtr = s₀.machine.idtr
  table : ∀ x, InRange image.idt (8 * idtEntryCount) x → s.machine.mem x = s₀.machine.mem x

theorem setWidth_eq_iff {b : Byte} {k : Nat} (hk : k < 2 ^ 8) :
    b.setWidth 32 = BitVec.ofNat 32 k ↔ b = BitVec.ofNat 8 k := by
  have hb := b.isLt
  rw [← BitVec.toNat_inj, ← BitVec.toNat_inj, BitVec.toNat_setWidth, BitVec.toNat_ofNat, BitVec.toNat_ofNat]
  omega

/-- The calls for a function, once what is read of it is known. -/
theorem reportBody_eq {read : BitVec 8 → System → Option (Word × System)}
    {print : Message → List Word → System → Option System} {f : Info} {s s1 s2 s3 s4 s5 s6 s7 s8 : System}
    (h1 : read 0x00 s = some (f.vendorId.setWidth 32, s1)) (h2 : read 0x02 s1 = some (f.deviceId.setWidth 32, s2))
    (h3 : read 0x0b s2 = some (f.cls.setWidth 32, s3)) (h4 : read 0x0a s3 = some (f.subclass.setWidth 32, s4))
    (h5 : read 0x09 s4 = some (f.progIf.setWidth 32, s5))
    (h6 : print .vendor [f.vendorId.setWidth 32, f.deviceId.setWidth 32, f.cls.setWidth 32, f.subclass.setWidth 32]
      s5 = some s6) (h7 : read 0x10 s6 = some (f.bar0, s7)) (h8 : read 0x14 s7 = some (f.bar1, s8)) :
    reportBody read print s =
      if f.cls = 0x0C ∧ f.subclass = 0x03 then
        if f.progIf = 0x20 then print .ehci [f.bar0] s7
        else if f.progIf = 0x30 then print .xhci [f.bar1, f.bar0] s8
        else some s7
      else print .cl [f.cls.setWidth 32, f.subclass.setWidth 32] s6 := by
  have hcls : f.cls.setWidth 32 = (0xC : Word) ↔ f.cls = 0x0C := setWidth_eq_iff (by decide)
  have hsubclass : f.subclass.setWidth 32 = (0x3 : Word) ↔ f.subclass = 0x03 := setWidth_eq_iff (by decide)
  have hehci : f.progIf.setWidth 32 = (0x20 : Word) ↔ f.progIf = 0x20 := setWidth_eq_iff (by decide)
  have hxhci : f.progIf.setWidth 32 = (0x30 : Word) ↔ f.progIf = 0x30 := setWidth_eq_iff (by decide)
  simp only [reportBody, h1, h2, h3, h4, h5, h6, h7, h8, Option.bind_eq_bind, Option.bind_some, hcls, hsubclass,
    hehci, hxhci]

section

variable {config : Config} {image : Image} {m₀ : Mem 32} {s₀ : System} {text : List Byte} {s : System}

/-- An access leaves all but the address port as it is. -/
theorem Reported.read (h : Reported image m₀ s₀ text s) {dev : PciDevice} {field : BitVec 8} {register : BitVec 6}
    {v : Word} (hv : pciPart field (config.dword dev.location register) = some v)
    (hreg : ((field &&& 0xFC) >>> 2).setWidth 6 = register) :
    ∃ t, s.read config dev field = some (v, t) ∧ Reported image m₀ s₀ text t := by
  have hvalue := pciRead_value config dev field s.pci
  rw [hreg, hv] at hvalue
  have hstate : pciRead config dev field s.pci = (some v, (pciRead config dev field s.pci).2) := Prod.ext hvalue rfl
  refine ⟨{ s with pci := (pciRead config dev field s.pci).2 }, ?_, h.shows, h.ascii, h.count, h.devices, h.idtr,
    h.table⟩
  rw [System.read, hstate]

theorem Reported.print (hl : image.Linked m₀) (h : Reported image m₀ s₀ text s) (msg : Message) (args : List Word)
    (hargs : args.length = msg.args) : ∃ s', s.print (image.site msg) args = some s' ∧
      Reported image m₀ s₀ (text ++ callText msg.format args) s' := by
  have hprints := hl.prints msg
  obtain ⟨t, hrun, hshows, hframe⟩ := Printf.shows_printfCall (p := .kernel) args (font6x8_fits _)
    (fun c => hl.bitmaps) h.shows (hargs ▸ hl.apart hprints) (hargs ▸ msg.fmt)
  have htext : ∀ c ∈ callText msg.format args, IsAscii c := Printf.callText_ascii args msg.fmt
  refine ⟨s.withScreen t, by rw [System.print, hrun, Option.map_some], ?_, ?_, h.count, h.devices, h.idtr, ?_⟩
  · rw [Printf.step_puts_append h.ascii htext]
    exact hshows
  · exact List.forall_mem_append.mpr ⟨h.ascii, htext⟩
  · intro x hx
    refine (hframe x (fun hin => ?_) (hl.idt x hx)).trans (h.table x hx)
    exact (hl.stack x (hprints.frame x (hargs ▸ hin))).2 hx

/-- The line of one function. -/
theorem reportDevice_spec (config : Config) (hl : image.Linked m₀) (h : Reported image m₀ s₀ text s) (i : Nat) :
    let f := config.info (PciDevice.ofBits (s₀.pci.pciDevices i)).location
    ∃ s', reportDevice config image i s = some s' ∧ Reported image m₀ s₀ (text ++ f.line) s' := by
  intro f
  obtain ⟨dev, hdev⟩ : ∃ dev, PciDevice.ofBits (s₀.pci.pciDevices i) = dev := ⟨_, rfl⟩
  have hf : f = config.info dev.location := hdev ▸ rfl
  have hdev' : PciDevice.ofBits (s.pci.pciDevices i) = dev := by rw [h.devices, hdev]
  obtain ⟨s1, h1, hs1⟩ := h.read (part_vendorId config dev.location) rfl
  obtain ⟨s2, h2, hs2⟩ := hs1.read (part_deviceId config dev.location) rfl
  obtain ⟨s3, h3, hs3⟩ := hs2.read (part_cls config dev.location) rfl
  obtain ⟨s4, h4, hs4⟩ := hs3.read (part_subclass config dev.location) rfl
  obtain ⟨s5, h5, hs5⟩ := hs4.read (part_progIf config dev.location) rfl
  rw [← hf] at h1 h2 h3 h4 h5
  obtain ⟨s6, h6, hs6⟩ := hs5.print hl .vendor
    [f.vendorId.setWidth 32, f.deviceId.setWidth 32, f.cls.setWidth 32, f.subclass.setWidth 32] rfl
  rw [vendor_text] at hs6
  obtain ⟨s7, h7, hs7⟩ := hs6.read (part_bar0 config dev.location) rfl
  obtain ⟨s8, h8, hs8⟩ := hs7.read (part_bar1 config dev.location) rfl
  rw [← hf] at h7 h8
  obtain ⟨se, he, hse⟩ := hs7.print hl .ehci [f.bar0] rfl
  obtain ⟨sx, hx, hsx⟩ := hs8.print hl .xhci [f.bar1, f.bar0] rfl
  obtain ⟨sc, hc, hsc⟩ := hs6.print hl .cl [f.cls.setWidth 32, f.subclass.setWidth 32] rfl
  rw [ehci_text] at hse
  rw [xhci_text] at hsx
  rw [cl_text] at hsc
  rw [reportDevice, hdev', reportBody_eq h1 h2 h3 h4 h5 h6 h7 h8]
  by_cases husb : f.cls = 0x0C ∧ f.subclass = 0x03
  · simp only [if_pos husb]
    by_cases hehci : f.progIf = 0x20
    · refine ⟨se, by rw [if_pos hehci, he], ?_⟩
      simpa only [Info.line, if_pos husb, if_pos hehci, List.append_assoc] using hse
    · by_cases hxhci : f.progIf = 0x30
      · refine ⟨sx, by rw [if_neg hehci, if_pos hxhci, hx], ?_⟩
        simpa only [Info.line, if_pos husb, if_neg hehci, if_pos hxhci, List.append_assoc] using hsx
      · refine ⟨s7, by rw [if_neg hehci, if_neg hxhci], ?_⟩
        simpa only [Info.line, if_pos husb, if_neg hehci, if_neg hxhci, List.append_assoc, List.append_nil] using hs7
  · refine ⟨sc, by rw [if_neg husb, hc], ?_⟩
    simpa only [Info.line, if_neg husb, List.append_assoc] using hsc

/-! ## The whole of it -/

theorem bootSteps_frame {idt x : Word} (hx : ¬ InRange idt (8 * idtEntryCount) x) (steps : List BootStep)
    (s : Machine) : (steps.foldl (fun s a => s.step idt a) s).mem x = s.mem x := by
  induction steps generalizing s with
  | nil => rfl
  | cons a steps ih =>
    have hstep : (s.step idt a).mem x = s.mem x := by
      cases a with
      | outb port v => rfl
      | lidt idtr => rfl
      | sti => rfl
      | setDescriptor call => exact idtSetDescriptor_frame hx
    exact (ih _).trans hstep

theorem setUp_shows (hl : image.Linked s.machine.mem) (hconsole : s.console = .init) :
    Shows (font6x8 image.fontdata6x8) image.Kept s.machine.mem (setUp image s).screen cleared := by
  have hstart : Shows (font6x8 image.fontdata6x8) image.Kept s.machine.mem
      ⟨{ Console.init with font := some (font6x8 image.fontdata6x8) }, s.machine.mem⟩ .init :=
    ⟨rfl, rfl, rfl, rfl, rfl, fun _ _ _ => rfl, fun _ ha => ha.1, fun _ _ => rfl⟩
  have hclear := hstart.clear
  obtain ⟨machine, console, heap, pci⟩ := s
  obtain rfl : console = .init := hconsole
  refine hclear.other fun a ha => bootSteps_frame ?_ _ _
  intro hin
  cases ha with
  | inl hscreen => exact hl.idt a hin hscreen
  | inr hkept => exact hkept.2.1 hin

/-- The lines of the first `i` functions that are recorded. -/
def linesOf (config : Config) (s : Pci) (i : Nat) : List Byte :=
  (List.range i).flatMap fun j => (config.info (PciDevice.ofBits (s.pciDevices j)).location).line

theorem linesOf_succ (config : Config) (s : Pci) (i : Nat) : linesOf config s (i + 1) =
    linesOf config s i ++ (config.info (PciDevice.ofBits (s.pciDevices i)).location).line := by
  rw [linesOf, List.range_succ, List.flatMap_append, List.flatMap_singleton, linesOf]

theorem linesOf_recorded (config : Config) (s : Pci) :
    linesOf config s s.pciDeviceCount = s.recorded.flatMap fun loc => (config.info loc).line := by
  rw [linesOf, Pci.recorded, List.flatMap_map]

theorem start_reported (config : Config) (hl : image.Linked s.machine.mem) (hconsole : s.console = .init)
    (device : PciDevice) :
    ∃ s' pci, start config image device s = some s' ∧
      Reported image s.machine.mem { setUp image s with pci } (report config) s' := by
  obtain ⟨pci, hscan, hscanned⟩ := pciScan_spec config device (setUp image s).pci
  have hstart : Reported image s.machine.mem { setUp image s with pci } [] { setUp image s with pci } :=
    ⟨setUp_shows hl hconsole, List.forall_mem_nil _, rfl, rfl, rfl, fun _ _ => rfl⟩
  obtain ⟨s₁, hprint, hs₁⟩ := hstart.print hl .ready [] rfl
  rw [ready_text, List.nil_append] at hs₁
  obtain ⟨s', hloop, hs'⟩ := Loop.tryTimes_rule (f := reportDevice config image) (n := s₁.pci.pciDeviceCount) (s := s₁)
    (I := fun i s' => Reported image s.machine.mem { setUp image s with pci }
      (ascii "Everything is init!\n" ++ linesOf config pci i) s')
    (by rwa [linesOf, List.range_zero, List.flatMap_nil, List.append_nil]) fun i _ t ht => by
      obtain ⟨t', hrun, ht'⟩ := reportDevice_spec config hl ht i
      exact ⟨t', hrun, by rwa [linesOf_succ, ← List.append_assoc]⟩
  refine ⟨s', pci, ?_, ?_⟩
  · rw [start, hscan, Option.bind_eq_bind, Option.bind_some, hprint, Option.bind_eq_bind, Option.bind_some, hloop]
  · rwa [hs₁.count, linesOf_recorded, hscanned.recorded] at hs'

end

/-- Whatever PCI functions the machine has, the kernel comes to its last loop, and each pixel of the screen has
the colour that it has on a cleared display on which the report of these functions has been written, in the order
of bus, slot and function. The font, the literals and all other memory but the screen, the table of the interrupts
and the stack are as before. -/
theorem start_shows (config : Config) (image : Image) (device : PciDevice) (s : System) (hconsole : s.console = .init)
    (hl : image.Linked s.machine.mem) :
    let font := font6x8 image.fontdata6x8
    let d := Display.run font.cols font.rows [.clear, .print (.puts (report config))] .init
    ∃ s', start config image device s = some s' ∧
      (∀ px py, ¬ clipped px py → s'.machine.mem (pixelAddress px py) = d.pixel font s.machine.mem px py) ∧
      (∀ a, image.Kept a → s'.machine.mem a = s.machine.mem a) := by
  obtain ⟨s', pci, hrun, h⟩ := start_reported config hl hconsole device
  have hshows := h.shows
  rw [cleared_step] at hshows
  exact ⟨s', hrun, hshows.pixel, hshows.frame⟩

/-- The literals, each in 32 bytes. -/
def sampleLiterals : List Byte :=
  [Message.ready, .vendor, .ehci, .xhci, .cl].flatMap fun msg =>
    msg.format ++ List.replicate (32 - msg.format.length) 0

/-- An image whose font is at 0x1000 and whose literals are from 0x2000 on. -/
def sampleImage : Image where
  fontdata6x8 := 0x1000
  idt := 0xB000
  symbol isr := 0x7000 + BitVec.ofNat 32 (16 * isrList.idxOf (some isr))
  dispatch := 0x6F00
  stack := 0x9000
  stackSize := 0x500
  site
    | .ready => ⟨0x2000, 0x9000, 0x9100⟩
    | .vendor => ⟨0x2020, 0x9000, 0x9100⟩
    | .ehci => ⟨0x2040, 0x9000, 0x9100⟩
    | .xhci => ⟨0x2060, 0x9000, 0x9100⟩
    | .cl => ⟨0x2080, 0x9000, 0x9100⟩

/-- The texts of the exceptions are from 0x4000 on. -/
def sampleImageMem : Mem 32 := fun x =>
  if x.toNat < 0x4000 then sampleLiterals.getD (x.toNat - 0x2000) 0
  else ((Isr.all[(x.toNat - 0x4000) / 64]?).elim [] fun isr => isr.body.text).getD ((x.toNat - 0x4000) % 64) 0

theorem sampleImage_kept {x : Word} (h : x.toNat < 0x9000) : sampleImage.Kept x := by
  have hvga : vgaAddress.toNat = 0xA0000 := rfl
  have hsize : screenSize = 64000 := rfl
  have hidt : sampleImage.idt.toNat = 0xB000 := rfl
  have hstack : sampleImage.stack.toNat = 0x9000 := rfl
  have hstackSize : sampleImage.stackSize = 0x500 := rfl
  refine ⟨?_, ?_, ?_⟩
  · rw [inRange_iff (by omega)]
    omega
  · rw [idtEntryCount, inRange_iff (by omega)]
    omega
  · rw [inRange_iff (by omega)]
    omega

/-- Up to four arguments, and `printf_buf` behind them. -/
theorem sampleImage_frame (fmt : Word) {n : Nat} (hn : n ≤ 4) {x : Word} :
    ((⟨fmt, 0x9000, 0x9100⟩ : Site).Frame n x → InRange sampleImage.stack sampleImage.stackSize x) ∧
      (InRange (0x9000 : Word) (4 * n) x → ¬ InRange (0x9100 : Word) Printf.printfBufSize x) := by
  have hlow : (0x9000 : Word).toNat = 0x9000 := rfl
  have hhigh : (0x9100 : Word).toNat = 0x9100 := rfl
  have hstack : sampleImage.stack.toNat = 0x9000 := rfl
  have hstackSize : sampleImage.stackSize = 0x500 := rfl
  simp only [Site.Frame, Printf.printfBufSize]
  rw [inRange_iff (by omega), inRange_iff (by omega), inRange_iff (by omega)]
  omega

theorem sampleImage_linked : sampleImage.Linked sampleImageMem where
  font i hi := by
    refine sampleImage_kept ?_
    have hfont : sampleImage.fontdata6x8.toNat = 0x1000 := rfl
    rw [toNat_add_ofNat (by omega)]
    omega
  prints msg := by
    have hlen : msg.format.length < 32 := by cases msg <;> decide +kernel
    have hfmt : (sampleImage.site msg).fmt.toNat ≤ 0x2080 := by cases msg <;> decide
    have hsite : sampleImage.site msg = ⟨(sampleImage.site msg).fmt, 0x9000, 0x9100⟩ := by cases msg <;> rfl
    have hargs : msg.args ≤ 4 := by cases msg <;> decide
    have hbytes : ∀ i ≤ msg.format.length,
        sampleImageMem ((sampleImage.site msg).fmt + BitVec.ofNat 32 i) = msg.format.getD i 0 := by
      cases msg <;> decide +kernel
    rw [hsite]
    refine ⟨fun i hi => ⟨sampleImage_kept ?_, hbytes i hi⟩, fun x => (sampleImage_frame _ hargs).1,
      fun x => (sampleImage_frame 0 hargs).2, by omega⟩
    simp only
    rw [toNat_add_ofNat (by omega)]
    omega
  stack x hx := by
    have hvga : vgaAddress.toNat = 0xA0000 := rfl
    have hsize : screenSize = 64000 := rfl
    have hidt : sampleImage.idt.toNat = 0xB000 := rfl
    have hstack : sampleImage.stack.toNat = 0x9000 := rfl
    have hstackSize : sampleImage.stackSize = 0x500 := rfl
    rw [inRange_iff (by omega)] at hx
    rw [idtEntryCount, inRange_iff (by omega), inRange_iff (by omega)]
    omega
  idt x hx := by
    have hidt : sampleImage.idt.toNat = 0xB000 := rfl
    have hvga : vgaAddress.toNat = 0xA0000 := rfl
    have hsize : screenSize = 64000 := rfl
    rw [idtEntryCount, inRange_iff (by omega)] at hx
    rw [inRange_iff (by omega)]
    omega

/-- A bridge and an XHCI controller. -/
def sampleConfig : Config := fun loc =>
  if loc = ⟨0, 0, 0⟩ then some fun register => if register = 0 then 0x12378086 else 0x06000002
  else if loc = ⟨0, 4, 0⟩ then some fun register => if register = 0 then 0x000D1B36 else 0x0C033001
  else none

example : (sampleConfig.info ⟨0, 0, 0⟩).line = ascii "Vendor:8086, Device:1237, Cl: 06-00\n" := by decide +kernel

example : (sampleConfig.info ⟨0, 4, 0⟩).line = ascii "Vendor:1B36, Device:000D, XHCI:0C033001.0C033001\n" := by
  decide +kernel

/-- The image before `_start`. -/
def sampleSystem : System where
  machine := ⟨⟨.masked 8 4, .masked 0x70 2⟩, false, ⟨0, 0⟩, sampleImageMem⟩
  console := .init
  heap := allocInit 0x1000 0x1000
  pci := ⟨0, 0, fun _ => 0⟩

theorem sampleSystem_mem : sampleSystem.machine.mem = sampleImageMem := by
  rw [sampleSystem]

theorem start_shows_xhci :
    let font := font6x8 sampleImage.fontdata6x8
    let d := Display.run font.cols font.rows [.clear, .print (.puts (report sampleConfig))] .init
    ∃ s', start sampleConfig sampleImage (.ofBits 0) sampleSystem = some s' ∧
      (∀ px py, ¬ clipped px py →
        s'.machine.mem (pixelAddress px py) = d.pixel font sampleSystem.machine.mem px py) ∧
      (∀ a, sampleImage.Kept a → s'.machine.mem a = sampleSystem.machine.mem a) :=
  start_shows sampleConfig sampleImage (.ofBits 0) sampleSystem rfl (sampleSystem_mem ▸ sampleImage_linked)

end Kernel
end Amethyst
