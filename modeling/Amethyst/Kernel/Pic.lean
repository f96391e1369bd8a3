import Amethyst.Memory

/-!
# Amethyst.Kernel.Pic

The two interrupt controllers, and the bytes that `pic_remap_irq0` (`kernel/src/kernel/pic.c`) writes to
them. A controller is initialised by a sequence of command words, of which the first one starts it anew
whatever came before, and says which others follow; it also clears the mask.

`remap_config`: after the writes both are initialised and masked, from any state.
-/

namespace Amethyst
namespace Kernel

/-! ## A controller -/

/-- The command word that comes next, if any. -/
inductive PicStage where
  | ready
  | icw2
  | icw3
  | icw4
deriving DecidableEq, Repr

structure Pic where
  stage : PicStage
  single : Bool
  needsIcw4 : Bool
  offset : BitVec 8
  cascade : BitVec 8
  mode : BitVec 8
  mask : BitVec 8
  requests : BitVec 8
deriving DecidableEq, Repr

namespace Pic

/-- A write to the command port. What is no first command word ends interrupts, or selects what is read. -/
def command (v : BitVec 8) (p : Pic) : Pic :=
  if v.getLsbD 4 then
    { p with stage := .icw2, single := v.getLsbD 1, needsIcw4 := v.getLsbD 0, mask := 0, requests := 0 }
  else p

/-- A write to the data port. -/
def data (v : BitVec 8) (p : Pic) : Pic :=
  let last : PicStage := if p.needsIcw4 then .icw4 else .ready
  match p.stage with
  | .ready => { p with mask := v }
  | .icw2 => { p with offset := v &&& 0xF8, stage := if p.single then last else .icw3 }
  | .icw3 => { p with cascade := v, stage := last }
  | .icw4 => { p with mode := v, stage := .ready }

/-- A device asks for an interrupt. -/
def raise (line : Fin 8) (p : Pic) : Pic :=
  { p with requests := p.requests ||| BitVec.twoPow 8 line.val }

/-- The line to the processor, or to the other controller. -/
def int (p : Pic) : Bool := p.requests &&& ~~~p.mask ≠ 0

/-- All but the requests. -/
def config (p : Pic) : Pic := { p with requests := 0 }

variable {p : Pic}

theorem config_command (v : BitVec 8) : (p.command v).config = (p.config.command v).config := by
  unfold command
  split <;> rfl

theorem config_data (v : BitVec 8) : (p.data v).config = (p.config.data v).config := by
  unfold data
  cases p with
  | mk stage _ _ _ _ _ _ _ => cases stage <;> rfl

theorem int_masked (h : p.mask = 0xFF) : p.int = false := by
  have hnone : ~~~p.mask = 0#8 := by
    rw [h]
    rfl
  simp [int, hnone]

end Pic

/-! ## Both -/

structure Pics where
  master : Pic
  slave : Pic
deriving DecidableEq, Repr

namespace Pics

/-- The ports `PIC1_COMMAND`, `PIC1_DATA`, `PIC2_COMMAND` and `PIC2_DATA`. -/
def outb (port : BitVec 16) (v : BitVec 8) (p : Pics) : Pics :=
  if port = 0x20 then { p with master := p.master.command v }
  else if port = 0x21 then { p with master := p.master.data v }
  else if port = 0xA0 then { p with slave := p.slave.command v }
  else if port = 0xA1 then { p with slave := p.slave.data v }
  else p

/-- The lines 0 to 7 are the first controller's, 8 to 15 the second one's. -/
def raise (irq : Fin 16) (p : Pics) : Pics :=
  if h : irq.val < 8 then { p with master := p.master.raise ⟨irq.val, h⟩ }
  else { p with slave := p.slave.raise ⟨irq.val - 8, by omega⟩ }

/-- The line to the processor. The second controller is behind line 2 of the first. -/
def int (p : Pics) : Bool := p.master.int || (p.slave.int && !p.master.mask.getLsbD 2)

def config (p : Pics) : Pics := ⟨p.master.config, p.slave.config⟩

variable {p : Pics}

theorem config_outb (port : BitVec 16) (v : BitVec 8) : (p.outb port v).config = (p.config.outb port v).config := by
  simp only [outb]
  split
  · simp only [config, ← Pic.config_command]
    rfl
  · split
    · simp only [config, ← Pic.config_data]
      rfl
    · split
      · simp only [config, ← Pic.config_command]
        rfl
      · split
        · simp only [config, ← Pic.config_data]
          rfl
        · rfl

theorem config_raise (irq : Fin 16) : (p.raise irq).config = p.config := by
  unfold raise
  split <;> rfl

theorem int_masked (hm : p.config.master.mask = 0xFF) (hs : p.config.slave.mask = 0xFF) : p.int = false := by
  have hmaster : p.master.int = false := Pic.int_masked hm
  have hslave : p.slave.int = false := Pic.int_masked hs
  simp [int, hmaster, hslave]

end Pics

/-! ## `pic_remap_irq0` -/

/-- The calls of `outb`. -/
def picRemapIrq0 : List (BitVec 16 × BitVec 8) :=
  [(0x20, 0x10 ||| 0x01), (0xA0, 0x10 ||| 0x01),
    (0x21, 0x20), (0xA1, 0x28),
    (0x21, 0x04), (0xA1, 0x02),
    (0x21, 0x01), (0xA1, 0x01),
    (0x21, 0xFF), (0xA1, 0xFF)]

def outbAll (writes : List (BitVec 16 × BitVec 8)) (p : Pics) : Pics :=
  writes.foldl (fun p w => p.outb w.1 w.2) p

/-- A controller behind its interrupts' vectors from `offset` on, that lets none through. -/
def Pic.masked (offset cascade : BitVec 8) : Pic := ⟨.ready, false, true, offset, cascade, 0x01, 0xFF, 0⟩

/-- Both are initialised whatever state they were in, in the middle of another initialisation too. -/
theorem remap_config (p : Pics) :
    (outbAll picRemapIrq0 p).config = ⟨.masked 0x20 0x04, .masked 0x28 0x02⟩ := by
  cases p
  rfl

end Kernel
end Amethyst
