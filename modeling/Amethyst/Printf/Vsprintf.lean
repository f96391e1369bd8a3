import Amethyst.Printf.Format

/-!
# Amethyst.Printf.Vsprintf

`vsprintf` and `strnlen` (`printf.c`, `string.c`, the same text in the kernel and in the installer),
in a memory that holds the format, the arguments, the strings and the buffer. `va_list` points to
words; every argument takes one. Nothing keeps the buffer from overlapping what is read.
-/

namespace Amethyst
namespace Printf

open Installer (Byte addressSpace cString)

/-! ## `strnlen` -/

/-- `while (*es && maxlen) { es++; maxlen--; }` -/
def strnlenPass (m : Mem 32) : Word × Word → Pass (Word × Word) Word
  | (es, maxlen) => if m es ≠ 0 ∧ maxlen ≠ 0 then .next (es + 1, maxlen - 1) else .leave es

def strnlen (m : Mem 32) (s maxlen : Word) : Option Word :=
  (Loop.run (strnlenPass m) addressSpace (s, maxlen)).map (· - s)

/-! ## The parts of a directive -/

/-- `repeat: ++fmt; switch (*fmt)`, over `fmt` and `flags` -/
def flagPass (m : Mem 32) : Word × Word → Pass (Word × Word) (Word × Word)
  | (fmt, flags) =>
    match flagBit (m (fmt + 1)) with
    | some flag => .next (fmt + 1, flags ||| flag)
    | none => .leave (fmt + 1, flags)

/-- `while (isdigit(**s)) i = i * 10 + *((*s)++) - '0';` -/
def atoiPass (m : Mem 32) : Word × Word → Pass (Word × Word) (Word × Word)
  | (i, s) => if isDigit (m s) then .next (Stdlib.atoiStep i (m s), s + 1) else .leave (i, s)

/-- The number and the pointer behind it. -/
def skipAtoi (m : Mem 32) (s : Word) : Option (Word × Word) :=
  Loop.run (atoiPass m) addressSpace (0, s)

/-- `fmt`, `args`, `flags` and `field_width` -/
def fieldWidth (m : Mem 32) (fmt args flags : Word) : Option (Word × Word × Word × Word) :=
  if isDigit (m fmt) then (skipAtoi m fmt).map fun r => (r.2, args, flags, r.1)
  else if m fmt = 0x2A then
    let width := m.read32 args
    if width.slt 0 then some (fmt + 1, args + 4, flags ||| left, -width)
    else some (fmt + 1, args + 4, flags, width)
  else some (fmt, args, flags, -1)

/-- A precision below 0 is 0. -/
def clampPrecision (precision : Word) : Word := if precision.slt 0 then 0 else precision

/-- `fmt`, `args` and `precision` -/
def fieldPrecision (m : Mem 32) (fmt args : Word) : Option (Word × Word × Word) :=
  if m fmt = 0x2E then
    let fmt := fmt + 1
    if isDigit (m fmt) then (skipAtoi m fmt).map fun r => (r.2, args, clampPrecision r.1)
    else if m fmt = 0x2A then some (fmt + 1, args + 4, clampPrecision (m.read32 args))
    else some (fmt, args, clampPrecision (-1))
  else some (fmt, args, -1)

def fieldQualifier (m : Mem 32) (fmt : Word) : Word × Option Byte :=
  if isQualifier (m fmt) then (fmt + 1, some (m fmt)) else (fmt, none)

/-! ## The conversions -/

/-- `while (--field_width > 0) *str++ = ' ';` -/
def padCharPass : Word × Writer 32 → Pass (Word × Writer 32) (Word × Writer 32)
  | (width, o) =>
    if (0 : Word).slt (width - 1) then .next (width - 1, o.put 0x20) else .leave (width - 1, o)

def padChar (width : Word) (o : Writer 32) : Option (Word × Writer 32) :=
  Loop.run padCharPass (2 ^ 31) (width, o)

/-- `for (i = 0; i < len; ++i) *str++ = *s++;` -/
def copyPass (len : Word) : Word × Word × Writer 32 → Pass (Word × Word × Writer 32) (Writer 32)
  | (i, s, o) => if i.slt len then .next (i + 1, s + 1, o.put (o.mem s)) else .leave o

def copyString (len s : Word) (o : Writer 32) : Option (Writer 32) :=
  Loop.run (copyPass len) addressSpace (0, s, o)

/-- The variables of `vsprintf` from one character of the format to the next. -/
structure Vsprintf where
  fmt : Word
  args : Word
  out : Writer 32

def writeChar (f : Field) (args : Word) (o : Writer 32) : Option (Writer 32) := do
  let (width, o) ← if has f.flags left then some (f.width, o) else padChar f.width o
  let (_, o) ← padChar width (o.put ((o.mem.read32 args).setWidth 8))
  return o

def writeString (f : Field) (args : Word) (o : Writer 32) : Option (Writer 32) := do
  let s := o.mem.read32 args
  let len ← strnlen o.mem s f.precision
  let (width, o) ← if has f.flags left then some (f.width, o) else pad len 0x20 f.width o
  let o ← copyString len s o
  let (_, o) ← pad len 0x20 width o
  return o

/-- The second `switch` and what follows it. -/
def writeConversion (buf : Word) (f : Field) (qualifier : Option Byte) (fmt args : Word) (o : Writer 32) :
    Option Vsprintf :=
  match conversionOf (o.mem fmt) with
  | .char => (writeChar f args o).map fun o => ⟨fmt, args + 4, o⟩
  | .string => (writeString f args o).map fun o => ⟨fmt, args + 4, o⟩
  | .pointer =>
    (number o (o.mem.read32 args) 16 f.pointer.width f.pointer.precision f.pointer.flags).map
      fun o => ⟨fmt, args + 4, o⟩
  | .count =>
    some ⟨fmt, args + 4, { o with mem := o.mem.write32 (o.mem.read32 args) (o.str - buf) }⟩
  | .percent => some ⟨fmt, args, o.put 0x25⟩
  | .integer base flag =>
    let f := f.withFlag flag
    (number o (argument qualifier f.flags (o.mem.read32 args)) (BitVec.ofNat 32 base) f.width f.precision
      f.flags).map fun o => ⟨fmt, args + 4, o⟩
  | .other =>
    let o := o.put 0x25
    if o.mem fmt ≠ 0 then some ⟨fmt, args, o.put (o.mem fmt)⟩ else some ⟨fmt - 1, args, o⟩

def directive (buf : Word) (s : Vsprintf) : Option Vsprintf := do
  let m := s.out.mem
  let (fmt, flags) ← Loop.run (flagPass m) addressSpace (s.fmt, 0)
  let (fmt, args, flags, width) ← fieldWidth m fmt s.args flags
  let (fmt, args, precision) ← fieldPrecision m fmt args
  let (fmt, qualifier) := fieldQualifier m fmt
  writeConversion buf ⟨flags, width, precision⟩ qualifier fmt args s.out

/-! ## `vsprintf` -/

/-- `for (str = buf; *fmt; ++fmt)` -/
def vsprintfPass (buf : Word) (s : Vsprintf) : Option (Pass Vsprintf Vsprintf) :=
  let c := s.out.mem s.fmt
  if c = 0 then some (.leave s)
  else if c ≠ 0x25 then some (.next { s with fmt := s.fmt + 1, out := s.out.put c })
  else (directive buf s).map fun s => .next { s with fmt := s.fmt + 1 }

/-- The number of characters that is returned, and the memory. -/
def vsprintf (buf fmt args : Word) (m : Mem 32) : Option (Word × Mem 32) :=
  (Loop.tryRun (vsprintfPass buf) addressSpace ⟨fmt, args, ⟨buf, m⟩⟩).map fun s =>
    (s.out.str - buf, (s.out.put 0).mem)

end Printf
end Amethyst
