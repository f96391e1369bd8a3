import Amethyst.Printf.Sprintf

/-!
# Amethyst.Kernel.Isr

The functions behind the processor's exceptions (`kernel/src/kernel/isr.c`). Each sets the colours of an
information or of a fatal error, prints a text and halts, or calls `return_interrupt`.
-/

namespace Amethyst
namespace Kernel

open Installer (Byte)
open Printf (ascii)

/-- The functions of `isr_list`. -/
inductive Isr where
  | divisionError
  | debug
  | nmi
  | breakpoint
  | overflow
  | boundRangeExceeded
  | invalidOpcode
  | deviceNotAvailable
  | doubleFault
  | coprocessorSegmentOverrun
  | invalidTss
  | segmentNotPresent
  | stackSegmentFault
  | generalProtectedFault
  | pageFault
  | x87FloatingPointException
  | alignementCheck
  | machineCheck
  | smidFloatingPointException
  | virtualizationException
  | controlProtectedException
  | hypervisorInjectionException
  | vmmCommunicationException
  | securityException
deriving DecidableEq, Repr

/-- `isr_list` -/
def isrList : List (Option Isr) :=
  [some .divisionError, some .debug, some .nmi, some .breakpoint, some .overflow, some .boundRangeExceeded,
    some .invalidOpcode, some .deviceNotAvailable, some .doubleFault, some .coprocessorSegmentOverrun,
    some .invalidTss, some .segmentNotPresent, some .stackSegmentFault, some .generalProtectedFault,
    some .pageFault, none, some .x87FloatingPointException, some .alignementCheck, some .machineCheck,
    some .smidFloatingPointException, some .virtualizationException, some .controlProtectedException, none,
    none, none, none, none, none, some .hypervisorInjectionException, some .vmmCommunicationException,
    some .securityException, none]

/-- The functions, each once. -/
def Isr.all : List Isr := isrList.filterMap id

/-- How a function ends. -/
inductive IsrEnd where
  | halt
  | returnInterrupt
deriving DecidableEq, Repr

/-- What the functions have in common. -/
structure IsrBody where
  bgColor : Color
  fgColor : Color
  text : List Byte
  last : IsrEnd
deriving DecidableEq, Repr

/-- `INFO_BG_COLOR` and `INFO_FG_COLOR` -/
def IsrBody.info (text : List Byte) : IsrBody := ⟨0x00, 0x0F, text, .returnInterrupt⟩

/-- `FATAL_BG_COLOR` and `FATAL_FG_COLOR` -/
def IsrBody.fatal (text : List Byte) : IsrBody := ⟨0x00, 0x28, text, .halt⟩

def Isr.body : Isr → IsrBody
  | divisionError => .fatal (ascii "\nDivision by 0, halt")
  | debug => .info (ascii "\nDebug is not supported")
  | nmi => .info (ascii "\nNMI are not supported")
  | breakpoint => .info (ascii "\nBreakpoint are not supported!")
  | overflow => .fatal (ascii "\nOverflow, halt")
  | boundRangeExceeded => .fatal (ascii "\nBound range exceeded, halt")
  | invalidOpcode => .info (ascii "\nInvalid opcode")
  | deviceNotAvailable => .info (ascii "\nDevice is not available")
  | doubleFault => .fatal (ascii "\ndouble fault, halt")
  | coprocessorSegmentOverrun => .fatal (ascii "\nCoprocessor segment overrun, halt")
  | invalidTss => .fatal (ascii "\nInvalid TSS, halt")
  | segmentNotPresent => .fatal (ascii "\nSegment is not present, halt")
  | stackSegmentFault => .fatal (ascii "\nStack segment fault, halt")
  | generalProtectedFault => .fatal (ascii "\nInvalid protected fault, halt")
  | pageFault => .fatal (ascii "\nPage fault, halt")
  | x87FloatingPointException => .fatal (ascii "\nX87 floating-point exception, halt")
  | alignementCheck => .info (ascii "\nAlignement check")
  | machineCheck => .info (ascii "\nMachine check")
  | smidFloatingPointException => .fatal (ascii "\nSMID floating-point exception, halt")
  | virtualizationException => .fatal (ascii "\nVirtualization exception, halt")
  | controlProtectedException => .fatal (ascii "\ncontrol protected exception, halt")
  | hypervisorInjectionException => .fatal (ascii "\nhypervisor injection exception, halt")
  | vmmCommunicationException => .fatal (ascii "\nVMM communication exception, halt")
  | securityException => .fatal (ascii "\nSecurity exception, halt")

end Kernel
end Amethyst
