import Amethyst.Chunk
import Amethyst.Memory

/-!
# Amethyst.Kernel.Syscalls

System calls (`kernel/src/kernel/syscalls.asm`, `syscalls.c`): an `int 0xAA` in ring 0 enters `dispatch`,
which takes a function from `syscall_list` by the number in AX, calls it and returns from the interrupt.
The functions are compiled code, given by what they do to the registers and the memory.

`syscall_returns`: a function that keeps to the calling convention is called with its arguments in place, and
the call comes back to where it was made.
-/

namespace Amethyst
namespace Kernel

/-! ## The machine -/

/-- The registers that the code and the compiled functions use, and the memory. The status flags in EFLAGS
are those of the last interrupt or `iret`: nothing here reads the ones that arithmetic leaves. -/
structure Context where
  eax : Word
  ebx : Word
  ecx : Word
  edx : Word
  esi : Word
  edi : Word
  ebp : Word
  esp : Word
  eip : Word
  cs : BitVec 16
  eflags : Word
  mem : Mem 32

namespace Context

def push32 (v : Word) (s : Context) : Context := { s with esp := s.esp - 4, mem := s.mem.write32 (s.esp - 4) v }

def push16 (v : BitVec 16) (s : Context) : Context :=
  { s with esp := s.esp - 2, mem := s.mem.write16 (s.esp - 2) v }

/-- The word on the stack. -/
def top (s : Context) : Word := s.mem.read32 s.esp

def drop (n : Word) (s : Context) : Context := { s with esp := s.esp + n }

/-- `pop ax` -/
def popAx (s : Context) : Context :=
  { s with eax := s.eax &&& 0xFFFF0000 ||| (s.mem.read16 s.esp).setWidth 32, esp := s.esp + 2 }

/-- `mul ebx` -/
def mulEbx (s : Context) : Context :=
  let product : BitVec 64 := s.eax.setWidth 64 * s.ebx.setWidth 64
  { s with eax := product.setWidth 32, edx := (product >>> 32).setWidth 32 }

/-- `iret` without a change of the ring. -/
def iret (s : Context) : Context :=
  { s with
    eip := s.mem.read32 s.esp
    cs := (s.mem.read32 (s.esp + 4)).setWidth 16
    eflags := s.mem.read32 (s.esp + 8)
    esp := s.esp + 12 }

/-- An `int` instruction in ring 0, with EIP after it, that enters a gate of the kernel. -/
def interrupt (handler : Word) (s : Context) : Context :=
  let s' := ((s.push32 s.eflags).push32 (s.cs.setWidth 32)).push32 s.eip
  { s' with eip := handler, cs := 0x8, eflags := s.eflags &&& ~~~0x34300 }

end Context

/-- The code at an address, from its first instruction to its `ret`. -/
abbrev Code := Word → Context → Option Context

/-! ## `dispatch` -/

/-- Up to the call: EAX has the address of the function. -/
def dispatchLookup (syscallList : Word) (s : Context) : Context :=
  let s := s.push16 (s.eax.setWidth 16)
  let s := { s with eax := 0 }
  let s := s.popAx
  let s := s.push32 s.ebx
  let s := { s with ebx := 4 }
  let s := s.mulEbx
  let s := { s with ebx := s.mem.read32 (syscallList + s.eax) }
  let s := { s with eax := s.ebx }
  let s := { s with ebx := s.top }
  s.drop 4

/-- `returnTo` is the address of the `iret`. -/
def dispatch (code : Code) (syscallList returnTo : Word) (s : Context) : Option Context :=
  let s := dispatchLookup syscallList s
  (code s.eax (s.push32 returnTo)).map Context.iret

/-- `int 0xAA` -/
def syscall (code : Code) (syscallList handler returnTo : Word) (s : Context) : Option Context :=
  dispatch code syscallList returnTo (s.interrupt handler)

/-! ## The memory -/

theorem read16_write16 (m : Mem 32) (a : Word) (v : BitVec 16) : (m.write16 a v).read16 a = v := by
  have hne : a ≠ a + 1 := by
    intro h
    have hzero : a + BitVec.ofNat 32 0 = a + BitVec.ofNat 32 1 := (BitVec.add_zero a).trans h
    exact absurd (add_ofNat_inj (by decide) (by decide) hzero) (by decide)
  rw [Mem.read16, Mem.write16, Function.update_self, Function.update_of_ne hne, Function.update_self,
    bytes_append]

theorem write16_frame {m : Mem 32} {a x : Word} {v : BitVec 16} (h : ¬ InRange a 2 x) :
    m.write16 a v x = m x := by
  have hne : ∀ i < 2, x ≠ a + BitVec.ofNat 32 i := by
    intro i hi he
    exact h (he ▸ (inRange_add (by omega)).mpr hi)
  have h0 : x ≠ a := by simpa using hne 0 (by decide)
  have h1 : x ≠ a + 1 := hne 1 (by decide)
  rw [Mem.write16, Function.update_of_ne h1, Function.update_of_ne h0]

/-! ## `dispatch` -/

/-- The address of the entry of the list that is read, for every value of AX. -/
def listEntry (syscallList : Word) (ax : BitVec 16) : Word := syscallList + BitVec.ofNat 32 (4 * ax.toNat)

section

variable {syscallList returnTo : Word} {s : Context}

/-- The four bytes below the stack are used and given back. -/
def scratch (s : Context) : Mem 32 :=
  (s.mem.write16 (s.esp - 2) (s.eax.setWidth 16)).write32 (s.esp - 4) s.ebx

theorem scratch_frame {x : Word} (h : ¬ InRange (s.esp - 4) 4 x) : scratch s x = s.mem x := by
  have hsub : s.esp - 2 = s.esp - 4 + BitVec.ofNat 32 2 := by bv_omega
  have h2 : ¬ InRange (s.esp - 2) 2 x := by
    rw [hsub]
    intro hin
    obtain ⟨i, hi, rfl⟩ := hin.exists_add
    rw [add_add_ofNat, inRange_add (by omega)] at h
    omega
  rw [scratch, Mem.write32_frame h, write16_frame h2]

theorem dispatchLookup_spec (hlist : ∀ x, InRange (listEntry syscallList (s.eax.setWidth 16)) 4 x →
      ¬ InRange (s.esp - 4) 4 x) :
    dispatchLookup syscallList s = { s with
      eax := s.mem.read32 (listEntry syscallList (s.eax.setWidth 16)), edx := 0, mem := scratch s } := by
  obtain ⟨ax, hax⟩ : ∃ ax, s.eax.setWidth 16 = ax := ⟨_, rfl⟩
  have hlt := ax.isLt
  have hesp2 : s.esp - 2 + 2 = s.esp := BitVec.sub_add_cancel s.esp 2
  have hesp4 : s.esp - 4 + 4 = s.esp := BitVec.sub_add_cancel s.esp 4
  have hpop : (0 : Word) &&& 0xFFFF0000 ||| ax.setWidth 32 = ax.setWidth 32 := by
    simp
  have hproduct : (BitVec.setWidth 64 (ax.setWidth 32) * BitVec.setWidth 64 (4 : Word)).toNat = 4 * ax.toNat := by
    simp only [BitVec.toNat_mul, BitVec.toNat_setWidth]
    have h4 : (4 : Word).toNat = 4 := rfl
    rw [h4]
    omega
  have hindex : (BitVec.setWidth 64 (ax.setWidth 32) * BitVec.setWidth 64 (4 : Word)).setWidth 32 =
      BitVec.ofNat 32 (4 * ax.toNat) := by
    apply BitVec.eq_of_toNat_eq
    rw [BitVec.toNat_setWidth, hproduct, BitVec.toNat_ofNat]
  have hhigh : ((BitVec.setWidth 64 (ax.setWidth 32) * BitVec.setWidth 64 (4 : Word)) >>> 32).setWidth 32 =
      (0 : Word) := by
    apply BitVec.eq_of_toNat_eq
    rw [BitVec.toNat_setWidth, BitVec.toNat_ushiftRight, hproduct, Nat.shiftRight_eq_div_pow]
    have hzero : (0 : Word).toNat = 0 := rfl
    rw [hzero]
    omega
  have hmem : (s.mem.write16 (s.esp - 2) ax).write32 (s.esp - 4) s.ebx = scratch s := by rw [scratch, hax]
  have hentry : (scratch s).read32 (syscallList + BitVec.ofNat 32 (4 * ax.toNat)) =
      s.mem.read32 (listEntry syscallList ax) :=
    Mem.read32_congr fun x hx => scratch_frame (hlist x (hax ▸ hx))
  have htop : (scratch s).read32 (s.esp - 4) = s.ebx := Mem.read32_write32 _ _ _
  simp only [dispatchLookup, Context.push16, Context.popAx, Context.push32, Context.mulEbx, Context.top,
    Context.drop, hax, read16_write16, hpop, hesp2, hesp4, hindex, hhigh, hmem, hentry, htop]

end

/-! ## System calls -/

/-- The calling convention, for functions without arguments on the stack: a function takes its return
address, keeps EBX, ESI, EDI and EBP, and leaves its caller's frame alone. -/
structure Cdecl (code : Code) : Prop where
  esp : ∀ a s s', code a s = some s' → s'.esp = s.esp + 4
  ebx : ∀ a s s', code a s = some s' → s'.ebx = s.ebx
  esi : ∀ a s s', code a s = some s' → s'.esi = s.esi
  edi : ∀ a s s', code a s = some s' → s'.edi = s.edi
  ebp : ∀ a s s', code a s = some s' → s'.ebp = s.ebp
  frame : ∀ a s s', code a s = some s' → ∀ x, InRange (s.esp + 4) 12 x → s'.mem x = s.mem x

/-- What an interrupted program relies on. -/
structure Resumed (s t : Context) : Prop where
  eip : t.eip = s.eip
  cs : t.cs = s.cs
  eflags : t.eflags = s.eflags
  esp : t.esp = s.esp
  ebx : t.ebx = s.ebx
  esi : t.esi = s.esi
  edi : t.edi = s.edi
  ebp : t.ebp = s.ebp

/-- A function is called for the program `s`: its arguments are in the registers, and the way back is on the
stack. -/
structure Called (s : Context) (target returnTo : Word) (t : Context) : Prop where
  eax : t.eax = target
  ebx : t.ebx = s.ebx
  ecx : t.ecx = s.ecx
  edx : t.edx = 0
  esi : t.esi = s.esi
  edi : t.edi = s.edi
  ebp : t.ebp = s.ebp
  esp : t.esp = s.esp - 16
  top : t.top = returnTo
  frame : ∀ x, ¬ InRange (s.esp - 16) 16 x → t.mem x = s.mem x

theorem read32_write32_apart {m : Mem 32} {b v : Word} {i j : Nat} (h : i + 4 ≤ j ∨ j + 4 ≤ i)
    (hi : i + 4 ≤ 2 ^ 32) (hj : j + 4 ≤ 2 ^ 32) :
    (m.write32 (b + BitVec.ofNat 32 i) v).read32 (b + BitVec.ofNat 32 j) = m.read32 (b + BitVec.ofNat 32 j) := by
  refine Mem.read32_congr fun x hx => Mem.write32_frame fun hin => ?_
  obtain ⟨k, hk, rfl⟩ := hx.exists_add
  obtain ⟨l, hl, he⟩ := hin.exists_add
  rw [add_add_ofNat, add_add_ofNat] at he
  have := add_ofNat_inj (by omega) (by omega) he
  omega

section

variable {b v x : Word} {m : Mem 32} {i : Nat}

theorem write32_frame_within (h : ¬ InRange b 16 x) (hi : i + 4 ≤ 16) :
    m.write32 (b + BitVec.ofNat 32 i) v x = m x := by
  refine Mem.write32_frame fun hin => h ?_
  obtain ⟨k, hk, rfl⟩ := hin.exists_add
  rw [add_add_ofNat, inRange_add (by omega)]
  omega

end

section

variable {code : Code} {syscallList handler returnTo : Word} {s : Context}

/-- The stack of a system call, from the return address up. -/
theorem syscall_called (hlist : ∀ x, InRange (listEntry syscallList (s.eax.setWidth 16)) 4 x →
      ¬ InRange (s.esp - 16) 16 x) :
    let target := s.mem.read32 (listEntry syscallList (s.eax.setWidth 16))
    ∃ t, Called s target returnTo t ∧ t.mem.read32 (t.esp + 4) = s.eip ∧
      t.mem.read32 (t.esp + 8) = s.cs.setWidth 32 ∧ t.mem.read32 (t.esp + 12) = s.eflags ∧
      syscall code syscallList handler returnTo s = (code target t).map Context.iret := by
  intro target
  obtain ⟨b, hb⟩ : ∃ b, s.esp - 16 = b := ⟨_, rfl⟩
  have h4 : s.esp - 4 = b + BitVec.ofNat 32 12 := by bv_omega
  have h8 : s.esp - 4 - 4 = b + BitVec.ofNat 32 8 := by bv_omega
  have h12 : s.esp - 4 - 4 - 4 = b + BitVec.ofNat 32 4 := by bv_omega
  have h16 : s.esp - 4 - 4 - 4 - 4 = b := by bv_omega
  have hb0 : b = b + BitVec.ofNat 32 0 := (BitVec.add_zero b).symm
  obtain ⟨i, hi⟩ : ∃ i, s.interrupt handler = i := ⟨_, rfl⟩
  have hesp : i.esp - 4 = b := by rw [← hi, ← h16]; rfl
  have heax : i.eax = s.eax := by rw [← hi]; rfl
  have himem : i.mem = (((s.mem.write32 (b + BitVec.ofNat 32 12) s.eflags).write32 (b + BitVec.ofNat 32 8)
      (s.cs.setWidth 32)).write32 (b + BitVec.ofNat 32 4) s.eip) := by
    rw [← hi, ← h12, ← h8, ← h4]
    rfl
  have hout : ∀ x, ¬ InRange b 16 x → i.mem x = s.mem x := by
    intro x hx
    rw [himem, write32_frame_within hx (by decide), write32_frame_within hx (by decide),
      write32_frame_within hx (by decide)]
  have hbelow : ∀ x, InRange b 4 x → InRange b 16 x := fun x hx => hx.mono (by decide)
  rw [hb] at hlist
  have hlookup := @dispatchLookup_spec syscallList i (by
    rw [heax, hesp]
    exact fun x hx hin => hlist x hx (hbelow x hin))
  have htarget : i.mem.read32 (listEntry syscallList (i.eax.setWidth 16)) = target := by
    rw [heax]
    exact Mem.read32_congr fun x hx => hout x (hlist x hx)
  rw [htarget] at hlookup
  obtain ⟨t, ht⟩ : ∃ t, (dispatchLookup syscallList i).push32 returnTo = t := ⟨_, rfl⟩
  have htesp : t.esp = b := by rw [← ht, hlookup, ← hesp]; rfl
  have htmem : t.mem = (scratch i).write32 b returnTo := by rw [← ht, hlookup, ← hesp]; rfl
  -- the words of the interrupt are above the ones that have been used since
  have hframe : ∀ k, 4 ≤ k → k + 4 ≤ 16 → t.mem.read32 (b + BitVec.ofNat 32 k) =
      i.mem.read32 (b + BitVec.ofNat 32 k) := by
    intro k hk hk'
    rw [htmem, hb0, BitVec.add_zero]
    refine Mem.read32_congr fun x hx => ?_
    have hnot : ¬ InRange b 4 x := by
      obtain ⟨l, hl, rfl⟩ := hx.exists_add
      rw [add_add_ofNat, inRange_add (by omega)]
      omega
    rw [Mem.write32_frame hnot, scratch_frame (by rw [hesp]; exact hnot)]
  refine ⟨t, ⟨?_, ?_, ?_, ?_, ?_, ?_, ?_, ?_, ?_, ?_⟩, ?_, ?_, ?_, ?_⟩
  · rw [← ht, hlookup]; rfl
  · rw [← ht, hlookup, ← hi]; rfl
  · rw [← ht, hlookup, ← hi]; rfl
  · rw [← ht, hlookup]; rfl
  · rw [← ht, hlookup, ← hi]; rfl
  · rw [← ht, hlookup, ← hi]; rfl
  · rw [← ht, hlookup, ← hi]; rfl
  · rw [htesp, hb]
  · rw [Context.top, htesp, htmem, Mem.read32_write32]
  · intro x hx
    rw [hb] at hx
    have hnot : ¬ InRange b 4 x := fun hin => hx (hbelow x hin)
    rw [htmem, Mem.write32_frame hnot, scratch_frame (by rw [hesp]; exact hnot), hout x hx]
  · have h := hframe 4 (by decide) (by decide)
    rw [htesp]
    refine h.trans ?_
    rw [himem, Mem.read32_write32]
  · have h := hframe 8 (by decide) (by decide)
    rw [htesp]
    refine h.trans ?_
    rw [himem, read32_write32_apart (by decide) (by decide) (by decide), Mem.read32_write32]
  · have h := hframe 12 (by decide) (by decide)
    rw [htesp]
    refine h.trans ?_
    rw [himem, read32_write32_apart (by decide) (by decide) (by decide),
      read32_write32_apart (by decide) (by decide) (by decide), Mem.read32_write32]
  · rw [syscall, dispatch, hi, ht]
    have heaxt : (dispatchLookup syscallList i).eax = target := by rw [hlookup]
    rw [heaxt]

/-- A system call of any number calls the function whose address is at that place of the list, or behind the
list, with the registers of the caller but for EAX and EDX; it returns if and only if the function does, and
then to the caller with its stack, its flags and the registers that the convention saves. -/
theorem syscall_returns (hcode : Cdecl code) (hlist : ∀ x,
      InRange (listEntry syscallList (s.eax.setWidth 16)) 4 x → ¬ InRange (s.esp - 16) 16 x) :
    let target := s.mem.read32 (listEntry syscallList (s.eax.setWidth 16))
    ∃ called, Called s target returnTo called ∧
      ((syscall code syscallList handler returnTo s).isSome ↔ (code target called).isSome) ∧
      ∀ t, syscall code syscallList handler returnTo s = some t → Resumed s t := by
  intro target
  obtain ⟨called, hcalled, heip, hcs, heflags, hrun⟩ := @syscall_called code syscallList handler returnTo s hlist
  refine ⟨called, hcalled, ?_, fun t ht => ?_⟩
  · rw [hrun, Option.isSome_map]
  · rw [hrun, Option.map_eq_some_iff] at ht
    obtain ⟨s', hs', rfl⟩ := ht
    have hesp := hcode.esp _ _ _ hs'
    have hword : ∀ k, k + 4 ≤ 12 → s'.mem.read32 (called.esp + 4 + BitVec.ofNat 32 k) =
        called.mem.read32 (called.esp + 4 + BitVec.ofNat 32 k) := by
      intro k hk
      refine Mem.read32_congr fun x hx => hcode.frame _ _ _ hs' x ?_
      obtain ⟨l, hl, rfl⟩ := hx.exists_add
      rw [add_add_ofNat, inRange_add (by omega)]
      omega
    have h0 : s'.mem.read32 (called.esp + 4) = s.eip := by
      have h := hword 0 (by decide)
      rw [BitVec.add_zero] at h
      rw [h, heip]
    have h4 : s'.mem.read32 (called.esp + 4 + 4) = s.cs.setWidth 32 := by
      refine (hword 4 (by decide)).trans ?_
      rw [← hcs, BitVec.add_assoc]
      rfl
    have h8 : s'.mem.read32 (called.esp + 4 + 8) = s.eflags := by
      refine (hword 8 (by decide)).trans ?_
      rw [← heflags, BitVec.add_assoc]
      rfl
    have hcs16 : (s.cs.setWidth 32).setWidth 16 = s.cs := by simp
    have hback : called.esp + 4 + 12 = s.esp := by
      rw [hcalled.esp]
      bv_omega
    refine ⟨?_, ?_, ?_, ?_, ?_, ?_, ?_, ?_⟩
    · simp only [Context.iret, hesp, h0]
    · simp only [Context.iret, hesp, h4, hcs16]
    · simp only [Context.iret, hesp, h8]
    · simp only [Context.iret, hesp, hback]
    · exact (hcode.ebx _ _ _ hs').trans hcalled.ebx
    · exact (hcode.esi _ _ _ hs').trans hcalled.esi
    · exact (hcode.edi _ _ _ hs').trans hcalled.edi
    · exact (hcode.ebp _ _ _ hs').trans hcalled.ebp

end

/-- A function that returns at once. -/
def returnAtOnce : Code := fun _ s => some { s with esp := s.esp + 4 }

theorem returnAtOnce_cdecl : Cdecl returnAtOnce where
  esp _ _ _ h := by cases h; rfl
  ebx _ _ _ h := by cases h; rfl
  esi _ _ _ h := by cases h; rfl
  edi _ _ _ h := by cases h; rfl
  ebp _ _ _ h := by cases h; rfl
  frame _ _ _ h _ _ := by cases h; rfl

/-- The second function of the list, with 42 in EBX. -/
theorem syscall_returns_second :
    let s : Context := ⟨1, 42, 0, 0, 0, 0, 0, 0x8FF0, 0x9400, 0x8, 0x202, fun _ => 0x90⟩
    let target := s.mem.read32 (listEntry 0xC000 (s.eax.setWidth 16))
    ∃ called, Called s target 0x9210 called ∧
      ((syscall returnAtOnce 0xC000 0x9200 0x9210 s).isSome ↔ (returnAtOnce target called).isSome) ∧
      ∀ t, syscall returnAtOnce 0xC000 0x9200 0x9210 s = some t → Resumed s t :=
  syscall_returns returnAtOnce_cdecl (by
    intro x hx hin
    have hlist : (listEntry 0xC000 ((1 : Word).setWidth 16)).toNat = 0xC004 := by decide
    have hstack : ((0x8FF0 : Word) - 16).toNat = 0x8FE0 := by decide
    rw [inRange_iff (by rw [hlist]; decide), hlist] at hx
    rw [inRange_iff (by rw [hstack]; decide), hstack] at hin
    omega)

end Kernel
end Amethyst
