import Amethyst.Stage2.Io

/-!
# Amethyst.Stage2.Fs

`fs_read` (`fs.asm`), which finds a file in the root directory and reads it: the code from `fs_read`
to its `ret`, and the part of `error` that it jumps to. `Layout` has the addresses that the assembler
and the linker choose. `step` follows the labels of the source; the run starts at `fsRead`, in the
machine as the caller's `call` leaves it, with the return address on top of the stack.

* `packet_fill`: the packet that the stores to `DAP` make.
* `error_reaches`: a label of `error` comes to its `ret` with CF set and the stack as it was.
-/

namespace Amethyst
namespace Stage2

open RealMode RealMode.Op

/-! ## The image -/

def ascii (s : String) : List (BitVec 8) := s.toList.map fun c => BitVec.ofNat 8 c.toNat

/-- The labels of `error` that `fs_read` jumps to. -/
inductive Error where
  | readDiskFailure
  | fileNotFound
  | entryIsDirectory
  | fileFirstClusterIsZero
deriving DecidableEq, Repr

def Error.text : Error → List (BitVec 8)
  | readDiskFailure => ascii "[ERROR]: Fail to read the disk: "
  | fileNotFound => ascii "[ERROR]: File not found!\n"
  | entryIsDirectory => ascii "[ERROR]: This is not a file but a directory\n"
  | fileFirstClusterIsZero => ascii "[ERROR]: The file first cluster is 0\n"

structure Layout where
  /-- The address of the text of an error. -/
  text : Error → BitVec 16
  dap : BitVec 16
  io : Io
  /-- The addresses after the calls: of `puts` for an error, of `putx`, of `putc`. -/
  printed : Error → BitVec 16
  number : BitVec 16
  endl : BitVec 16
  fits : dap.toNat + 40 < 2 ^ 16
  /-- `.data` is before `.bss`. -/
  data : ∀ e, (text e).toNat + e.text.length < dap.toNat

namespace Layout

variable (L : Layout)

def txcount : BitVec 16 := L.dap + 2
def txbuffer : BitVec 16 := L.dap + 4
def lba : BitVec 16 := L.dap + 8
def filename : BitVec 16 := L.dap + 16
def diskID : BitVec 16 := L.dap + 27
def entryCnt : BitVec 16 := L.dap + 32
def rootdir : BitVec 16 := L.dap + 34
def rootdirlen : BitVec 16 := L.dap + 36
def bytesPerSector : BitVec 16 := L.dap + 38
def buffer : BitVec 16 := L.dap + 40

/-- The texts are in memory, each with its NUL. -/
def Loaded (mem : Mem 16) : Prop :=
  ∀ e, mem.Holds (L.text e) (e.text.length + 1) (e.text.getD · 0)

end Layout

/-! ## The code -/

inductive Label where
  | fsRead
  | checkEntries
  | fileFound
  | noRemainder
  | error (e : Error)
  | errorNumberExit
  | exit
  | ret
deriving DecidableEq, Repr

/-- How a run ends: it returns to `ip`, or there is a divide error or a loop without end. -/
inductive End where
  | ret (ip : BitVec 16) (m : Machine)
  | lost (m : Machine)

def End.machine : End → Machine
  | ret _ m => m
  | lost m => m

/-- To the read of the root directory. -/
def rootCall (L : Layout) : Op :=
  exec [mov (word (abs L.filename)) si,
    push es,
    push bx,
    xor eax eax,
    mov ax ds,
    mov es ax,
    mov ax (word (abs L.rootdirlen)),
    mov (word (abs L.txcount)) ax,
    mov (word (abs L.txbuffer)) (imm L.buffer),
    mov (word (abs (L.txbuffer + 2))) ds,
    mov ax (word (abs L.rootdir)),
    mov (dword (abs L.lba)) eax,
    mov (dword (abs (L.lba + 1))) (imm 0),
    mov si (imm L.dap),
    mov dl (byte (abs L.diskID)),
    mov ah (imm 0x42)]

/-- From `no_remainder` to the read of the file. -/
def fileCall (L : Layout) : Op :=
  exec [mov dx ax,
    xor eax eax,
    mov ax (word fun m => m.di + 26),
    add ax (imm 31),
    pop bx,
    pop es,
    mov (word (abs L.txcount)) dx,
    mov (word (abs L.txbuffer)) bx,
    mov (word (abs (L.txbuffer + 2))) es,
    mov (dword (abs L.lba)) eax,
    mov (dword (abs (L.lba + 1))) (imm 0),
    mov si (imm L.dap),
    mov dl (byte (abs L.diskID)),
    mov ah (imm 0x42)]

/-- Compares the name with that of the entry at DI. -/
def compareNames (L : Layout) : Op :=
  exec [mov si (word (abs L.filename)), mov cx (imm 11), push di, repeCmpsb, pop di]

def checkEntries (L : Layout) (m : Machine) : Label × Machine :=
  let m := exec [cmp bx (word (abs L.entryCnt))] m
  -- `jge`, so that the number of entries is a signed one
  if m.lt then
    let m := compareNames L m
    if m.zf then (.fileFound, m) else (.checkEntries, exec [inc bx, add di (imm 32)] m)
  else (.error .fileNotFound, m)

/-- One more sector for a remainder. -/
def roundUp : Op := fun m =>
  let m := exec [or edx edx] m
  if m.zf then m else exec [inc ax] m

def fileFound (L : Layout) (m : Machine) : (Label × Machine) ⊕ End :=
  let m := exec [mov al (byte fun m => m.di + 0x0B), bt ax 4] m
  if m.cf then .inl (.error .entryIsDirectory, m)
  else
    let m := exec [mov ax (word fun m => m.di + 0x1A), or ax (imm 0)] m
    if m.zf then .inl (.error .fileFirstClusterIsZero, m)
    else
      let m := exec [mov ebx (dword fun m => m.di + 0x1C), mov eax (dword fun m => m.di + 28),
        xor ebx ebx, mov bx (word (abs L.bytesPerSector))] m
      -- EDX is what the BIOS left there
      match div ebx m with
      | none => .inr (.lost m)
      | some m => .inl (.noRemainder, roundUp m)

def Error.exit : Error → Label
  | readDiskFailure => .errorNumberExit
  | _ => .exit

def errorNumberExit (L : Layout) (m : Machine) : Option Machine :=
  (call L.number (putx L.io) (exec [mov al ah, and ax (imm 0xF)] m)).bind fun m =>
    call L.endl putc (exec [mov al (imm 0xA)] m)

def step (L : Layout) (bios : Bios) : Label × Machine → (Label × Machine) ⊕ End
  | (.fsRead, m) =>
    let m := int13 bios L.buffer (rootCall L m)
    if m.cf then .inl (.error .readDiskFailure, m)
    else .inl (.checkEntries, exec [mov di (imm L.buffer), xor bx bx] m)
  | (.checkEntries, m) => .inl (checkEntries L m)
  | (.fileFound, m) => fileFound L m
  | (.noRemainder, m) =>
    let m := int13 bios L.buffer (fileCall L m)
    .inl (if m.cf then .error .readDiskFailure else .ret, m)
  | (.error e, m) =>
    match call (L.printed e) (puts L.io) (exec [mov si (imm (L.text e))] m) with
    | none => .inr (.lost m)
    | some m => .inl (e.exit, m)
  | (.errorNumberExit, m) =>
    match errorNumberExit L m with
    | none => .inr (.lost m)
    | some m => .inl (.exit, m)
  | (.exit, m) => .inl (.ret, exec [stc] m)
  | (.ret, m) => .inr (.ret (m.stack m.sp) { m with sp := m.sp + 2 })

/-! ## The packet -/

/-- The memory after the fields of the packet have been stored, in the order of the code: the second
store to `lba` is one byte after the first and overlaps it. -/
def Layout.fill (L : Layout) (count buffer segment : BitVec 16) (lba : BitVec 32) (mem : Mem 16) :
    Mem 16 :=
  ((((mem.write16 L.txcount count).write16 L.txbuffer buffer).write16 (L.txbuffer + 2)
    segment).write32 L.lba lba).write32 (L.lba + 1) 0

section

variable (L : Layout) (count buffer segment : BitVec 16) (lba : BitVec 32) (mem : Mem 16)

theorem fill_frame {x : BitVec 16} (h : 11 ≤ (x - L.txcount).toNat) :
    L.fill count buffer segment lba mem x = mem x := by
  simp only [Layout.txcount] at h
  simp only [Layout.fill, Mem.write16, Mem.write32, Function.update_apply, Layout.txcount,
    Layout.txbuffer, Layout.lba]
  repeat rw [if_neg (by bv_omega)]

theorem lba_bytes (b₀ b₅ b₆ b₇ : BitVec 8) :
    (b₇ ++ b₆ ++ b₅ ++ 0#8 ++ (0#24 ++ b₀) : BitVec 64) = b₇ ++ b₆ ++ b₅ ++ 0#32 ++ b₀ := by
  apply BitVec.eq_of_toNat_eq
  simp only [append_toNat, BitVec.toNat_ofNat]
  omega

/-- Of `lba` only the low byte stays, and the three bytes above the stores. -/
theorem packet_fill {m : Machine} (hm : m.mem = L.fill count buffer segment lba mem)
    (hs : m.si = L.dap) : m.packet = {
      txcount := count
      txbuffer := buffer
      txsegment := segment
      lba := mem (L.dap + 15) ++ mem (L.dap + 14) ++ mem (L.dap + 13) ++ 0#32 ++ lba.extractLsb' 0 8 } := by
  rw [Machine.packet, hm, hs]
  simp [Mem.read64, Mem.read32, Mem.read16, Layout.fill, Mem.write16, Mem.write32, Layout.txcount,
    Layout.txbuffer, Layout.lba, BitVec.add_assoc]
  exact lba_bytes ..

end

variable {L : Layout} {bios : Bios} {m m₁ : Machine}

/-! ## The exits -/

theorem exit_reaches (m : Machine) :
    ∃ m', Reaches (step L bios) (.exit, m) (.ret, m') ∧ Kept 11 m m' ∧ m'.cf = true :=
  ⟨_, .next rfl (.refl _), .of_eq rfl rfl rfl rfl, rfl⟩

theorem errorNumberExit_kept (m : Machine) :
    ∃ m', errorNumberExit L m = some m' ∧ Kept 11 m m' := by
  have hk₁ : Kept 11 m (exec [mov al ah, and ax (imm 0xF)] m) := .of_eq rfl rfl rfl rfl
  obtain ⟨m₂, h₂, hk₂⟩ := putx_kept L.io (push (imm L.number) (exec [mov al ah, and ax (imm 0xF)] m))
  obtain ⟨hc₂, hk₂⟩ := call_kept h₂ hk₂ (by decide)
  obtain ⟨m₃, h₃, hk₃, -⟩ := call_putc L.endl (exec [mov al (imm 0xA)] { m₂ with sp := m₂.sp + 2 })
  have hk : Kept 11 { m₂ with sp := m₂.sp + 2 }
      (exec [mov al (imm 0xA)] { m₂ with sp := m₂.sp + 2 }) := .of_eq rfl rfl rfl rfl
  refine ⟨m₃, ?_, ((hk₁.trans hk₂).trans hk).trans (hk₃.mono (by decide))⟩
  rw [errorNumberExit, hc₂]
  exact h₃

theorem errorNumberExit_reaches (m : Machine) :
    ∃ m', Reaches (step L bios) (.errorNumberExit, m) (.ret, m') ∧ Kept 11 m m' ∧ m'.cf = true := by
  obtain ⟨m₁, h₁, hk₁⟩ := @errorNumberExit_kept L m
  obtain ⟨m', hr, hk, hc⟩ := @exit_reaches L bios m₁
  exact ⟨m', .next (by simp only [step, h₁]) hr, hk₁.trans hk, hc⟩

theorem Error.exit_reaches (e : Error) (m : Machine) :
    ∃ m', Reaches (step L bios) (e.exit, m) (.ret, m') ∧ Kept 11 m m' ∧ m'.cf = true := by
  cases e with
  | readDiskFailure => exact errorNumberExit_reaches m
  | fileNotFound => exact Stage2.exit_reaches m
  | entryIsDirectory => exact Stage2.exit_reaches m
  | fileFirstClusterIsZero => exact Stage2.exit_reaches m

/-- A label of `error` prints its text and goes to the `ret` with CF set, or the text has no end. -/
theorem error_cases (e : Error) (m : Machine) :
    step L bios (.error e, m) = .inr (.lost m) ∨
      ∃ m', Reaches (step L bios) (.error e, m) (.ret, m') ∧ Kept 11 m m' ∧ m'.cf = true := by
  have hk₁ : Kept 11 m (exec [mov si (imm (L.text e))] m) := .of_eq rfl rfl rfl rfl
  cases h : call (L.printed e) (puts L.io) (exec [mov si (imm (L.text e))] m) with
  | none => exact .inl (by simp only [step, h])
  | some m₁ =>
    obtain ⟨m₂, h₂, -, rfl⟩ := call_eq_some.mp h
    have hk₂ := (puts_kept h₂).drop.mono (show 5 ≤ 11 by decide)
    obtain ⟨m', hr, hk, hc⟩ := @Error.exit_reaches L bios e { m₂ with sp := m₂.sp + 2 }
    exact .inr ⟨m', .next (by simp only [step, h]) hr, (hk₁.trans hk₂).trans hk, hc⟩

theorem Error.text_ne_nul (e : Error) : 0 ∉ e.text := by
  cases e <;> decide

theorem error_reaches (h : L.Loaded m.mem) (e : Error) :
    ∃ m', Reaches (step L bios) (.error e, m) (.ret, m') ∧ Kept 11 m m' ∧ m'.cf = true := by
  have hlen : e.text.length < 2 ^ 16 := by
    have := L.data e
    have := L.dap.isLt
    omega
  cases error_cases e m with
  | inr h => exact h
  | inl hl =>
    obtain ⟨m₁, h₁, hk, -⟩ := @puts_prints L.io
      (push (imm (L.printed e)) (exec [mov si (imm (L.text e))] m)) _ hlen e.text_ne_nul (h e)
    obtain ⟨hc, -⟩ := call_kept h₁ hk (by decide)
    simp only [step, hc] at hl
    cases hl

end Stage2
end Amethyst
