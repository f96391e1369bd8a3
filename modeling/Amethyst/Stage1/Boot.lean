import Amethyst.Stage1.Read
import Amethyst.Stage2.Fs

/-!
# Amethyst.Stage1.Boot

The boot sector (`stage1/boot.asm`) from `.setup_fat` on. `Layout` has the addresses that the
assembler chooses, `step` follows the labels of the source. `putc` and `puts` are the same code as in
the second stage; `putx` ends its line with a LF.

* `setupFat_geometry`: the geometry that `lbachs` divides by is the one that the BIOS reports.
* `print_spec`: printing a text changes SI and nothing else that the code uses.
-/

namespace Amethyst
namespace Stage1

open RealMode RealMode.Op
open Stage2 (Io putc puts ascii)

/-! ## The image -/

inductive Text where
  | searchBootBin
  | execBootBin
  | errDiskRead
  | errNotFound
deriving DecidableEq, Repr

def Text.bytes : Text → List (BitVec 8)
  | searchBootBin => ascii "Search BOOT.BIN\n"
  | execBootBin => ascii "Exec BOOT.BIN\n"
  | errDiskRead => ascii "E:Read="
  | errNotFound => ascii "E:NotFound"

/-- What is at `s_boots2`. -/
def bootName : List (BitVec 8) := ascii "BOOT    BIN"

structure Layout where
  tryCnt : BitVec 16
  text : Text → BitVec 16
  sBoots2 : BitVec 16
  io : Io
  /-- The addresses after the calls: of `puts` for a text, of `lbachs` and `read` for the root
  directory and the file, of `putx`. -/
  printed : Text → BitVec 16
  rootChs : BitVec 16
  rootRead : BitVec 16
  fileChs : BitVec 16
  fileRead : BitVec 16
  number : BitVec 16
  placed : Placed tryCnt
  /-- The texts are behind the variables, in the boot sector. -/
  data : ∀ t, tryCnt.toNat < (text t).toNat ∧ (text t).toNat + t.bytes.length < 510
  name : tryCnt.toNat < sBoots2.toNat ∧ sBoots2.toNat + bootName.length ≤ 510

/-- The texts are in memory, each with its NUL, and the name. -/
structure Layout.Loaded (L : Layout) (mem : Mem 16) : Prop where
  texts : ∀ t, mem.Holds (L.text t) (t.bytes.length + 1) (t.bytes.getD · 0)
  name : mem.Holds L.sBoots2 bootName.length (bootName.getD · 0)

/-! ## The code -/

inductive Label where
  | setupFat
  | readEntries
  | checkEntries
  | failFound
  | loadBoots2
  | load
  | diskError
deriving DecidableEq, Repr

/-- How a run ends: a jump to `buffer`, a halt, or a divide error or a loop without end. -/
inductive End where
  | boot (m : Machine)
  | halt (m : Machine)
  | lost (m : Machine)

def End.machine : End → Machine
  | boot m => m
  | halt m => m
  | lost m => m

def putx (io : Io) (m : Machine) : Option Machine :=
  (Stage2.putx.next io (2 ^ 16) (exec [pusha, mov bx ax, mov cx (imm 4)] m)).bind fun m =>
    (call io.space putc (exec [mov ax (imm 0xA)] m)).map (exec [popa])

/-- The macro `print`. -/
def print (L : Layout) (t : Text) (m : Machine) : Option Machine :=
  call (L.printed t) (puts L.io) (exec [mov si (imm (L.text t))] m)

/-- The code of `.setup_fat` up to its `div`. -/
def setupFat : Op :=
  exec [and cl (imm 0x3F),
    xor ch ch,
    mov (word (abs bpbSectorsPerTrack)) cx,
    inc dh,
    mov (byte (abs bpbHeadCount)) dh,
    mov ax (word (abs bpbSectorsPerFat)),
    mov bl (byte (abs bpbNumberFats)),
    xor bh bh,
    mul bx,
    add ax (word (abs bpbReservedSectorCount)),
    push ax,
    mov ax (word (abs bpbSectorsPerFat)),
    shl ax 5,
    mov bx (word (abs bsBytePerSector))]

/-- Compares the name with that of the entry at DI. -/
def compareNames (L : Layout) : Op :=
  exec [mov si (imm L.sBoots2), mov cx (imm 11), push di, repeCmpsb, pop di]

def checkEntries (L : Layout) (m : Machine) : Label × Machine :=
  let m := exec [cmp bx (word (abs bpbRootEntryCount))] m
  if m.lt then
    let m := compareNames L m
    if m.zf then (.loadBoots2, m) else (.checkEntries, exec [inc bx, add di (imm 32)] m)
  else (.failFound, m)

/-- `call read`, and what follows it. -/
def callRead (L : Layout) (replies : Replies) (ra : BitVec 16)
    (next : Machine → (Label × Machine) ⊕ End) (m : Machine) : (Label × Machine) ⊕ End :=
  match read L.tryCnt replies (push (imm ra) m) with
  | none => .inr (.lost m)
  | some (.diskError m) => .inl (.diskError, m)
  | some (.ret m) => if m.stack m.sp = ra then next { m with sp := m.sp + 2 } else .inr (.lost m)

def loadBoots2 (m : Machine) : (Label × Machine) ⊕ End :=
  let m := exec [mov eax (dword fun m => m.di + 28), xor ebx ebx, mov bx (word (abs bsBytePerSector))] m
  -- EDX is what the BIOS left there
  match div ebx m with
  | none => .inr (.lost m)
  | some m =>
    let m := exec [or edx edx] m
    .inl (.load, if m.zf then m else exec [inc ax] m)

def step (L : Layout) (replies : Replies) : Label × Machine → (Label × Machine) ⊕ End
  | (.setupFat, m) =>
    let m := int13 replies (exec [mov ah (imm 8)] m)
    if m.cf then .inl (.diskError, m)
    else
      match div16 bx (setupFat m) with
      | none => .inr (.lost m)
      | some m => .inl (.readEntries, m)
  | (.readEntries, m) =>
    match (print L .searchBootBin m).bind fun m => call L.rootChs lbachs (exec [mov ax (imm 19)] m) with
    | none => .inr (.lost m)
    | some m =>
      callRead L replies L.rootRead
        (fun m => .inl (.checkEntries, exec [mov di (imm buffer), xor bx bx] m)) m
  | (.checkEntries, m) => .inl (checkEntries L m)
  | (.failFound, m) =>
    match print L .errNotFound m with
    | none => .inr (.lost m)
    | some m => .inr (.halt m)
  | (.loadBoots2, m) => loadBoots2 m
  | (.load, m) =>
    match (call L.fileChs lbachs (exec [mov ax (word fun m => m.di + 26), add ax (imm 31)] m)).bind
      (print L .execBootBin) with
    | none => .inr (.lost m)
    | some m =>
      callRead L replies L.fileRead (fun m => .inr (.boot (exec [mov ax (word (abs bsDriveNumber))] m))) m
  | (.diskError, m) =>
    match (print L .errDiskRead (exec [mov al ah] m)).bind (call L.number (putx L.io)) with
    | none => .inr (.lost m)
    | some m => .inr (.halt m)

/-! ## The parts -/

variable {L : Layout} {m m' : Machine}

theorem zero_append_toNat (b : BitVec 8) : (0#8 ++ b : BitVec 16).toNat = b.toNat :=
  (append_toNat 0#8 b).trans (by simp)

/-- The code stores the head count as a byte; the one above it is zero in the image. -/
theorem setupFat_geometry (h : m.mem (bpbHeadCount + 1) = 0) :
    Geometry (cl.get m &&& 0x3F).toNat (dh.get m + 1).toNat (setupFat m).mem := by
  constructor
  · rw [← zero_append_toNat]
    simp [setupFat, Mem.read16, Mem.write16, bpbSectorsPerTrack, bpbHeadCount]
  · have h' : m.mem 27#16 = 0#8 := h
    rw [← zero_append_toNat]
    simp [setupFat, Mem.read16, Mem.write16, bpbSectorsPerTrack, bpbHeadCount, h']

theorem Text.bytes_ne_nul (t : Text) : 0 ∉ t.bytes := by
  cases t <;> decide

theorem putx_kept (io : Io) (m : Machine) : ∃ m', putx io m = some m' ∧ Kept 10 m m' :=
  Stage2.putx.kept_of_last io 0xA m

/-- What `print` keeps. -/
structure Printed (m m' : Machine) : Prop extends Kept 5 m m', Stage2.SameRegisters m m' where
  eax : m'.eax = m.eax

theorem print_spec (hL : L.Loaded m.mem) (t : Text) : ∃ m', print L t m = some m' ∧ Printed m m' := by
  have hlen : t.bytes.length < 2 ^ 16 := by
    have := (L.data t).2
    omega
  obtain ⟨m₁, h₁, hk, -⟩ := @Stage2.puts_prints L.io
    (push (imm (L.printed t)) (exec [mov si (imm (L.text t))] m)) _ hlen t.bytes_ne_nul (hL.texts t)
  obtain ⟨hc, hk'⟩ := call_kept h₁ hk (by decide)
  obtain ⟨⟨h1, h2, h3, h4, h5, h6, h7⟩, h8⟩ := Stage2.puts_registers h₁
  have hk₀ : Kept 5 m (exec [mov si (imm (L.text t))] m) := .of_eq rfl rfl rfl rfl
  refine ⟨_, hc, ?_⟩
  exact {
    toKept := hk₀.trans hk'
    toSameRegisters := ⟨h1, h2, h3, h4, h5, h6, h7⟩
    eax := h8 }

theorem print_calls {t : Text} (h : print L t m = some m') : m'.calls = m.calls := by
  obtain ⟨m₁, h₁, -, rfl⟩ := call_eq_some.mp h
  exact (Stage2.puts_kept h₁).calls

/-- `disk_error` makes no call. -/
theorem diskError_exec (replies : Replies) (m : Machine) :
    ∃ e, Exec (step L replies) (.diskError, m) e ∧ e.machine.calls = m.calls := by
  cases h : (print L .errDiskRead (exec [mov al ah] m)).bind (call L.number (putx L.io)) with
  | none => exact ⟨.lost m, .done (by simp only [step, h]), rfl⟩
  | some m' =>
    obtain ⟨m₁, h₁, h₂⟩ := Option.bind_eq_some_iff.mp h
    obtain ⟨m₂, hx, -, rfl⟩ := call_eq_some.mp h₂
    obtain ⟨m₃, h₃, hk⟩ := putx_kept L.io (push (imm L.number) m₁)
    obtain rfl := Option.some.inj (hx.symm.trans h₃)
    have hcalls : m₂.calls = m₁.calls := hk.calls
    have hprint : m₁.calls = (exec [mov al ah] m).calls := print_calls h₁
    refine ⟨.halt { m₂ with sp := m₂.sp + 2 }, .done ?_, ?_⟩
    · simp only [step, h]
    · show m₂.calls = m.calls
      rw [hcalls, hprint]
      rfl

section

variable {replies : Replies} {ra : BitVec 16} {next : Machine → (Label × Machine) ⊕ End} {k : Nat}
  {o : Outcome}

/-- `read` comes back after a call that succeeds. -/
theorem callRead_returns (hk : k < 6) (hf : ∀ j < k, (replies (m.calls.length + j)).Fails)
    (hr : replies (m.calls.length + k) = .succeeded o) : ∃ m',
      callRead L replies ra next m = next { m' with sp := m'.sp + 2 } ∧
      Returned L.tryCnt replies (push (imm ra) m) k o m' := by
  obtain ⟨m', hread, hret⟩ := read_succeeded L.placed replies (push (imm ra) m) hk hf hr
  have htop : m'.stack m'.sp = ra := by
    rw [hret.stack, hret.sp]
    exact Function.update_self ..
  refine ⟨m', ?_, hret⟩
  rw [callRead, hread]
  exact if_pos htop

/-- Where a `call read` goes: on, to `disk_error`, or nowhere. -/
theorem callRead_cases (L : Layout) (replies : Replies) (ra : BitVec 16)
    (next : Machine → (Label × Machine) ⊕ End) (m : Machine) : ∃ m' k,
      (callRead L replies ra next m = next { m' with sp := m'.sp + 2 } ∨
        callRead L replies ra next m = .inl (.diskError, m') ∨
        callRead L replies ra next m = .inr (.lost m')) ∧
      requests m m' = turns replies (push (imm ra) m) (k + 1) := by
  obtain ⟨e, k, hread, hreq, -, -, ⟨-, m', rfl⟩ | ⟨-, -, m', rfl⟩⟩ :=
    read_ends L.placed replies (push (imm ra) m)
  · refine ⟨m', k, ?_, hreq⟩
    rw [callRead, hread]
    by_cases htop : m'.stack m'.sp = ra
    · exact .inl (if_pos htop)
    · exact .inr (.inr (if_neg htop))
  · refine ⟨m', k, .inr (.inl ?_), hreq⟩
    rw [callRead, hread]

end

end Stage1
end Amethyst
