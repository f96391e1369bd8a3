import Amethyst.Chunk
import Amethyst.Loop
import Amethyst.Memory
import Mathlib.Data.List.Induction

/-!
# Amethyst.Kernel.Idt

The interrupt descriptor table (`kernel/src/kernel/idt.c`, `idt_internal.h`) and the processor's
reading of it.

* `load_set`: a descriptor that is stored is the record of its fields, and no other entry changes.
* `idtRun_entry`: after any calls each entry is the one of the last call for its vector.
* `Cpu.deliver`: how an interrupt or an exception finds its handler, or another one in its place.
-/

namespace Amethyst
namespace Kernel

/-! ## The table -/

/-- `idt_entry_t` -/
structure IdtEntry where
  addrLow : BitVec 16
  segment : BitVec 16
  reserved : BitVec 8
  attributs : BitVec 8
  addrHigh : BitVec 16
deriving DecidableEq, Repr

/-- `IDT_ENTRY_COUNT` -/
def idtEntryCount : Nat := 256

def idtPresent : BitVec 8 := 1 <<< 7

def idtGateInt32 : BitVec 8 := 0xE

def idtRingKernel : BitVec 8 := 0 <<< 5

/-- `&_idt[vector]` -/
def idtEntryAt (idt : Word) (vector : BitVec 8) : Word := idt + BitVec.ofNat 32 (8 * vector.toNat)

def idtSetDescriptor (idt : Word) (vector : BitVec 8) (addr : Word) (attrs : BitVec 8) (m : Mem 32) : Mem 32 :=
  let entry := idtEntryAt idt vector
  let m := m.write16 entry ((addr &&& 0xFFFF).setWidth 16)
  let m := m.write16 (entry + 6) ((addr >>> 16).setWidth 16)
  let m := m.write16 (entry + 2) 0x8
  let m := Function.update m (entry + 5) attrs
  Function.update m (entry + 4) 0

/-- `idtr_t` -/
structure Idtr where
  limit : BitVec 16
  base : Word
deriving DecidableEq, Repr

/-- The loop body of `idt_init`. -/
def idtPass (idt : Word) (isrList : Nat → Word) (i : Nat) (m : Mem 32) : Mem 32 :=
  if isrList i = 0 then m
  else idtSetDescriptor idt (BitVec.ofNat 8 i) (isrList i) (idtPresent ||| idtGateInt32 ||| idtRingKernel) m

/-- `idt_init`: the register that is loaded, and the table. -/
def idtInit (idt : Word) (isrList : Nat → Word) (m : Mem 32) : Idtr × Mem 32 :=
  (⟨BitVec.ofNat 16 (8 * idtEntryCount - 1), idt⟩, Loop.times (idtPass idt isrList) 0x20 m)

/-! ## The entries -/

namespace IdtEntry

def load (m : Mem 32) (entry : Word) : IdtEntry :=
  ⟨m.read16 entry, m.read16 (entry + 2), m (entry + 4), m (entry + 5), m.read16 (entry + 6)⟩

/-- The entry that `idt_set_descriptor` is to store. -/
def gate (addr : Word) (attrs : BitVec 8) : IdtEntry :=
  ⟨addr.setWidth 16, 0x8, 0, attrs, (addr >>> 16).setWidth 16⟩

def offset (e : IdtEntry) : Word := e.addrHigh ++ e.addrLow

@[simp] theorem gate_attributs (addr : Word) (attrs : BitVec 8) : (gate addr attrs).attributs = attrs := rfl

theorem offset_gate (addr : Word) (attrs : BitVec 8) : (gate addr attrs).offset = addr := by
  apply BitVec.eq_of_toNat_eq
  have hlt := addr.isLt
  simp only [offset, gate, append_toNat, BitVec.toNat_setWidth, BitVec.toNat_ushiftRight,
    Nat.shiftRight_eq_div_pow]
  omega

/-- The bytes of an entry. -/
def byte (e : IdtEntry) (i : Nat) : BitVec 8 :=
  match i with
  | 0 => e.addrLow.extractLsb' 0 8
  | 1 => e.addrLow.extractLsb' 8 8
  | 2 => e.segment.extractLsb' 0 8
  | 3 => e.segment.extractLsb' 8 8
  | 4 => e.reserved
  | 5 => e.attributs
  | 6 => e.addrHigh.extractLsb' 0 8
  | _ => e.addrHigh.extractLsb' 8 8

section

variable {m m' : Mem 32} {entry : Word} {e : IdtEntry}

theorem load_of_holds (h : m.Holds entry 8 e.byte) : load m entry = e := by
  have h0 : m entry = e.byte 0 := by simpa using h 0 (by decide)
  have h1 : m (entry + 1) = e.byte 1 := h 1 (by decide)
  have h2 : m (entry + 2) = e.byte 2 := h 2 (by decide)
  have h3 : m (entry + 2 + 1) = e.byte 3 := by
    rw [BitVec.add_assoc]
    exact h 3 (by decide)
  have h4 : m (entry + 4) = e.byte 4 := h 4 (by decide)
  have h5 : m (entry + 5) = e.byte 5 := h 5 (by decide)
  have h6 : m (entry + 6) = e.byte 6 := h 6 (by decide)
  have h7 : m (entry + 6 + 1) = e.byte 7 := by
    rw [BitVec.add_assoc]
    exact h 7 (by decide)
  simp only [load, Mem.read16, h0, h1, h2, h3, h4, h5, h6, h7, byte, bytes_append]

theorem load_congr (h : ∀ x, InRange entry 8 x → m' x = m x) : load m' entry = load m entry := by
  have hbyte : ∀ i < 8, m' (entry + BitVec.ofNat 32 i) = m (entry + BitVec.ofNat 32 i) := fun i hi =>
    h _ ((inRange_add (by omega)).mpr hi)
  have h0 : m' entry = m entry := by simpa using hbyte 0 (by decide)
  have h1 : m' (entry + 1) = m (entry + 1) := hbyte 1 (by decide)
  have h2 : m' (entry + 2) = m (entry + 2) := hbyte 2 (by decide)
  have h3 : m' (entry + 2 + 1) = m (entry + 2 + 1) := by
    rw [BitVec.add_assoc]
    exact hbyte 3 (by decide)
  have h4 : m' (entry + 4) = m (entry + 4) := hbyte 4 (by decide)
  have h5 : m' (entry + 5) = m (entry + 5) := hbyte 5 (by decide)
  have h6 : m' (entry + 6) = m (entry + 6) := hbyte 6 (by decide)
  have h7 : m' (entry + 6 + 1) = m (entry + 6 + 1) := by
    rw [BitVec.add_assoc]
    exact hbyte 7 (by decide)
  simp only [load, Mem.read16, h0, h1, h2, h3, h4, h5, h6, h7]

end

end IdtEntry

section

variable {idt : Word} {vector : BitVec 8} {addr : Word} {attrs : BitVec 8} {m : Mem 32}

/-- The eight bytes that a descriptor is stored in. -/
theorem idtSetDescriptor_eq_fill : idtSetDescriptor idt vector addr attrs m =
    m.fill (idtEntryAt idt vector) 8 (IdtEntry.gate addr attrs).byte := by
  obtain ⟨entry, hentry⟩ : ∃ entry, idtEntryAt idt vector = entry := ⟨_, rfl⟩
  have h3 : entry + 2 + 1 = entry + BitVec.ofNat 32 3 := by rw [BitVec.add_assoc]; rfl
  have h7 : entry + 6 + 1 = entry + BitVec.ofNat 32 7 := by rw [BitVec.add_assoc]; rfl
  have hlow : (addr &&& 0xFFFF).setWidth 16 = addr.setWidth 16 := by
    apply BitVec.eq_of_toNat_eq
    have hmask : (0xFFFF : Word).toNat = 2 ^ 16 - 1 := rfl
    rw [BitVec.toNat_setWidth, BitVec.toNat_setWidth, BitVec.toNat_and, hmask,
      Nat.and_two_pow_sub_one_eq_mod, Nat.mod_mod]
  have hbytes : idtSetDescriptor idt vector addr attrs m = fun x =>
      if x = entry + BitVec.ofNat 32 4 then 0 else if x = entry + BitVec.ofNat 32 5 then attrs
      else if x = entry + BitVec.ofNat 32 3 then (0x8 : BitVec 16).extractLsb' 8 8
      else if x = entry + BitVec.ofNat 32 2 then (0x8 : BitVec 16).extractLsb' 0 8
      else if x = entry + BitVec.ofNat 32 7 then ((addr >>> 16).setWidth 16).extractLsb' 8 8
      else if x = entry + BitVec.ofNat 32 6 then ((addr >>> 16).setWidth 16).extractLsb' 0 8
      else if x = entry + BitVec.ofNat 32 1 then (addr.setWidth 16).extractLsb' 8 8
      else if x = entry then (addr.setWidth 16).extractLsb' 0 8 else m x := by
    funext x
    simp only [idtSetDescriptor, hentry, Mem.write16, hlow, h3, h7, Function.update_apply]
    rfl
  rw [hbytes, hentry]
  funext x
  by_cases hx : InRange entry 8 x
  · obtain ⟨i, hi, rfl⟩ := hx.exists_add
    rw [Mem.fill_holds (by decide) i hi]
    have hne : ∀ k < 8, entry + BitVec.ofNat 32 i = entry + BitVec.ofNat 32 k ↔ i = k := fun k hk =>
      ⟨fun he => add_ofNat_inj (by omega) (by omega) he, fun he => by rw [he]⟩
    have hne0 : entry + BitVec.ofNat 32 i = entry ↔ i = 0 := by
      have h := hne 0 (by decide)
      rwa [BitVec.add_zero] at h
    simp only [hne 4 (by decide), hne 5 (by decide), hne 3 (by decide), hne 2 (by decide), hne 7 (by decide),
      hne 6 (by decide), hne 1 (by decide), hne0]
    have hcases : i = 0 ∨ i = 1 ∨ i = 2 ∨ i = 3 ∨ i = 4 ∨ i = 5 ∨ i = 6 ∨ i = 7 := by omega
    rcases hcases with rfl | rfl | rfl | rfl | rfl | rfl | rfl | rfl <;> rfl
  · have hne : ∀ k < 8, x ≠ entry + BitVec.ofNat 32 k := by
      intro k hk he
      exact hx (he ▸ (inRange_add (by omega)).mpr hk)
    have hne0 : x ≠ entry := by simpa using hne 0 (by decide)
    rw [Mem.fill_frame hx]
    simp only [if_neg (hne 4 (by decide)), if_neg (hne 5 (by decide)), if_neg (hne 3 (by decide)),
      if_neg (hne 2 (by decide)), if_neg (hne 7 (by decide)), if_neg (hne 6 (by decide)),
      if_neg (hne 1 (by decide)), if_neg hne0]

/-- The entries of a table do not overlap. -/
theorem idtEntryAt_apart {v v' : BitVec 8} (h : v' ≠ v) {x : Word} (hx : InRange (idtEntryAt idt v') 8 x) :
    ¬ InRange (idtEntryAt idt v) 8 x := by
  have hv := v.isLt
  have hv' := v'.isLt
  have hne : v'.toNat ≠ v.toNat := fun he => h (BitVec.eq_of_toNat_eq he)
  obtain ⟨i, hi, rfl⟩ := hx.exists_add
  intro hin
  obtain ⟨k, hk, he⟩ := hin.exists_add
  rw [idtEntryAt, idtEntryAt, add_add_ofNat, add_add_ofNat] at he
  have := add_ofNat_inj (by omega) (by omega) he
  omega

/-- A descriptor is stored in its entry, and no other one changes. -/
theorem load_set (v : BitVec 8) : IdtEntry.load (idtSetDescriptor idt vector addr attrs m) (idtEntryAt idt v) =
    if v = vector then .gate addr attrs else IdtEntry.load m (idtEntryAt idt v) := by
  rw [idtSetDescriptor_eq_fill]
  split
  · next h =>
    subst h
    exact IdtEntry.load_of_holds (Mem.fill_holds (by decide))
  · next h => exact IdtEntry.load_congr fun x hx => Mem.fill_frame (idtEntryAt_apart h hx)

theorem idtSetDescriptor_frame {x : Word} (hx : ¬ InRange idt (8 * idtEntryCount) x) :
    idtSetDescriptor idt vector addr attrs m x = m x := by
  have hlt := vector.isLt
  rw [idtSetDescriptor_eq_fill]
  refine Mem.fill_frame fun hin => hx ?_
  obtain ⟨i, hi, rfl⟩ := hin.exists_add
  rw [idtEntryAt, add_add_ofNat, inRange_add (by omega), idtEntryCount]
  omega

end

/-! ## Runs -/

/-- A call of `idt_set_descriptor`. -/
structure SetDescriptor where
  vector : BitVec 8
  addr : Word
  attrs : BitVec 8
deriving DecidableEq, Repr

def idtRun (idt : Word) (calls : List SetDescriptor) (m : Mem 32) : Mem 32 :=
  calls.foldl (fun m call => idtSetDescriptor idt call.vector call.addr call.attrs m) m

/-- The last call for a vector. -/
def lastFor (vector : BitVec 8) (calls : List SetDescriptor) : Option SetDescriptor :=
  calls.reverse.find? fun call => call.vector = vector

section

variable {idt : Word} {m : Mem 32}

theorem lastFor_concat (vector : BitVec 8) (calls : List SetDescriptor) (call : SetDescriptor) :
    lastFor vector (calls ++ [call]) = if call.vector = vector then some call else lastFor vector calls := by
  rw [lastFor, List.reverse_append, List.reverse_singleton, List.singleton_append, List.find?_cons]
  split
  · next h => rw [if_pos (by simpa using h)]
  · next h =>
    rw [if_neg (by simpa using h)]
    rfl

/-- By induction on the calls, the last one first. -/
theorem idtRun_load (idt : Word) (m : Mem 32) (calls : List SetDescriptor) (v : BitVec 8) :
    IdtEntry.load (idtRun idt calls m) (idtEntryAt idt v) =
      match lastFor v calls with
      | some call => .gate call.addr call.attrs
      | none => IdtEntry.load m (idtEntryAt idt v) := by
  induction calls using List.reverseRecOn with
  | nil => rfl
  | append_singleton calls call ih =>
    have hrun : idtRun idt (calls ++ [call]) m =
        idtSetDescriptor idt call.vector call.addr call.attrs (idtRun idt calls m) := by
      rw [idtRun, List.foldl_append]
      rfl
    rw [hrun, load_set, lastFor_concat, ih]
    by_cases hv : v = call.vector
    · rw [if_pos hv, if_pos hv.symm]
    · rw [if_neg hv, if_neg fun h => hv h.symm]

theorem idtRun_frame (calls : List SetDescriptor) {x : Word} (hx : ¬ InRange idt (8 * idtEntryCount) x) :
    idtRun idt calls m x = m x := by
  induction calls generalizing m with
  | nil => rfl
  | cons call calls ih => exact ih.trans (idtSetDescriptor_frame hx)

end

/-! ## The processor -/

/-- The register that the delivery of an interrupt depends on, and the memory. The processor is in ring 0,
which the kernel never leaves: it has segments of no other ring, and no TSS for a change of ring. -/
structure Cpu where
  idtr : Idtr
  mem : Mem 32

/-- What becomes of an interrupt with its own gate: it is entered, it is one that this table has none of
(a task gate, or one of 16 bits), or it faults. -/
inductive Attempt where
  | enters (addr : Word)
  | elsewhere
  | faults (vector : BitVec 8)
deriving DecidableEq, Repr

/-- What becomes of it in the end. -/
inductive Delivery where
  | handler (vector : BitVec 8) (addr : Word)
  | elsewhere
  | shutdown
deriving DecidableEq, Repr

/-- General protection, segment not present and double fault. -/
def gpVector : BitVec 8 := 0x0D

def npVector : BitVec 8 := 0x0B

def dfVector : BitVec 8 := 0x08

namespace IdtEntry

def type (e : IdtEntry) : BitVec 5 := e.attributs.extractLsb' 0 5

def present (e : IdtEntry) : Bool := e.attributs.getLsbD 7

end IdtEntry

namespace Cpu

/-- The processor's checks of a gate, in their order. In ring 0 no gate asks for more privilege. -/
def attempt (c : Cpu) (vector : BitVec 8) : Attempt :=
  let e := IdtEntry.load c.mem (idtEntryAt c.idtr.base vector)
  if c.idtr.limit.toNat < 8 * vector.toNat + 7 then .faults gpVector
  else if e.type ∉ [0x5, 0x6, 0x7, 0xE, 0xF] then .faults gpVector
  else if ¬ e.present then .faults npVector
  else if e.type = 0xE ∨ e.type = 0xF then .enters e.offset
  else .elsewhere

def doubleFault (c : Cpu) : Delivery :=
  match c.attempt dfVector with
  | .enters addr => .handler dfVector addr
  | .elsewhere => .elsewhere
  | .faults _ => .shutdown

/-- The exceptions that make a double fault of another one. -/
def Serious (vector : BitVec 8) : Prop := vector.toNat ∈ [0, 10, 11, 12, 13, 14]

instance (vector : BitVec 8) : Decidable (Serious vector) := inferInstanceAs (Decidable (_ ∈ _))

/-- The delivery of an interrupt, of an exception or (`software`) of an `int` instruction. -/
def deliver (c : Cpu) (software : Bool) (vector : BitVec 8) : Delivery :=
  match c.attempt vector with
  | .enters addr => .handler vector addr
  | .elsewhere => .elsewhere
  | .faults fault =>
    if software = false ∧ vector = dfVector then .shutdown
    else if software = false ∧ Serious vector then c.doubleFault
    else
      match c.attempt fault with
      | .enters addr => .handler fault addr
      | .elsewhere => .elsewhere
      | .faults _ => c.doubleFault

end Cpu

/-- The attributes of every descriptor of the kernel. -/
def kernelGate : BitVec 8 := idtPresent ||| idtGateInt32 ||| idtRingKernel

/-- The register covers the table. -/
structure Cpu.Loaded (c : Cpu) (idt : Word) : Prop where
  base : c.idtr.base = idt
  limit : 8 * idtEntryCount - 1 ≤ c.idtr.limit.toNat

section

variable {c : Cpu} {idt : Word} {v : BitVec 8}

theorem Cpu.Loaded.within (h : c.Loaded idt) (v : BitVec 8) : ¬ c.idtr.limit.toNat < 8 * v.toNat + 7 := by
  have hlt := v.isLt
  have hlimit := h.limit
  rw [idtEntryCount] at hlimit
  omega

/-- An interrupt with a gate of the kernel enters it. -/
theorem Cpu.attempt_gate (h : c.Loaded idt) {addr : Word}
    (hload : IdtEntry.load c.mem (idtEntryAt idt v) = .gate addr kernelGate) :
    c.attempt v = .enters addr := by
  have htype : kernelGate.extractLsb' 0 5 = 0xE := by decide
  have hpresent : kernelGate.getLsbD 7 = true := by decide
  have hmem : ¬ (0xE : BitVec 5) ∉ [0x5, 0x6, 0x7, 0xE, 0xF] := by decide
  simp only [attempt, h.base, hload, if_neg (h.within v), IdtEntry.type, IdtEntry.present,
    IdtEntry.gate_attributs, htype, hpresent, IdtEntry.offset_gate, if_neg hmem]
  rfl

/-- An entry of zeros is no gate. -/
theorem Cpu.attempt_empty (h : c.Loaded idt)
    (hload : (IdtEntry.load c.mem (idtEntryAt idt v)).attributs = 0) : c.attempt v = .faults gpVector := by
  have htype : (IdtEntry.load c.mem (idtEntryAt idt v)).type = 0 := by
    rw [IdtEntry.type, hload]
    rfl
  simp only [attempt, h.base, if_neg (h.within v), htype]
  rfl

theorem Cpu.deliver_of_enters {addr : Word} (h : c.attempt v = .enters addr) (software : Bool) :
    c.deliver software v = .handler v addr := by rw [deliver, h]

end

/-- After any calls of `idt_set_descriptor`, an interrupt goes to the handler of the last one for its
vector, if that made a gate of the kernel; so does an `int` instruction. No memory but the table has
changed. -/
theorem idtRun_delivers (idt : Word) (calls : List SetDescriptor) (m : Mem 32) (idtr : Idtr)
    (hidt : (⟨idtr, idtRun idt calls m⟩ : Cpu).Loaded idt) :
    (∀ v call, lastFor v calls = some call → call.attrs = kernelGate → ∀ software : Bool,
        (⟨idtr, idtRun idt calls m⟩ : Cpu).deliver software v = .handler v call.addr) ∧
      (∀ v, lastFor v calls = none → IdtEntry.load (idtRun idt calls m) (idtEntryAt idt v) =
        IdtEntry.load m (idtEntryAt idt v)) ∧
      ∀ x, ¬ InRange idt (8 * idtEntryCount) x → idtRun idt calls m x = m x := by
  refine ⟨fun v call hlast hattrs software => ?_, fun v hnone => ?_, fun x hx => idtRun_frame calls hx⟩
  · have hload := idtRun_load idt m calls v
    rw [hlast] at hload
    simp only [hattrs] at hload
    exact Cpu.deliver_of_enters (Cpu.attempt_gate hidt hload) software
  · rw [idtRun_load, hnone]

/-- Two calls for the system calls' vector, the second one with another handler. -/
theorem idtRun_delivers_replaced :
    let calls := [⟨0xAA, 0x9100, kernelGate⟩, ⟨0x0D, 0x9200, kernelGate⟩, ⟨0xAA, 0x9300, kernelGate⟩]
    let c : Cpu := ⟨⟨2047, 0xB000⟩, idtRun 0xB000 calls fun _ => 0⟩
    (∀ v call, lastFor v calls = some call → call.attrs = kernelGate → ∀ software : Bool,
      c.deliver software v = .handler v call.addr) ∧
      (∀ v, lastFor v calls = none → IdtEntry.load (idtRun 0xB000 calls fun _ => 0) (idtEntryAt 0xB000 v) =
        IdtEntry.load (fun _ => 0) (idtEntryAt 0xB000 v)) ∧
      ∀ x, ¬ InRange 0xB000 (8 * idtEntryCount) x → idtRun 0xB000 calls (fun _ => 0) x = 0 :=
  idtRun_delivers 0xB000 _ (fun _ => 0) ⟨2047, 0xB000⟩ ⟨rfl, by decide⟩

/-! ## `idt_init` -/

section

variable {idt : Word} {isrList : Nat → Word} {m : Mem 32}

/-- By induction on the passes: the entries of the vectors so far that have a function in the list. -/
theorem idtInit_load (v : BitVec 8) : IdtEntry.load (idtInit idt isrList m).2 (idtEntryAt idt v) =
    if v.toNat < 0x20 ∧ isrList v.toNat ≠ 0 then .gate (isrList v.toNat) kernelGate
    else IdtEntry.load m (idtEntryAt idt v) := by
  refine Loop.times_rule (I := fun i m' => ∀ v, IdtEntry.load m' (idtEntryAt idt v) =
    if v.toNat < i ∧ isrList v.toNat ≠ 0 then .gate (isrList v.toNat) kernelGate
    else IdtEntry.load m (idtEntryAt idt v)) (fun v => ?_) (fun i hi m' ih v => ?_) v
  · rw [if_neg fun h => Nat.not_lt_zero _ h.1]
  · have hvector : v = BitVec.ofNat 8 i ↔ v.toNat = i := by
      rw [← BitVec.toNat_inj, BitVec.toNat_ofNat, Nat.mod_eq_of_lt (by omega)]
    rw [idtPass]
    by_cases h0 : isrList i = 0
    · have hiff : v.toNat < i + 1 ∧ isrList v.toNat ≠ 0 ↔ v.toNat < i ∧ isrList v.toNat ≠ 0 := by
        refine and_congr_left fun hne => ?_
        have hvi : v.toNat ≠ i := by
          rintro rfl
          exact hne h0
        omega
      simp only [if_pos h0, hiff, ih v]
    · rw [if_neg h0, load_set]
      by_cases hv : v = BitVec.ofNat 8 i
      · have hvi := hvector.mp hv
        rw [if_pos hv, if_pos ⟨by omega, hvi ▸ h0⟩, hvi]
        rfl
      · have hvi : v.toNat ≠ i := fun h => hv (hvector.mpr h)
        have hiff : v.toNat < i + 1 ↔ v.toNat < i := by omega
        simp only [if_neg hv, hiff, ih v]

end

end Kernel
end Amethyst
