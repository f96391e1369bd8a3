import Amethyst.Interleave
import Amethyst.Kernel.Idt
import Amethyst.Kernel.Isr
import Amethyst.Kernel.Pic

/-!
# Amethyst.Kernel.Interrupts

How `_start` (`kernel/src/start.c`) sets up the interrupts: `pic_remap_irq0`, `idt_init`, which sets the
interrupt flag before it fills the table, and the descriptor of the system calls. Devices may ask for an
interrupt at any time in between.

* `boot_quiet`: none of them comes through, at no time.
* `boot_delivers`: in the end every vector has a handler, or goes to that of general protection.
-/

namespace Amethyst
namespace Kernel

/-! ## The steps -/

inductive BootStep where
  | outb (port : BitVec 16) (v : BitVec 8)
  | lidt (idtr : Idtr)
  | sti
  | setDescriptor (call : SetDescriptor)
deriving DecidableEq, Repr

structure Machine where
  pics : Pics
  interruptFlag : Bool
  idtr : Idtr
  mem : Mem 32

def Machine.step (idt : Word) : BootStep → Machine → Machine
  | .outb port v, s => { s with pics := s.pics.outb port v }
  | .lidt idtr, s => { s with idtr }
  | .sti, s => { s with interruptFlag := true }
  | .setDescriptor call, s => { s with mem := idtSetDescriptor idt call.vector call.addr call.attrs s.mem }

/-- A device asks for an interrupt. -/
def Machine.raise (irq : Fin 16) (s : Machine) : Machine := { s with pics := s.pics.raise irq }

/-- An interrupt comes through to the processor, and it takes it. -/
def Machine.interrupted (s : Machine) : Bool := s.interruptFlag && s.pics.int

/-- The calls of `idt_set_descriptor` in `idt_init`. -/
def initCalls (isrs : Nat → Word) (n : Nat) : List SetDescriptor :=
  (List.range n).filterMap fun i => if isrs i = 0 then none else some ⟨BitVec.ofNat 8 i, isrs i, kernelGate⟩

/-- From `pic_remap_irq0` to the descriptor of `dispatch`. -/
def bootSteps (idt : Word) (isrs : Nat → Word) (dispatch : Word) : List BootStep :=
  picRemapIrq0.map (fun w => .outb w.1 w.2) ++
    ([.lidt ⟨BitVec.ofNat 16 (8 * idtEntryCount - 1), idt⟩, .sti] ++
      (initCalls isrs 0x20 ++ [(⟨0xAA, dispatch, kernelGate⟩ : SetDescriptor)]).map .setDescriptor)

/-- The steps of `_start` and the requests of the devices, in some order. -/
def Machine.run (idt : Word) : List (BootStep ⊕ Fin 16) → Machine → Machine :=
  Interleave.run (Machine.step idt) Machine.raise

/-- The calls are those of the loop. -/
theorem initCalls_run (idt : Word) (isrs : Nat → Word) (m : Mem 32) (n : Nat) :
    idtRun idt (initCalls isrs n) m = Loop.times (idtPass idt isrs) n m := by
  induction n with
  | zero => rfl
  | succ n ih =>
    have hrun : idtRun idt (initCalls isrs (n + 1)) m =
        idtRun idt ([n].filterMap fun i => if isrs i = 0 then none else
          some ⟨BitVec.ofNat 8 i, isrs i, kernelGate⟩) (idtRun idt (initCalls isrs n) m) := by
      rw [initCalls, List.range_succ, List.filterMap_append, idtRun, List.foldl_append]
      rfl
    rw [hrun, ih, Loop.times, idtPass]
    by_cases h0 : isrs n = 0
    · simp only [List.filterMap_cons, List.filterMap_nil, if_pos h0]
      rfl
    · simp only [List.filterMap_cons, List.filterMap_nil, if_neg h0]
      rfl

/-! ## What the requests do not change -/

section

variable {idt : Word}

/-- The interrupt flag after a step. -/
def flagStep : BootStep → Bool → Bool
  | .sti, _ => true
  | _, flag => flag

def picsStep : BootStep → Pics → Pics
  | .outb port v, p => (p.outb port v).config
  | _, p => p

def tableStep (idt : Word) : BootStep → Idtr × Mem 32 → Idtr × Mem 32
  | .lidt idtr, t => (idtr, t.2)
  | .setDescriptor call, t => (t.1, idtSetDescriptor idt call.vector call.addr call.attrs t.2)
  | _, t => t

variable {es : List (BootStep ⊕ Fin 16)} {s : Machine}

theorem run_flag : (s.run idt es).interruptFlag =
    (Interleave.steps es).foldl (fun flag a => flagStep a flag) s.interruptFlag := by
  have hstep : ∀ a s, (Machine.step idt a s).interruptFlag = flagStep a s.interruptFlag := by
    intro a s
    cases a <;> rfl
  have hraise : ∀ irq s, (Machine.raise irq s).interruptFlag = s.interruptFlag := fun _ _ => rfl
  exact Interleave.view_run Machine.interruptFlag hstep hraise es s

theorem run_pics : (s.run idt es).pics.config =
    (Interleave.steps es).foldl (fun p a => picsStep a p) s.pics.config := by
  have hstep : ∀ a s, (Machine.step idt a s).pics.config = picsStep a s.pics.config := by
    intro a s
    cases a with
    | outb port v => exact Pics.config_outb port v
    | lidt _ => rfl
    | sti => rfl
    | setDescriptor _ => rfl
  have hraise : ∀ irq s, (Machine.raise irq s).pics.config = s.pics.config := fun irq _ => Pics.config_raise irq
  exact Interleave.view_run (fun s : Machine => s.pics.config) hstep hraise es s

theorem run_table (idt : Word) (es : List (BootStep ⊕ Fin 16)) (s : Machine) : ((s.run idt es).idtr, (s.run idt es).mem) =
    (Interleave.steps es).foldl (fun t a => tableStep idt a t) (s.idtr, s.mem) := by
  have hstep : ∀ a s, ((Machine.step idt a s).idtr, (Machine.step idt a s).mem) = tableStep idt a (s.idtr, s.mem) := by
    intro a s
    cases a <;> rfl
  have hraise : ∀ irq s, ((Machine.raise irq s).idtr, (Machine.raise irq s).mem) = (s.idtr, s.mem) :=
    fun _ _ => rfl
  exact Interleave.view_run (fun s : Machine => (s.idtr, s.mem)) hstep hraise es s

end

/-! ## No interrupt comes through -/

/-- The controllers are not touched any more. -/
theorem picsStep_later {steps : List BootStep} (h : ∀ port v, .outb port v ∉ steps) (p : Pics) :
    steps.foldl (fun p a => picsStep a p) p = p := by
  induction steps with
  | nil => rfl
  | cons a steps ih =>
    have ha : picsStep a p = p := by
      cases a with
      | outb port v => exact absurd List.mem_cons_self (h port v)
      | lidt _ => rfl
      | sti => rfl
      | setDescriptor _ => rfl
    rw [List.foldl_cons, ha]
    exact ih fun port v hm => h port v (List.mem_cons_of_mem _ hm)

/-- The flag is as it was. -/
theorem flagStep_earlier {steps : List BootStep} (h : .sti ∉ steps) (flag : Bool) :
    steps.foldl (fun flag a => flagStep a flag) flag = flag := by
  induction steps with
  | nil => rfl
  | cons a steps ih =>
    have ha : flagStep a flag = flag := by
      cases a with
      | sti => exact absurd List.mem_cons_self h
      | outb _ _ => rfl
      | lidt _ => rfl
      | setDescriptor _ => rfl
    rw [List.foldl_cons, ha]
    exact ih fun hm => h (List.mem_cons_of_mem _ hm)

theorem picsStep_remap (p : Pics) : (picRemapIrq0.map fun w => BootStep.outb w.1 w.2).foldl
    (fun p a => picsStep a p) p = ⟨.masked 0x20 0x04, .masked 0x28 0x02⟩ := by
  cases p
  rfl

/-- The steps so far are some of the writes to the controllers, or all of them and other ones. -/
theorem boot_cases {idt : Word} {isrs : Nat → Word} {dispatch : Word} {done : List BootStep}
    (h : done <+: bootSteps idt isrs dispatch) : .sti ∉ done ∨
      ∃ later, done = picRemapIrq0.map (fun w => .outb w.1 w.2) ++ later ∧ ∀ port v, .outb port v ∉ later := by
  obtain ⟨rest, h⟩ := h
  rcases List.append_eq_append_iff.mp h with ⟨more, he, -⟩ | ⟨later, rfl, he⟩
  · left
    intro hm
    have hwrites : BootStep.sti ∈ picRemapIrq0.map fun w => BootStep.outb w.1 w.2 :=
      he ▸ List.mem_append_left _ hm
    simp at hwrites
  · right
    refine ⟨later, rfl, fun port v hm => ?_⟩
    have hlater := he ▸ List.mem_append_left rest hm
    simp at hlater

/-- However the requests of the devices come between the steps, at no time does one come through. -/
theorem boot_quiet (idt : Word) (isrs : Nat → Word) (dispatch : Word) (s : Machine)
    (hflag : s.interruptFlag = false) (es : List (BootStep ⊕ Fin 16))
    (h : Interleave.steps es <+: bootSteps idt isrs dispatch) : (s.run idt es).interrupted = false := by
  rcases boot_cases h with hsti | ⟨later, hdone, hlater⟩
  · have hoff : (s.run idt es).interruptFlag = false := by rw [run_flag, flagStep_earlier hsti, hflag]
    rw [Machine.interrupted, hoff, Bool.false_and]
  · have hpics : (s.run idt es).pics.config = ⟨.masked 0x20 0x04, .masked 0x28 0x02⟩ := by
      rw [run_pics, hdone, List.foldl_append, picsStep_remap, picsStep_later hlater]
    have hint : (s.run idt es).pics.int = false := by
      refine Pics.int_masked ?_ ?_
      · rw [hpics]
        rfl
      · rw [hpics]
        rfl
    rw [Machine.interrupted, hint, Bool.and_false]

/-- Requests in the middle of the initialisation of the controllers, and after the flag is set. -/
theorem boot_quiet_requests : (Machine.run 0xB000
    ([.inr 0, .inl (.outb 0x20 0x11), .inr 1, .inr 9] ++
      ((bootSteps 0xB000 (fun _ => 0x9100) 0x9200).drop 1).map .inl ++ [.inr 0])
      ⟨⟨⟨.icw3, true, false, 0, 0, 0, 0, 0⟩, ⟨.ready, false, true, 8, 2, 1, 0, 0⟩⟩, false, ⟨0, 0⟩,
        fun _ => 0⟩).interrupted = false :=
  boot_quiet 0xB000 (fun _ => 0x9100) 0x9200 _ rfl _ (by
    have hsteps : Interleave.steps (([.inr 0, .inl (.outb 0x20 0x11), .inr 1, .inr 9] ++
      ((bootSteps 0xB000 (fun _ => 0x9100) 0x9200).drop 1).map .inl ++ [.inr 0]) :
        List (BootStep ⊕ Fin 16)) = bootSteps 0xB000 (fun _ => 0x9100) 0x9200 := by decide
    rw [hsteps])

/-! ## Every vector has a handler -/

/-- The entries of `isr_list`, with the addresses of its functions. -/
def isrAddress (symbol : Isr → Word) (i : Nat) : Word :=
  match isrList.getD i none with
  | some isr => symbol isr
  | none => 0

/-- The handler that a vector has of its own, or 0. -/
def handlerOf (isrs : Nat → Word) (dispatch : Word) (v : BitVec 8) : Word :=
  if v = 0xAA then dispatch else if v.toNat < 0x20 then isrs v.toNat else 0

/-- The processor finds these handlers' gates in the table, and nothing for the other vectors. -/
structure Cpu.Gates (c : Cpu) (idt : Word) (isrs : Nat → Word) (dispatch : Word) : Prop where
  loaded : c.Loaded idt
  own : ∀ v, handlerOf isrs dispatch v ≠ 0 →
    IdtEntry.load c.mem (idtEntryAt idt v) = .gate (handlerOf isrs dispatch v) kernelGate
  empty : ∀ v, handlerOf isrs dispatch v = 0 → (IdtEntry.load c.mem (idtEntryAt idt v)).attributs = 0

section

variable {idt : Word} {isrs : Nat → Word} {dispatch : Word}

theorem tableStep_calls (calls : List SetDescriptor) (t : Idtr × Mem 32) :
    (calls.map BootStep.setDescriptor).foldl (fun t a => tableStep idt a t) t = (t.1, idtRun idt calls t.2) := by
  induction calls generalizing t with
  | nil => rfl
  | cons call calls ih =>
    rw [List.map_cons, List.foldl_cons, ih]
    rfl

/-- The register and the table in the end. -/
theorem tableStep_boot (t : Idtr × Mem 32) :
    (bootSteps idt isrs dispatch).foldl (fun t a => tableStep idt a t) t =
      (⟨2047, idt⟩, idtSetDescriptor idt 0xAA dispatch kernelGate (idtInit idt isrs t.2).2) := by
  have hwrites : ∀ t, (picRemapIrq0.map fun w => BootStep.outb w.1 w.2).foldl
      (fun t a => tableStep idt a t) t = t := fun _ => rfl
  have hlidt : [BootStep.lidt ⟨BitVec.ofNat 16 (8 * idtEntryCount - 1), idt⟩, .sti].foldl
      (fun t a => tableStep idt a t) t = (⟨2047, idt⟩, t.2) := rfl
  have hinit := initCalls_run idt isrs t.2 0x20
  rw [idtRun] at hinit
  rw [bootSteps, List.foldl_append, hwrites, List.foldl_append, hlidt, tableStep_calls, idtRun,
    List.foldl_append, hinit]
  simp only [List.foldl_cons, List.foldl_nil, idtInit]

theorem boot_load (idt : Word) (isrs : Nat → Word) (hdispatch : dispatch ≠ 0) (m : Mem 32) (v : BitVec 8) :
    IdtEntry.load (idtSetDescriptor idt 0xAA dispatch kernelGate (idtInit idt isrs m).2) (idtEntryAt idt v) =
      if handlerOf isrs dispatch v ≠ 0 then .gate (handlerOf isrs dispatch v) kernelGate
      else IdtEntry.load m (idtEntryAt idt v) := by
  rw [load_set, idtInit_load, handlerOf]
  by_cases hv : v = 0xAA
  · simp only [if_pos hv]
    rw [if_pos hdispatch]
  · simp only [if_neg hv]
    by_cases hlt : v.toNat < 0x20
    · simp only [hlt, true_and, if_true]
    · simp only [hlt, false_and, if_false]
      rw [if_neg (not_not.mpr rfl)]

variable {c : Cpu} {v : BitVec 8}

/-- What becomes of a vector with its own gate, or without one. -/
theorem Cpu.Gates.attempt (h : c.Gates idt isrs dispatch) (v : BitVec 8) :
    c.attempt v = if handlerOf isrs dispatch v ≠ 0 then .enters (handlerOf isrs dispatch v)
      else .faults gpVector := by
  by_cases hh : handlerOf isrs dispatch v ≠ 0
  · rw [Cpu.attempt_gate h.loaded (h.own v hh), if_pos hh]
  · rw [Cpu.attempt_empty h.loaded (h.empty v (not_not.mp hh)), if_neg hh]

/-- The memory of the table is what counts. -/
theorem Cpu.Gates.congr {m : Mem 32} (h : c.Gates idt isrs dispatch)
    (hm : ∀ x, InRange idt (8 * idtEntryCount) x → m x = c.mem x) :
    ({ c with mem := m } : Cpu).Gates idt isrs dispatch := by
  have hload : ∀ v, IdtEntry.load m (idtEntryAt idt v) = IdtEntry.load c.mem (idtEntryAt idt v) := by
    intro v
    refine IdtEntry.load_congr fun x hx => hm x ?_
    have hlt := v.isLt
    obtain ⟨i, hi, rfl⟩ := hx.exists_add
    rw [idtEntryAt, add_add_ofNat, inRange_add (by omega), idtEntryCount]
    omega
  exact ⟨⟨h.loaded.base, h.loaded.limit⟩, fun v hv => (hload v).trans (h.own v hv),
    fun v hv => (congrArg _ (hload v)).trans (h.empty v hv)⟩

/-- The table that the boot leaves. -/
theorem boot_gates (isrs : Nat → Word) (hdispatch : dispatch ≠ 0) {m : Mem 32}
    (hzero : ∀ v, (IdtEntry.load m (idtEntryAt idt v)).attributs = 0) :
    (⟨⟨2047, idt⟩, idtSetDescriptor idt 0xAA dispatch kernelGate (idtInit idt isrs m).2⟩ : Cpu).Gates
      idt isrs dispatch := by
  have hload := boot_load idt isrs hdispatch m
  have hlimit : 8 * idtEntryCount - 1 ≤ (2047 : BitVec 16).toNat := by decide
  refine ⟨⟨rfl, hlimit⟩, fun v hv => ?_, fun v hv => ?_⟩
  · rw [hload, if_pos hv]
  · rw [hload, if_neg (not_not.mpr hv)]
    exact hzero v

/-- The vectors whose faults are not delivered one after the other have functions in the list. -/
theorem isrAddress_ne_zero {symbol : Isr → Word} (hsymbol : ∀ isr, symbol isr ≠ 0) {i : Nat}
    (hi : i ∈ [0, 8, 10, 11, 12, 13, 14]) : isrAddress symbol i ≠ 0 := by
  have hlist : ∀ i ∈ [0, 8, 10, 11, 12, 13, 14], (isrList.getD i none).isSome := by decide
  have h := hlist i hi
  rw [isrAddress]
  cases hisr : isrList.getD i none with
  | none =>
    rw [hisr] at h
    cases h
  | some isr => exact hsymbol isr

theorem handlerOf_exception (hv : v.toNat ∈ [0, 8, 10, 11, 12, 13, 14]) :
    handlerOf isrs dispatch v = isrs v.toNat := by
  have hne : v ≠ 0xAA := by
    rintro rfl
    simp at hv
  have hlt : v.toNat < 0x20 := by
    simp only [List.mem_cons, List.not_mem_nil, or_false] at hv
    omega
  rw [handlerOf, if_neg hne, if_pos hlt]

/-- A vector has its own handler, or goes to that of general protection. -/
theorem Cpu.Gates.deliver {symbol : Isr → Word} (h : c.Gates idt (isrAddress symbol) dispatch)
    (hsymbol : ∀ isr, symbol isr ≠ 0) (software : Bool) (v : BitVec 8) :
    let handler := handlerOf (isrAddress symbol) dispatch v
    c.deliver software v =
      if handler ≠ 0 then .handler v handler else .handler gpVector (symbol .generalProtectedFault) := by
  intro handler
  have hattempt := h.attempt
  have hexception : ∀ v : BitVec 8, v.toNat ∈ [0, 8, 10, 11, 12, 13, 14] →
      handlerOf (isrAddress symbol) dispatch v ≠ 0 := by
    intro v hv
    rw [handlerOf_exception hv]
    exact isrAddress_ne_zero hsymbol hv
  by_cases hown : handler ≠ 0
  · rw [if_pos hown]
    refine Cpu.deliver_of_enters ?_ software
    rw [hattempt, if_pos hown]
  · have hgp : c.attempt gpVector = .enters (symbol .generalProtectedFault) := by
      have hhandler : handlerOf (isrAddress symbol) dispatch gpVector = symbol .generalProtectedFault := by
        rw [handlerOf_exception (by decide)]
        rfl
      rw [hattempt, hhandler, if_pos (hsymbol _)]
    have hfault : c.attempt v = .faults gpVector := by rw [hattempt, if_neg hown]
    -- a vector whose own fault would make a double fault has a handler
    have hserious : v.toNat ∉ [0, 8, 10, 11, 12, 13, 14] := fun hv => hown (hexception v hv)
    have hdf : ¬ (software = false ∧ v = dfVector) := by
      rintro ⟨-, rfl⟩
      exact hserious (by decide)
    have hcontrib : ¬ (software = false ∧ Cpu.Serious v) := by
      rintro ⟨-, hv⟩
      refine hserious ?_
      simp only [Cpu.Serious, List.mem_cons, List.not_mem_nil, or_false] at hv ⊢
      omega
    rw [if_neg hown, Cpu.deliver, hfault]
    simp only [if_neg hdf, if_neg hcontrib, hgp]

end

/-- At the end of the boot, whatever the devices have asked for meanwhile, the processor finds a handler for
every vector: its own if it has one, else that of general protection. It never shuts down. -/
theorem boot_delivers (idt : Word) (symbol : Isr → Word) (hsymbol : ∀ isr, symbol isr ≠ 0) (dispatch : Word)
    (hdispatch : dispatch ≠ 0) (s : Machine) (hzero : ∀ v, (IdtEntry.load s.mem (idtEntryAt idt v)).attributs = 0)
    (es : List (BootStep ⊕ Fin 16)) (h : Interleave.steps es = bootSteps idt (isrAddress symbol) dispatch)
    (software : Bool) (v : BitVec 8) :
    let c : Cpu := ⟨(s.run idt es).idtr, (s.run idt es).mem⟩
    let handler := handlerOf (isrAddress symbol) dispatch v
    c.deliver software v =
      if handler ≠ 0 then .handler v handler else .handler gpVector (symbol .generalProtectedFault) := by
  intro c handler
  have htable := run_table idt es s
  rw [h, tableStep_boot] at htable
  obtain ⟨hidtr, hmem⟩ := Prod.ext_iff.mp htable
  have hc : c = ⟨⟨2047, idt⟩, idtSetDescriptor idt 0xAA dispatch kernelGate
      (idtInit idt (isrAddress symbol) s.mem).2⟩ :=
    congrArg₂ (fun idtr mem => (⟨idtr, mem⟩ : Cpu)) hidtr hmem
  have hgates := boot_gates (isrAddress symbol) hdispatch hzero
  rw [← hc] at hgates
  exact hgates.deliver hsymbol software v

/-- An `int` with a vector that has no gate goes to general protection. -/
theorem boot_delivers_no_gate :
    let s : Machine := ⟨⟨.masked 8 4, .masked 0x70 2⟩, false, ⟨0, 0⟩, fun _ => 0⟩
    let es := (bootSteps 0xB000 (isrAddress fun _ => 0x9100) 0x9200).map Sum.inl
    let c : Cpu := ⟨(s.run 0xB000 es).idtr, (s.run 0xB000 es).mem⟩
    let handler := handlerOf (isrAddress fun _ => 0x9100) 0x9200 0x80
    c.deliver true 0x80 = if handler ≠ 0 then .handler 0x80 handler else .handler gpVector 0x9100 :=
  boot_delivers 0xB000 (fun _ => 0x9100) (fun _ => by decide) 0x9200 (by decide) _ (fun _ => rfl) _
    (Interleave.steps_map_inl _) true 0x80

end Kernel
end Amethyst
