import Amethyst.Kernel.Start

/-!
# Amethyst.Kernel.Exceptions

An interrupt or an exception after `_start`: the processor finds the function in the table in memory, and the
function prints its text.

* `deliver_isr`: which function a vector goes to.
* `exception_shows`: the report is on the screen still, and the text behind it.
-/

namespace Amethyst
namespace Kernel

open Installer (Byte)
open Printf (ascii Site IsAscii Fmt Simple callText)

/-! ## The handlers -/

/-- The function that a vector of the processor goes to. -/
def isrOf (v : BitVec 8) : Isr := (isrList.getD v.toNat none).getD .generalProtectedFault

/-- A call that prints, in the machine's memory. -/
def System.output (call : Output) (s : System) : System := s.withScreen (s.screen.step .kernel call)

/-- A function up to its last call. -/
def Isr.handle (site : Site) (isr : Isr) (s : System) : Option System :=
  let s := s.output (.print (.setBgColor isr.body.bgColor))
  let s := s.output (.print (.setFgColor isr.body.fgColor))
  s.print site []

/-- An interrupt of the kernel: what the function makes of the system, and its last call. -/
def System.exception (image : Image) (site : Isr → Site) (v : BitVec 8) (s : System) : Option (System × IsrEnd) :=
  match (⟨s.machine.idtr, s.machine.mem⟩ : Cpu).deliver false v with
  | .handler _ addr =>
    (Isr.all.find? fun isr => image.symbol isr = addr).bind fun isr =>
      (isr.handle (site isr) s).map fun s => (s, isr.body.last)
  | _ => none

@[simp] theorem System.screen_output (call : Output) (s : System) :
    (s.output call).screen = s.screen.step .kernel call := rfl

/-- What a function prints, and how. -/
def Isr.calls (isr : Isr) : List Output :=
  [.print (.setBgColor isr.body.bgColor), .print (.setFgColor isr.body.fgColor), .print (.puts isr.body.text)]

/-! ## The texts -/

theorem Isr.mem_all (isr : Isr) : isr ∈ Isr.all := by
  cases isr <;> decide

/-- The texts are printed as they stand. -/
theorem Isr.text_plain (isr : Isr) :
    (∀ c ∈ isr.body.text, IsAscii c ∧ c ≠ 0x25) ∧ isr.body.text.length < 128 := by
  have hall : isr.body.text.all (fun c => IsAscii c ∧ c ≠ 0x25) = true := by cases isr <;> decide +kernel
  have hlen : isr.body.text.length < 128 := by cases isr <;> decide +kernel
  exact ⟨fun c hc => of_decide_eq_true (List.all_eq_true.mp hall c hc), hlen⟩

theorem Isr.find_symbol {symbol : Isr → Word} (hinj : Function.Injective symbol) (isr : Isr) :
    Isr.all.find? (fun i => symbol i = symbol isr) = some isr := by
  cases hfind : Isr.all.find? fun i => symbol i = symbol isr with
  | none =>
    have hnone := List.find?_eq_none.mp hfind isr isr.mem_all
    simp at hnone
  | some i =>
    have hsome := List.find?_some hfind
    rw [hinj (of_decide_eq_true hsome)]

/-! ## The table -/

section

variable {image : Image} {c : Cpu} {v : BitVec 8}

theorem handlerOf_isr (symbol : Isr → Word) (dispatch : Word) (hv : v ≠ 0xAA) :
    handlerOf (isrAddress symbol) dispatch v = isrAddress symbol v.toNat := by
  rw [handlerOf, if_neg hv]
  split
  · rfl
  · next hlt =>
    have hnone : isrList.getD v.toNat none = none := by
      have hlen : isrList.length = 0x20 := by decide
      rw [List.getD_eq_default _ _ (by omega)]
    rw [isrAddress, hnone]

/-- The function that a vector other than the system calls' goes to. -/
theorem deliver_isr (h : c.Gates image.idt (isrAddress image.symbol) image.dispatch)
    (hsymbol : ∀ isr, image.symbol isr ≠ 0) (hv : v ≠ 0xAA) :
    ∃ v', c.deliver false v = .handler v' (image.symbol (isrOf v)) := by
  have hdeliver := h.deliver hsymbol false v
  have hhandler := handlerOf_isr image.symbol image.dispatch hv
  simp only [hhandler] at hdeliver
  cases hisr : isrList.getD v.toNat none with
  | none =>
    have hzero : isrAddress image.symbol v.toNat = 0 := by rw [isrAddress, hisr]
    rw [hzero, if_neg (not_not.mpr rfl)] at hdeliver
    exact ⟨gpVector, by rw [hdeliver, isrOf, hisr, Option.getD_none]⟩
  | some isr =>
    have hown : isrAddress image.symbol v.toNat = image.symbol isr := by rw [isrAddress, hisr]
    rw [hown, if_pos (hsymbol isr)] at hdeliver
    exact ⟨v, by rw [hdeliver, isrOf, hisr, Option.getD_some]⟩

/-- The table after the boot. -/
theorem setUp_gates {s : System} (hl : image.Linked s.machine.mem) (hdispatch : image.dispatch ≠ 0)
    (hzero : ∀ v, (IdtEntry.load s.machine.mem (idtEntryAt image.idt v)).attributs = 0) :
    (⟨(setUp image s).machine.idtr, (setUp image s).machine.mem⟩ : Cpu).Gates image.idt
      (isrAddress image.symbol) image.dispatch := by
  obtain ⟨t, ht⟩ : ∃ t, Screen.run .kernel
      [.clear, .print (.setFont (some (font6x8 image.fontdata6x8)))] s.screen = t := ⟨_, rfl⟩
  have hframe : ∀ x, ¬ InRange vgaAddress screenSize x → t.mem x = s.machine.mem x := by
    intro x hx
    rw [← ht]
    exact Screen.run_frame hx ..
  have hload : ∀ v, IdtEntry.load t.mem (idtEntryAt image.idt v) =
      IdtEntry.load s.machine.mem (idtEntryAt image.idt v) := by
    intro v
    refine IdtEntry.load_congr fun x hx => hframe x (hl.idt x ?_)
    have hlt := v.isLt
    obtain ⟨i, hi, rfl⟩ := hx.exists_add
    rw [idtEntryAt, add_add_ofNat, inRange_add (by omega), idtEntryCount]
    omega
  have htable := run_table image.idt ((bootSteps image.idt (isrAddress image.symbol) image.dispatch).map .inl)
    { s.machine with mem := t.mem }
  rw [Interleave.steps_map_inl, tableStep_boot, Machine.run, Interleave.run, List.foldl_map] at htable
  obtain ⟨hidtr, hmem⟩ := Prod.ext_iff.mp htable
  have hgates := boot_gates (isrAddress image.symbol) hdispatch
    fun v => (congrArg _ (hload v)).trans (hzero v)
  have hcpu : (⟨(setUp image s).machine.idtr, (setUp image s).machine.mem⟩ : Cpu) =
      ⟨⟨2047, image.idt⟩, idtSetDescriptor image.idt 0xAA image.dispatch kernelGate
        (idtInit image.idt (isrAddress image.symbol) t.mem).2⟩ := by
    subst ht
    exact congrArg₂ (fun idtr mem => (⟨idtr, mem⟩ : Cpu)) hidtr hmem
  rw [hcpu]
  exact hgates

/-! ## What is printed -/

/-- A function prints its text in its colours. -/
theorem Isr.handle_spec {m₀ : Mem 32} {s : System} {d : Display} (hl : image.Linked m₀) (isr : Isr) {site : Site}
    (hsite : image.Prints m₀ site isr.body.text 0)
    (h : Shows (font6x8 image.fontdata6x8) image.Kept m₀ s.screen d) : ∃ s', isr.handle site s = some s' ∧
      Shows (font6x8 image.fontdata6x8) image.Kept m₀ s'.screen
        (d.run (font6x8 image.fontdata6x8).cols (font6x8 image.fontdata6x8).rows isr.calls) := by
  have hplain := isr.text_plain
  have hbg := h.step (p := .kernel) (font6x8_fits _) (.print (.setBgColor isr.body.bgColor))
    (fun _ => by simp) (fun c hc => by cases hc)
  have hfg := hbg.step (p := .kernel) (font6x8_fits _) (.print (.setFgColor isr.body.fgColor))
    (fun _ => by simp) (fun c hc => by cases hc)
  obtain ⟨t, hrun, hshows, -⟩ := Printf.shows_printfCall (p := .kernel) [] (font6x8_fits _)
    (fun c => hl.bitmaps) hfg (hl.apart hsite) (Fmt.plain hplain.1 hplain.2)
  rw [Printf.callText_plain fun c hc => (hplain.1 c hc).2] at hshows
  refine ⟨System.withScreen ((s.output (.print (.setBgColor isr.body.bgColor))).output
    (.print (.setFgColor isr.body.fgColor))) t, ?_, hshows⟩
  rw [Isr.handle, System.print, System.screen_output, System.screen_output, hrun, Option.map_some]

end

/-- After `_start`, whatever PCI functions the machine has, an interrupt of the processor in ring 0 other than
that of the system calls goes to the function of its vector, or to that of general protection if there is none.
The screen shows the report then, and behind it the text of the function in its colours. -/
theorem exception_shows (config : Config) (image : Image) (device : PciDevice) (site : Isr → Site) (s : System)
    (hconsole : s.console = .init) (hl : image.Linked s.machine.mem)
    (hsite : ∀ isr, image.Prints s.machine.mem (site isr) isr.body.text 0)
    (hsymbol : ∀ isr, image.symbol isr ≠ 0) (hinj : Function.Injective image.symbol) (hdispatch : image.dispatch ≠ 0)
    (hzero : ∀ v, (IdtEntry.load s.machine.mem (idtEntryAt image.idt v)).attributs = 0) (v : BitVec 8)
    (hv : v ≠ 0xAA) :
    let font := font6x8 image.fontdata6x8
    let d := Display.run font.cols font.rows ([.clear, .print (.puts (report config))] ++ (isrOf v).calls) .init
    ∃ s' t, start config image device s = some s' ∧ s'.exception image site v = some (t, (isrOf v).body.last) ∧
      (∀ px py, ¬ clipped px py → t.machine.mem (pixelAddress px py) = d.pixel font s.machine.mem px py) ∧
      (∀ a, image.Kept a → t.machine.mem a = s.machine.mem a) := by
  obtain ⟨s', pci, hrun, hreported⟩ := start_reported config hl hconsole device
  obtain ⟨t, hhandle, hshows⟩ := (isrOf v).handle_spec hl (hsite _) hreported.shows
  have hgates := (setUp_gates hl hdispatch hzero).congr hreported.table
  rw [← hreported.idtr] at hgates
  obtain ⟨v', hdeliver⟩ := deliver_isr hgates hsymbol hv
  have hexception : s'.exception image site v = some (t, (isrOf v).body.last) := by
    rw [System.exception, hdeliver]
    simp only [Isr.find_symbol hinj, Option.bind_some, hhandle, Option.map_some]
  rw [cleared_step, ← Display.run_append] at hshows
  exact ⟨s', t, hrun, hexception, hshows.pixel, hshows.frame⟩

theorem sampleImageMem_isr (isr : Isr) {i : Nat} (hi : i ≤ isr.body.text.length) :
    sampleImageMem (0x4000 + BitVec.ofNat 32 (64 * Isr.all.idxOf isr) + BitVec.ofNat 32 i) =
      isr.body.text.getD i 0 := by
  have hlen : isr.body.text.length < 64 := by cases isr <;> decide +kernel
  have hindex : Isr.all.idxOf isr < 24 := by cases isr <;> decide
  have hget : Isr.all[Isr.all.idxOf isr]? = some isr := by cases isr <;> decide
  have hbase : (0x4000 : Word).toNat = 0x4000 := rfl
  have haddr : (0x4000 + BitVec.ofNat 32 (64 * Isr.all.idxOf isr) + BitVec.ofNat 32 i : Word).toNat =
      0x4000 + (64 * Isr.all.idxOf isr + i) := by
    rw [add_add_ofNat, toNat_add_ofNat (by omega), hbase]
  have hdiv : (64 * Isr.all.idxOf isr + i) / 64 = Isr.all.idxOf isr := by omega
  have hmod : (64 * Isr.all.idxOf isr + i) % 64 = i := by omega
  rw [sampleImageMem, haddr, if_neg (by omega), Nat.add_sub_cancel_left, hdiv, hmod, hget]
  rfl

theorem sampleImageMem_high {x : Word} (h : 0x5000 ≤ x.toNat) : sampleImageMem x = 0 := by
  have hlen : Isr.all.length = 24 := by decide
  have hnone : Isr.all[(x.toNat - 0x4000) / 64]? = none := List.getElem?_eq_none (by omega)
  rw [sampleImageMem, if_neg (by omega), hnone]
  rfl

/-- Where the calls of the exceptions are. -/
def sampleIsrSite (isr : Isr) : Site := ⟨0x4000 + BitVec.ofNat 32 (64 * Isr.all.idxOf isr), 0x9000, 0x9100⟩

theorem sampleImage_prints_isr (isr : Isr) :
    sampleImage.Prints sampleImageMem (sampleIsrSite isr) isr.body.text 0 := by
  have hlen : isr.body.text.length < 64 := by cases isr <;> decide +kernel
  have hindex : Isr.all.idxOf isr < 24 := by cases isr <;> decide
  have hbase : (0x4000 : Word).toNat = 0x4000 := rfl
  refine ⟨fun i hi => ⟨sampleImage_kept ?_, sampleImageMem_isr isr hi⟩, fun x => (sampleImage_frame _ (by decide)).1,
    fun x => (sampleImage_frame 0 (by decide)).2, by decide⟩
  rw [sampleIsrSite, add_add_ofNat, toNat_add_ofNat (by omega), hbase]
  omega

theorem sampleImage_symbol {isr isr' : Isr} (h : sampleImage.symbol isr = sampleImage.symbol isr') : isr = isr' := by
  have hindex : ∀ isr : Isr, isrList.idxOf (some isr) < 0x20 := by
    intro isr
    cases isr <;> decide
  have hbase : (0x7000 : Word).toNat = 0x7000 := rfl
  have hmem : some isr ∈ isrList := by cases isr <;> decide
  have htoNat := congrArg BitVec.toNat h
  have h1 := hindex isr
  have h2 := hindex isr'
  simp only [sampleImage] at htoNat
  rw [toNat_add_ofNat (by omega), toNat_add_ofNat (by omega)] at htoNat
  exact Option.some.inj ((List.idxOf_inj hmem).mp (by omega))

/-- The table is empty. -/
theorem sampleImage_table (v : BitVec 8) :
    (IdtEntry.load sampleImageMem (idtEntryAt sampleImage.idt v)).attributs = 0 := by
  have hlt := v.isLt
  have hidt : sampleImage.idt.toNat = 0xB000 := rfl
  have hfive : (5 : Word) = BitVec.ofNat 32 5 := rfl
  refine sampleImageMem_high ?_
  rw [idtEntryAt, hfive, add_add_ofNat, toNat_add_ofNat (by omega)]
  omega

/-- An interrupt without a function. -/
theorem exception_shows_reserved :
    let font := font6x8 sampleImage.fontdata6x8
    let d := Display.run font.cols font.rows
      ([.clear, .print (.puts (report sampleConfig))] ++ (isrOf 0x0F).calls) .init
    ∃ s' t, start sampleConfig sampleImage (.ofBits 0) sampleSystem = some s' ∧
      s'.exception sampleImage sampleIsrSite 0x0F = some (t, (isrOf 0x0F).body.last) ∧
      (∀ px py, ¬ clipped px py →
        t.machine.mem (pixelAddress px py) = d.pixel font sampleSystem.machine.mem px py) ∧
      (∀ a, sampleImage.Kept a → t.machine.mem a = sampleSystem.machine.mem a) :=
  exception_shows sampleConfig sampleImage (.ofBits 0) sampleIsrSite sampleSystem rfl
    (sampleSystem_mem ▸ sampleImage_linked) (sampleSystem_mem ▸ sampleImage_prints_isr)
    (fun isr => by cases isr <;> decide) (fun _ _ => sampleImage_symbol) (by decide)
    (sampleSystem_mem ▸ sampleImage_table) 0x0F (by decide)

end Kernel
end Amethyst
