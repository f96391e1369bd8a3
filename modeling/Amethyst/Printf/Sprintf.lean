import Amethyst.Console
import Amethyst.Printf.Directive

/-!
# Amethyst.Printf.Sprintf

Whole runs of `vsprintf`, and `printf`, which formats into a buffer of 1024 bytes on its stack and
prints that.

* `vsprintf_effects`: the effects of the pieces, one after the other, and a NUL.
* `vsprintf_writes`: without `%n` the buffer holds the text, and nothing else has changed.
* `printf_prints`: a text below 1024 characters is printed, and nothing but the buffer has changed.
-/

namespace Amethyst
namespace Printf

open Installer (Byte addressSpace cString)

section

variable {R : Word → Prop} {m₀ : Mem 32} {e : Effect} {es : List Effect} {o : Writer 32}

theorem Effect.apply_str (e : Effect) (o : Writer 32) :
    (e.apply o).str = o.str + BitVec.ofNat 32 e.text.length := by
  rw [apply]
  cases e.store with
  | none => exact Writer.write_str
  | some store => exact Writer.write_str

theorem Effect.apply_frozen (hm : Frozen R m₀ o.mem) (hfree : Free R o.str e.text.length) (hs : e.Spares R) :
    Frozen R m₀ (e.apply o).mem := by
  have hw := hm.write hfree
  unfold apply
  cases h : e.store with
  | none => exact hw
  | some store =>
    intro x hx
    have hout : ¬ InRange store.1 4 x := fun hin => hs store.1 store.2 h x hin hx
    exact (Mem.write32_frame hout).trans (hw x hx)

theorem Text.transfer {m m' : Mem 32} {a : Word} {s : List Byte} (ht : Text R m a s) (hm : Frozen R m₀ m)
    (hm' : Frozen R m₀ m') : Text R m' a s := by
  intro i hi
  obtain ⟨hR, he⟩ := ht i hi
  exact ⟨hR, by rw [hm' _ hR, ← hm _ hR, he]⟩

/-- All effects, one after the other. -/
def applyAll (es : List Effect) (o : Writer 32) : Writer 32 := es.foldl (fun o e => e.apply o) o

theorem applyAll_str : (applyAll es o).str = o.str + BitVec.ofNat 32 (textOf es).length := by
  induction es generalizing o with
  | nil => simp [applyAll, textOf]
  | cons e es ih =>
    have htext : textOf (e :: es) = e.text ++ textOf es := List.flatMap_cons
    rw [htext, List.length_append, ← add_add_ofNat, ← Effect.apply_str]
    exact ih

/-- Without `%n` the effects are what is written. -/
theorem applyAll_write (h : ∀ e ∈ es, e.store = none) : applyAll es o = o.write (textOf es) := by
  induction es generalizing o with
  | nil => rfl
  | cons e es ih =>
    have htext : textOf (e :: es) = e.text ++ textOf es := List.flatMap_cons
    have hfirst : e.apply o = o.write e.text := by rw [Effect.apply, h e List.mem_cons_self]
    rw [htext, Writer.write_append, ← hfirst, ← ih fun e he => h e (List.mem_cons_of_mem _ he)]
    rfl

end

def AllFit (args : Args) : Nat → Nat → List Piece → Prop
  | _, _, [] => True
  | k, count, piece :: pieces =>
    let e := piece.effect args k count
    piece.Fits args k ∧ AllFit args e.next (count + e.text.length) pieces

/-- What is read is in `R`, and what is written is not. -/
structure Apart (R : Word → Prop) (args : Args) (va : Word) (k count : Nat) (str : Word) (ps : List Piece) :
    Prop where
  words : Words R va k (nextOf k (effects args k count ps))
  reads : ∀ e ∈ effects args k count ps, e.Reads R
  spares : ∀ e ∈ effects args k count ps, e.Spares R
  free : Free R str (textOf (effects args k count ps)).length

theorem Piece.le_next (args : Args) (k count : Nat) (piece : Piece) : k ≤ (piece.effect args k count).next := by
  cases piece with
  | literal c => exact Nat.le_refl k
  | directive spec c => exact Nat.le_trans (spec.le_next args k) (convert_le_next _ _ _ _ _ _)
  | unfinished spec => exact spec.le_next args k

theorem le_nextOf (args : Args) (ps : List Piece) (k count : Nat) :
    k ≤ nextOf k (effects args k count ps) := by
  induction ps generalizing k count with
  | nil => exact Nat.le_refl k
  | cons p ps ih => exact Nat.le_trans (p.le_next args k count) (ih _ _)

section

variable {R : Word → Prop} {m₀ : Mem 32} {args : Args} {va str : Word} {k count : Nat} {p : Piece}
  {ps : List Piece}

theorem Apart.head (h : Apart R args va k count str (p :: ps)) :
    Words R va k (p.effect args k count).next ∧ (p.effect args k count).Reads R ∧
      (p.effect args k count).Spares R ∧ Free R str (p.effect args k count).text.length := by
  have htext : textOf (effects args k count (p :: ps)) = (p.effect args k count).text ++
      textOf (effects args (p.effect args k count).next (count + (p.effect args k count).text.length) ps) :=
    List.flatMap_cons
  refine ⟨h.words.mono (Nat.le_refl k) (le_nextOf args ps _ _), h.reads _ List.mem_cons_self,
    h.spares _ List.mem_cons_self, ?_⟩
  have hfree := h.free
  rw [htext, List.length_append] at hfree
  exact hfree.mono (Nat.le_add_right _ _)

theorem Apart.tail (h : Apart R args va k count str (p :: ps)) :
    Apart R args va (p.effect args k count).next (count + (p.effect args k count).text.length)
      (str + BitVec.ofNat 32 (p.effect args k count).text.length) ps where
  words := h.words.mono (p.le_next args k count) (Nat.le_refl _)
  reads e he := h.reads e (List.mem_cons_of_mem _ he)
  spares e he := h.spares e (List.mem_cons_of_mem _ he)
  free := by
    have hfree := h.free
    have htext : textOf (effects args k count (p :: ps)) = (p.effect args k count).text ++
        textOf (effects args (p.effect args k count).next (count + (p.effect args k count).text.length) ps) :=
      List.flatMap_cons
    rw [htext, List.length_append] at hfree
    exact hfree.shift

end

section

variable {R : Word → Prop} {m₀ : Mem 32} {va buf : Word}

/-- By induction on the format. -/
theorem run_effects : ∀ (str : List Byte) (fuel k count : Nat) (s : Vsprintf), 0 ∉ str → str.length < fuel →
    fuel ≤ addressSpace → Frozen R m₀ s.out.mem → Text R s.out.mem s.fmt str →
    s.args = va + BitVec.ofNat 32 (4 * k) → s.out.str = buf + BitVec.ofNat 32 count →
    AllFit (argsOf m₀ va) k count (format str) →
    Apart R (argsOf m₀ va) va k count s.out.str (format str) →
    ∃ s', Loop.tryRun (vsprintfPass buf) fuel s = some s' ∧
      s'.out = applyAll (effects (argsOf m₀ va) k count (format str)) s.out := by
  intro str
  induction str using format_induction with
  | nil =>
    intro fuel k count s _ hfuel _ _ ht _ _ _ _
    obtain ⟨fuel, rfl⟩ : ∃ n, fuel = n + 1 := ⟨fuel - 1, by omega⟩
    have hpass : vsprintfPass buf s = some (.leave s) := by
      simp only [vsprintfPass, ht.nil]
      rfl
    exact ⟨s, Loop.tryRun_leave hpass, rfl⟩
  | literal c str hc ih =>
    intro fuel k count s h0 hfuel hspace hm ht hargs hstr hfits hapart
    obtain ⟨fuel, rfl⟩ : ∃ n, fuel = n + 1 := ⟨fuel - 1, by omega⟩
    rw [List.length_cons] at hfuel
    rw [format_literal hc] at hfits hapart ⊢
    have hc0 : c ≠ 0 := fun h => h0 (by simp [h])
    have hpass : vsprintfPass buf s = some (.next { s with fmt := s.fmt + 1, out := s.out.put c }) := by
      simp only [vsprintfPass, ht.head, if_neg hc0, if_pos hc]
    have hfree : ¬ R s.out.str := by simpa using hapart.head.2.2.2 0 (Nat.zero_lt_one)
    have hm' := hm.put hfree c
    obtain ⟨s', hrun, hout⟩ := ih fuel k (count + 1) { s with fmt := s.fmt + 1, out := s.out.put c }
      (fun h => h0 (List.mem_cons_of_mem _ h)) (by omega) (by omega) hm' (ht.tail.transfer hm hm') hargs
      (by rw [Writer.put, hstr, ← add_add_ofNat]; rfl) hfits.2 hapart.tail
    exact ⟨s', by rw [Loop.tryRun_next hpass, hrun], hout⟩
  | unfinished str spec hspec =>
    intro fuel k count s h0 hfuel hspace hm ht hargs hstr hfits hapart
    obtain ⟨fuel, rfl⟩ : ∃ n, fuel = n + 2 := ⟨fuel - 2, by rw [List.length_cons] at hfuel; omega⟩
    rw [List.length_cons] at hfuel
    rw [format_unfinished hspec] at hfits hapart ⊢
    have hfree : ¬ R s.out.str := by simpa using hapart.head.2.2.2 0 (Nat.zero_lt_one)
    obtain ⟨fmt, hdir, ht'⟩ := directive_unfinished buf count hm ht.tail (by omega) hargs
      hspec hfree hapart.head.1
    have hpass : vsprintfPass buf s = some (.next ⟨fmt, va + BitVec.ofNat 32 (4 *
        ((Piece.unfinished spec).effect (argsOf m₀ va) k count).next), s.out.put 0x25⟩) := by
      simp only [vsprintfPass, ht.head, hdir, Option.map_some, BitVec.sub_add_cancel]
      rfl
    have hnul : (s.out.put 0x25).mem fmt = 0 := (ht'.transfer hm (hm.put hfree 0x25)).nil
    have hlast : vsprintfPass buf ⟨fmt, va + BitVec.ofNat 32 (4 *
        ((Piece.unfinished spec).effect (argsOf m₀ va) k count).next), s.out.put 0x25⟩ =
          some (.leave ⟨fmt, va + BitVec.ofNat 32 (4 *
            ((Piece.unfinished spec).effect (argsOf m₀ va) k count).next), s.out.put 0x25⟩) := by
      simp only [vsprintfPass, hnul]
      rfl
    exact ⟨_, by rw [Loop.tryRun_next hpass, Loop.tryRun_leave hlast], rfl⟩
  | directive str spec c rest hspec ih =>
    intro fuel k count s h0 hfuel hspace hm ht hargs hstr hfits hapart
    obtain ⟨fuel, rfl⟩ : ∃ n, fuel = n + 1 := ⟨fuel - 1, by omega⟩
    rw [List.length_cons] at hfuel
    rw [format_directive hspec] at hfits hapart ⊢
    have htext := takeSpec_text str
    rw [hspec] at htext
    have h0' : 0 ∉ c :: rest := fun h => h0 (List.mem_cons_of_mem _ (by rw [← htext]; exact List.mem_append_right _ h))
    have hlen := takeSpec_length str
    rw [hspec, List.length_cons] at hlen
    obtain ⟨hk, hread, hspare, hfree⟩ := hapart.head
    obtain ⟨fmt, hdir, ht'⟩ := directive_effect hm ht.tail (by omega) hargs hspec
      (fun h => h0' (by simp [h])) hstr hfits.1 hk hread hfree
    have hpass : vsprintfPass buf s = some (.next ⟨fmt + 1, va + BitVec.ofNat 32 (4 *
        ((Piece.directive spec c).effect (argsOf m₀ va) k count).next),
        ((Piece.directive spec c).effect (argsOf m₀ va) k count).apply s.out⟩) := by
      simp only [vsprintfPass, ht.head, hdir, Option.map_some]
      rfl
    have hm' := Effect.apply_frozen hm hfree hspare
    obtain ⟨s', hrun, hout⟩ := ih fuel _ _ ⟨fmt + 1, _,
      ((Piece.directive spec c).effect (argsOf m₀ va) k count).apply s.out⟩
      (fun h => h0' (List.mem_cons_of_mem _ h)) (by omega) (by omega) hm' (ht'.tail.transfer hm hm') rfl
      (by rw [Effect.apply_str, hstr, add_add_ofNat]) hfits.2 (by rw [Effect.apply_str]; exact hapart.tail)
    exact ⟨s', by rw [Loop.tryRun_next hpass, hrun], hout⟩

end

/-! ## `vsprintf` -/

/-- A call: where the buffer, the format and the arguments are, what format it is, and what is read. -/
structure Call (R : Word → Prop) (m : Mem 32) (buf fmt va : Word) (str : List Byte) : Prop where
  noNul : 0 ∉ str
  short : str.length < addressSpace
  text : Text R m fmt str
  fits : AllFit (argsOf m va) 0 0 (format str)
  apart : Apart R (argsOf m va) va 0 0 buf (format str)

/-- The effects of a format, and the text that it writes. -/
def effectsOf (m : Mem 32) (va : Word) (str : List Byte) : List Effect :=
  effects (argsOf m va) 0 0 (format str)

/-- A call whose format, arguments and strings are below `limit`, with the buffer from there on. -/
theorem Call.of_below {m : Mem 32} {buf fmt va : Word} {str : List Byte} (limit : Nat) (h0 : 0 ∉ str)
    (hmem : m.Holds fmt (str.length + 1) fun i => str.getD i 0) (hfmt : fmt.toNat + str.length < limit)
    (hva : va.toNat + 4 * nextOf 0 (effectsOf m va str) ≤ limit)
    (hreads : ∀ e ∈ effectsOf m va str, ∀ p n, e.read = some (p, n) → p.toNat + n ≤ limit)
    (hstores : ∀ e ∈ effectsOf m va str, e.store = none) (hfits : AllFit (argsOf m va) 0 0 (format str))
    (hbuf : limit ≤ buf.toNat) (hend : buf.toNat + (textOf (effectsOf m va str)).length ≤ 2 ^ 32) :
    Call (fun x => x.toNat < limit) m buf fmt va str where
  noNul := h0
  short := by
    have := buf.isLt
    rw [addressSpace]
    omega
  text i hi := by
    have hlt := buf.isLt
    have haddr : (fmt + BitVec.ofNat 32 i).toNat = fmt.toNat + i := toNat_add_ofNat (by omega)
    exact ⟨by simp only [haddr]; omega, hmem i (Nat.lt_succ_of_le hi)⟩
  fits := hfits
  apart := by
    have hlt := buf.isLt
    refine ⟨fun j _ hj x hx => ?_, fun e he p n hread i hi => ?_, fun e he p v hstore => ?_, fun i hi => ?_⟩
    · have hj' : j < nextOf 0 (effectsOf m va str) := hj
      have haddr : (va + BitVec.ofNat 32 (4 * j)).toNat = va.toNat + 4 * j := toNat_add_ofNat (by omega)
      rw [inRange_iff (by omega)] at hx
      omega
    · have hp := hreads e he p n hread
      have haddr : (p + BitVec.ofNat 32 i).toNat = p.toNat + i := toNat_add_ofNat (by omega)
      simp only [haddr]
      omega
    · rw [hstores e he] at hstore
      cases hstore
    · have hi' : i < (textOf (effectsOf m va str)).length := hi
      have haddr : (buf + BitVec.ofNat 32 i).toNat = buf.toNat + i := toNat_add_ofNat (by omega)
      simp only [haddr]
      omega

section

variable {R : Word → Prop} {m : Mem 32} {buf fmt va : Word} {str : List Byte}

theorem vsprintf_effects (h : Call R m buf fmt va str) : vsprintf buf fmt va m =
    some (BitVec.ofNat 32 (textOf (effectsOf m va str)).length,
      ((applyAll (effectsOf m va str) ⟨buf, m⟩).put 0).mem) := by
  have hzero : ∀ a : Word, a = a + BitVec.ofNat 32 (4 * 0) := fun a => (BitVec.add_zero a).symm
  obtain ⟨s', hrun, hout⟩ := run_effects str addressSpace 0 0 ⟨fmt, va, ⟨buf, m⟩⟩ h.noNul h.short
    (Nat.le_refl _) (fun _ _ => rfl) h.text (hzero va) (hzero buf) h.fits h.apart
  have hstr : s'.out.str - buf = BitVec.ofNat 32 (textOf (effectsOf m va str)).length := by
    rw [hout, applyAll_str, BitVec.add_comm, BitVec.add_sub_cancel]
    rfl
  rw [vsprintf, hrun, Option.map_some, hstr, hout]
  rfl

/-- Without `%n` the text and a NUL are in the buffer, and nothing else has changed. -/
theorem vsprintf_writes (h : Call R m buf fmt va str) (hn : ∀ e ∈ effectsOf m va str, e.store = none)
    (hlen : (textOf (effectsOf m va str)).length < addressSpace) :
    let text := textOf (effectsOf m va str)
    ∃ m', vsprintf buf fmt va m = some (BitVec.ofNat 32 text.length, m') ∧
      m'.Holds buf (text.length + 1) (fun i => (text ++ [0]).getD i 0) ∧
      ∀ x, ¬ InRange buf (text.length + 1) x → m' x = m x := by
  have hput : ((applyAll (effectsOf m va str) ⟨buf, m⟩).put 0) =
      (⟨buf, m⟩ : Writer 32).write (textOf (effectsOf m va str) ++ [0]) := by
    rw [applyAll_write hn, Writer.write_append]
    rfl
  have hlen' : (textOf (effectsOf m va str) ++ [0]).length = (textOf (effectsOf m va str)).length + 1 := by
    simp
  refine ⟨_, vsprintf_effects h, ?_, fun x hx => ?_⟩
  · rw [hput, ← hlen']
    exact Writer.write_holds (by rw [hlen']; exact hlen)
  · rw [hput]
    exact Writer.write_frame (by rw [hlen']; exact hx)

theorem effectsOf_append {s t : List Byte} (hs : Complete (format s)) :
    effectsOf m va (s ++ t) = effectsOf m va s ++ effects (argsOf m va) (nextOf 0 (effectsOf m va s))
      (textOf (effectsOf m va s)).length (format t) := by
  rw [effectsOf, format_append hs, effects_append, Nat.zero_add]
  rfl

end

/-! ## A memory with one argument -/

/-- A directive of `%` and its conversion. -/
def bare : Spec := ⟨[], .absent, none, none⟩

theorem argsOf_zero (m : Mem 32) (va : Word) : (argsOf m va).word 0 = m.read32 va := by simp [argsOf]

/-- A memory with a format at 0x2000 and one argument at 0x3000. -/
def sampleMem (str : List Byte) (n : Word) : Mem 32 :=
  (Mem.fill (fun _ => 0) 0x2000 (str.length + 1) fun i => str.getD i 0).write32 0x3000 n

theorem sampleMem_read (str : List Byte) (n : Word) : (sampleMem str n).read32 0x3000 = n :=
  Mem.read32_write32 _ _ n

theorem sampleMem_holds {str : List Byte} (h : str.length < 0x1000) (n : Word) :
    (sampleMem str n).Holds 0x2000 (str.length + 1) fun i => str.getD i 0 := by
  intro i hi
  have hfill := Mem.fill_holds (m := fun _ => 0) (a := (0x2000 : Word)) (n := str.length + 1)
    (f := fun i => str.getD i 0) (by omega) i hi
  have haddr : ((0x2000 : Word) + BitVec.ofNat 32 i).toNat = 0x2000 + i := toNat_add_ofNat (by simp; omega)
  have hout : ¬ InRange (0x3000 : Word) 4 (0x2000 + BitVec.ofNat 32 i) := by
    have hlow : (0x3000 : Word).toNat = 0x3000 := rfl
    rw [inRange_iff (by decide), haddr, hlow]
    omega
  rw [sampleMem, Mem.write32_frame hout]
  exact hfill

/-- A call that takes at most the one argument. -/
theorem sampleMem_call {str : List Byte} (h0 : 0 ∉ str) (hlen : str.length < 0x1000) (n : Word)
    (hnext : nextOf 0 (effectsOf (sampleMem str n) 0x3000 str) ≤ 1)
    (hplain : ∀ e ∈ effectsOf (sampleMem str n) 0x3000 str, e.store = none ∧ e.read = none)
    (htext : (textOf (effectsOf (sampleMem str n) 0x3000 str)).length ≤ 0x1000)
    (hfits : AllFit (argsOf (sampleMem str n) 0x3000) 0 0 (format str)) :
    Call (fun x => x.toNat < 0x4000) (sampleMem str n) 0x10000 0x2000 0x3000 str := by
  have hfmt : (0x2000 : Word).toNat = 0x2000 := rfl
  have hva : (0x3000 : Word).toNat = 0x3000 := rfl
  have hbuf : (0x10000 : Word).toNat = 0x10000 := rfl
  refine .of_below 0x4000 h0 (sampleMem_holds hlen n) (by omega) (by omega) ?_ (fun e he => (hplain e he).1)
    hfits (by decide) (by omega)
  intro e he p k hread
  rw [(hplain e he).2] at hread
  cases hread

theorem percentC_effects (n : Word) : effectsOf (sampleMem [0x25, 0x63, 0x21] n) 0x3000 [0x25, 0x63, 0x21] =
    [{ text := [n.setWidth 8], next := 1 }, { text := [0x21], next := 1 }] := by
  have hformat : format [0x25, 0x63, 0x21] = [.directive bare 0x63, .literal 0x21] := by decide
  have heval : bare.eval (argsOf (sampleMem [0x25, 0x63, 0x21] n) 0x3000) 0 = (⟨0, -1, -1⟩, 0) := rfl
  have hconv : conversionOf 0x63 = .char := by decide
  have hleft : ¬ has 0 left = true := by decide
  have hwidth : (-1 : Word).toInt.toNat = 0 := by decide
  have hword : (argsOf (sampleMem [0x25, 0x63, 0x21] n) 0x3000).word 0 = n := by
    rw [argsOf_zero, sampleMem_read]
  simp only [effectsOf, hformat, effects, Piece.effect, heval, convert, hconv, justify, if_neg hleft, hwidth, hword]
  rfl

theorem sampleMem_percentC : Call (fun x => x.toNat < 0x4000) (sampleMem [0x25, 0x63, 0x21] 0x41) 0x10000
    0x2000 0x3000 [0x25, 0x63, 0x21] := by
  have he := percentC_effects 0x41
  have hformat : format [0x25, 0x63, 0x21] = [.directive bare 0x63, .literal 0x21] := by decide
  have hwidth : -2 ^ 31 + 2 ≤ (-1 : Word).toInt := by decide
  refine sampleMem_call (by decide) (by decide) 0x41 ?_ ?_ ?_ ?_
  · rw [he]
    exact Nat.le_refl 1
  · rw [he]
    simp
  · rw [he]
    simp [textOf]
  · rw [hformat]
    exact ⟨hwidth, trivial, trivial⟩

/-- What a format writes, and after it another one with the arguments that the first has left. -/
theorem vsprintf_append {R : Word → Prop} {m : Mem 32} {buf fmt va : Word} {s t : List Byte}
    (h : Call R m buf fmt va (s ++ t)) (hs : Complete (format s)) :
    let first := effectsOf m va s
    let count := (textOf first).length
    let second := effects (argsOf m va) (nextOf 0 first) count (format t)
    vsprintf buf fmt va m = some (BitVec.ofNat 32 (count + (textOf second).length),
      ((applyAll second (applyAll first ⟨buf, m⟩)).put 0).mem) := by
  intro first count second
  have heffects : effectsOf m va (s ++ t) = first ++ second := effectsOf_append hs
  have htext : (textOf (first ++ second)).length = count + (textOf second).length := by
    rw [textOf, List.flatMap_append, List.length_append]
    rfl
  have hall : applyAll (first ++ second) ⟨buf, m⟩ = applyAll second (applyAll first ⟨buf, m⟩) :=
    List.foldl_append
  rw [vsprintf_effects h, heffects, htext, hall]

theorem vsprintf_append_percentC :
    let m := sampleMem [0x25, 0x63, 0x21] 0x41
    let first := effectsOf m 0x3000 [0x25, 0x63]
    let count := (textOf first).length
    let second := effects (argsOf m 0x3000) (nextOf 0 first) count (format [0x21])
    vsprintf 0x10000 0x2000 0x3000 m = some (BitVec.ofNat 32 (count + (textOf second).length),
      ((applyAll second (applyAll first ⟨0x10000, m⟩)).put 0).mem) :=
  vsprintf_append (s := [0x25, 0x63]) sampleMem_percentC (by
    have hformat : format [0x25, 0x63] = [.directive bare 0x63] := by decide
    rw [hformat]
    simp [Complete])

/-! ## `printf` -/

/-- The size of `printf_buf` -/
def printfBufSize : Nat := 1024

/-- `printf` of a program, with its buffer at `printfBuf`: the number that it returns, the memory and
the screen. A text that does not fit goes on over the frame of the call, its return address and its
arguments: what happens then is left open, as `none`. -/
def printf (p : Program) (printfBuf fmt args : Word) (m : Mem 32) (s : Console) :
    Option (Word × Mem 32 × Console) :=
  (vsprintf printfBuf fmt args m).bind fun r =>
    if r.1.toNat < printfBufSize then some (r.1, r.2, p.puts (cString r.2 addressSpace printfBuf) s)
    else none

/-- A text that may have a NUL in it ends there. -/
theorem cString_of_holds {m : Mem 32} : ∀ (text : List Byte) (n : Nat) (a : Word), text.length < n →
    m.Holds a (text.length + 1) (fun i => (text ++ [0]).getD i 0) →
    cString m n a = text.takeWhile (· ≠ 0) := by
  intro text
  induction text with
  | nil =>
    intro n a hn h
    obtain ⟨n, rfl⟩ : ∃ k, n = k + 1 := ⟨n - 1, by omega⟩
    have h0 : m a = 0 := by simpa using h 0 (Nat.zero_lt_one)
    rw [cString, if_pos h0]
    rfl
  | cons c text ih =>
    intro n a hn h
    obtain ⟨n, rfl⟩ : ∃ k, n = k + 1 := ⟨n - 1, by omega⟩
    rw [List.length_cons] at hn h
    obtain ⟨hc, hrest⟩ := Mem.holds_succ.mp h
    have hc' : m a = c := hc
    rw [cString, hc']
    by_cases h0 : c = 0
    · rw [if_pos h0, List.takeWhile_cons_of_neg (by simpa using h0)]
    · rw [if_neg h0, List.takeWhile_cons_of_pos (by simpa using h0)]
      exact congrArg _ (ih n (a + 1) (by omega) hrest)

theorem puts_takeWhile (p : Program) (text : List Byte) (s : Console) :
    p.puts (text.takeWhile (· ≠ 0)) s = p.puts text s := by
  induction text generalizing s with
  | nil => rfl
  | cons c text ih =>
    by_cases h0 : c = 0
    · rw [List.takeWhile_cons_of_neg (by simpa using h0), Program.puts, Program.puts, if_pos h0]
    · rw [List.takeWhile_cons_of_pos (by simpa using h0), Program.puts, Program.puts, if_neg h0, if_neg h0, ih]

section

variable {R : Word → Prop} {m : Mem 32} {buf fmt va : Word} {str : List Byte}

/-- A text that fits is printed. -/
theorem printf_prints (p : Program) (s : Console) (h : Call R m buf fmt va str)
    (hn : ∀ e ∈ effectsOf m va str, e.store = none)
    (hfit : (textOf (effectsOf m va str)).length < printfBufSize) :
    let text := textOf (effectsOf m va str)
    ∃ m', printf p buf fmt va m s = some (BitVec.ofNat 32 text.length, m', p.puts text s) ∧
      ∀ x, ¬ InRange buf printfBufSize x → m' x = m x := by
  have hlen : (textOf (effectsOf m va str)).length < addressSpace := Nat.lt_trans hfit (by decide)
  obtain ⟨m', hrun, hholds, hframe⟩ := vsprintf_writes h hn hlen
  have hcount : (BitVec.ofNat 32 (textOf (effectsOf m va str)).length).toNat < printfBufSize := by
    rw [BitVec.toNat_ofNat]
    exact Nat.lt_of_le_of_lt (Nat.mod_le _ _) hfit
  refine ⟨m', ?_, fun x hx => hframe x fun hin => hx (hin.mono hfit)⟩
  rw [printf, hrun, Option.bind_some, if_pos hcount, cString_of_holds _ _ _ hlen hholds, puts_takeWhile]

end

theorem printf_prints_percentC :
    let m := sampleMem [0x25, 0x63, 0x21] 0x41
    let text := textOf (effectsOf m 0x3000 [0x25, 0x63, 0x21])
    ∃ m', printf .kernel 0x10000 0x2000 0x3000 m .init =
        some (BitVec.ofNat 32 text.length, m', Program.kernel.puts text .init) ∧
      ∀ x, ¬ InRange 0x10000 printfBufSize x → m' x = m x :=
  printf_prints .kernel .init sampleMem_percentC (by rw [percentC_effects]; simp)
    (by rw [percentC_effects]; simp [textOf, printfBufSize])

end Printf
end Amethyst
