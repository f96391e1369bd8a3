import Amethyst.Printf.Sprintf
import Amethyst.Screen
import Mathlib.Data.List.TakeWhile

/-!
# Amethyst.Printf.Call

Calls of `printf` in a program: the arguments are pushed, the format is one of the program's string
literals, and what is printed is drawn. The formats here are text with hexadecimal numbers padded with zeros,
which is all that the kernel prints at its start.

* `hexNumber_effect`: what such a directive writes.
* `shows_printfCall`: the screen shows the text of a call, and only the stack and the screen have changed.
-/

namespace Amethyst
namespace Printf

open Installer (Byte addressSpace cString)

/-! ## Text and hexadecimal numbers -/

/-- A number of at least `width` digits. -/
def hexText (width : Nat) (v : Word) : List Byte := (digitChars 0 16 v.toNat).leftpad width 0x30

/-- `%0dX` up to its conversion, for a digit `d`. -/
def hexSpec (d : Byte) : Spec := ⟨[0x30], .digits [d], none, none⟩

/-- The digits of the widths. -/
def widths : List Byte := [0x32, 0x34, 0x38]

/-- A character, and not the end of a string. -/
def IsAscii (c : Byte) : Prop := 0 < c.toNat ∧ c.toNat < 128

instance : DecidablePred IsAscii := fun _ => inferInstanceAs (Decidable (_ ∧ _))

/-- The pieces of the formats here. -/
def Simple : Piece → Prop
  | .literal c => IsAscii c
  | .directive spec c => (∃ d ∈ widths, spec = hexSpec d) ∧ c = 0x58
  | .unfinished _ => False

instance : DecidablePred Simple := fun piece =>
  match piece with
  | .literal c => inferInstanceAs (Decidable (IsAscii c))
  | .directive _ _ => inferInstanceAs (Decidable (_ ∧ _))
  | .unfinished _ => inferInstanceAs (Decidable False)

/-- The arguments that a piece takes. -/
def Piece.takes : Piece → Nat
  | .literal _ => 0
  | _ => 1

/-- The argument list of a call. -/
def listArgs (args : List Word) : Args := ⟨fun k => args.getD k 0, fun _ _ => []⟩

/-- What a call prints. -/
def callText (str : List Byte) (args : List Word) : List Byte := textOf (effects (listArgs args) 0 0 (format str))

section

variable {args args' : Args} {k count n : Nat} {d : Byte} {p : Piece} {ps : List Piece}

theorem hexText_eq (v : Word) (width : Nat) : numberText zeropad v 16 width (-1) = hexText width v := by
  have hsign : ¬ has zeropad sign = true := by decide
  have hspecial : ¬ has zeropad special = true := by decide
  have hleft : ¬ has zeropad left = true := by decide
  have hzero : has zeropad zeropad = true := by decide
  have hlocase : locaseOf zeropad = 0 := by decide
  have hmag : magnitude zeropad v = v.toNat := if_neg fun h => hsign h.1
  simp only [numberText, signChars, specialChars, if_neg hsign, if_neg hspecial, if_neg hleft, if_pos hzero, hlocase,
    hmag, List.append_nil, List.nil_append, List.length_nil]
  have hnone : (-1 : Int).toNat = 0 := rfl
  have hwidth : ((width : Int) - (0 : Nat)).toNat = width := by omega
  rw [hwidth, hnone]
  simp [hexText, List.leftpad]

theorem digitChars_hex_length (v : Word) : (digitChars 0 16 v.toNat).length ≤ 8 := by
  unfold digitChars
  split
  · simp
  · have hlt := v.isLt
    rw [List.length_reverse, List.length_map, Nat.digits_length_le_iff (by decide)]
    exact hlt

theorem hexText_length_le (v : Word) {width : Nat} (h : width ≤ 8) : (hexText width v).length ≤ 8 := by
  have hdigits := digitChars_hex_length v
  rw [hexText, List.length_leftpad]
  omega

theorem digitChars_hex_ascii (v : Word) : ∀ c ∈ digitChars 0 16 v.toNat, IsAscii c := by
  have hdigit : ∀ d < 16, IsAscii (digitChar 0 d) := by decide
  intro c hc
  unfold digitChars at hc
  split at hc
  · obtain rfl := List.mem_singleton.mp hc
    decide
  · obtain ⟨d, hd, rfl⟩ := List.mem_map.mp (List.mem_reverse.mp hc)
    exact hdigit d (Nat.digits_lt_base (by decide) hd)

theorem hexText_ascii (v : Word) (width : Nat) : ∀ c ∈ hexText width v, IsAscii c := by
  intro c hc
  rw [hexText, List.leftpad, List.mem_append] at hc
  cases hc with
  | inl hpad =>
    obtain rfl := (List.mem_replicate.mp hpad).2
    decide
  | inr hdigit => exact digitChars_hex_ascii v c hdigit

/-- The field of such a directive. -/
theorem hexSpec_eval (hd : d ∈ widths) :
    (hexSpec d).eval args k = (⟨zeropad, d.setWidth 32 - 0x30, -1⟩, k) := by
  have hflags : flagsOf [0x30] = zeropad := by decide
  have hwidth : ∀ d ∈ widths, Stdlib.atoiStep 0 d = d.setWidth 32 - 0x30 := by decide
  have hval : Count.eval args k (.digits [d]) = (d.setWidth 32 - 0x30, k) := by
    rw [← hwidth d hd]
    rfl
  simp only [Spec.eval, hexSpec, hval, hflags, precisionOf]
  rfl

theorem hexNumber_effect (args : Args) (k count : Nat) (hd : d ∈ widths) :
    (Piece.directive (hexSpec d) 0x58).effect args k count =
      { text := hexText (d.toNat - 0x30) (args.word k), next := k + 1 } := by
  have hconv : conversionOf 0x58 = .integer 16 0 := by decide
  have hflag : zeropad ||| 0 = zeropad := by decide
  have harg : argument (hexSpec d).qualifier zeropad (args.word k) = args.word k := by simp [argument, hexSpec]
  have hwidth : ∀ d ∈ widths, (d.setWidth 32 - 0x30 : Word).toInt = (d.toNat - 0x30 : Nat) := by decide
  have hprec : (-1 : Word).toInt = -1 := by decide
  simp only [Piece.effect, hexSpec_eval hd, convert, hconv, Field.withFlag, Field.number, hflag, harg, hwidth d hd, hprec,
    hexText_eq]

theorem Simple.fits (h : Simple p) : p.Fits args k := by
  cases p with
  | literal c => trivial
  | unfinished spec => cases h
  | directive spec c =>
    obtain ⟨⟨d, hd, rfl⟩, rfl⟩ := h
    have hconv : conversionOf 0x58 = .integer 16 0 := by decide
    have hroom : ∀ d ∈ widths, Room (d.setWidth 32 - 0x30) (-1) := by decide
    simp only [Piece.Fits, hexSpec_eval hd, Field.Fits, hconv]
    exact hroom d hd

/-- What such a piece writes. -/
structure Plain (args args' : Args) (k count : Nat) (p : Piece) : Prop where
  store : (p.effect args k count).store = none
  read : (p.effect args k count).read = none
  next : (p.effect args k count).next = k + p.takes
  length : (p.effect args k count).text.length ≤ 8
  ascii : ∀ c ∈ (p.effect args k count).text, IsAscii c
  congr : (0 < p.takes → args.word k = args'.word k) → p.effect args k count = p.effect args' k count

theorem Simple.plain (h : Simple p) : Plain args args' k count p := by
  cases p with
  | literal c =>
    refine ⟨rfl, rfl, rfl, by simp [Piece.effect], fun c' hc => ?_, fun _ => rfl⟩
    rwa [List.mem_singleton.mp hc]
  | unfinished spec => cases h
  | directive spec c =>
    obtain ⟨⟨d, hd, rfl⟩, rfl⟩ := h
    have hwidth : ∀ d ∈ widths, d.toNat - 0x30 ≤ 8 := by decide
    have heffect := hexNumber_effect args k count hd
    refine ⟨?_, ?_, ?_, ?_, ?_, fun hword => ?_⟩
    · rw [heffect]
    · rw [heffect]
    · rw [heffect]
      rfl
    · rw [heffect]
      exact hexText_length_le _ (hwidth d hd)
    · rw [heffect]
      exact hexText_ascii _ _
    · rw [heffect, hexNumber_effect args' k count hd, hword Nat.zero_lt_one]

/-- The arguments that a format takes. -/
def takesOf (ps : List Piece) : Nat := (ps.map Piece.takes).sum

theorem allFit_simple (h : ∀ p ∈ ps, Simple p) : AllFit args k count ps := by
  induction ps generalizing k count with
  | nil => trivial
  | cons p ps ih => exact ⟨(h p List.mem_cons_self).fits, ih fun q hq => h q (List.mem_cons_of_mem _ hq)⟩

/-- What such pieces write, all in all. -/
structure AllPlain (args args' : Args) (k count : Nat) (ps : List Piece) : Prop where
  store : ∀ e ∈ effects args k count ps, e.store = none
  read : ∀ e ∈ effects args k count ps, e.read = none
  next : nextOf k (effects args k count ps) = k + takesOf ps
  length : (textOf (effects args k count ps)).length ≤ 8 * ps.length
  ascii : ∀ c ∈ textOf (effects args k count ps), IsAscii c
  congr : (∀ j, j < k + takesOf ps → args.word j = args'.word j) → effects args k count ps = effects args' k count ps

theorem allPlain_simple (args args' : Args) (k count : Nat) (h : ∀ p ∈ ps, Simple p) :
    AllPlain args args' k count ps := by
  induction ps generalizing k count with
  | nil =>
    refine ⟨fun e he => ?_, fun e he => ?_, rfl, Nat.zero_le _, fun c hc => ?_, fun _ => rfl⟩
    · cases he
    · cases he
    · cases hc
  | cons p ps ih =>
    have hp : Plain args args' k count p := (h p List.mem_cons_self).plain
    have hps := ih (p.effect args k count).next (count + (p.effect args k count).text.length)
      fun q hq => h q (List.mem_cons_of_mem _ hq)
    have htakes : takesOf (p :: ps) = p.takes + takesOf ps := List.sum_cons
    have htext : textOf (effects args k count (p :: ps)) = (p.effect args k count).text ++
        textOf (effects args (p.effect args k count).next (count + (p.effect args k count).text.length) ps) :=
      List.flatMap_cons
    refine ⟨fun e he => ?_, fun e he => ?_, ?_, ?_, fun c hc => ?_, fun hword => ?_⟩
    · cases List.mem_cons.mp he with
      | inl he => exact he ▸ hp.store
      | inr he => exact hps.store e he
    · cases List.mem_cons.mp he with
      | inl he => exact he ▸ hp.read
      | inr he => exact hps.read e he
    · refine hps.next.trans ?_
      rw [hp.next, htakes, Nat.add_assoc]
    · have hfirst := hp.length
      have hrest := hps.length
      rw [htext, List.length_append, List.length_cons]
      omega
    · rw [htext, List.mem_append] at hc
      cases hc with
      | inl hc => exact hp.ascii c hc
      | inr hc => exact hps.ascii c hc
    · rw [htakes] at hword
      have hfirst : p.effect args k count = p.effect args' k count := hp.congr fun h0 => hword k (by omega)
      have hrest := hps.congr fun j hj => hword j (by rw [hp.next] at hj; omega)
      rw [effects, effects, hrest, hfirst]

/-- A text without directives. -/
theorem textOf_literals (args : Args) (k count : Nat) (s : List Byte) (ps : List Piece) :
    textOf (effects args k count (s.map .literal ++ ps)) = s ++ textOf (effects args k (count + s.length) ps) := by
  induction s generalizing count with
  | nil => rfl
  | cons c s ih =>
    have hcount : count + 1 + s.length = count + (c :: s).length := by
      rw [List.length_cons]
      omega
    have hcons : textOf (effects args k count ((c :: s).map .literal ++ ps)) =
        c :: textOf (effects args k (count + 1) (s.map .literal ++ ps)) := rfl
    rw [hcons, ih, hcount]
    rfl

theorem textOf_hex (hd : d ∈ widths) (ps : List Piece) :
    textOf (effects args k count (.directive (hexSpec d) 0x58 :: ps)) = hexText (d.toNat - 0x30) (args.word k) ++
      textOf (effects args (k + 1) (count + (hexText (d.toNat - 0x30) (args.word k)).length) ps) := by
  rw [effects, hexNumber_effect args k count hd]
  rfl

end

/-! ## Calls -/

/-- Where a call has its format, its arguments and `printf_buf`. -/
structure Site where
  fmt : Word
  va : Word
  buf : Word
deriving DecidableEq, Repr

/-- The words of `args` from `va` on. -/
def pushArgs : Word → List Word → Mem 32 → Mem 32
  | _, [], m => m
  | va, v :: args, m => (pushArgs (va + 4) args m).write32 va v

/-- What a call with `n` arguments writes of the stack. -/
def Site.Frame (site : Site) (n : Nat) (x : Word) : Prop :=
  InRange site.va (4 * n) x ∨ InRange site.buf printfBufSize x

/-- A call of `printf` by a program that does not look at what it returns. -/
def printfCall (p : Program) (site : Site) (args : List Word) (s : Screen) : Option Screen :=
  (vsprintf site.buf site.fmt site.va (pushArgs site.va args s.mem)).map fun r =>
    { s with mem := r.2 }.step p (.print (.puts (cString r.2 addressSpace site.buf)))

/-- The literal `str` is in `R`, and the call writes elsewhere. -/
structure Site.Apart (site : Site) (R : Word → Prop) (m : Mem 32) (str : List Byte) (n : Nat) : Prop where
  literal : Text R m site.fmt str
  frame : ∀ x, site.Frame n x → ¬ R x ∧ ¬ InRange vgaAddress screenSize x
  args : ∀ x, InRange site.va (4 * n) x → ¬ InRange site.buf printfBufSize x
  few : 4 * n < 2 ^ 32

/-- A format that the text above is about, with enough arguments. -/
structure Fmt (str : List Byte) (n : Nat) : Prop where
  ascii : ∀ c ∈ str, IsAscii c
  simple : ∀ piece ∈ format str, Simple piece
  takes : takesOf (format str) ≤ n
  short : (format str).length < 128
  length : str.length < addressSpace

section

variable {va x : Word} {args : List Word} {m : Mem 32}

theorem pushArgs_frame (hlen : 4 * args.length < 2 ^ 32) (hx : ¬ InRange va (4 * args.length) x) :
    pushArgs va args m x = m x := by
  induction args generalizing va with
  | nil => rfl
  | cons v args ih =>
    rw [List.length_cons] at hlen hx
    have hfirst : ¬ InRange va 4 x := fun h => hx (h.mono (by omega))
    have hrest : ¬ InRange (va + 4) (4 * args.length) x := by
      intro h
      obtain ⟨i, hi, rfl⟩ := h.exists_add
      have hfour : va + 4 = va + BitVec.ofNat 32 4 := rfl
      rw [hfour, add_add_ofNat, inRange_add (by omega)] at hx
      omega
    rw [pushArgs, Mem.write32_frame hfirst, ih (by omega) hrest]

theorem pushArgs_word (hlen : 4 * args.length < 2 ^ 32) {k : Nat} (hk : k < args.length) :
    (argsOf (pushArgs va args m) va).word k = args.getD k 0 := by
  induction args generalizing va k with
  | nil => cases hk
  | cons v args ih =>
    rw [List.length_cons] at hlen hk
    have hfour : va + 4 = va + BitVec.ofNat 32 4 := rfl
    cases k with
    | zero => rw [argsOf_zero, pushArgs, Mem.read32_write32, List.getD_cons_zero]
    | succ k =>
      have haddr : va + BitVec.ofNat 32 (4 * (k + 1)) = va + 4 + BitVec.ofNat 32 (4 * k) := by
        rw [hfour, add_add_ofNat, Nat.mul_succ, Nat.add_comm]
      have hskip : (pushArgs va (v :: args) m).read32 (va + 4 + BitVec.ofNat 32 (4 * k)) =
          (pushArgs (va + 4) args m).read32 (va + 4 + BitVec.ofNat 32 (4 * k)) := by
        refine Mem.read32_congr fun x hx => Mem.write32_frame fun hin => ?_
        obtain ⟨i, hi, rfl⟩ := hx.exists_add
        rw [hfour, add_add_ofNat, add_add_ofNat, inRange_add (by omega)] at hin
        omega
      calc
        (argsOf (pushArgs va (v :: args) m) va).word (k + 1) =
            (pushArgs va (v :: args) m).read32 (va + 4 + BitVec.ofNat 32 (4 * k)) := by rw [← haddr]; rfl
        _ = (argsOf (pushArgs (va + 4) args m) (va + 4)).word k := hskip
        _ = args.getD k 0 := ih (by omega) (by omega)
        _ = (v :: args).getD (k + 1) 0 := List.getD_cons_succ.symm

end

section

variable {site : Site} {R : Word → Prop} {m m₀ : Mem 32} {str : List Byte} {args : List Word}

theorem callText_eq (hlen : 4 * args.length < 2 ^ 32) (hf : Fmt str args.length) :
    textOf (effectsOf (pushArgs site.va args m) site.va str) = callText str args := by
  have hplain := allPlain_simple (argsOf (pushArgs site.va args m) site.va) (listArgs args) 0 0 hf.simple
  have hword : ∀ j, j < 0 + takesOf (format str) →
      (argsOf (pushArgs site.va args m) site.va).word j = (listArgs args).word j := by
    intro j hj
    have htakes := hf.takes
    exact pushArgs_word hlen (by omega)
  exact congrArg textOf (hplain.congr hword)

theorem callText_ascii {n : Nat} (args : List Word) (hf : Fmt str n) : ∀ c ∈ callText str args, IsAscii c :=
  (allPlain_simple (listArgs args) (listArgs args) 0 0 hf.simple).ascii

/-- A text without directives. -/
theorem format_plain (h : ∀ c ∈ str, c ≠ 0x25) : format str = str.map .literal := by
  induction str with
  | nil => rfl
  | cons c str ih =>
    rw [format_literal (h c List.mem_cons_self), ih fun c' hc => h c' (List.mem_cons_of_mem _ hc), List.map_cons]

theorem callText_plain (h : ∀ c ∈ str, c ≠ 0x25) : callText str args = str := by
  have htext := textOf_literals (listArgs args) 0 0 str []
  rw [List.append_nil, effects] at htext
  rw [callText, format_plain h, htext]
  exact List.append_nil str

theorem Fmt.plain (h : ∀ c ∈ str, IsAscii c ∧ c ≠ 0x25) (hlen : str.length < 128) : Fmt str 0 := by
  have hformat := format_plain fun c hc => (h c hc).2
  refine ⟨fun c hc => (h c hc).1, ?_, ?_, ?_, by rw [addressSpace]; omega⟩
  · rw [hformat, List.forall_mem_map]
    exact fun c hc => (h c hc).1
  · have hnone : (str.map Piece.literal).map Piece.takes = str.map fun _ => 0 := List.map_map
    rw [hformat, takesOf, hnone]
    simp
  · rw [hformat, List.length_map]
    exact hlen

/-- The call is one that `vsprintf` is right for. -/
theorem Site.Apart.call (h : site.Apart R m₀ str args.length) (hf : Fmt str args.length) (hm : Frozen R m₀ m) :
    Call (fun x => R x ∨ InRange site.va (4 * args.length) x) (pushArgs site.va args m) site.buf site.fmt
      site.va str := by
  have hfew := h.few
  have hplain := allPlain_simple (argsOf (pushArgs site.va args m) site.va)
    (argsOf (pushArgs site.va args m) site.va) 0 0 hf.simple
  have hlen : (textOf (effectsOf (pushArgs site.va args m) site.va str)).length < printfBufSize := by
    have hlength : (textOf (effectsOf (pushArgs site.va args m) site.va str)).length ≤ 8 * (format str).length :=
      hplain.length
    have hshort := hf.short
    rw [printfBufSize]
    omega
  refine ⟨fun h0 => ?_, hf.length, fun i hi => ?_, allFit_simple hf.simple, ?_⟩
  · exact Nat.lt_irrefl 0 (hf.ascii 0 h0).1
  · obtain ⟨hR, hbyte⟩ := h.literal i hi
    have hout : ¬ InRange site.va (4 * args.length) (site.fmt + BitVec.ofNat 32 i) := fun hin =>
      (h.frame _ (.inl hin)).1 hR
    exact ⟨.inl hR, by rw [pushArgs_frame hfew hout, hm _ hR, hbyte]⟩
  · refine ⟨fun j _ hj x hx => ?_, fun e he q n hread => ?_, fun e he q v hstore => ?_, fun i hi => ?_⟩
    · have htakes := hf.takes
      have hj' : j < 0 + takesOf (format str) := hplain.next ▸ hj
      obtain ⟨i, hi, rfl⟩ := hx.exists_add
      right
      rw [add_add_ofNat, inRange_add (by omega)]
      omega
    · rw [hplain.read e he] at hread
      cases hread
    · rw [hplain.store e he] at hstore
      cases hstore
    · have hbuf : InRange site.buf printfBufSize (site.buf + BitVec.ofNat 32 i) := by
        have hi' : i < (textOf (effectsOf (pushArgs site.va args m) site.va str)).length := hi
        rw [printfBufSize] at hlen ⊢
        rw [inRange_add (by omega)]
        omega
      rintro (hR | hin)
      · exact (h.frame _ (.inr hbuf)).1 hR
      · exact h.args _ hin hbuf

end

theorem takeWhile_ascii {text : List Byte} (h : ∀ c ∈ text, IsAscii c) : text.takeWhile (· ≠ 0) = text := by
  rw [List.takeWhile_eq_self_iff]
  intro c hc
  have hpos := (h c hc).1
  simp only [ne_eq, decide_eq_true_eq]
  rintro rfl
  exact Nat.lt_irrefl 0 hpos

/-- A text and another one are printed as one. -/
theorem step_puts_append {s t : List Byte} (hs : ∀ c ∈ s, IsAscii c) (ht : ∀ c ∈ t, IsAscii c) (cols rows : Nat)
    (d : Display) : d.step cols rows (.print (.puts (s ++ t))) =
      (d.step cols rows (.print (.puts s))).step cols rows (.print (.puts t)) := by
  have hst : ∀ c ∈ s ++ t, IsAscii c := List.forall_mem_append.mpr ⟨hs, ht⟩
  simp only [Display.step, Print.chars, takeWhile_ascii hs, takeWhile_ascii ht, takeWhile_ascii hst]
  rw [List.map_append, Display.typeAll, List.foldl_append]
  rfl

/-- The screen shows the text of the call, and only the stack and the screen have changed. -/
theorem shows_printfCall {p : Program} {font : Font} {R : Word → Prop} {m₀ : Mem 32} {s : Screen} {d : Display}
    {site : Site} {str : List Byte} (args : List Word) (hfont : font.Fits)
    (hc : ∀ c, IsAscii c → HasBitmaps p font R [c.signExtend 32]) (h : Shows font R m₀ s d) (hsite : site.Apart R m₀ str args.length)
    (hf : Fmt str args.length) : ∃ s', printfCall p site args s = some s' ∧
      Shows font R m₀ s' (d.step font.cols font.rows (.print (.puts (callText str args)))) ∧
      ∀ x, ¬ site.Frame args.length x → ¬ InRange vgaAddress screenSize x → s'.mem x = s.mem x := by
  have hplain := allPlain_simple (argsOf (pushArgs site.va args s.mem) site.va)
    (argsOf (pushArgs site.va args s.mem) site.va) 0 0 hf.simple
  have htext : textOf (effectsOf (pushArgs site.va args s.mem) site.va str) = callText str args :=
    callText_eq hsite.few hf
  have hascii := callText_ascii args hf
  have hlen : (callText str args).length < printfBufSize := by
    have hlength : (callText str args).length ≤ 8 * (format str).length := htext ▸ hplain.length
    have hshort := hf.short
    rw [printfBufSize]
    omega
  obtain ⟨m', hrun, hholds, hframe⟩ := vsprintf_writes (hsite.call hf h.frame) hplain.store
    (by rw [htext, addressSpace]; rw [printfBufSize] at hlen; omega)
  rw [htext] at hrun hholds hframe
  have hstring : cString m' addressSpace site.buf = callText str args := by
    rw [cString_of_holds _ _ _ (by rw [addressSpace]; rw [printfBufSize] at hlen; omega) hholds,
      takeWhile_ascii hascii]
  have hstack : ∀ x, ¬ site.Frame args.length x → m' x = s.mem x := by
    intro x hnot
    rw [hframe x fun hin => hnot (.inr (hin.mono hlen)), pushArgs_frame hsite.few fun hin => hnot (.inl hin)]
  have hother : Shows font R m₀ { s with mem := m' } d := by
    refine h.other fun a ha => hstack a fun hin => ?_
    cases ha with
    | inl hscreen => exact (hsite.frame a hin).2 hscreen
    | inr hR => exact (hsite.frame a hin).1 hR
  refine ⟨_, by rw [printfCall, hrun, Option.map_some], ?_, fun x hx hscreen => ?_⟩
  rotate_left
  · exact (Screen.step_frame hscreen ..).trans (hstack x hx)
  simp only [hstring]
  refine hother.step hfont _ (fun _ => by simp) ?_
  intro c hmem hn hr
  obtain ⟨b, hb, rfl⟩ := List.mem_map.mp hmem
  exact hc b (hascii b (List.takeWhile_subset _ hb)) _ List.mem_cons_self hn hr

end Printf
end Amethyst
