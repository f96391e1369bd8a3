import Amethyst.Printf.Number

/-!
# Amethyst.Printf.Format

The language of `vsprintf`'s format strings: what a string is made of, and what each piece is to
write for its arguments. A format is read from left to right, each part of a directive as far as it
goes; it ends with an unfinished directive if the string ends inside one.

* `format_text`: the pieces of a string spell the string.
* `format_append`: the pieces of two strings one after the other, unless the first is unfinished.
* `effects_append`: what two formats write, the second with the arguments that the first has left.
-/

namespace Amethyst
namespace Printf

open Installer (Byte)

/-- A string literal. -/
def ascii (s : String) : List Byte := s.toList.map fun c => BitVec.ofNat 8 c.toNat

/-! ## Pieces -/

/-- A width or a precision, as it is written. -/
inductive Count where
  | absent
  | digits (ds : List Byte)
  | star
deriving DecidableEq, Repr

/-- What stands between `%` and the conversion. -/
structure Spec where
  flags : List Byte
  width : Count
  precision : Option Count
  qualifier : Option Byte
deriving DecidableEq, Repr

inductive Piece where
  | literal (c : Byte)
  | directive (spec : Spec) (conversion : Byte)
  | unfinished (spec : Spec)
deriving DecidableEq, Repr

def Count.text : Count → List Byte
  | absent => []
  | digits ds => ds
  | star => [0x2A]

def precisionText : Option Count → List Byte
  | none => []
  | some precision => 0x2E :: precision.text

def Spec.text (spec : Spec) : List Byte :=
  spec.flags ++ (spec.width.text ++ (precisionText spec.precision ++ spec.qualifier.toList))

def Piece.text : Piece → List Byte
  | literal c => [c]
  | directive spec conversion => 0x25 :: (spec.text ++ [conversion])
  | unfinished spec => 0x25 :: spec.text

/-! ## Reading a format -/

def flagBit (c : Byte) : Option Word :=
  match c.toNat with
  | 0x2D => some left
  | 0x2B => some plus
  | 0x20 => some space
  | 0x23 => some special
  | 0x30 => some zeropad
  | _ => none

def isFlag (c : Byte) : Bool := (flagBit c).isSome

/-- `isdigit` of `ctype.c` -/
def isdigit (c : Word) : Bool := (0x30 : Word).sle c ∧ c.sle 0x39

/-- `isdigit` of a `char` -/
def isDigit (c : Byte) : Bool := isdigit (c.signExtend 32)

def isQualifier (c : Byte) : Bool := c = 0x68 ∨ c = 0x6C ∨ c = 0x4C

def takeCount : List Byte → Count × List Byte
  | [] => (.absent, [])
  | c :: s =>
    if isDigit c then (.digits ((c :: s).takeWhile isDigit), (c :: s).dropWhile isDigit)
    else if c = 0x2A then (.star, s)
    else (.absent, c :: s)

def takePrecision : List Byte → Option Count × List Byte
  | [] => (none, [])
  | c :: s => if c = 0x2E then (some (takeCount s).1, (takeCount s).2) else (none, c :: s)

def takeQualifier : List Byte → Option Byte × List Byte
  | [] => (none, [])
  | c :: s => if isQualifier c then (some c, s) else (none, c :: s)

/-- The rest of a directive after `%`, up to its conversion. -/
def takeSpec (s : List Byte) : Spec × List Byte :=
  let width := takeCount (s.dropWhile isFlag)
  let precision := takePrecision width.2
  let qualifier := takeQualifier precision.2
  (⟨s.takeWhile isFlag, width.1, precision.1, qualifier.1⟩, qualifier.2)

/-- The pieces of a string of at most `n` bytes. -/
def formatUpTo : Nat → List Byte → List Piece
  | 0, _ => []
  | _, [] => []
  | n + 1, c :: s =>
    if c ≠ 0x25 then .literal c :: formatUpTo n s
    else
      match takeSpec s with
      | (spec, []) => [.unfinished spec]
      | (spec, conversion :: s) => .directive spec conversion :: formatUpTo n s

def format (s : List Byte) : List Piece := formatUpTo s.length s

/-! ## What a format writes -/

/-- The arguments: the words of the `va_list`, and the string at an address, cut off after a number of
bytes. -/
structure Args where
  word : Nat → Word
  string : Word → Nat → List Byte

/-- The variables `flags`, `field_width` and `precision`. -/
structure Field where
  flags : Word
  width : Word
  precision : Word
deriving DecidableEq, Repr

/-- What a piece does: the text it writes, the number of the argument that comes next, and for `%n` the
address and the value stored there, for `%s` the bytes read. -/
structure Effect where
  text : List Byte
  next : Nat
  store : Option (Word × Word) := none
  read : Option (Word × Nat) := none

def Count.eval (args : Args) (k : Nat) : Count → Word × Nat
  | absent => (-1, k)
  | digits ds => (ds.foldl Stdlib.atoiStep 0, k)
  | star => (args.word k, k + 1)

def flagsOf (flags : List Byte) : Word := flags.foldl (fun v c => v ||| (flagBit c).getD 0) 0

/-- A precision below 0 is 0. -/
def precisionOf (args : Args) (k : Nat) : Option Count → Word × Nat
  | none => (-1, k)
  | some count =>
    let precision := count.eval args k
    (if precision.1.slt 0 then 0 else precision.1, precision.2)

/-- A width below 0 that is an argument stands for `-` and the width without its sign. -/
def Spec.eval (args : Args) (k : Nat) (spec : Spec) : Field × Nat :=
  let width := spec.width.eval args k
  let negative : Bool := spec.width = .star ∧ width.1.slt 0
  let precision := precisionOf args width.2 spec.precision
  (⟨if negative then flagsOf spec.flags ||| left else flagsOf spec.flags,
    if negative then -width.1 else width.1, precision.1⟩, precision.2)

/-- The cases of the second `switch`. -/
inductive Conversion where
  | char
  | string
  | pointer
  | count
  | percent
  | integer (base : Nat) (flag : Word)
  | other
deriving DecidableEq, Repr

def conversionOf (c : Byte) : Conversion :=
  match c.toNat with
  | 0x63 => .char
  | 0x73 => .string
  | 0x70 => .pointer
  | 0x6E => .count
  | 0x25 => .percent
  | 0x6F => .integer 8 0
  | 0x78 => .integer 16 small
  | 0x58 => .integer 16 0
  | 0x64 | 0x69 => .integer 10 sign
  | 0x75 => .integer 10 0
  | _ => .other

/-- The number that an integer argument is read as. -/
def argument (qualifier : Option Byte) (flags v : Word) : Word :=
  if qualifier = some 0x6C then v
  else if qualifier = some 0x68 then
    if has flags sign then (v.setWidth 16).signExtend 32 else (v.setWidth 16).setWidth 32
  else v

def justify (flags width : Word) (s : List Byte) : List Byte :=
  if has flags left then s.rightpad width.toInt.toNat 0x20 else s.leftpad width.toInt.toNat 0x20

/-- `%p` without a width has eight digits. -/
def Field.pointer (f : Field) : Field :=
  if f.width = -1 then { f with width := 8, flags := f.flags ||| zeropad } else f

def Field.number (f : Field) (num : Word) (base : Nat) : List Byte :=
  numberText f.flags num base f.width.toInt f.precision.toInt

def Field.withFlag (f : Field) (flag : Word) : Field := { f with flags := f.flags ||| flag }

/-- A conversion, when `count` characters have been written and `k` arguments taken. -/
def convert (args : Args) (f : Field) (qualifier : Option Byte) (c : Byte) (k count : Nat) : Effect :=
  match conversionOf c with
  | .char => { text := justify f.flags f.width [(args.word k).setWidth 8], next := k + 1 }
  | .string =>
    let s := args.string (args.word k) f.precision.toNat
    { text := justify f.flags f.width s, next := k + 1, read := some (args.word k, s.length + 1) }
  | .pointer => { text := f.pointer.number (args.word k) 16, next := k + 1 }
  | .count => { text := [], next := k + 1, store := some (args.word k, BitVec.ofNat 32 count) }
  | .percent => { text := [0x25], next := k }
  | .integer base flag =>
    let f := f.withFlag flag
    { text := f.number (argument qualifier f.flags (args.word k)) base, next := k + 1 }
  | .other => { text := [0x25, c], next := k }

/-- The width and the precision are in the range that the counting down of `int`s needs. -/
def Field.Fits (args : Args) (f : Field) (c : Byte) (k : Nat) : Prop :=
  match conversionOf c with
  | .char => -2 ^ 31 + 2 ≤ f.width.toInt
  | .string => -2 ^ 31 + 2 ≤ f.width.toInt ∧ (args.string (args.word k) f.precision.toNat).length < 2 ^ 31
  | .pointer => Room f.pointer.width f.pointer.precision
  | .integer _ _ => Room f.width f.precision
  | .count | .percent | .other => True

def Piece.Fits (args : Args) (k : Nat) : Piece → Prop
  | directive spec c => (spec.eval args k).1.Fits args c (spec.eval args k).2
  | literal _ | unfinished _ => True

def Piece.effect (args : Args) (k count : Nat) : Piece → Effect
  | literal c => { text := [c], next := k }
  | directive spec c =>
    let field := spec.eval args k
    convert args field.1 spec.qualifier c field.2 count
  | unfinished spec => { text := [0x25], next := (spec.eval args k).2 }

def effects (args : Args) : Nat → Nat → List Piece → List Effect
  | _, _, [] => []
  | k, count, piece :: pieces =>
    let e := piece.effect args k count
    e :: effects args e.next (count + e.text.length) pieces

def textOf (es : List Effect) : List Byte := es.flatMap Effect.text

/-- The arguments taken, `k` at the start. -/
def nextOf (k : Nat) (es : List Effect) : Nat := es.foldl (fun _ e => e.next) k

/-! ## The text of the pieces -/

theorem takeCount_text (s : List Byte) : (takeCount s).1.text ++ (takeCount s).2 = s := by
  unfold takeCount
  cases s with
  | nil => rfl
  | cons c s =>
    simp only
    split
    · exact List.takeWhile_append_dropWhile
    · split
      · next hstar => simp [Count.text, hstar]
      · rfl

theorem takePrecision_text (s : List Byte) :
    precisionText (takePrecision s).1 ++ (takePrecision s).2 = s := by
  unfold takePrecision
  cases s with
  | nil => rfl
  | cons c s =>
    simp only
    split
    · next hdot => simp [precisionText, takeCount_text, hdot]
    · rfl

theorem takeQualifier_text (s : List Byte) : (takeQualifier s).1.toList ++ (takeQualifier s).2 = s := by
  unfold takeQualifier
  cases s with
  | nil => rfl
  | cons c s =>
    simp only
    split <;> rfl

theorem takeSpec_text (s : List Byte) : (takeSpec s).1.text ++ (takeSpec s).2 = s := by
  simp only [takeSpec, Spec.text, List.append_assoc, takeQualifier_text, takePrecision_text, takeCount_text,
    List.takeWhile_append_dropWhile]

theorem takeSpec_length (s : List Byte) : (takeSpec s).2.length ≤ s.length := by
  have h := congrArg List.length (takeSpec_text s)
  rw [List.length_append] at h
  omega

section

variable {n : Nat} {c : Byte} {s rest : List Byte} {spec : Spec}

theorem formatUpTo_literal (hc : c ≠ 0x25) :
    formatUpTo (n + 1) (c :: s) = .literal c :: formatUpTo n s := by
  rw [formatUpTo, if_pos hc]

theorem formatUpTo_directive (h : takeSpec s = (spec, c :: rest)) :
    formatUpTo (n + 1) (0x25 :: s) = .directive spec c :: formatUpTo n rest := by
  rw [formatUpTo, if_neg (not_not.mpr rfl), h]

theorem formatUpTo_unfinished (h : takeSpec s = (spec, [])) :
    formatUpTo (n + 1) (0x25 :: s) = [.unfinished spec] := by
  rw [formatUpTo, if_neg (not_not.mpr rfl), h]

/-- The three ways in which a string that is not empty goes on. -/
theorem head_cases (c : Byte) (s : List Byte) : c ≠ 0x25 ∨ c = 0x25 ∧
    ((∃ spec, takeSpec s = (spec, [])) ∨
      ∃ spec k rest, takeSpec s = (spec, k :: rest) ∧ rest.length < s.length) := by
  by_cases hc : c = 0x25
  · refine .inr ⟨hc, ?_⟩
    cases h : takeSpec s with
    | mk spec t =>
      cases t with
      | nil => exact .inl ⟨spec, rfl⟩
      | cons k rest =>
        have hlen := takeSpec_length s
        rw [h, List.length_cons] at hlen
        exact .inr ⟨spec, k, rest, rfl, hlen⟩
  · exact .inl hc

end

/-- By induction on the bytes that are left; the bound does not matter when it is large enough. -/
theorem formatUpTo_eq : ∀ (n m : Nat) (s : List Byte), s.length ≤ n → s.length ≤ m →
    formatUpTo n s = formatUpTo m s := by
  intro n
  induction n with
  | zero =>
    intro m s hn _
    rw [List.eq_nil_of_length_eq_zero (Nat.le_zero.mp hn)]
    cases m <;> rfl
  | succ n ih =>
    intro m s hn hm
    cases s with
    | nil => cases m <;> rfl
    | cons c s =>
      rw [List.length_cons] at hn hm
      obtain ⟨m, rfl⟩ : ∃ k, m = k + 1 := ⟨m - 1, by omega⟩
      rcases head_cases c s with hc | ⟨rfl, ⟨spec, h⟩ | ⟨spec, k, rest, h, hlt⟩⟩
      · rw [formatUpTo_literal hc, formatUpTo_literal hc, ih m s (by omega) (by omega)]
      · rw [formatUpTo_unfinished h, formatUpTo_unfinished h]
      · rw [formatUpTo_directive h, formatUpTo_directive h, ih m rest (by omega) (by omega)]

section

variable {c : Byte} {s rest : List Byte} {spec : Spec}

@[simp] theorem format_nil : format [] = [] := rfl

theorem format_literal (hc : c ≠ 0x25) : format (c :: s) = .literal c :: format s :=
  formatUpTo_literal hc

theorem format_directive (h : takeSpec s = (spec, c :: rest)) :
    format (0x25 :: s) = .directive spec c :: format rest := by
  have hlen := takeSpec_length s
  rw [h, List.length_cons] at hlen
  rw [format, List.length_cons, formatUpTo_directive h]
  exact congrArg _ (formatUpTo_eq _ _ _ (by omega) (Nat.le_refl _))

theorem format_unfinished (h : takeSpec s = (spec, [])) : format (0x25 :: s) = [.unfinished spec] :=
  formatUpTo_unfinished h

end

/-- The induction over a format string: a literal, an unfinished directive or a whole one, and the rest. -/
theorem format_induction {P : List Byte → Prop} (nil : P [])
    (literal : ∀ c s, c ≠ 0x25 → P s → P (c :: s))
    (unfinished : ∀ s spec, takeSpec s = (spec, []) → P (0x25 :: s))
    (directive : ∀ s spec k rest, takeSpec s = (spec, k :: rest) → P rest → P (0x25 :: s)) :
    ∀ s, P s := by
  have h : ∀ n (s : List Byte), s.length ≤ n → P s := by
    intro n
    induction n with
    | zero =>
      intro s hs
      rwa [List.eq_nil_of_length_eq_zero (Nat.le_zero.mp hs)]
    | succ n ih =>
      intro s hs
      cases s with
      | nil => exact nil
      | cons c s =>
        rw [List.length_cons] at hs
        rcases head_cases c s with hc | ⟨rfl, ⟨spec, h⟩ | ⟨spec, k, rest, h, hlt⟩⟩
        · exact literal c s hc (ih s (by omega))
        · exact unfinished s spec h
        · exact directive s spec k rest h (ih rest (by omega))
  exact fun s => h s.length s (Nat.le_refl _)

/-- The pieces of a string spell the string. -/
theorem format_text (s : List Byte) : (format s).flatMap Piece.text = s := by
  induction s using format_induction with
  | nil => rfl
  | literal c s hc ih =>
    rw [format_literal hc, List.flatMap_cons, ih]
    rfl
  | unfinished s spec h =>
    have htext := takeSpec_text s
    rw [h, List.append_nil] at htext
    rw [format_unfinished h, List.flatMap_cons, List.flatMap_nil, List.append_nil, Piece.text, htext]
  | directive s spec k rest h ih =>
    have htext := takeSpec_text s
    rw [h] at htext
    rw [format_directive h, List.flatMap_cons, ih, Piece.text, List.cons_append, List.append_assoc]
    exact congrArg _ htext

/-! ## Formats one after the other -/

theorem takeWhile_append_of_ne {p : Byte → Bool} {s : List Byte} (h : s.dropWhile p ≠ []) (t : List Byte) :
    (s ++ t).takeWhile p = s.takeWhile p ∧ (s ++ t).dropWhile p = s.dropWhile p ++ t := by
  induction s with
  | nil => exact absurd rfl h
  | cons c s ih =>
    cases hc : p c with
    | true =>
      rw [List.dropWhile_cons_of_pos hc] at h
      obtain ⟨h1, h2⟩ := ih h
      rw [List.cons_append, List.takeWhile_cons_of_pos hc, List.takeWhile_cons_of_pos hc,
        List.dropWhile_cons_of_pos hc, List.dropWhile_cons_of_pos hc, h1, h2]
      exact ⟨rfl, rfl⟩
    | false => simp [hc]

theorem takeCount_append {s : List Byte} (h : (takeCount s).2 ≠ []) (t : List Byte) :
    takeCount (s ++ t) = ((takeCount s).1, (takeCount s).2 ++ t) := by
  cases s with
  | nil => exact absurd rfl h
  | cons c s =>
    simp only [takeCount] at h
    simp only [takeCount, List.cons_append]
    split at h
    · next hd =>
      obtain ⟨h1, h2⟩ := takeWhile_append_of_ne h t
      rw [List.cons_append] at h1 h2
      simp only [if_pos hd, h1, h2]
    · next hd =>
      simp only [if_neg hd]
      split <;> rfl

theorem takePrecision_append {s : List Byte} (h : (takePrecision s).2 ≠ []) (t : List Byte) :
    takePrecision (s ++ t) = ((takePrecision s).1, (takePrecision s).2 ++ t) := by
  cases s with
  | nil => exact absurd rfl h
  | cons c s =>
    simp only [takePrecision] at h
    simp only [takePrecision, List.cons_append]
    split at h
    · next hdot => simp only [if_pos hdot, takeCount_append h t]
    · next hdot => simp only [if_neg hdot, List.cons_append]

theorem takeQualifier_append {s : List Byte} (h : (takeQualifier s).2 ≠ []) (t : List Byte) :
    takeQualifier (s ++ t) = ((takeQualifier s).1, (takeQualifier s).2 ++ t) := by
  cases s with
  | nil => exact absurd rfl h
  | cons c s =>
    simp only [takeQualifier, List.cons_append]
    split <;> rfl

theorem takeCount_ne_nil {s : List Byte} (h : (takeCount s).2 ≠ []) : s ≠ [] := by
  rintro rfl
  exact h rfl

theorem takeSpec_append {s : List Byte} (h : (takeSpec s).2 ≠ []) (t : List Byte) :
    takeSpec (s ++ t) = ((takeSpec s).1, (takeSpec s).2 ++ t) := by
  have hq : (takeQualifier (takePrecision (takeCount (s.dropWhile isFlag)).2).2).2 ≠ [] := h
  have hp : (takePrecision (takeCount (s.dropWhile isFlag)).2).2 ≠ [] := by
    intro he
    rw [he] at hq
    exact hq rfl
  have hw : (takeCount (s.dropWhile isFlag)).2 ≠ [] := by
    intro he
    rw [he] at hp
    exact hp rfl
  obtain ⟨h1, h2⟩ := takeWhile_append_of_ne (takeCount_ne_nil hw) t
  simp only [takeSpec, h1, h2, takeCount_append hw, takePrecision_append hp, takeQualifier_append hq]

/-- No directive is cut off by the end. -/
def Complete (pieces : List Piece) : Prop := ∀ spec, .unfinished spec ∉ pieces

theorem format_append {s : List Byte} (h : Complete (format s)) (t : List Byte) :
    format (s ++ t) = format s ++ format t := by
  induction s using format_induction with
  | nil => rfl
  | literal c s hc ih =>
    rw [format_literal hc] at h ⊢
    rw [List.cons_append, format_literal hc, ih fun spec hm => h spec (List.mem_cons_of_mem _ hm)]
    rfl
  | unfinished s spec hs =>
    rw [format_unfinished hs] at h
    exact absurd (List.mem_cons_self ..) (h spec)
  | directive s spec k rest hs ih =>
    have hst : takeSpec (s ++ t) = (spec, k :: (rest ++ t)) := by
      rw [takeSpec_append (by rw [hs]; simp), hs]
      rfl
    rw [format_directive hs] at h ⊢
    rw [List.cons_append, format_directive hst, ih fun spec hm => h spec (List.mem_cons_of_mem _ hm)]
    rfl

theorem effects_append (args : Args) (ps qs : List Piece) (k count : Nat) :
    effects args k count (ps ++ qs) = effects args k count ps ++
      effects args (nextOf k (effects args k count ps)) (count + (textOf (effects args k count ps)).length) qs := by
  induction ps generalizing k count with
  | nil => rfl
  | cons p ps ih =>
    have hcount : count + (p.effect args k count).text.length + (textOf (effects args
        (p.effect args k count).next (count + (p.effect args k count).text.length) ps)).length =
          count + (textOf (effects args k count (p :: ps))).length := by
      rw [effects, textOf, textOf, List.flatMap_cons, List.length_append, Nat.add_assoc]
    rw [List.cons_append, effects, ih, hcount]
    rfl

end Printf
end Amethyst
