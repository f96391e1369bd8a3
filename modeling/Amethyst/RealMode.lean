import Amethyst.Memory

/-!
# Amethyst.RealMode

A 16-bit real-mode machine, for boot code. An instruction is a function on machines, built from
locations (`Loc`: registers, their halves, memory operands) that it reads and writes, so that a block
of code is a list that reads like its source. Jumps are not instructions: a program says with its
step function where each block goes.

`mem` is the data segment (DS), `far` the others; the stack segment is apart from both and is kept
in words. Of the flags there are those that jumps test: CF, ZF, and `lt` for SF ≠ OF. The direction
flag is clear.
-/

namespace Amethyst
namespace RealMode

/-! ## Runs -/

section

variable {σ ε : Type} (step : σ → σ ⊕ ε)

inductive Reaches : σ → σ → Prop where
  | refl (s : σ) : Reaches s s
  | next {s s' t : σ} : step s = .inl s' → Reaches s' t → Reaches s t

inductive Exec : σ → ε → Prop where
  | done {s : σ} {e : ε} : step s = .inr e → Exec s e
  | next {s s' : σ} {e : ε} : step s = .inl s' → Exec s' e → Exec s e

variable {step}

theorem Exec.deterministic {s : σ} {e e' : ε} (h : Exec step s e) (h' : Exec step s e') : e = e' := by
  induction h with
  | done hs =>
    cases h' with
    | done hs' => rw [hs] at hs'; cases hs'; rfl
    | next hs' _ => rw [hs] at hs'; cases hs'
  | next hs _ ih =>
    cases h' with
    | done hs' => rw [hs] at hs'; cases hs'
    | next hs' h'' => rw [hs] at hs'; cases hs'; exact ih h''

theorem Reaches.trans {s t u : σ} (h : Reaches step s t) (h' : Reaches step t u) :
    Reaches step s u := by
  induction h with
  | refl s => exact h'
  | next hs _ ih => exact .next hs (ih h')

theorem Reaches.exec {s t : σ} {e : ε} (h : Reaches step s t) (he : Exec step t e) :
    Exec step s e := by
  induction h with
  | refl s => exact he
  | next hs _ ih => exact .next hs (ih he)

end

/-! ## The machine -/

/-- The disk address packet of an extended read. -/
structure Packet where
  txcount : BitVec 16
  txbuffer : BitVec 16
  txsegment : BitVec 16
  lba : BitVec 64
deriving DecidableEq, Repr

/-- An `int 0x13`: the registers it is given, and the packet at DS:SI. -/
structure DiskCall where
  ax : BitVec 16
  bx : BitVec 16
  cx : BitVec 16
  dx : BitVec 16
  es : BitVec 16
  packet : Packet
deriving DecidableEq, Repr

structure Machine where
  eax : BitVec 32
  ebx : BitVec 32
  ecx : BitVec 32
  edx : BitVec 32
  si : BitVec 16
  di : BitVec 16
  bp : BitVec 16
  sp : BitVec 16
  ds : BitVec 16
  es : BitVec 16
  cf : Bool
  zf : Bool
  lt : Bool
  mem : Mem 16
  far : BitVec 16 → Mem 16
  stack : BitVec 16 → BitVec 16
  /-- The characters printed. -/
  out : List (BitVec 8)
  calls : List DiskCall

abbrev Op := Machine → Machine

/-- The machine after a block without jumps. -/
def exec (ops : List Op) (m : Machine) : Machine := ops.foldl (fun m op => op m) m

/-- The segment ES. -/
def Machine.extra (m : Machine) : Mem 16 := if m.es = m.ds then m.mem else m.far m.es

/-! ## Operands -/

structure Loc (w : Nat) where
  get : Machine → BitVec w
  set : BitVec w → Op

def eax : Loc 32 := ⟨Machine.eax, fun v m => { m with eax := v }⟩
def ebx : Loc 32 := ⟨Machine.ebx, fun v m => { m with ebx := v }⟩
def ecx : Loc 32 := ⟨Machine.ecx, fun v m => { m with ecx := v }⟩
def edx : Loc 32 := ⟨Machine.edx, fun v m => { m with edx := v }⟩
def si : Loc 16 := ⟨Machine.si, fun v m => { m with si := v }⟩
def di : Loc 16 := ⟨Machine.di, fun v m => { m with di := v }⟩
def bp : Loc 16 := ⟨Machine.bp, fun v m => { m with bp := v }⟩
def sp : Loc 16 := ⟨Machine.sp, fun v m => { m with sp := v }⟩
def ds : Loc 16 := ⟨Machine.ds, fun v m => { m with ds := v }⟩
def es : Loc 16 := ⟨Machine.es, fun v m => { m with es := v }⟩

def low16 (r : Loc 32) : Loc 16 :=
  ⟨fun m => (r.get m).extractLsb' 0 16, fun v m => r.set ((r.get m).extractLsb' 16 16 ++ v) m⟩

def low8 (r : Loc 32) : Loc 8 :=
  ⟨fun m => (r.get m).extractLsb' 0 8, fun v m => r.set ((r.get m).extractLsb' 8 24 ++ v) m⟩

def high8 (r : Loc 32) : Loc 8 :=
  ⟨fun m => (r.get m).extractLsb' 8 8,
    fun v m => r.set ((r.get m).extractLsb' 16 16 ++ v ++ (r.get m).extractLsb' 0 8) m⟩

def ax : Loc 16 := low16 eax
def bx : Loc 16 := low16 ebx
def cx : Loc 16 := low16 ecx
def dx : Loc 16 := low16 edx
def al : Loc 8 := low8 eax
def ah : Loc 8 := high8 eax
def dl : Loc 8 := low8 edx
def dh : Loc 8 := high8 edx
def cl : Loc 8 := low8 ecx
def ch : Loc 8 := high8 ecx
def bl : Loc 8 := low8 ebx
def bh : Loc 8 := high8 ebx

def imm {w : Nat} (v : BitVec w) : Loc w := ⟨fun _ => v, fun _ m => m⟩

/-- A memory operand at a fixed address, for the three locations below. -/
def abs (a : BitVec 16) : Machine → BitVec 16 := fun _ => a

/-- `byte [a]`, and below `word [a]` and `dword [a]`. -/
def byte (a : Machine → BitVec 16) : Loc 8 :=
  ⟨fun m => m.mem (a m), fun v m => { m with mem := Function.update m.mem (a m) v }⟩

def word (a : Machine → BitVec 16) : Loc 16 :=
  ⟨fun m => m.mem.read16 (a m), fun v m => { m with mem := m.mem.write16 (a m) v }⟩

def dword (a : Machine → BitVec 16) : Loc 32 :=
  ⟨fun m => m.mem.read32 (a m), fun v m => { m with mem := m.mem.write32 (a m) v }⟩

/-! ## Instructions -/

namespace Op

variable {w : Nat}

def mov (d s : Loc w) : Op := fun m => d.set (s.get m) m

def push (s : Loc 16) : Op := fun m =>
  { m with sp := m.sp - 2, stack := Function.update m.stack (m.sp - 2) (s.get m) }

def pop (d : Loc 16) : Op := fun m => d.set (m.stack m.sp) { m with sp := m.sp + 2 }

/-- CF, ZF and SF ≠ OF. -/
def flags (cf zf lt : Bool) : Op := fun m => { m with cf, zf, lt }

/-- A bitwise result: CF and OF are cleared. -/
def bitwise (d : Loc w) (v : BitVec w) : Op := fun m => flags false (v == 0) v.msb (d.set v m)

def xor (d s : Loc w) : Op := fun m => bitwise d (d.get m ^^^ s.get m) m

def or (d s : Loc w) : Op := fun m => bitwise d (d.get m ||| s.get m) m

def and (d s : Loc w) : Op := fun m => bitwise d (d.get m &&& s.get m) m

def add (d s : Loc w) : Op := fun m =>
  let r := d.get m + s.get m
  flags (BitVec.carry w (d.get m) (s.get m) false) (r == 0)
    (decide ((d.get m).toInt + (s.get m).toInt < 0)) (d.set r m)

def inc (d : Loc w) : Op := fun m =>
  let r := d.get m + 1
  flags m.cf (r == 0) (decide ((d.get m).toInt + 1 < 0)) (d.set r m)

def cmpFlags (a b : BitVec w) : Op := flags (a.ult b) (a == b) (a.slt b)

def cmp (a b : Loc w) : Op := fun m => cmpFlags (a.get m) (b.get m) m

/-- `bt a, i` -/
def bt (a : Loc w) (i : Nat) : Op := fun m => { m with cf := (a.get m).getLsbD i }

/-- `rol`, and `shr`, `shl` and `mul` below; nothing tests their flags. -/
def rol (d : Loc w) (i : Nat) : Op := fun m => d.set ((d.get m).rotateLeft i) m

def shr (d : Loc w) (i : Nat) : Op := fun m => d.set (d.get m >>> i) m

def shl (d : Loc w) (i : Nat) : Op := fun m => d.set (d.get m <<< i) m

/-- `mul` by a 16-bit operand. -/
def mul (s : Loc 16) : Op := fun m =>
  let n := (ax.get m).toNat * (s.get m).toNat
  dx.set (BitVec.ofNat 16 (n / 2 ^ 16)) (ax.set (BitVec.ofNat 16 n) m)

def stc : Op := fun m => { m with cf := true }

def pusha : Op := fun m =>
  exec [push ax, push cx, push dx, push bx, push (imm m.sp), push bp, push si, push di] m

def popa : Op :=
  exec [pop di, pop si, pop bp, fun m => { m with sp := m.sp + 2 }, pop bx, pop dx, pop cx, pop ax]

def lodsb : Op := fun m => { mov al (byte Machine.si) m with si := m.si + 1 }

/-- What `loop` does to CX. -/
def countDown : Op := fun m => mov cx (imm (cx.get m - 1)) m

def cmpsb : Op := fun m =>
  cmpFlags (m.mem m.si) (m.extra m.di) { m with si := m.si + 1, di := m.di + 1 }

/-- `repe cmpsb`, for `n` bytes at most. -/
def cmpsbs : Nat → Op
  | 0, m => m
  | n + 1, m =>
    let m := countDown (cmpsb m)
    if m.zf then cmpsbs n m else m

def repeCmpsb : Op := fun m => cmpsbs (cx.get m).toNat m

end Op

open Op

/-- `div` by a 32-bit operand; `none` is the divide error. -/
def div (s : Loc 32) (m : Machine) : Option Machine :=
  if m.edx < s.get m then
    let n := m.edx.toNat * 2 ^ 32 + m.eax.toNat
    some { m with
      eax := BitVec.ofNat 32 (n / (s.get m).toNat)
      edx := BitVec.ofNat 32 (n % (s.get m).toNat) }
  else none

/-- `div` by a 16-bit operand. -/
def div16 (s : Loc 16) (m : Machine) : Option Machine :=
  if dx.get m < s.get m then
    let n := (dx.get m).toNat * 2 ^ 16 + (ax.get m).toNat
    some (dx.set (BitVec.ofNat 16 (n % (s.get m).toNat))
      (ax.set (BitVec.ofNat 16 (n / (s.get m).toNat)) m))
  else none

/-- `call f`, where `ra` is the address of the next instruction and `f` runs to its `ret`. -/
def call (ra : BitVec 16) (f : Machine → Option Machine) (m : Machine) : Option Machine :=
  match f (push (imm ra) m) with
  | none => none
  | some m => if m.stack m.sp = ra then some { m with sp := m.sp + 2 } else none

/-! ## Symbolic execution

`simp` runs a block without calls: it unfolds the instructions and the operands, and the lemmas here
read a part of a register back. -/

attribute [simp] exec abs low16 low8 high8 eax ebx ecx edx si di bp sp ds es ax bx cx dx al ah dl dh cl ch
  bl bh imm byte word dword Op.mov Op.push Op.pop Op.flags Op.bitwise Op.xor Op.or Op.and Op.add Op.inc
  Op.cmpFlags Op.cmp Op.bt Op.rol Op.shr Op.shl Op.mul Op.stc Op.pusha Op.popa Op.lodsb Op.countDown

section

variable (a b : BitVec 16) (c d : BitVec 8) (e : BitVec 24) (x : BitVec 32)

@[simp] theorem low16_append : (a ++ b).extractLsb' 0 16 = b := BitVec.extractLsb'_append_eq_right

@[simp] theorem high16_append : (a ++ b).extractLsb' 16 16 = a := BitVec.extractLsb'_append_eq_left

@[simp] theorem low8_append : (e ++ d).extractLsb' 0 8 = d := BitVec.extractLsb'_append_eq_right

@[simp] theorem low8_append16 : (a ++ b).extractLsb' 0 8 = b.extractLsb' 0 8 :=
  BitVec.extractLsb'_append_eq_of_add_le (by decide)

@[simp] theorem high8_append16 : (a ++ b).extractLsb' 8 8 = b.extractLsb' 8 8 :=
  BitVec.extractLsb'_append_eq_of_add_le (by decide)

@[simp] theorem low16_append8 : (a ++ c ++ d).extractLsb' 0 16 = c ++ d := by
  apply BitVec.eq_of_getLsbD_eq
  intro i hi
  simp only [BitVec.getLsbD_append, BitVec.getLsbD_extractLsb']
  grind

@[simp] theorem high8_append8 : (a ++ c ++ d).extractLsb' 8 8 = c := by
  apply BitVec.eq_of_getLsbD_eq
  intro i hi
  simp only [BitVec.getLsbD_append, BitVec.getLsbD_extractLsb']
  grind

@[simp] theorem high16_append8 : (a ++ c ++ d).extractLsb' 16 16 = a := by
  apply BitVec.eq_of_getLsbD_eq
  intro i hi
  simp only [BitVec.getLsbD_append, BitVec.getLsbD_extractLsb']
  grind

@[simp] theorem high16_low16 : x.extractLsb' 16 16 ++ x.extractLsb' 0 16 = x := by
  apply BitVec.eq_of_getLsbD_eq
  intro i hi
  simp only [BitVec.getLsbD_append, BitVec.getLsbD_extractLsb']
  grind

@[simp] theorem high16_low8_append :
    (x.extractLsb' 8 24 ++ d).extractLsb' 16 16 = x.extractLsb' 16 16 := by
  apply BitVec.eq_of_getLsbD_eq
  intro i hi
  simp only [BitVec.getLsbD_append, BitVec.getLsbD_extractLsb']
  grind

theorem low8_low16 : (x.extractLsb' 0 16).extractLsb' 0 8 = x.extractLsb' 0 8 := by
  apply BitVec.eq_of_getLsbD_eq
  intro i hi
  simp only [BitVec.getLsbD_extractLsb']
  grind

theorem low16_eq_append : x.extractLsb' 0 16 = x.extractLsb' 8 8 ++ x.extractLsb' 0 8 := by
  apply BitVec.eq_of_getLsbD_eq
  intro i hi
  simp only [BitVec.getLsbD_append, BitVec.getLsbD_extractLsb']
  grind

theorem low16_low8_append :
    (x.extractLsb' 8 24 ++ d).extractLsb' 0 16 = x.extractLsb' 8 8 ++ d := by
  apply BitVec.eq_of_getLsbD_eq
  intro i hi
  simp only [BitVec.getLsbD_append, BitVec.getLsbD_extractLsb']
  grind

@[simp] theorem high8_low8_append :
    (x.extractLsb' 8 24 ++ d).extractLsb' 8 8 = x.extractLsb' 8 8 := by
  apply BitVec.eq_of_getLsbD_eq
  intro i hi
  simp only [BitVec.getLsbD_append, BitVec.getLsbD_extractLsb']
  grind

/-- A bit of the low byte, for `bt`. -/
@[simp] theorem getElem_low8_append {i : Nat} (h : i < 8) :
    (e ++ d : BitVec 32)[i] = d[i] := by
  rw [← BitVec.getLsbD_eq_getElem, BitVec.getLsbD_append, if_pos h, BitVec.getLsbD_eq_getElem]

end

theorem div16_eq {m : Machine} {s : Loc 16} (h : dx.get m = 0) (hs : 0 < (s.get m).toNat) :
    ∃ q r : BitVec 16, q.toNat = (ax.get m).toNat / (s.get m).toNat ∧
      r.toNat = (ax.get m).toNat % (s.get m).toNat ∧ div16 s m = some (dx.set r (ax.set q m)) := by
  have hlt : dx.get m < s.get m := by
    rw [h, BitVec.lt_def]
    exact hs
  have hq := Nat.div_le_self (ax.get m).toNat (s.get m).toNat
  have hr := Nat.mod_le (ax.get m).toNat (s.get m).toNat
  have := (ax.get m).isLt
  refine ⟨BitVec.ofNat 16 ((ax.get m).toNat / (s.get m).toNat),
    BitVec.ofNat 16 ((ax.get m).toNat % (s.get m).toNat), ?_, ?_, ?_⟩
  · exact (BitVec.toNat_ofNat ..).trans (Nat.mod_eq_of_lt (by omega))
  · exact (BitVec.toNat_ofNat ..).trans (Nat.mod_eq_of_lt (by omega))
  · have h0 : (dx.get m).toNat = 0 := by rw [h]; rfl
    rw [div16, if_pos hlt, h0]
    simp only [Nat.zero_mul, Nat.zero_add]

/-! ## Strings -/

section

variable {m : Machine}

theorem cmpsbs_frame (n : Nat) (m : Machine) : ∃ si di ecx cf zf lt,
    cmpsbs n m = { m with si, di, ecx, cf, zf, lt } := by
  induction n generalizing m with
  | zero => exact ⟨_, _, _, _, _, _, rfl⟩
  | succ n ih =>
    obtain ⟨si, di, ecx, cf, zf, lt, h⟩ := ih (countDown (cmpsb m))
    rw [cmpsbs]
    split
    · exact ⟨si, di, ecx, cf, zf, lt, h⟩
    · exact ⟨_, _, _, _, _, _, rfl⟩

theorem cmpsbs_zf {n : Nat} (h : m.es = m.ds) (hn : 0 < n) : (cmpsbs n m).zf = true ↔
    ∀ j < n, m.mem (m.si + BitVec.ofNat 16 j) = m.mem (m.di + BitVec.ofNat 16 j) := by
  induction n generalizing m with
  | zero => cases hn
  | succ n ih =>
    have hz : (countDown (cmpsb m)).zf = true ↔ m.mem m.si = m.mem m.di := by
      simp [cmpsb, Machine.extra, h]
    rw [cmpsbs, Nat.forall_lt_succ_left]
    by_cases he : m.mem m.si = m.mem m.di
    · rw [if_pos (hz.mpr he)]
      cases n with
      | zero => exact ⟨fun _ => ⟨by simp [he], by simp⟩, fun _ => hz.mpr he⟩
      | succ n =>
        have hadd (a : BitVec 16) (j : Nat) :
            a + BitVec.ofNat 16 (j + 1) = a + 1 + BitVec.ofNat 16 j := by
          rw [Nat.add_comm, ← add_add_ofNat]
          rfl
        rw [@ih (countDown (cmpsb m)) h (Nat.succ_pos n)]
        constructor
        · intro heq
          refine ⟨by simpa using he, fun j hj => ?_⟩
          rw [hadd, hadd]
          exact heq j hj
        · intro ⟨_, heq⟩ j hj
          have := heq j hj
          rw [hadd, hadd] at this
          exact this
    · rw [if_neg (hz.not.mpr he), hz]
      simp [he]
end

/-! ## The stack

`Kept n m m'` is what a piece of code that pushes `n` words at most, and pops them again, leaves:
SP and the stack from SP on. It stores nothing to memory and makes no disk call. -/

structure Kept (n : Nat) (m m' : Machine) : Prop where
  sp : m'.sp = m.sp
  stack : ∀ a, (a - m.sp).toNat + 2 * n < 2 ^ 16 → m'.stack a = m.stack a
  mem : m'.mem = m.mem
  calls : m'.calls = m.calls

namespace Kept

variable {n k : Nat} {m m' m'' : Machine} {s : Loc 16}

/-- Code that does not use the stack. -/
theorem of_eq (hsp : m'.sp = m.sp) (hst : m'.stack = m.stack) (hm : m'.mem = m.mem)
    (hc : m'.calls = m.calls) : Kept n m m' :=
  ⟨hsp, fun _ _ => by rw [hst], hm, hc⟩

theorem trans (h : Kept n m m') (h' : Kept n m' m'') : Kept n m m'' where
  sp := h'.sp.trans h.sp
  stack a ha := (h'.stack a (by rw [h.sp]; exact ha)).trans (h.stack a ha)
  mem := h'.mem.trans h.mem
  calls := h'.calls.trans h.calls

theorem mono (h : Kept n m m') (hk : n ≤ k) : Kept k m m' :=
  { h with stack := fun a ha => h.stack a (by omega) }

theorem top (h : Kept n m m') (hn : n < 2 ^ 15) : m'.stack m'.sp = m.stack m.sp := by
  rw [h.sp]
  apply h.stack
  rw [BitVec.sub_self]
  exact Nat.lt_of_le_of_lt (Nat.le_of_eq (Nat.zero_add _)) (by omega)

theorem pushed (h : Kept n (push s m) m') (hn : n < 2 ^ 15) : m'.stack m'.sp = s.get m :=
  (h.top hn).trans (Function.update_self ..)

/-- A push before and a pop after. -/
theorem popped (h : Kept n (push s m) m') (hsp : m''.sp = m'.sp + 2) (hst : m''.stack = m'.stack)
    (hm : m''.mem = m'.mem) (hc : m''.calls = m'.calls) : Kept (n + 1) m m'' where
  sp := by
    rw [hsp, h.sp]
    exact BitVec.sub_add_cancel ..
  stack a ha := by
    have hne : a ≠ m.sp - 2 := by bv_omega
    have hle : (a - (m.sp - 2)).toNat + 2 * n < 2 ^ 16 := by bv_omega
    rw [hst]
    exact (h.stack a hle).trans (Function.update_of_ne hne ..)
  mem := hm.trans h.mem
  calls := hc.trans h.calls

theorem drop (h : Kept n (push s m) m') : Kept (n + 1) m { m' with sp := m'.sp + 2 } :=
  h.popped rfl rfl rfl rfl

end Kept

/-- `mov si, s`, `mov cx, n`, `push di`, `repe cmpsb`, `pop di` -/
theorem compare_spec (s : Loc 16) {n : BitVec 16} (hn : 0 < n.toNat) {m : Machine}
    (h : m.es = m.ds) : ∃ m', exec [mov si s, mov cx (imm n), push di, repeCmpsb, pop di] m = m' ∧
      Kept 1 m m' ∧ m'.di = m.di ∧ m'.ebx = m.ebx ∧ m'.edx = m.edx ∧ m'.es = m.es ∧ m'.ds = m.ds ∧
      (m'.zf = true ↔ ∀ j < n.toNat, m.mem (s.get m + BitVec.ofNat 16 j) =
        m.mem (m.di + BitVec.ofNat 16 j)) := by
  let p := exec [mov si s, mov cx (imm n), push di] m
  have hcx : cx.get p = n := by simp [p]
  have he : exec [mov si s, mov cx (imm n), push di, repeCmpsb, pop di] m =
      pop di (cmpsbs n.toNat p) := by
    have hr : exec [mov si s, mov cx (imm n), push di, repeCmpsb, pop di] m = pop di (repeCmpsb p) := rfl
    rw [hr, repeCmpsb, hcx]
  have hz := @cmpsbs_zf p n.toNat h hn
  obtain ⟨si', di', ecx', cf', zf', lt', hp⟩ := cmpsbs_frame n.toNat p
  refine ⟨_, he, ?_, ?_, ?_, ?_, ?_, ?_, hz⟩
  all_goals rw [hp]
  · have hk : Kept 0 (push di m) p := .of_eq rfl rfl rfl rfl
    exact hk.popped rfl rfl rfl rfl
  · exact Function.update_self ..
  all_goals rfl

theorem call_eq_some {ra : BitVec 16} {f : Machine → Option Machine} {m m' : Machine} :
    call ra f m = some m' ↔ ∃ m₁, f (push (imm ra) m) = some m₁ ∧ m₁.stack m₁.sp = ra ∧
      m' = { m₁ with sp := m₁.sp + 2 } := by
  rw [call]
  cases hf : f (push (imm ra) m) with
  | none => simp
  | some m₁ =>
    by_cases hr : m₁.stack m₁.sp = ra
    · simp [hr, eq_comm]
    · simp [hr]

/-- A function that pops what it pushed comes back. -/
theorem call_kept {n : Nat} {ra : BitVec 16} {f : Machine → Option Machine} {m m₁ : Machine}
    (hf : f (push (imm ra) m) = some m₁) (hk : Kept n (push (imm ra) m) m₁) (hn : n < 2 ^ 15) :
    call ra f m = some { m₁ with sp := m₁.sp + 2 } ∧ Kept (n + 1) m { m₁ with sp := m₁.sp + 2 } :=
  ⟨call_eq_some.mpr ⟨m₁, hf, hk.pushed hn, rfl⟩, hk.drop⟩

/-! ## The BIOS -/

/-- The machine as an `int 0x13` leaves it. SP, the segment registers and the stack are kept. -/
structure Outcome where
  eax : BitVec 32
  ebx : BitVec 32
  ecx : BitVec 32
  edx : BitVec 32
  si : BitVec 16
  di : BitVec 16
  bp : BitVec 16
  cf : Bool
  zf : Bool
  lt : Bool
  mem : Mem 16

/-- What each `int 0x13` does, by how many there were before. -/
abbrev Bios := Nat → Outcome

def Machine.packet (m : Machine) : Packet where
  txcount := m.mem.read16 (m.si + 2)
  txbuffer := m.mem.read16 (m.si + 4)
  txsegment := m.mem.read16 (m.si + 6)
  lba := m.mem.read64 (m.si + 8)

def Machine.int13Call (m : Machine) : DiskCall :=
  ⟨ax.get m, bx.get m, cx.get m, dx.get m, m.es, m.packet⟩

/-- `int 0x13`. It writes to the data segment from `keep` on only. -/
def int13 (bios : Bios) (keep : BitVec 16) : Op := fun m =>
  let o := bios m.calls.length
  { m with
    eax := o.eax, ebx := o.ebx, ecx := o.ecx, edx := o.edx, si := o.si, di := o.di, bp := o.bp
    cf := o.cf, zf := o.zf, lt := o.lt
    mem := fun x => if x < keep then m.mem x else o.mem x
    calls := m.calls ++ [m.int13Call] }

/-- `int 0x10` with AH = 0Eh prints AL. -/
def int10 : Op := fun m => { m with out := m.out ++ [al.get m] }

end RealMode
end Amethyst
