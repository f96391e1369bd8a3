import Amethyst.RealMode

/-!
# Amethyst.Stage2.Io

The text output of the second boot stage (`io.asm`). `Io` has the addresses that the calls return to.
A function is a `Machine → Option Machine`; `none` is a loop that does not end, which `fetch` and
`next` see by their fuel: 2 ^ 16 bytes without a NUL are the whole segment, and CX counts down.

* `puts_kept`, `putx_kept`: what is printed leaves the stack, memory and the disk alone.
* `puts_prints`: a string that is in memory is printed.
-/

namespace Amethyst
namespace Stage2

open RealMode RealMode.Op

/-- The addresses after the calls of `putc`: in `puts`, and the two in `putx`. -/
structure Io where
  char : BitVec 16
  digit : BitVec 16
  space : BitVec 16

def putc (m : Machine) : Option Machine :=
  let m := exec [push ax, mov ah (imm 0x0E), cmp al (imm 0x0A)] m
  let m := if m.zf then exec [mov al (imm 0x0D), int10, mov al (imm 0x0A)] m else m
  some (exec [int10, pop ax] m)

def puts.fetch (io : Io) : Nat → Machine → Option Machine
  | 0, _ => none
  | n + 1, m =>
    let m := exec [lodsb, or al al] m
    if m.zf then some m else (call io.char putc m).bind (fetch io n)

def puts (io : Io) (m : Machine) : Option Machine :=
  (puts.fetch io (2 ^ 16) (exec [push si, push ax] m)).map (exec [pop ax, pop si])

def putx.skip (m : Machine) : Machine :=
  let m := exec [mov ax bx, rol bx 4, shr ax 12, cmp ax (imm 10)] m
  let m := if m.lt then m else exec [add ax (imm 7)] m
  exec [add ax (imm 0x30)] m

def putx.next (io : Io) : Nat → Machine → Option Machine
  | 0, _ => none
  | n + 1, m =>
    (call io.digit putc (skip m)).bind fun m =>
      let m := countDown m
      if cx.get m = 0 then some m else next io n m

def putx (io : Io) (m : Machine) : Option Machine :=
  (putx.next io (2 ^ 16) (exec [pusha, mov bx ax, mov cx (imm 4)] m)).bind fun m =>
    (call io.space putc (exec [mov ax (imm 0x20)] m)).map (exec [popa])

def crlf (c : BitVec 8) : List (BitVec 8) := if c = 0x0A then [0x0D, 0x0A] else [c]

variable {io : Io} {m m' : Machine}

theorem putc_spec (m : Machine) : ∃ m', putc m = some m' ∧ Kept 1 m m' ∧ m'.ecx = m.ecx ∧
    m'.si = m.si ∧ m'.out = m.out ++ crlf (al.get m) := by
  refine ⟨_, rfl, ⟨?_, ?_, ?_, ?_⟩, ?_, ?_, ?_⟩
  · split <;> exact BitVec.sub_add_cancel ..
  · intro a ha
    have hne : a ≠ m.sp - 2#16 := by bv_omega
    split <;> simp [int10, hne]
  · split <;> rfl
  · split <;> rfl
  · split <;> rfl
  · split <;> rfl
  · split <;> simp_all [int10, crlf]

theorem call_putc (ra : BitVec 16) (m : Machine) : ∃ m', call ra putc m = some m' ∧ Kept 2 m m' ∧
    m'.ecx = m.ecx ∧ m'.si = m.si ∧ m'.out = m.out ++ crlf (al.get m) := by
  obtain ⟨m₁, h, hk, hc, hs, ho⟩ := putc_spec (push (imm ra) m)
  obtain ⟨hcall, hk⟩ := call_kept h hk (by decide)
  exact ⟨_, hcall, hk, hc, hs, ho⟩

/-! ## `puts` -/

theorem puts.fetch_kept {n : Nat} (h : fetch io n m = some m') : Kept 2 m m' := by
  induction n generalizing m with
  | zero => cases h
  | succ n ih =>
    have hb : Kept 2 m (exec [lodsb, or al al] m) := .of_eq rfl rfl rfl rfl
    rw [fetch] at h
    split at h
    · cases h
      exact hb
    · obtain ⟨m₁, hm₁, hk, -⟩ := call_putc io.char (exec [lodsb, or al al] m)
      rw [hm₁] at h
      exact (hb.trans hk).trans (ih h)

theorem puts_kept (h : puts io m = some m') : Kept 4 m m' := by
  obtain ⟨m₁, h₁, rfl⟩ := Option.map_eq_some_iff.mp h
  have hk : Kept 3 (push si m) (exec [pop ax] m₁) :=
    (puts.fetch_kept h₁).popped rfl rfl rfl rfl
  exact hk.popped rfl rfl rfl rfl

/-- By induction on the text left to print. -/
theorem puts.fetch_prints {text : List (BitVec 8)} {n : Nat} (hn : text.length < n) (ht : 0 ∉ text)
    (hm : m.mem.Holds m.si (text.length + 1) (text.getD · 0)) :
    ∃ m', fetch io n m = some m' ∧ m'.out = m.out ++ text.flatMap crlf := by
  induction text generalizing m n with
  | nil =>
    obtain ⟨n, rfl⟩ : ∃ k, n = k + 1 := Nat.exists_eq_add_one.mpr hn
    have h0 : m.mem m.si = 0 := by simpa using hm 0 (by simp)
    exact ⟨exec [lodsb, or al al] m, by simp [fetch, h0], by simp⟩
  | cons c text ih =>
    obtain ⟨n, rfl⟩ : ∃ k, n = k + 1 := Nat.exists_eq_add_one.mpr (by omega)
    have h0 : m.mem m.si = c := by simpa using hm 0 (by simp)
    obtain ⟨hc, ht⟩ := List.ne_and_not_mem_of_not_mem_cons ht
    have hz : (exec [lodsb, or al al] m).zf = false := by simpa [h0] using hc.symm
    obtain ⟨m₁, hm₁, hk, -, hs, ho⟩ := call_putc io.char (exec [lodsb, or al al] m)
    have hm' : m₁.mem.Holds m₁.si (text.length + 1) (text.getD · 0) := by
      intro i hi
      have := hm (i + 1) (by simpa using hi)
      rw [hk.mem, hs]
      rw [Nat.add_comm, ← add_add_ofNat] at this
      simpa [Nat.add_comm 1 i] using this
    obtain ⟨m', h', ho'⟩ := ih (Nat.lt_of_succ_lt_succ hn) ht hm'
    refine ⟨m', ?_, ?_⟩
    · rw [fetch, hz, hm₁]
      exact h'
    · rw [ho', ho]
      simp [h0]

theorem puts_prints {text : List (BitVec 8)} (hn : text.length < 2 ^ 16) (ht : 0 ∉ text)
    (hm : m.mem.Holds m.si (text.length + 1) (text.getD · 0)) :
    ∃ m', puts io m = some m' ∧ Kept 4 m m' ∧ m'.out = m.out ++ text.flatMap crlf := by
  obtain ⟨m₁, h₁, ho⟩ := @puts.fetch_prints io (exec [push si, push ax] m) text _ hn ht hm
  have h : puts io m = some (exec [pop ax, pop si] m₁) := by rw [puts, h₁]; rfl
  exact ⟨_, h, puts_kept h, ho⟩

/-- What printing keeps of the registers; AX is apart. -/
structure SameRegisters (m m' : Machine) : Prop where
  ebx : m'.ebx = m.ebx
  ecx : m'.ecx = m.ecx
  edx : m'.edx = m.edx
  di : m'.di = m.di
  ds : m'.ds = m.ds
  es : m'.es = m.es
  high : m'.eax.extractLsb' 16 16 = m.eax.extractLsb' 16 16

theorem SameRegisters.trans {m'' : Machine} (h : SameRegisters m m') (h' : SameRegisters m' m'') :
    SameRegisters m m'' where
  ebx := h'.ebx.trans h.ebx
  ecx := h'.ecx.trans h.ecx
  edx := h'.edx.trans h.edx
  di := h'.di.trans h.di
  ds := h'.ds.trans h.ds
  es := h'.es.trans h.es
  high := h'.high.trans h.high

theorem putc_registers (h : putc m = some m') : SameRegisters m m' := by
  obtain rfl := Option.some.inj h
  constructor
  all_goals split <;> simp [int10]

theorem call_putc_registers {ra : BitVec 16} (h : call ra putc m = some m') : SameRegisters m m' := by
  obtain ⟨m₁, h₁, -, rfl⟩ := call_eq_some.mp h
  obtain ⟨h1, h2, h3, h4, h5, h6, h7⟩ := putc_registers h₁
  exact ⟨h1, h2, h3, h4, h5, h6, h7⟩

theorem puts.fetch_registers {n : Nat} (h : fetch io n m = some m') : SameRegisters m m' := by
  induction n generalizing m with
  | zero => cases h
  | succ n ih =>
    have hb : SameRegisters m (exec [lodsb, or al al] m) := by
      constructor
      all_goals simp
    rw [fetch] at h
    split at h
    · cases h
      exact hb
    · obtain ⟨m₁, h₁, h₂⟩ := Option.bind_eq_some_iff.mp h
      exact (hb.trans (call_putc_registers h₁)).trans (ih h₂)

theorem puts_registers (h : puts io m = some m') : SameRegisters m m' ∧ m'.eax = m.eax := by
  obtain ⟨m₁, h₁, rfl⟩ := Option.map_eq_some_iff.mp h
  obtain ⟨h1, h2, h3, h4, h5, h6, h7⟩ := puts.fetch_registers h₁
  have htop : m₁.stack m₁.sp = ax.get m := (puts.fetch_kept h₁).pushed (by decide)
  have hax : (exec [pop ax, pop si] m₁).eax = m.eax := by
    have : m₁.eax.extractLsb' 16 16 = m.eax.extractLsb' 16 16 := h7
    simp [htop, this]
  exact ⟨⟨h1, h2, h3, h4, h5, h6, congrArg (BitVec.extractLsb' 16 16) hax⟩, hax⟩

/-! ## `putx` -/

theorem putx.skip_kept (m : Machine) : Kept 2 m (skip m) ∧ (skip m).ecx = m.ecx := by
  rw [skip]
  split <;> exact ⟨.of_eq rfl rfl rfl rfl, rfl⟩

theorem putx.digit_kept (io : Io) (m : Machine) : ∃ m', call io.digit putc (skip m) = some m' ∧
    Kept 2 m (countDown m') ∧ cx.get (countDown m') = cx.get m - 1 := by
  obtain ⟨hk, hc⟩ := skip_kept m
  obtain ⟨m₁, hm₁, hk₁, hc₁, -⟩ := call_putc io.digit (skip m)
  have hk₂ : Kept 2 m₁ (countDown m₁) := .of_eq rfl rfl rfl rfl
  exact ⟨m₁, hm₁, (hk.trans hk₁).trans hk₂, by simp [hc₁, hc]⟩

/-- By induction on the digits left, which CX counts. -/
theorem putx.next_kept {k n : Nat} (hc : cx.get m = BitVec.ofNat 16 (k + 1)) (hk : k < n)
    (hn : n ≤ 2 ^ 16) : ∃ m', next io n m = some m' ∧ Kept 2 m m' := by
  induction k generalizing m n with
  | zero =>
    obtain ⟨n, rfl⟩ : ∃ k, n = k + 1 := Nat.exists_eq_add_one.mpr hk
    obtain ⟨m₁, hm₁, hk₁, hc₁⟩ := digit_kept io m
    have h0 : cx.get (countDown m₁) = 0 := by rw [hc₁, hc]; rfl
    refine ⟨countDown m₁, ?_, hk₁⟩
    rw [next, hm₁]
    exact if_pos h0
  | succ k ih =>
    obtain ⟨n, rfl⟩ : ∃ k, n = k + 1 := Nat.exists_eq_add_one.mpr (by omega)
    obtain ⟨m₁, hm₁, hk₁, hc₁⟩ := digit_kept io m
    have hk' : cx.get (countDown m₁) = BitVec.ofNat 16 (k + 1) := by
      rw [hc₁, hc, BitVec.ofNat_add]
      exact BitVec.add_sub_cancel ..
    have h0 : cx.get (countDown m₁) ≠ 0 := by
      rw [hk']
      intro h
      have := congrArg BitVec.toNat h
      simp at this
      omega
    obtain ⟨m', hm', hk₂⟩ := @ih _ n hk' (by omega) (by omega)
    refine ⟨m', ?_, hk₁.trans hk₂⟩
    rw [next, hm₁]
    exact (if_neg h0).trans hm'

/-- `putx`, whatever character ends the number. -/
theorem putx.kept_of_last (io : Io) (c : BitVec 16) (m : Machine) : ∃ m',
    ((putx.next io (2 ^ 16) (exec [pusha, mov bx ax, mov cx (imm 4)] m)).bind fun m =>
      (call io.space putc (exec [mov ax (imm c)] m)).map (exec [popa])) = some m' ∧ Kept 10 m m' := by
  obtain ⟨m₁, hm₁, hk₁⟩ := @putx.next_kept io (exec [pusha, mov bx ax, mov cx (imm 4)] m) 3 (2 ^ 16)
    (by simp) (by decide) (by decide)
  obtain ⟨m₂, hm₂, hk₂, -⟩ := call_putc io.space (exec [mov ax (imm c)] m₁)
  have hk₃ : Kept 2 (push di <| push si <| push bp <| push (imm m.sp) <| push bx <| push dx <|
      push cx <| push ax m) (exec [pusha, mov bx ax, mov cx (imm 4)] m) := .of_eq rfl rfl rfl rfl
  have hk₄ : Kept 2 m₁ (exec [mov ax (imm c)] m₁) := .of_eq rfl rfl rfl rfl
  have hk := (((hk₃.trans hk₁).trans hk₄).trans hk₂).drop.drop.drop.drop.drop.drop.drop.drop
  refine ⟨exec [popa] m₂, ?_, hk.trans (.of_eq rfl rfl rfl rfl)⟩
  rw [hm₁, Option.bind_some, hm₂]
  rfl

theorem putx_kept (io : Io) (m : Machine) : ∃ m', putx io m = some m' ∧ Kept 10 m m' :=
  putx.kept_of_last io 0x20 m

end Stage2
end Amethyst
