import Amethyst.Stage2.FsRead

/-!
# Amethyst.Stage2.FsResult

The result of `fs_read`, over whole runs.

* `comesBack_iff`: it returns to its caller exactly when the file is usable. The error exits before
  the pops leave ES and BX on the stack and return to the address that was in BX.
* `requestsFile_iff`: the packet for the file has the right count and buffer, and the right sector
  exactly when that is below 256 and the bytes that `mov dword [DAP.lba+1], 0` does not reach are zero.
-/

namespace Amethyst
namespace Stage2

open RealMode RealMode.Op

namespace Run

variable (r : Run)

/-- `fs_read` gets as far as asking for the file, which is entry `i`. -/
structure Usable (i : Nat) : Prop where
  read : r.rootRead.cf = false
  count : r.entryCnt.toNat < 2 ^ 15
  first : r.First i
  file : r.isDirectory i = false
  cluster : r.firstCluster i ≠ 0
  divides : r.Divides

def Ends (e : End) : Prop := Exec (step r.layout r.bios) (.fsRead, r.start) e

variable {r : Run} {c c' : DiskCall} {m : Machine} {i j : Nat}

theorem First.unique (h : r.First i) (h' : r.First j) : i = j := by
  obtain hlt | heq | hlt := Nat.lt_trichotomy i j
  · exact absurd h.named (h'.before i hlt)
  · exact heq
  · exact absurd h'.named (h.before j hlt)

/-- The two kinds of runs: one that does not ask for the file, and leaves ES and BX on the stack, and
one that does. -/
theorem run_cases (r : Run) : ∃ c m,
    ((∀ i, ¬ r.Usable i) ∧ r.Inside c m ∧
      ((∃ e, Reaches (step r.layout r.bios) (.fsRead, r.start) (.error e, m)) ∨ r.Ends (.lost m))) ∨
    (∃ i c', r.Usable i ∧ r.Done c c' m ∧ c'.packet = r.request i ∧
      Reaches (step r.layout r.bios) (.fsRead, r.start)
        (if r.fileRead.cf then .error .readDiskFailure else .ret, m)) := by
  obtain ⟨c, m, ⟨e, hno, hin, hr⟩ | ⟨i, hcf, hcnt, hf, hs, hr⟩⟩ := reaches_fileFound r
  · exact ⟨c, m, .inl ⟨fun i h => hno h.read h.count i h.first, hin, .inl ⟨e, hr⟩⟩⟩
  obtain ⟨m', ⟨hbad, hin, e, he⟩ | ⟨hdir, hcl, hdiv, hin, he⟩ | ⟨hdir, hcl, hdiv, hin, hdi, hax, he⟩⟩ :=
    step_fileFound hs
  · refine ⟨c, m', .inl ⟨fun j h => ?_, hin, .inl ⟨e, hr.trans (.next he (.refl _))⟩⟩⟩
    obtain rfl := hf.unique h.first
    cases hbad with
    | inl hdir => exact Bool.eq_false_iff.mp h.file hdir
    | inr hcl => exact h.cluster hcl
  · exact ⟨c, m', .inl ⟨fun j h => hdiv h.divides, hin, .inr (hr.exec (.done he))⟩⟩
  · obtain ⟨c', m'', hd, hp, he'⟩ := step_noRemainder hin hdi hax
    exact ⟨c, m'', .inr ⟨i, c', ⟨hcf, hcnt, hf, hdir, hcl, hdiv⟩, hd, hp,
      hr.trans (.next he (.next he' (.refl _)))⟩⟩

/-! ## The return -/

variable (r) in
/-- The file was not loaded, for one of the five reasons. -/
def NotLoaded : Prop :=
  r.rootRead.cf = true ∨ (∀ i, ¬ r.First i) ∨
    (∃ i, r.First i ∧ (r.isDirectory i = true ∨ r.firstCluster i = 0)) ∨ r.fileRead.cf = true

variable (r) in
/-- `fs_read` returns to the address that the caller's `call` pushed, with SP as before the call, and
with CF set when the file was not loaded. -/
def ComesBack : Prop :=
  ∃ m, r.Ends (.ret (r.start.stack r.start.sp) m) ∧ m.sp = r.start.sp + 2 ∧
    (m.cf = true ↔ r.NotLoaded)

theorem Usable.notLoaded_iff (h : r.Usable i) : r.NotLoaded ↔ r.fileRead.cf = true := by
  constructor
  · intro hn
    obtain hcf | hno | ⟨j, hf, hbad⟩ | hcf := hn
    · exact absurd hcf (Bool.eq_false_iff.mp h.read)
    · exact absurd h.first (hno i)
    · obtain rfl := h.first.unique hf
      cases hbad with
      | inl hdir => exact absurd hdir (Bool.eq_false_iff.mp h.file)
      | inr hcl => exact absurd hcl h.cluster
    · exact hcf
  · exact fun hcf => .inr (.inr (.inr hcf))

theorem loaded_of_data (hL : r.layout.Loaded r.start.mem)
    (h : ∀ x < r.layout.dap, m.mem x = r.start.mem x) : r.layout.Loaded m.mem := by
  intro e
  apply (hL e).congr
  intro k hk
  apply h
  have := r.layout.data e
  have := r.layout.fits
  rw [BitVec.lt_def, toNat_add_ofNat (by omega)]
  omega

theorem ret_exec (m : Machine) : Exec (step r.layout r.bios) (.ret, m)
    (.ret (m.stack m.sp) { m with sp := m.sp + 2 }) :=
  .done rfl

theorem Done.comesBack (hL : r.layout.Loaded r.start.mem) (hu : r.Usable i) (hd : r.Done c c' m)
    (hr : Reaches (step r.layout r.bios) (.fsRead, r.start)
      (if r.fileRead.cf then .error .readDiskFailure else .ret, m)) : r.ComesBack := by
  cases hcf : r.fileRead.cf with
  | false =>
    rw [hcf] at hr
    refine ⟨_, hd.top ▸ hr.exec (ret_exec m), by rw [hd.sp], ?_⟩
    rw [hu.notLoaded_iff, ← hd.cf]
  | true =>
    rw [hcf] at hr
    obtain ⟨m', hr', hk, hcf'⟩ :=
      @error_reaches _ r.bios m (loaded_of_data hL hd.data) .readDiskFailure
    have htop : m'.stack m'.sp = r.start.stack r.start.sp := (hk.top (by decide)).trans hd.top
    refine ⟨_, htop ▸ hr.exec (hr'.exec (ret_exec m')), by rw [hk.sp, hd.sp], ?_⟩
    rw [hu.notLoaded_iff, hcf]
    exact iff_of_true hcf' rfl

/-- An exit before the pops returns with SP too low. -/
theorem Inside.not_comesBack (hL : r.layout.Loaded r.start.mem) (hin : r.Inside c m)
    (hr : (∃ e, Reaches (step r.layout r.bios) (.fsRead, r.start) (.error e, m)) ∨ r.Ends (.lost m)) :
    ¬ r.ComesBack := by
  intro ⟨m₁, he, hsp, _⟩
  obtain ⟨e, hr⟩ | hl := hr
  · have hL' : r.layout.Loaded m.mem :=
      loaded_of_data hL fun x hx => by rw [hin.mem, rootMem_data hx]
    obtain ⟨m', hr', hk, -⟩ := @error_reaches _ r.bios m hL' e
    obtain ⟨-, rfl⟩ := End.ret.inj (he.deterministic (hr.exec (hr'.exec (ret_exec m'))))
    have : r.start.sp - 4 + 2 = r.start.sp + 2 := by rw [← hin.sp, ← hk.sp]; exact hsp
    bv_omega
  · cases he.deterministic hl

theorem not_comesBack (hL : r.layout.Loaded r.start.mem) (hno : ∀ i, ¬ r.Usable i) :
    ¬ r.ComesBack := by
  obtain ⟨c, m, ⟨-, hin, hr⟩ | ⟨i, c', hu, -⟩⟩ := run_cases r
  · exact hin.not_comesBack hL hr
  · exact absurd hu (hno i)

theorem comesBack_iff (r : Run) (hL : r.layout.Loaded r.start.mem) :
    r.ComesBack ↔ ∃ i, r.Usable i := by
  obtain ⟨c, m, ⟨hno, -⟩ | ⟨i, c', hu, hd, -, hr⟩⟩ := run_cases r
  · exact iff_of_false (not_comesBack hL hno) fun ⟨i, h⟩ => hno i h
  · exact iff_of_true (hd.comesBack hL hu hr) ⟨i, hu⟩

end Run

/-! ## A sample -/

def place (a : BitVec 16) (bs : List (BitVec 8)) (mem : Mem 16) : Mem 16 :=
  fun x => bs.getD (x - a).toNat (mem x)

/-- A 1.44 MB floppy: 224 root entries in 14 sectors from sector 19, of 512 bytes. -/
def sampleLayout : Layout where
  text
    | .readDiskFailure => 0x300
    | .fileNotFound => 0x340
    | .entryIsDirectory => 0x380
    | .fileFirstClusterIsZero => 0x3C0
  dap := 0x500
  io := ⟨0x210, 0x220, 0x230⟩
  printed
    | .readDiskFailure => 0x240
    | .fileNotFound => 0x250
    | .entryIsDirectory => 0x260
    | .fileFirstClusterIsZero => 0x270
  number := 0x280
  endl := 0x288
  fits := by decide
  data e := by cases e <;> decide

def sampleMem : Mem 16 :=
  place 0x300 Error.readDiskFailure.text <|
  place 0x340 Error.fileNotFound.text <|
  place 0x380 Error.entryIsDirectory.text <|
  place 0x3C0 Error.fileFirstClusterIsZero.text <|
  place 0x400 (ascii "INSTALL BIN") <|
  place 0x520 [224, 0, 19, 0, 14, 0, 0, 2] fun _ => 0

/-- The root directory has one entry, a file of 5000 bytes. -/
def sampleOutcome (cluster : BitVec 16) (cf : Bool) : Outcome where
  eax := 0
  ebx := 0
  ecx := 0
  edx := 0
  si := 0x500
  di := 0
  bp := 0
  cf := cf
  zf := false
  lt := false
  mem := place 0x528 (ascii "INSTALL BIN" ++ [0x20]) <|
    place 0x542 [cluster.extractLsb' 0 8, cluster.extractLsb' 8 8, 0x88, 0x13] fun _ => 0

def sampleMachine : Machine where
  eax := 0
  ebx := 0
  ecx := 0
  edx := 0
  si := 0x400
  di := 0
  bp := 0
  sp := 0x7BFE
  ds := 0x7E0
  es := 0xA00
  cf := false
  zf := false
  lt := false
  mem := sampleMem
  far _ _ := 0
  stack _ := 0x60
  out := []
  calls := []

def sample (cluster : BitVec 16) (cf : Bool) : Run where
  layout := sampleLayout
  bios _ := sampleOutcome cluster cf
  start := sampleMachine

namespace Run

theorem sample_loaded : sampleLayout.Loaded sampleMem := by
  intro e
  unfold Mem.Holds
  cases e <;> decide +kernel

variable (cluster : BitVec 16) (cf : Bool)

theorem sample_entryCnt : (sample cluster cf).entryCnt.toNat = 224 := by
  show (sampleMem.read16 sampleLayout.entryCnt).toNat = 224
  decide +kernel

theorem sample_bytesPerSector : (sample cluster cf).bytesPerSector.toNat = 2 ^ 9 := by
  show (sampleMem.read16 sampleLayout.bytesPerSector).toNat = 2 ^ 9
  decide +kernel

theorem sample_usable (hn : (sample cluster false).Named 0)
    (hf : (sample cluster false).isDirectory 0 = false)
    (hc : (sample cluster false).firstCluster 0 ≠ 0) : (sample cluster false).Usable 0 where
  read := rfl
  count := by
    rw [sample_entryCnt]
    decide
  first := by
    refine ⟨?_, hn, fun j hj => absurd hj (Nat.not_lt_zero j)⟩
    rw [sample_entryCnt]
    decide
  file := hf
  cluster := hc
  divides := by
    rw [Divides, sample_bytesPerSector]
    exact Nat.two_pow_pos 9

theorem sample_near : (sample 2 false).Usable 0 :=
  sample_usable 2 (by unfold Named; decide +kernel) (by decide +kernel) (by decide +kernel)

theorem sample_far : (sample 300 false).Usable 0 :=
  sample_usable 300 (by unfold Named; decide +kernel) (by decide +kernel) (by decide +kernel)

theorem comesBack_sample : (sample 2 false).ComesBack :=
  (comesBack_iff _ sample_loaded).mpr ⟨0, sample_near⟩

/-- The read of the root directory fails. -/
theorem not_comesBack_sample :
    sampleLayout.Loaded sampleMem ∧ ¬ (sample 2 true).ComesBack :=
  ⟨sample_loaded, not_comesBack sample_loaded fun _ h => by cases h.read⟩

variable {r : Run} {c c' : DiskCall} {m : Machine} {i j : Nat}

/-! ## The request -/

variable (r) in
/-- `c'` is the second disk call of the run. -/
def Asks (c' : DiskCall) : Prop := ∃ e c, r.Ends e ∧ e.machine.calls = r.start.calls ++ [c, c']

theorem error_exec (e : Error) (m : Machine) :
    ∃ t, Exec (step r.layout r.bios) (.error e, m) t ∧ t.machine.calls = m.calls := by
  obtain hl | ⟨m', hr, hk, -⟩ := @error_cases r.layout r.bios e m
  · exact ⟨_, .done hl, rfl⟩
  · exact ⟨_, hr.exec (ret_exec m'), hk.calls⟩

theorem asks_cases (r : Run) : ((∀ i, ¬ r.Usable i) ∧ ∀ c, ¬ r.Asks c) ∨
    ∃ i c', r.Usable i ∧ c'.packet = r.request i ∧ ∀ c, r.Asks c ↔ c = c' := by
  obtain ⟨c, m, ⟨hno, hin, hr⟩ | ⟨i, c', hu, hd, hp, hr⟩⟩ := run_cases r
  · obtain ⟨e, he, hc⟩ : ∃ e, r.Ends e ∧ e.machine.calls = r.start.calls ++ [c] := by
      cases hr with
      | inl hr =>
        obtain ⟨e, hr⟩ := hr
        obtain ⟨t, ht, hc⟩ := error_exec e m
        exact ⟨t, hr.exec ht, hc.trans hin.calls⟩
      | inr hl => exact ⟨_, hl, hin.calls⟩
    refine .inl ⟨hno, fun c' ⟨e', c₁, he', hc'⟩ => ?_⟩
    rw [he'.deterministic he, hc] at hc'
    cases List.append_cancel_left hc'
  · obtain ⟨e, he, hc⟩ : ∃ e, r.Ends e ∧ e.machine.calls = r.start.calls ++ [c, c'] := by
      cases hcf : r.fileRead.cf with
      | true =>
        rw [hcf] at hr
        obtain ⟨t, ht, hc⟩ := error_exec .readDiskFailure m
        exact ⟨t, hr.exec ht, hc.trans hd.calls⟩
      | false =>
        rw [hcf] at hr
        exact ⟨_, hr.exec (ret_exec m), hd.calls⟩
    refine .inr ⟨i, c', hu, hp, fun c'' => ⟨fun ⟨e', c₁, he', hc'⟩ => ?_, fun h => ⟨e, c, he, h ▸ hc⟩⟩⟩
    rw [he'.deterministic he, hc] at hc'
    cases List.append_cancel_left hc'
    rfl

variable (r) in
def sectors (i : Nat) : Nat :=
  ((r.fileSize i).toNat + (r.bytesPerSector.toNat - 1)) / r.bytesPerSector.toNat

variable (r) in
/-- The packet asks for the file of entry `i`, to ES:BX. -/
structure Requests (i : Nat) (p : Packet) : Prop where
  txcount : r.sectors i < 2 ^ 16 → p.txcount.toNat = r.sectors i
  txbuffer : p.txbuffer = bx.get r.start
  txsegment : p.txsegment = r.start.es
  lba : 2 ≤ (r.firstCluster i).toNat → (r.firstCluster i).toNat ≤ 0xFEF →
    p.lba.toNat = (r.firstCluster i).toNat + 31

variable (r) in
def RequestsFile : Prop := ∀ c, r.Asks c → ∃ i, r.First i ∧ r.Requests i c.packet

/-- What the BIOS left in EDX does not reach the low word of the quotient. -/
theorem sectorCount_toNat {k : Nat} (hk : r.bytesPerSector.toNat = 2 ^ k) (hlt : r.sectors i < 2 ^ 16) :
    (r.sectorCount i).toNat = r.sectors i := by
  have hk' : k < 16 := by
    apply (Nat.pow_lt_pow_iff_right (show 1 < 2 by decide)).mp
    rw [← hk]
    exact r.bytesPerSector.isLt
  have hpow : 2 ^ 32 = 2 ^ k * (2 ^ 16 * 2 ^ (16 - k)) := by
    rw [← Nat.pow_add, ← Nat.pow_add]
    congr 1
    omega
  have hdividend : r.dividend i =
      2 ^ k * (2 ^ 16 * (r.rootRead.edx.toNat * 2 ^ (16 - k))) + (r.fileSize i).toNat := by
    rw [dividend, hpow]
    ac_rfl
  rw [sectors, ceil_div (by rw [hk]; exact Nat.two_pow_pos k), hk] at hlt ⊢
  rw [sectorCount, hk, hdividend, Nat.mul_add_div (Nat.two_pow_pos k), Nat.mul_add_mod]
  generalize r.rootRead.edx.toNat * 2 ^ (16 - k) = q at *
  split at hlt
  · next h =>
    simp [h]
    omega
  · next h =>
    simp [h]
    omega

theorem lba_iff (h : (r.firstCluster i).toNat ≤ 0xFEF) :
    (r.request i).lba.toNat = (r.firstCluster i).toNat + 31 ↔
      (r.firstCluster i).toNat + 31 < 256 ∧ r.start.mem (r.layout.dap + 13) = 0 ∧
        r.start.mem (r.layout.dap + 14) = 0 ∧ r.start.mem (r.layout.dap + 15) = 0 := by
  have hlba : (r.request i).lba.toNat = (((r.start.mem (r.layout.dap + 15)).toNat * 2 ^ 8 +
      (r.start.mem (r.layout.dap + 14)).toNat) * 2 ^ 8 + (r.start.mem (r.layout.dap + 13)).toNat) * 2 ^ 40 +
      ((r.firstCluster i).toNat + 31) % 256 := by
    have h31 : (31 : BitVec 16).toNat = 31 := rfl
    simp only [request, append_toNat, BitVec.extractLsb'_toNat, BitVec.toNat_add, BitVec.toNat_ofNat,
      Nat.shiftRight_zero, h31]
    omega
  simp only [← BitVec.toNat_inj]
  rw [hlba]
  have h0 : (0 : BitVec 8).toNat = 0 := rfl
  omega

theorem Usable.requests_iff {k : Nat} (hk : r.bytesPerSector.toNat = 2 ^ k) (hu : r.Usable i) :
    r.RequestsFile ↔ (2 ≤ (r.firstCluster i).toNat → (r.firstCluster i).toNat ≤ 0xFEF →
      (r.request i).lba.toNat = (r.firstCluster i).toNat + 31) := by
  obtain ⟨hno, -⟩ | ⟨j, c, hu', hp, hasks⟩ := asks_cases r
  · exact absurd hu (hno i)
  obtain rfl := hu.first.unique hu'.first
  constructor
  · intro h
    obtain ⟨j, hf, hreq⟩ := h c ((hasks c).mpr rfl)
    obtain rfl := hu.first.unique hf
    exact hp ▸ hreq.lba
  · intro h c' hc'
    obtain rfl := (hasks c').mp hc'
    exact ⟨i, hu.first, hp ▸ ⟨sectorCount_toNat hk, rfl, rfl, h⟩⟩

theorem requestsFile_iff (r : Run) {k : Nat} (hk : r.bytesPerSector.toNat = 2 ^ k) :
    r.RequestsFile ↔ ∀ i, r.Usable i → 2 ≤ (r.firstCluster i).toNat → (r.firstCluster i).toNat ≤ 0xFEF →
      (r.firstCluster i).toNat + 31 < 256 ∧ r.start.mem (r.layout.dap + 13) = 0 ∧
        r.start.mem (r.layout.dap + 14) = 0 ∧ r.start.mem (r.layout.dap + 15) = 0 := by
  constructor
  · intro h i hu h₂ hF
    exact (lba_iff hF).mp ((hu.requests_iff hk).mp h h₂ hF)
  · intro h
    obtain ⟨hno, hasks⟩ | ⟨i, -, hu, -⟩ := asks_cases r
    · exact fun c hc => absurd hc (hasks c)
    · exact (hu.requests_iff hk).mpr fun h₂ hF => (lba_iff hF).mpr (h i hu h₂ hF)

theorem requestsFile_sample : (sample 2 false).RequestsFile := by
  refine (requestsFile_iff _ (sample_bytesPerSector 2 false)).mpr fun i hu _ _ => ?_
  obtain rfl := hu.first.unique sample_near.first
  decide +kernel

theorem not_requestsFile_sample : (sample 300 false).bytesPerSector.toNat = 2 ^ 9 ∧
    ¬ (sample 300 false).RequestsFile := by
  refine ⟨sample_bytesPerSector .., fun h => ?_⟩
  have := (sample_far.requests_iff (sample_bytesPerSector ..)).mp h (by decide +kernel) (by decide +kernel)
  revert this
  decide +kernel

end Run

end Stage2
end Amethyst
