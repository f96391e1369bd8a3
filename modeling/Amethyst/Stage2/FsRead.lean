import Amethyst.Stage2.Fs

/-!
# Amethyst.Stage2.FsRead

What a run of `fs_read` does. `Run` is where it starts: the machine, the BIOS, and where things are.
Each label has a lemma that says where it goes. Until the pops, ES and BX are on the stack above the
return address (`Inside`).

* `scan`: the loop over the root directory stops at the first entry of the name, or at the end.
* `step_fileFound`: the checks of the entry, the division, and the number of sectors.
* `step_noRemainder`: the pops and the packet for the file.
-/

namespace Amethyst
namespace Stage2

open RealMode RealMode.Op

def Layout.entry (L : Layout) (i : Nat) : BitVec 16 := L.buffer + BitVec.ofNat 16 (32 * i)

structure Run where
  layout : Layout
  bios : Bios
  /-- After the `call fs_read`. -/
  start : Machine

namespace Run

variable (r : Run)

/-- The first `int 0x13` reads the root directory, and the second the file. -/
def rootRead : Outcome := r.bios r.start.calls.length

def fileRead : Outcome := r.bios (r.start.calls.length + 1)

/-- The memory after the first. -/
def rootMem : Mem 16 := fun x =>
  if x < r.layout.buffer then
    r.layout.fill (r.start.mem.read16 r.layout.rootdirlen) r.layout.buffer r.start.ds
      (0#16 ++ r.start.mem.read16 r.layout.rootdir) (r.start.mem.write16 r.layout.filename r.start.si) x
  else r.rootRead.mem x

def entryCnt : BitVec 16 := r.start.mem.read16 r.layout.entryCnt

def bytesPerSector : BitVec 16 := r.start.mem.read16 r.layout.bytesPerSector

/-- The comparison in `check_entries`, which is signed. -/
abbrev Counted (i : Nat) : Prop := i < r.entryCnt.toNat ∧ r.entryCnt.toNat < 2 ^ 15

/-- The name at SI is that of entry `i`. -/
def Named (i : Nat) : Prop :=
  ∀ j < 11, r.rootMem (r.start.si + BitVec.ofNat 16 j) = r.rootMem (r.layout.entry i + BitVec.ofNat 16 j)

structure First (i : Nat) : Prop where
  lt : i < r.entryCnt.toNat
  named : r.Named i
  before : ∀ j < i, ¬ r.Named j

def isDirectory (i : Nat) : Bool := (r.rootMem (r.layout.entry i + 0x0B)).getLsbD 4

def firstCluster (i : Nat) : BitVec 16 := r.rootMem.read16 (r.layout.entry i + 26)

def fileSize (i : Nat) : BitVec 32 := r.rootMem.read32 (r.layout.entry i + 28)

/-- The division leaves a quotient. -/
def Divides : Prop := r.rootRead.edx.toNat < r.bytesPerSector.toNat

def dividend (i : Nat) : Nat := r.rootRead.edx.toNat * 2 ^ 32 + (r.fileSize i).toNat

def sectorCount (i : Nat) : BitVec 16 :=
  BitVec.ofNat 16 (r.dividend i / r.bytesPerSector.toNat) +
    if r.dividend i % r.bytesPerSector.toNat = 0 then 0 else 1

def request (i : Nat) : Packet where
  txcount := r.sectorCount i
  txbuffer := bx.get r.start
  txsegment := r.start.es
  lba := r.start.mem (r.layout.dap + 15) ++ r.start.mem (r.layout.dap + 14) ++
    r.start.mem (r.layout.dap + 13) ++ 0#32 ++ (r.firstCluster i + 31).extractLsb' 0 8

/-- Inside `fs_read` after the first `int 0x13`, the call `c`, and before the pops. -/
structure Inside (c : DiskCall) (m : Machine) : Prop where
  sp : m.sp = r.start.sp - 4
  savedBx : m.stack (r.start.sp - 4) = bx.get r.start
  savedEs : m.stack (r.start.sp - 2) = r.start.es
  top : m.stack r.start.sp = r.start.stack r.start.sp
  mem : m.mem = r.rootMem
  calls : m.calls = r.start.calls ++ [c]

/-- At `check_entries`, before entry `i`. -/
structure Scanning (c : DiskCall) (i : Nat) (m : Machine) : Prop extends r.Inside c m where
  di : m.di = r.layout.entry i
  count : bx.get m = BitVec.ofNat 16 i
  edx : m.edx = r.rootRead.edx
  segment : m.es = m.ds

variable {r : Run} {c : DiskCall} {m : Machine} {i : Nat}

theorem lt_buffer {L : Layout} {k : Nat} (h : k < 40) : L.dap + BitVec.ofNat 16 k < L.buffer := by
  have := L.fits
  have h40 : L.buffer.toNat = L.dap.toNat + 40 := toNat_add_ofNat this
  rw [BitVec.lt_def, h40, toNat_add_ofNat (by omega)]
  omega

/-- A variable that is above the packet. -/
theorem rootMem_var {k : Nat} (h : 13 ≤ k) (h40 : k < 40) (hf : k ≠ 16) (hf' : k ≠ 17) :
    r.rootMem (r.layout.dap + BitVec.ofNat 16 k) = r.start.mem (r.layout.dap + BitVec.ofNat 16 k) := by
  rw [rootMem, if_pos (lt_buffer h40), fill_frame, Mem.write16, Function.update_of_ne,
    Function.update_of_ne]
  all_goals
    simp only [Layout.filename, Layout.txcount]
    bv_omega

theorem rootMem_data {x : BitVec 16} (h : x < r.layout.dap) : r.rootMem x = r.start.mem x := by
  have := r.layout.fits
  have hx : x < r.layout.buffer := by
    simp only [Layout.buffer]
    bv_omega
  rw [rootMem, if_pos hx, fill_frame, Mem.write16, Function.update_of_ne, Function.update_of_ne]
  all_goals
    simp only [Layout.filename, Layout.txcount]
    bv_omega

theorem rootMem_word {k : Nat} (h : 18 ≤ k) (h40 : k + 1 < 40) :
    r.rootMem.read16 (r.layout.dap + BitVec.ofNat 16 k) =
      r.start.mem.read16 (r.layout.dap + BitVec.ofNat 16 k) := by
  rw [Mem.read16, Mem.read16, show (1 : BitVec 16) = BitVec.ofNat 16 1 from rfl, add_add_ofNat,
    rootMem_var (by omega) h40 (by omega) (by omega),
    rootMem_var (by omega) (by omega) (by omega) (by omega)]

theorem rootMem_filename : r.rootMem.read16 r.layout.filename = r.start.si := by
  have h₁ : r.layout.filename + 1 = r.layout.dap + BitVec.ofNat 16 17 := BitVec.add_assoc ..
  rw [Mem.read16, h₁, Layout.filename, show (16 : BitVec 16) = BitVec.ofNat 16 16 from rfl]
  rw [rootMem, if_pos (lt_buffer (by omega)), rootMem, if_pos (lt_buffer (by omega)), fill_frame, fill_frame]
  · simp [Mem.write16, Layout.filename, BitVec.add_assoc]
  all_goals
    simp only [Layout.txcount]
    bv_omega

theorem rootCall_mem (L : Layout) (m : Machine) : (rootCall L m).mem =
    L.fill (m.mem.read16 L.rootdirlen) L.buffer m.ds (0#16 ++ m.mem.read16 L.rootdir)
      (m.mem.write16 L.filename m.si) := by
  have hlen (v : BitVec 16) : (m.mem.write16 L.filename v).read16 L.rootdirlen =
      m.mem.read16 L.rootdirlen := by
    simp [Mem.read16, Mem.write16, Layout.filename, Layout.rootdirlen, BitVec.add_assoc]
  have hdir (v w x y : BitVec 16) : ((((m.mem.write16 L.filename v).write16 L.txcount w).write16
      L.txbuffer x).write16 (L.txbuffer + 2#16) y).read16 L.rootdir = m.mem.read16 L.rootdir := by
    simp [Mem.read16, Mem.write16, Layout.filename, Layout.txcount, Layout.txbuffer, Layout.rootdir,
      BitVec.add_assoc]
  simp [rootCall, hlen, hdir, Layout.fill]

theorem rootCall_stack (L : Layout) (m : Machine) : (rootCall L m).stack =
    Function.update (Function.update m.stack (m.sp - 2) m.es) (m.sp - 4) (bx.get m) := by
  have h : m.sp - 2 - 2 = m.sp - 4 := by bv_omega
  rw [← h]
  rfl

theorem rootCall_inside (r : Run) :
    ∃ c, r.Inside c (int13 r.bios r.layout.buffer (rootCall r.layout r.start)) := by
  have h₀ : r.start.sp - 2 ≠ r.start.sp - 4 := by bv_omega
  have h₁ : r.start.sp ≠ r.start.sp - 4 := by bv_omega
  have h₂ : r.start.sp ≠ r.start.sp - 2 := by bv_omega
  refine ⟨_, ?_, ?_, ?_, ?_, ?_, rfl⟩
  · show r.start.sp - 2 - 2 = r.start.sp - 4
    bv_omega
  · rw [int13, rootCall_stack, Function.update_self]
  · rw [int13, rootCall_stack, Function.update_of_ne h₀, Function.update_self]
  · rw [int13, rootCall_stack, Function.update_of_ne h₁, Function.update_of_ne h₂]
  · rw [int13, rootCall_mem]
    rfl

theorem Inside.kept {m' : Machine} (h : r.Inside c m) (hk : Kept 1 m m') : r.Inside c m' where
  sp := hk.sp.trans h.sp
  savedBx := (hk.stack _ (by rw [h.sp]; bv_omega)).trans h.savedBx
  savedEs := (hk.stack _ (by rw [h.sp]; bv_omega)).trans h.savedEs
  top := (hk.stack _ (by rw [h.sp]; bv_omega)).trans h.top
  mem := hk.mem.trans h.mem
  calls := hk.calls.trans h.calls

/-- `fs_read` gets to `check_entries`, unless the read of the root directory fails. -/
theorem step_fsRead (r : Run) : ∃ c m,
    (r.rootRead.cf = true ∧ r.Inside c m ∧
      step r.layout r.bios (.fsRead, r.start) = .inl (.error .readDiskFailure, m)) ∨
    (r.rootRead.cf = false ∧ r.Scanning c 0 m ∧
      step r.layout r.bios (.fsRead, r.start) = .inl (.checkEntries, m)) := by
  obtain ⟨c, hc⟩ := rootCall_inside r
  have hcf : (int13 r.bios r.layout.buffer (rootCall r.layout r.start)).cf = r.rootRead.cf := rfl
  cases h : r.rootRead.cf with
  | true =>
    exact ⟨c, _, .inl ⟨rfl, hc, by simp only [step, hcf, h, if_true]⟩⟩
  | false =>
    have hs : r.Scanning c 0 (exec [mov di (imm r.layout.buffer), xor RealMode.bx RealMode.bx]
        (int13 r.bios r.layout.buffer (rootCall r.layout r.start))) := {
      toInside := hc.kept (.of_eq rfl rfl rfl rfl)
      di := by simp [Layout.entry]
      count := by simp
      edx := rfl
      segment := by simp [rootCall, int13] }
    exact ⟨c, _, .inr ⟨rfl, hs, by simp [step, hcf, h]⟩⟩

theorem compareNames_spec {L : Layout} (h : m.es = m.ds) :
    Kept 1 m (compareNames L m) ∧ (compareNames L m).di = m.di ∧ (compareNames L m).ebx = m.ebx ∧
    (compareNames L m).edx = m.edx ∧ (compareNames L m).es = (compareNames L m).ds ∧
    ((compareNames L m).zf = true ↔ ∀ j < 11, m.mem (m.mem.read16 L.filename + BitVec.ofNat 16 j) =
      m.mem (m.di + BitVec.ofNat 16 j)) := by
  obtain ⟨m', he, hk, hdi, hbx, hdx, hes, hds, hz⟩ :=
    compare_spec (word (abs L.filename)) (show 0 < (11 : BitVec 16).toNat by decide) h
  rw [show compareNames L m = m' from he]
  exact ⟨hk, hdi, hbx, hdx, by rw [hes, hds, h], hz⟩

theorem slt_entryCnt (h : i < 2 ^ 15) : (BitVec.ofNat 16 i).slt r.entryCnt = decide (r.Counted i) := by
  rw [BitVec.slt_eq_decide, decide_eq_decide, Counted, BitVec.toInt_eq_toNat_cond, BitVec.toInt_eq_toNat_cond,
    BitVec.toNat_ofNat, Nat.mod_eq_of_lt (by omega)]
  have := r.entryCnt.isLt
  split <;> split <;> omega

theorem step_checkEntries (hs : r.Scanning c i m) (hi : i < 2 ^ 15) : ∃ m',
    (¬ r.Counted i ∧ r.Inside c m' ∧ checkEntries r.layout m = (.error .fileNotFound, m')) ∨
    (r.Counted i ∧ r.Named i ∧ r.Scanning c i m' ∧ checkEntries r.layout m = (.fileFound, m')) ∨
    (r.Counted i ∧ ¬ r.Named i ∧ r.Scanning c (i + 1) m' ∧
      checkEntries r.layout m = (.checkEntries, m')) := by
  let m₁ := exec [cmp RealMode.bx (word (abs r.layout.entryCnt))] m
  have h₁ : r.Scanning c i m₁ := {
    toInside := hs.kept (.of_eq rfl rfl rfl rfl)
    di := hs.di
    count := hs.count
    edx := hs.edx
    segment := hs.segment }
  have hlt : m₁.lt = decide (r.Counted i) := by
    have hcnt : m.mem.read16 r.layout.entryCnt = r.entryCnt := by
      rw [hs.mem]
      exact rootMem_word (by decide) (by decide)
    have hi' : m.ebx.extractLsb' 0 16 = BitVec.ofNat 16 i := hs.count
    rw [← slt_entryCnt hi]
    simp [m₁, hcnt, hi']
  let m₂ := compareNames r.layout m₁
  have hdef : checkEntries r.layout m = if m₁.lt then
      if m₂.zf then (.fileFound, m₂)
      else (.checkEntries, exec [inc RealMode.bx, add RealMode.di (imm 32)] m₂)
    else (.error .fileNotFound, m₁) := rfl
  by_cases hcnt : r.Counted i
  · obtain ⟨hk, hdi, hbx, hdx, hseg, hz⟩ := @compareNames_spec m₁ r.layout h₁.segment
    rw [h₁.mem, rootMem_filename, h₁.di] at hz
    have h₂ : r.Scanning c i m₂ := {
      toInside := h₁.kept hk
      di := hdi.trans h₁.di
      count := (congrArg (BitVec.extractLsb' 0 16) hbx).trans h₁.count
      edx := hdx.trans h₁.edx
      segment := hseg }
    rw [hdef, hlt, decide_eq_true hcnt]
    by_cases hn : r.Named i
    · refine ⟨m₂, .inr (.inl ⟨hcnt, hn, h₂, ?_⟩)⟩
      rw [hz.mpr hn]
      rfl
    · have h₃ : r.Scanning c (i + 1) (exec [inc RealMode.bx, add RealMode.di (imm 32)] m₂) := {
        toInside := h₂.kept (.of_eq rfl rfl rfl rfl)
        di := by
          have := h₂.di
          simp [this, Layout.entry, BitVec.add_assoc, Nat.mul_add]
          exact (BitVec.ofNat_add ..).symm
        count := by
          have : m₂.ebx.extractLsb' 0 16 = BitVec.ofNat 16 i := h₂.count
          simp [this]
          exact (BitVec.ofNat_add ..).symm
        edx := h₂.edx
        segment := hseg }
      refine ⟨_, .inr (.inr ⟨hcnt, hn, h₃, ?_⟩)⟩
      rw [Bool.eq_false_iff.mpr (hz.not.mpr hn)]
      rfl
  · refine ⟨m₁, .inl ⟨hcnt, h₁.toInside, ?_⟩⟩
    rw [hdef, hlt, decide_eq_false hcnt]
    rfl

/-- The loop, by induction on the entries left. -/
theorem scan (hcnt : r.entryCnt.toNat < 2 ^ 15) {k : Nat} (hk : i + k = r.entryCnt.toNat)
    (hs : r.Scanning c i m) (hbefore : ∀ j < i, ¬ r.Named j) :
    (∃ i' m', r.First i' ∧ r.Scanning c i' m' ∧
      Reaches (step r.layout r.bios) (.checkEntries, m) (.fileFound, m')) ∨
    ((∀ i', ¬ r.First i') ∧ ∃ m', r.Inside c m' ∧
      Reaches (step r.layout r.bios) (.checkEntries, m) (.error .fileNotFound, m')) := by
  induction k generalizing i m with
  | zero =>
    have hend : ¬ i < r.entryCnt.toNat := by omega
    obtain ⟨m', ⟨-, hin, he⟩ | ⟨hi, -⟩ | ⟨hi, -⟩⟩ := step_checkEntries hs (by omega)
    · refine .inr ⟨fun i' hf => hbefore i' (by have := hf.lt; omega) hf.named, m', hin, ?_⟩
      exact .next (congrArg Sum.inl he) (.refl _)
    · exact absurd hi.1 hend
    · exact absurd hi.1 hend
  | succ k ih =>
    have hi : i < r.entryCnt.toNat := by omega
    obtain ⟨m', ⟨hend, -⟩ | ⟨-, hn, hs', he⟩ | ⟨-, hn, hs', he⟩⟩ := step_checkEntries hs (by omega)
    · exact absurd ⟨hi, hcnt⟩ hend
    · exact .inl ⟨i, m', ⟨hi, hn, hbefore⟩, hs', .next (congrArg Sum.inl he) (.refl _)⟩
    · have hbefore' : ∀ j < i + 1, ¬ r.Named j := Nat.forall_lt_succ_right.mpr ⟨hbefore, hn⟩
      have hnext : step r.layout r.bios (.checkEntries, m) = .inl (.checkEntries, m') :=
        congrArg Sum.inl he
      obtain ⟨i', m'', hf, hs'', hr⟩ | ⟨hf, m'', hin, hr⟩ := ih (by omega) hs' hbefore'
      · exact .inl ⟨i', m'', hf, hs'', .next hnext hr⟩
      · exact .inr ⟨hf, m'', hin, .next hnext hr⟩

/-- `fs_read` comes to the entry of the file, or to an error. -/
theorem reaches_fileFound (r : Run) : ∃ c m,
    (∃ e, (r.rootRead.cf = false → r.entryCnt.toNat < 2 ^ 15 → ∀ i, ¬ r.First i) ∧ r.Inside c m ∧
      Reaches (step r.layout r.bios) (.fsRead, r.start) (.error e, m)) ∨
    (∃ i, r.rootRead.cf = false ∧ r.entryCnt.toNat < 2 ^ 15 ∧ r.First i ∧ r.Scanning c i m ∧
      Reaches (step r.layout r.bios) (.fsRead, r.start) (.fileFound, m)) := by
  obtain ⟨c, m, ⟨hcf, hin, he⟩ | ⟨hcf, hs, he⟩⟩ := step_fsRead r
  · refine ⟨c, m, .inl ⟨_, fun h => ?_, hin, .next he (.refl _)⟩⟩
    rw [hcf] at h
    cases h
  · by_cases hcnt : r.entryCnt.toNat < 2 ^ 15
    · obtain ⟨i, m', hf, hs', hr⟩ | ⟨hf, m', hin, hr⟩ :=
        scan hcnt (Nat.zero_add _) hs (fun _ h => absurd h (Nat.not_lt_zero _))
      · exact ⟨c, m', .inr ⟨i, hcf, hcnt, hf, hs', .next he hr⟩⟩
      · exact ⟨c, m', .inl ⟨_, fun _ _ => hf, hin, .next he hr⟩⟩
    · obtain ⟨m', ⟨-, hin, he'⟩ | ⟨hlt, -⟩ | ⟨hlt, -⟩⟩ := step_checkEntries hs (by omega)
      · exact ⟨c, m', .inl ⟨_, fun _ h => absurd h hcnt, hin,
          .next he (.next (congrArg Sum.inl he') (.refl _))⟩⟩
      · exact absurd hlt.2 hcnt
      · exact absurd hlt.2 hcnt

theorem roundUp_spec (m : Machine) : Kept 1 m (roundUp m) ∧ (roundUp m).di = m.di ∧
    ax.get (roundUp m) = ax.get m + if m.edx = 0#32 then 0 else 1 := by
  have hz : (exec [or edx edx] m).zf = (m.edx == 0#32) := by simp
  by_cases h : m.edx = 0#32
  · have he : roundUp m = exec [or edx edx] m := by
      rw [roundUp, hz, h]
      rfl
    rw [he]
    exact ⟨.of_eq rfl rfl rfl rfl, rfl, by simp [h]⟩
  · have he : roundUp m = exec [or edx edx, inc ax] m := by
      rw [roundUp, hz, beq_false_of_ne h]
      rfl
    rw [he]
    exact ⟨.of_eq rfl rfl rfl rfl, rfl, by simp [h]⟩

/-- `div ebx`, of what the BIOS left in EDX and the size of the file. -/
theorem div_spec (hax : m.eax = r.fileSize i) (hdx : m.edx = r.rootRead.edx)
    (hbx : (ebx.get m).toNat = r.bytesPerSector.toNat) :
    (r.Divides ∧ ∃ q, div ebx m = some q ∧ Kept 1 m q ∧ q.di = m.di ∧
      ax.get q = BitVec.ofNat 16 (r.dividend i / r.bytesPerSector.toNat) ∧
      (q.edx = 0#32 ↔ r.dividend i % r.bytesPerSector.toNat = 0)) ∨
    (¬ r.Divides ∧ div ebx m = none) := by
  by_cases hdiv : r.Divides
  · have hlt : m.edx < ebx.get m := by
      rw [BitVec.lt_def, hbx, hdx]
      exact hdiv
    refine .inl ⟨hdiv, { m with
      eax := BitVec.ofNat 32 (r.dividend i / r.bytesPerSector.toNat)
      edx := BitVec.ofNat 32 (r.dividend i % r.bytesPerSector.toNat) }, ?_,
      .of_eq rfl rfl rfl rfl, rfl, ?_, ?_⟩
    · rw [div, if_pos hlt, hbx, hdx, hax]
      rfl
    · apply BitVec.eq_of_toNat_eq
      show ((BitVec.ofNat 32 _).extractLsb' 0 16).toNat = _
      rw [BitVec.extractLsb'_toNat, BitVec.toNat_ofNat, BitVec.toNat_ofNat, Nat.shiftRight_zero]
      omega
    · have := Nat.mod_lt (r.dividend i) (Nat.zero_lt_of_lt hdiv)
      have := r.bytesPerSector.isLt
      show BitVec.ofNat 32 _ = 0#32 ↔ _
      rw [← BitVec.toNat_inj, BitVec.toNat_ofNat, Nat.mod_eq_of_lt (by omega)]
      rfl
  · have hge : ¬ m.edx < ebx.get m := by
      rw [BitVec.lt_def, hbx, hdx]
      exact hdiv
    exact .inr ⟨hdiv, by rw [div, if_neg hge]⟩

theorem step_fileFound (hs : r.Scanning c i m) : ∃ m',
    ((r.isDirectory i = true ∨ r.firstCluster i = 0) ∧ r.Inside c m' ∧
      ∃ e, fileFound r.layout m = .inl (.error e, m')) ∨
    (r.isDirectory i = false ∧ r.firstCluster i ≠ 0 ∧ ¬ r.Divides ∧ r.Inside c m' ∧
      fileFound r.layout m = .inr (.lost m')) ∨
    (r.isDirectory i = false ∧ r.firstCluster i ≠ 0 ∧ r.Divides ∧ r.Inside c m' ∧
      m'.di = r.layout.entry i ∧ ax.get m' = r.sectorCount i ∧
      fileFound r.layout m = .inl (.noRemainder, m')) := by
  let m₁ := exec [mov al (byte fun m => m.di + 0x0B), bt ax 4] m
  let m₂ := exec [mov ax (word fun m => m.di + 0x1A), or ax (imm 0)] m₁
  let m₃ := exec [mov ebx (dword fun m => m.di + 0x1C), mov eax (dword fun m => m.di + 28),
    xor ebx ebx, mov RealMode.bx (word (abs r.layout.bytesPerSector))] m₂
  have hdef : fileFound r.layout m = if m₁.cf then .inl (.error .entryIsDirectory, m₁)
    else if m₂.zf then .inl (.error .fileFirstClusterIsZero, m₂)
    else (div ebx m₃).elim (.inr (.lost m₃)) fun m => .inl (.noRemainder, roundUp m) := by
    simp only [fileFound, m₃, m₂, m₁]
    generalize div ebx _ = q
    cases q <;> rfl
  have h₁ : m₁.cf = r.isDirectory i := by
    simp [m₁, hs.mem, hs.di, isDirectory]
  have h₂ : m₂.zf = (r.firstCluster i == 0) := by
    simp [m₂, m₁, hs.mem, hs.di, firstCluster]
  have hax : m₃.eax = r.fileSize i := by
    simp [m₃, m₂, m₁, hs.mem, hs.di, fileSize]
  have hbx : m₃.ebx = 0#16 ++ r.bytesPerSector := by
    have : m.mem.read16 r.layout.bytesPerSector = r.bytesPerSector := by
      rw [hs.mem]
      exact rootMem_word (by decide) (by decide)
    simp [m₃, m₂, m₁, this]
  have hd : (ebx.get m₃).toNat = r.bytesPerSector.toNat := by
    rw [show ebx.get m₃ = 0#16 ++ r.bytesPerSector from hbx, append_toNat]
    simp
  have hdx : m₃.edx = r.rootRead.edx := hs.edx
  rw [hdef, h₁, h₂]
  have hin : r.Inside c m₃ := hs.kept (.of_eq rfl rfl rfl rfl)
  by_cases hdir : r.isDirectory i = true
  · exact ⟨m₁, .inl ⟨.inl hdir, hs.kept (.of_eq rfl rfl rfl rfl), _, if_pos hdir⟩⟩
  rw [if_neg hdir]
  rw [Bool.not_eq_true] at hdir
  by_cases hcl : r.firstCluster i = 0
  · exact ⟨m₂, .inl ⟨.inr hcl, hs.kept (.of_eq rfl rfl rfl rfl), _, if_pos (beq_iff_eq.mpr hcl)⟩⟩
  rw [if_neg (fun h => hcl (beq_iff_eq.mp h))]
  obtain ⟨hdiv, q, hq, hkq, hdiq, haxq, hdxq⟩ | ⟨hdiv, hq⟩ := div_spec hax hdx hd
  · obtain ⟨hk, hdi, hax'⟩ := roundUp_spec q
    refine ⟨roundUp q, .inr (.inr ⟨hdir, hcl, hdiv, (hin.kept hkq).kept hk,
      (hdi.trans hdiq).trans hs.di, ?_, by rw [hq]; rfl⟩)⟩
    rw [hax', haxq, sectorCount]
    simp only [hdxq]
  · exact ⟨m₃, .inr (.inl ⟨hdir, hcl, hdiv, hin, by rw [hq]; rfl⟩)⟩

/-- After the read of the file, the call `c'`. -/
structure Done (c c' : DiskCall) (m : Machine) : Prop where
  sp : m.sp = r.start.sp
  top : m.stack m.sp = r.start.stack r.start.sp
  data : ∀ x < r.layout.dap, m.mem x = r.start.mem x
  calls : m.calls = r.start.calls ++ [c, c']
  cf : m.cf = r.fileRead.cf

theorem step_noRemainder (hin : r.Inside c m) (hdi : m.di = r.layout.entry i)
    (hax : ax.get m = r.sectorCount i) : ∃ c' m', r.Done c c' m' ∧ c'.packet = r.request i ∧
      step r.layout r.bios (.noRemainder, m) =
        .inl (if r.fileRead.cf then .error .readDiskFailure else .ret, m') := by
  let p := fileCall r.layout m
  have hmem : p.mem = r.layout.fill (r.sectorCount i) (bx.get r.start) r.start.es
      (0#16 ++ (r.firstCluster i + 31)) r.rootMem := by
    have h₁ : m.stack m.sp = r.start.ebx.extractLsb' 0 16 := by
      rw [hin.sp]
      exact hin.savedBx
    have h₂ : m.stack (m.sp + 2#16) = r.start.es := by
      rw [← hin.savedEs, hin.sp]
      congr 1
      bv_omega
    have h₃ : m.eax.extractLsb' 0 16 = r.sectorCount i := hax
    simp [p, fileCall, Layout.fill, hin.mem, hdi, h₁, h₂, h₃, firstCluster]
  have hcalls : p.calls.length = r.start.calls.length + 1 := by
    show m.calls.length = _
    simp [hin.calls]
  have hcf : (int13 r.bios r.layout.buffer p).cf = r.fileRead.cf := by
    rw [int13, hcalls]
    rfl
  refine ⟨p.int13Call, int13 r.bios r.layout.buffer p, ⟨?_, ?_, ?_, ?_, hcf⟩, ?_, ?_⟩
  · show m.sp + 2 + 2 = _
    rw [hin.sp]
    bv_omega
  · show m.stack (m.sp + 2 + 2) = _
    rw [← hin.top, hin.sp]
    congr 1
    bv_omega
  · intro x hx
    have := r.layout.fits
    have hx' : x < r.layout.buffer := by
      simp only [Layout.buffer]
      bv_omega
    have hf : 11 ≤ (x - r.layout.txcount).toNat := by
      simp only [Layout.txcount]
      bv_omega
    rw [int13, hmem]
    exact (if_pos hx').trans ((fill_frame _ _ _ _ _ _ hf).trans (rootMem_data hx))
  · show m.calls ++ _ = _
    rw [hin.calls, List.append_assoc]
    rfl
  · show p.packet = _
    have h₁₃ : r.rootMem (r.layout.dap + 13) = r.start.mem (r.layout.dap + 13) :=
      rootMem_var (by decide) (by decide) (by decide) (by decide)
    have h₁₄ : r.rootMem (r.layout.dap + 14) = r.start.mem (r.layout.dap + 14) :=
      rootMem_var (by decide) (by decide) (by decide) (by decide)
    have h₁₅ : r.rootMem (r.layout.dap + 15) = r.start.mem (r.layout.dap + 15) :=
      rootMem_var (by decide) (by decide) (by decide) (by decide)
    rw [packet_fill _ _ _ _ _ _ hmem rfl, h₁₃, h₁₄, h₁₅,
      BitVec.extractLsb'_append_eq_of_add_le (by omega), request]
  · rw [step, hcf]

end Run

end Stage2
end Amethyst
