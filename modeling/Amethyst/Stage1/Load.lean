import Amethyst.Stage1.Boot

/-!
# Amethyst.Stage1.Load

What stage 1 asks the BIOS for when it loads `BOOT.BIN`, over whole runs from `read_entries`.

* `step_readEntries`: the root directory is read, with the retries that it takes.
* `scan`: the loop over the entries comes to the first one with the name.
* `load_asks`: the request for the file has the CHS address in CX and DX, and in AL the low byte of
  the LBA, since `lbachs` is given the LBA in AX and the number of sectors that was there is gone.
* `loads_iff`: when that is the number of sectors of the file.
-/

namespace Amethyst
namespace Stage1

open RealMode RealMode.Op

/-! ## The root directory -/

/-- `bpb_root_entry_count` -/
def rootEntries : Nat := 0xE0

def dirEntry (i : Nat) : BitVec 16 := buffer + BitVec.ofNat 16 (32 * i)

def Named (dir : Mem 16) (i : Nat) : Prop :=
  dir.Holds (dirEntry i) bootName.length (bootName.getD · 0)

structure First (dir : Mem 16) (i : Nat) : Prop where
  lt : i < rootEntries
  named : Named dir i
  before : ∀ j < i, ¬ Named dir j

def firstCluster (dir : Mem 16) (i : Nat) : BitVec 16 := dir.read16 (dirEntry i + 26)

def fileSize (dir : Mem 16) (i : Nat) : BitVec 32 := dir.read32 (dirEntry i + 28)

/-- A byte of an entry is in the buffer. -/
theorem buffer_le_dirEntry {i j : Nat} (hi : i < rootEntries) (hj : j < 32) :
    buffer ≤ dirEntry i + BitVec.ofNat 16 j := by
  have hi' : i < 0xE0 := hi
  rw [dirEntry, add_add_ofNat, BitVec.le_def, toNat_add_ofNat]
  · exact Nat.le_add_right ..
  · show 512 + _ < _
    omega

/-! ## The boot sector -/

/-- The memory `mem'` is `mem` in the boot sector, but for `try_cnt`. -/
def SameSector (L : Layout) (mem mem' : Mem 16) : Prop :=
  ∀ x < buffer, x ≠ L.tryCnt → mem' x = mem x

/-- Stage 1 at `read_entries`: the header, and the texts. -/
structure Prepared (L : Layout) (S H : Nat) (mem : Mem 16) : Prop where
  loaded : L.Loaded mem
  geometry : Geometry S H mem
  drive : Drive S H
  sectorSize : mem.read16 bsBytePerSector = 512
  entries : mem.read16 bpbRootEntryCount = BitVec.ofNat 16 rootEntries

section

variable {L : Layout} {mem mem' : Mem 16} {S H : Nat}

theorem SameSector.header (h : SameSector L mem mem') {a : BitVec 16} (ha : a.toNat < 61) :
    mem'.read16 a = mem.read16 a := by
  have hp := L.placed.header
  have hne : a ≠ L.tryCnt ∧ a + 1 ≠ L.tryCnt := by
    constructor
    all_goals
      intro he
      rw [← he] at hp
      bv_omega
  have hlt : a < buffer ∧ a + 1 < buffer := by
    simp only [buffer]
    constructor <;> bv_omega
  rw [Mem.read16, Mem.read16, h a hlt.1 hne.1, h (a + 1) hlt.2 hne.2]

/-- A text behind `try_cnt`. -/
theorem SameSector.holds (h : SameSector L mem mem') {a : BitVec 16} {n : Nat}
    {f : Nat → BitVec 8} (ha : L.tryCnt.toNat < a.toNat) (hn : a.toNat + n ≤ 510)
    (hm : mem.Holds a n f) : mem'.Holds a n f := by
  intro i hi
  have hx : (a + BitVec.ofNat 16 i).toNat = a.toNat + i := toNat_add_ofNat (by omega)
  rw [h, hm i hi]
  · rw [BitVec.lt_def, hx]
    show _ < 512
    omega
  · intro he
    rw [he] at hx
    omega

theorem Prepared.same (hp : Prepared L S H mem) (h : SameSector L mem mem') :
    Prepared L S H mem' where
  loaded := {
    texts := fun t => h.holds (L.data t).1 (L.data t).2 (hp.loaded.texts t)
    name := h.holds L.name.1 L.name.2 hp.loaded.name }
  geometry := by
    constructor
    · rw [h.header (by decide)]
      exact hp.geometry.sectors
    · rw [h.header (by decide)]
      exact hp.geometry.heads
  drive := hp.drive
  sectorSize := by
    rw [h.header (by decide)]
    exact hp.sectorSize
  entries := by
    rw [h.header (by decide)]
    exact hp.entries

end

/-! ## The scan -/

section

variable {L : Layout} {replies : Replies} {S H i : Nat} {m m' : Machine} {o : Outcome}
  {mem : Mem 16} {made : List DiskCall}

/-- After the root directory has been read, by a last call that did `o`, with the calls `made`. -/
structure Inside (L : Layout) (mem : Mem 16) (o : Outcome) (made : List DiskCall) (m : Machine) :
    Prop where
  sector : SameSector L mem m.mem
  dir : ∀ x, buffer ≤ x → m.mem x = o.mem x
  edx : m.edx = o.edx
  segment : m.es = m.ds
  calls : m.calls = made

/-- At `check_entries`, before entry `i`. -/
structure Scanning (L : Layout) (mem : Mem 16) (o : Outcome) (made : List DiskCall) (i : Nat)
    (m : Machine) : Prop extends Inside L mem o made m where
  di : m.di = dirEntry i
  count : bx.get m = BitVec.ofNat 16 i

theorem Inside.same (h : Inside L mem o made m) (hm : m'.mem = m.mem) (hd : m'.edx = m.edx)
    (hs : m'.es = m'.ds) (hc : m'.calls = m.calls) : Inside L mem o made m' where
  sector := hm ▸ h.sector
  dir := hm ▸ h.dir
  edx := hd.trans h.edx
  segment := hs
  calls := hc.trans h.calls

/-- The root directory is read by the first call that succeeds. -/
theorem step_readEntries (hp : Prepared L S H m.mem) (hds : m.ds = 0x07C0) {k : Nat} (hk : k < 6)
    (hf : ∀ j < k, (replies (m.calls.length + j)).Fails)
    (hr : replies (m.calls.length + k) = .succeeded o) : ∃ made m',
      step L replies (.readEntries, m) = .inl (.checkEntries, m') ∧
      Scanning L m.mem o made 0 m' ∧ made.length = m.calls.length + k + 1 := by
  obtain ⟨m₁, h₁, hp₁⟩ := print_spec hp.loaded .searchBootBin
  have hgeo : Geometry S H (push (imm L.rootChs) (exec [mov ax (imm 19)] m₁)).mem :=
    hp₁.mem ▸ hp.geometry
  obtain ⟨m₂, h₂, hk₂, -, -, -, -, hds₂, -⟩ := lbachs_spec hgeo hp.drive
  obtain ⟨hc₂, -⟩ := call_kept h₂ hk₂ (by decide)
  have hmem₂ : m₂.mem = m.mem := hk₂.mem.trans hp₁.mem
  have hcalls₂ : m₂.calls = m.calls := hk₂.calls.trans hp₁.calls
  obtain ⟨m₃, h₃, hret⟩ := @callRead_returns L { m₂ with sp := m₂.sp + 2 } replies L.rootRead
    (fun m => .inl (.checkEntries, exec [mov di (imm buffer), xor RealMode.bx RealMode.bx] m)) k o hk
    (hcalls₂ ▸ hf) (hcalls₂ ▸ hr)
  have hlen : m₃.calls.length = m.calls.length + (k + 1) := by
    rw [hret.asked.length]
    show m₂.calls.length + _ = _
    rw [hcalls₂]
  have hds₃ : m₃.ds = 0x07C0 := hret.ds.trans (hds₂.trans (hp₁.ds.trans hds))
  have hstep : step L replies (.readEntries, m) = .inl (.checkEntries,
      exec [mov di (imm buffer), xor RealMode.bx RealMode.bx] { m₃ with sp := m₃.sp + 2 }) := by
    simp only [step, h₁, Option.bind_some, hc₂]
    exact h₃
  refine ⟨m₃.calls, _, hstep, ?_, hlen⟩
  exact {
    sector := fun x hx hne => (hret.mem x hx hne).trans (congrFun hmem₂ x)
    dir := hret.sectors
    edx := hret.edx
    segment := hret.es.trans hds₃.symm
    calls := rfl
    di := by simp [dirEntry]
    count := by simp }

theorem slt_rootEntries (hi : i < rootEntries) :
    (BitVec.ofNat 16 i).slt (BitVec.ofNat 16 rootEntries) = true := by
  have hi' : i < 0xE0 := hi
  rw [BitVec.slt_eq_decide, decide_eq_true_iff, BitVec.toInt_eq_toNat_cond,
    BitVec.toInt_eq_toNat_cond, BitVec.toNat_ofNat, BitVec.toNat_ofNat, Nat.mod_eq_of_lt (by omega),
    Nat.mod_eq_of_lt (by decide), if_pos (by omega), if_pos (by decide)]
  exact_mod_cast hi

/-- The bytes at `s_boots2` are those of entry `i`. -/
theorem named_iff (hp : Prepared L S H m.mem) (hs : Scanning L mem o made i m) (hi : i < rootEntries) :
    (∀ j < 11, m.mem (L.sBoots2 + BitVec.ofNat 16 j) = m.mem (m.di + BitVec.ofNat 16 j)) ↔
      Named o.mem i := by
  have hname (j : Nat) (hj : j < 11) : m.mem (L.sBoots2 + BitVec.ofNat 16 j) = bootName.getD j 0 :=
    hp.loaded.name j hj
  have hentry (j : Nat) (hj : j < 11) :
      m.mem (m.di + BitVec.ofNat 16 j) = o.mem (dirEntry i + BitVec.ofNat 16 j) := by
    rw [hs.di]
    exact hs.dir _ (buffer_le_dirEntry hi (by omega))
  constructor
  · intro h j hj
    rw [← hentry j hj, ← h j hj, hname j hj]
  · intro h j hj
    rw [hname j hj, hentry j hj]
    exact (h j hj).symm

/-- One entry. -/
theorem step_checkEntries (hp : Prepared L S H mem) (hs : Scanning L mem o made i m)
    (hi : i < rootEntries) : ∃ m',
      (Named o.mem i ∧ Scanning L mem o made i m' ∧ checkEntries L m = (.loadBoots2, m')) ∨
      (¬ Named o.mem i ∧ Scanning L mem o made (i + 1) m' ∧
        checkEntries L m = (.checkEntries, m')) := by
  have hp' := hp.same hs.sector
  let m₁ := exec [cmp RealMode.bx (word (abs bpbRootEntryCount))] m
  have h₁ : Scanning L mem o made i m₁ := {
    toInside := hs.toInside.same rfl rfl hs.segment rfl
    di := hs.di
    count := hs.count }
  have hlt : m₁.lt = true := by
    have hi' : m.ebx.extractLsb' 0 16 = BitVec.ofNat 16 i := hs.count
    simp [m₁, hp'.entries, hi', slt_rootEntries hi]
  obtain ⟨m₂, hcmp, hk, hdi, hbx, hdx, hes, hds, hz⟩ :=
    @compare_spec (imm L.sBoots2) 11 (by decide) m₁ h₁.segment
  have h₂ : Scanning L mem o made i m₂ := {
    toInside := h₁.toInside.same hk.mem hdx (by rw [hes, hds, h₁.segment]) hk.calls
    di := hdi.trans hs.di
    count := (congrArg (BitVec.extractLsb' 0 16) hbx).trans hs.count }
  have hnamed : m₂.zf = true ↔ Named o.mem i := by
    rw [hz]
    exact named_iff hp' h₁ hi
  have hdef : checkEntries L m = if m₁.lt then
      if m₂.zf then (.loadBoots2, m₂)
      else (.checkEntries, exec [inc RealMode.bx, add RealMode.di (imm 32)] m₂)
    else (.failFound, m₁) := by
    rw [← hcmp]
    rfl
  rw [hdef, hlt]
  by_cases hn : Named o.mem i
  · exact ⟨m₂, .inl ⟨hn, h₂, if_pos (hnamed.mpr hn)⟩⟩
  · refine ⟨_, .inr ⟨hn, ?_, if_neg (hnamed.not.mpr hn)⟩⟩
    exact {
      toInside := h₂.toInside.same rfl rfl h₂.segment rfl
      di := by
        have := h₂.di
        simp [this, dirEntry, BitVec.add_assoc, Nat.mul_add]
        exact (BitVec.ofNat_add ..).symm
      count := by
        have : m₂.ebx.extractLsb' 0 16 = BitVec.ofNat 16 i := h₂.count
        simp [this]
        exact (BitVec.ofNat_add ..).symm }

/-- The loop, by induction on the entries before the first one with the name. -/
theorem scan (hp : Prepared L S H mem) {k : Nat} (hi : First o.mem (i + k))
    (hs : Scanning L mem o made i m) : ∃ m', Scanning L mem o made (i + k) m' ∧
      Reaches (step L replies) (.checkEntries, m) (.loadBoots2, m') := by
  induction k generalizing i m with
  | zero =>
    obtain ⟨m', ⟨-, hs', he⟩ | ⟨hn, -⟩⟩ := step_checkEntries hp hs hi.lt
    · exact ⟨m', hs', .next (congrArg Sum.inl he) (.refl _)⟩
    · exact absurd hi.named hn
  | succ k ih =>
    have hlt := hi.lt
    obtain ⟨m', ⟨hn, -⟩ | ⟨-, hs', he⟩⟩ := step_checkEntries hp hs (by omega)
    · exact absurd hn (hi.before i (by omega))
    · have heq : i + (k + 1) = i + 1 + k := by omega
      rw [heq] at hi ⊢
      obtain ⟨m'', hs'', hr⟩ := ih hi hs'
      have hnext : step L replies (.checkEntries, m) = .inl (.checkEntries, m') := congrArg Sum.inl he
      exact ⟨m'', hs'', .next hnext hr⟩

/-! ## The load -/

theorem step_loadBoots2 (hp : Prepared L S H mem) (hs : Scanning L mem o made i m) : ∃ m',
    m'.mem = m.mem ∧ m'.di = m.di ∧ m'.calls = m.calls ∧
      ((o.edx.toNat < 512 ∧ step L replies (.loadBoots2, m) = .inl (.load, m')) ∨
        (¬ o.edx.toNat < 512 ∧ step L replies (.loadBoots2, m) = .inr (.lost m'))) := by
  let m₁ := exec [mov eax (dword fun m => m.di + 28), xor ebx ebx,
    mov RealMode.bx (word (abs bsBytePerSector))] m
  have hdef : step L replies (.loadBoots2, m) = (div ebx m₁).elim (.inr (.lost m₁)) fun q =>
      .inl (.load, if (exec [or edx edx] q).zf then exec [or edx edx] q
        else exec [inc ax] (exec [or edx edx] q)) := by
    simp only [step, loadBoots2, m₁]
    generalize div ebx _ = q
    cases q <;> rfl
  have hbx : ebx.get m₁ = 512 := by
    simp [m₁, (hp.same hs.sector).sectorSize]
  have hlt : m₁.edx < ebx.get m₁ ↔ o.edx.toNat < 512 := by
    rw [hbx, BitVec.lt_def, ← hs.edx]
    rfl
  rw [hdef]
  by_cases h : o.edx.toNat < 512
  · obtain ⟨q, hq, hmem, hdi, hcalls⟩ : ∃ q, div ebx m₁ = some q ∧ q.mem = m₁.mem ∧ q.di = m₁.di ∧
        q.calls = m₁.calls := ⟨_, if_pos (hlt.mpr h), rfl, rfl, rfl⟩
    rw [hq, Option.elim]
    split
    · exact ⟨exec [or edx edx] q, hmem, hdi, hcalls, .inl ⟨h, rfl⟩⟩
    · exact ⟨exec [inc ax] (exec [or edx edx] q), hmem, hdi, hcalls, .inl ⟨h, rfl⟩⟩
  · rw [div, if_neg (hlt.not.mpr h)]
    exact ⟨m₁, rfl, rfl, rfl, .inr ⟨h, rfl⟩⟩

/-- The address in a request, from DX at the call. -/
theorem chs_append (cx : BitVec 16) (edx : BitVec 32) (drive : BitVec 8) :
    chs cx (edx.extractLsb' 8 8 ++ drive) = chs cx (edx.extractLsb' 0 16) := by
  simp only [chs, BitVec.extractLsb'_append_eq_left]
  rw [low16_eq_append, BitVec.extractLsb'_append_eq_left]

/-- The request for the file, whatever comes of it. -/
theorem load_asks (hp : Prepared L S H m.mem) (replies : Replies) {c : BitVec 16}
    (hc : m.mem.read16 (m.di + 26) = c) : ∃ e call, Exec (step L replies) (.load, m) e ∧
      e.machine.calls[m.calls.length]? = some call ∧ call.ax = 2#8 ++ (c + 31).extractLsb' 0 8 ∧
      chs call.cx call.dx =
        ⟨(c + 31).toNat / S / H % 1024, (c + 31).toNat / S % H, (c + 31).toNat % S + 1⟩ := by
  let m₁ := exec [mov ax (word fun m => m.di + 26), add ax (imm 31)] m
  have hax₁ : ax.get m₁ = c + 31 := by
    subst hc
    simp [m₁]
  obtain ⟨m₂, h₂, hk₂, hax₂, -, -, -, -, -, hchs⟩ :=
    @lbachs_spec S H (push (imm L.fileChs) m₁) hp.geometry hp.drive
  obtain ⟨hc₂, -⟩ := call_kept h₂ hk₂ (by decide)
  have hL : L.Loaded m₂.mem := hk₂.mem ▸ hp.loaded
  obtain ⟨m₃, h₃, hp₃⟩ := @print_spec L { m₂ with sp := m₂.sp + 2 } hL .execBootBin
  have hcalls₃ : m₃.calls = m.calls := hp₃.calls.trans hk₂.calls
  obtain ⟨m₄, k, hends, hreq⟩ := callRead_cases L replies L.fileRead
    (fun m => .inr (.boot (exec [mov ax (word (abs bsDriveNumber))] m))) m₃
  have hstep : step L replies (.load, m) = callRead L replies L.fileRead
      (fun m => .inr (.boot (exec [mov ax (word (abs bsDriveNumber))] m))) m₃ := by
    simp only [step, m₁] at hc₂ ⊢
    simp only [hc₂, Option.bind_some, h₃]
  have hend : ∃ e, Exec (step L replies) (.load, m) e ∧ e.machine.calls = m₄.calls := by
    obtain he | he | he := hends
    · exact ⟨_, .done (hstep.trans he), rfl⟩
    · obtain ⟨e, hexec, hcalls⟩ := @diskError_exec L replies m₄
      exact ⟨e, .next (hstep.trans he) hexec, hcalls⟩
    · exact ⟨_, .done (hstep.trans he), rfl⟩
  obtain ⟨e, hexec, hcalls⟩ := hend
  obtain ⟨call, hcall, hwanted⟩ := turns_head replies _ hreq
  rw [← hcalls, hcalls₃] at hcall
  have heax₃ : m₃.eax = m₁.eax := hp₃.eax.trans hax₂
  have hcx₃ : m₃.ecx = m₂.ecx := hp₃.ecx
  have hdx₃ : m₃.edx = m₂.edx := hp₃.edx
  refine ⟨e, call, hexec, hcall, ?_, ?_⟩
  · have hax : call.ax = 2#8 ++ m₃.eax.extractLsb' 0 8 := congrArg Request.ax hwanted
    rw [hax, heax₃, ← hax₁]
    congr 1
    exact (low8_low16 m₁.eax).symm
  · have hcx : call.cx = m₃.ecx.extractLsb' 0 16 := congrArg Request.cx hwanted
    have hdx : call.dx = m₃.edx.extractLsb' 8 8 ++ m₃.mem bsDriveNumber := congrArg Request.dx hwanted
    rw [hcx, hdx, chs_append, hcx₃, hdx₃, ← hax₁]
    exact hchs

end

/-! ## The request -/

/-- The BIOS is asked for `sectors` sectors from `lba` on. -/
structure Asks (S H sectors lba : Nat) (call : DiskCall) : Prop where
  ah : call.ax.extractLsb' 8 8 = 2
  al : (call.ax.extractLsb' 0 8).toNat = sectors
  sector_pos : 1 ≤ (chs call.cx call.dx).sector
  sector_le : (chs call.cx call.dx).sector ≤ S
  head_lt : (chs call.cx call.dx).head < H
  lba : (chs call.cx call.dx).lba S H = lba

section

variable {L : Layout} {replies : Replies} {S H i k : Nat} {m : Machine} {o : Outcome}

/-- `lbachs` wraps addresses at 2 ^ 16, and cylinders at 1024. -/
theorem lba_wrapped_iff (hd : Drive S H) (n : Nat) :
    (Chs.mk (n % 2 ^ 16 / S / H % 1024) (n % 2 ^ 16 / S % H) (n % 2 ^ 16 % S + 1)).lba S H = n ↔
      n < 2 ^ 16 ∧ n / (S * H) < 1024 := by
  have hx : n % 2 ^ 16 ≤ n := Nat.mod_le ..
  obtain ⟨x, hxn⟩ : ∃ x, n % 2 ^ 16 = x := ⟨_, rfl⟩
  rw [← Nat.div_div_eq_div_mul, hxn]
  rw [hxn] at hx
  have hsplit := lba_split x S H
  obtain ⟨q, hq⟩ : ∃ q, x / S / H = q := ⟨_, rfl⟩
  rw [hq] at hsplit ⊢
  show (q % 1024 * H + x / S % H) * S + (x % S + 1) - 1 = n ↔ _
  constructor
  · intro h
    -- a cylinder that wraps makes the address smaller
    have hle : (q % 1024 * H + x / S % H) * S ≤ (q * H + x / S % H) * S :=
      Nat.mul_le_mul_right S (Nat.add_le_add_right (Nat.mul_le_mul_right H (Nat.mod_le ..)) _)
    obtain rfl : x = n := by omega
    refine ⟨by omega, ?_⟩
    by_contra hc
    have hmod : q % 1024 < q := by omega
    have hlt : (q % 1024 * H + x / S % H) * S < (q * H + x / S % H) * S :=
      Nat.mul_lt_mul_of_pos_right
        (Nat.add_lt_add_right (Nat.mul_lt_mul_of_pos_right hmod hd.heads_pos) _) hd.sectors_pos
    omega
  · intro ⟨hn, hc⟩
    obtain rfl : n = x := by omega
    rw [Nat.mod_eq_of_lt (by omega)]
    exact hsplit

theorem asks_iff (hd : Drive S H) {call : DiskCall} {c : BitVec 16} {sectors : Nat}
    (hax : call.ax = 2#8 ++ (c + 31).extractLsb' 0 8) (hchs : chs call.cx call.dx =
      ⟨(c + 31).toNat / S / H % 1024, (c + 31).toNat / S % H, (c + 31).toNat % S + 1⟩) :
    Asks S H sectors (c.toNat + 31) call ↔
      c.toNat + 31 < 2 ^ 16 ∧ (c.toNat + 31) / (S * H) < 1024 ∧ (c.toNat + 31) % 256 = sectors := by
  have hlba : (c + 31).toNat = (c.toNat + 31) % 2 ^ 16 := BitVec.toNat_add ..
  have hal : (call.ax.extractLsb' 0 8).toNat = (c.toNat + 31) % 256 := by
    rw [hax, BitVec.extractLsb'_append_eq_right, BitVec.extractLsb'_toNat, hlba]
    omega
  rw [← and_assoc, ← lba_wrapped_iff hd, ← hal, ← hlba, ← hchs]
  constructor
  · intro h
    exact ⟨h.lba, h.al⟩
  · intro ⟨h1, h2⟩
    refine ⟨?_, h2, ?_, ?_, ?_, h1⟩
    · rw [hax]
      exact BitVec.extractLsb'_append_eq_left
    · rw [hchs]
      exact Nat.succ_pos _
    · rw [hchs]
      exact Nat.mod_lt _ hd.sectors_pos
    · rw [hchs]
      exact Nat.mod_lt _ hd.heads_pos

/-- Stage 1 at `read_entries`; call `k` after that is the first to succeed, and does `o`. -/
structure Booting (L : Layout) (replies : Replies) (S H k : Nat) (o : Outcome) (m : Machine) :
    Prop where
  prepared : Prepared L S H m.mem
  ds : m.ds = 0x07C0
  lt : k < 6
  failed : ∀ j < k, (replies (m.calls.length + j)).Fails
  read : replies (m.calls.length + k) = .succeeded o

/-- A run that gets past the division asks for the file in the call after the root directory; any other
makes no call then. -/
theorem run_cases (hb : Booting L replies S H k o m) (hi : First o.mem i) : ∃ e,
    Exec (step L replies) (.readEntries, m) e ∧
      ((¬ o.edx.toNat < 512 ∧ e.machine.calls[m.calls.length + k + 1]? = none) ∨
      (o.edx.toNat < 512 ∧ ∃ call, e.machine.calls[m.calls.length + k + 1]? = some call ∧
        call.ax = 2#8 ++ (firstCluster o.mem i + 31).extractLsb' 0 8 ∧
        chs call.cx call.dx = ⟨(firstCluster o.mem i + 31).toNat / S / H % 1024,
          (firstCluster o.mem i + 31).toNat / S % H, (firstCluster o.mem i + 31).toNat % S + 1⟩)) := by
  have hp := hb.prepared
  obtain ⟨made, m₁, h₁, hs, hlen⟩ := step_readEntries hp hb.ds hb.lt hb.failed hb.read
  have hi0 : First o.mem (0 + i) := (Nat.zero_add i).symm ▸ hi
  obtain ⟨m₂, hs₂, hr⟩ := @scan L replies S H 0 m₁ o m.mem made hp i hi0 hs
  rw [Nat.zero_add] at hs₂
  have hreach : Reaches (step L replies) (.readEntries, m) (.loadBoots2, m₂) := .next h₁ hr
  obtain ⟨m₃, hmem, hdi, hcalls, ⟨hlt, h₃⟩ | ⟨hlt, h₃⟩⟩ :=
    @step_loadBoots2 L replies S H i m₂ o m.mem made hp hs₂
  · have hread : m₃.mem.read16 (m₃.di + 26) = firstCluster o.mem i := by
      have h26 : m₂.mem (dirEntry i + 26) = o.mem (dirEntry i + 26) :=
        hs₂.dir _ (buffer_le_dirEntry hi.lt (show 26 < 32 by decide))
      have h27 : m₂.mem (dirEntry i + 26 + 1) = o.mem (dirEntry i + 26 + 1) := by
        rw [BitVec.add_assoc]
        exact hs₂.dir _ (buffer_le_dirEntry hi.lt (show 27 < 32 by decide))
      rw [hmem, hdi, hs₂.di, firstCluster, Mem.read16, Mem.read16, h26, h27]
    have hp₃ : Prepared L S H m₃.mem := hmem ▸ hp.same hs₂.sector
    obtain ⟨e, call, hexec, hcall, hasks⟩ := load_asks hp₃ replies hread
    rw [hcalls, hs₂.calls, hlen] at hcall
    exact ⟨e, hreach.exec (.next h₃ hexec), .inr ⟨hlt, call, hcall, hasks⟩⟩
  · refine ⟨.lost m₃, hreach.exec (.done h₃), .inl ⟨hlt, ?_⟩⟩
    show m₃.calls[_]? = none
    rw [hcalls, hs₂.calls, List.getElem?_eq_none_iff, hlen]

/-- The call after the root directory has been read asks for the sectors of the file exactly when
their number is the low byte of the LBA, and no division or address goes wrong. -/
theorem loads_iff (hb : Booting L replies S H k o m) (hi : First o.mem i) :
    (∃ e call, Exec (step L replies) (.readEntries, m) e ∧
      e.machine.calls[m.calls.length + k + 1]? = some call ∧
      Asks S H (((fileSize o.mem i).toNat + 511) / 512) ((firstCluster o.mem i).toNat + 31) call) ↔
    o.edx.toNat < 512 ∧ (firstCluster o.mem i).toNat + 31 < 2 ^ 16 ∧
      ((firstCluster o.mem i).toNat + 31) / (S * H) < 1024 ∧
      ((firstCluster o.mem i).toNat + 31) % 256 = ((fileSize o.mem i).toNat + 511) / 512 := by
  obtain ⟨e, hexec, ⟨hlt, hnone⟩ | ⟨hlt, call, hcall, hax, hchs⟩⟩ := run_cases hb hi
  · refine iff_of_false ?_ fun h => hlt h.1
    intro ⟨e', call, he', hcall, _⟩
    obtain rfl := he'.deterministic hexec
    rw [hnone] at hcall
    cases hcall
  · rw [← asks_iff hb.prepared.drive hax hchs]
    constructor
    · intro ⟨e', call', he', hcall', hasks⟩
      obtain rfl := he'.deterministic hexec
      obtain rfl := Option.some.inj (hcall.symm.trans hcall')
      exact ⟨hlt, hasks⟩
    · intro ⟨_, hasks⟩
      exact ⟨e, call, hexec, hcall, hasks⟩

end

/-! ## A sample -/

def sampleLayout : Layout where
  tryCnt := 0x170
  text
    | .searchBootBin => 0x180
    | .execBootBin => 0x198
    | .errDiskRead => 0x1A8
    | .errNotFound => 0x1B0
  sBoots2 := 0x1C0
  io := ⟨0x110, 0x120, 0x130⟩
  printed
    | .searchBootBin => 0x60
    | .execBootBin => 0xA0
    | .errDiskRead => 0xE0
    | .errNotFound => 0x80
  rootChs := 0x66
  rootRead := 0x69
  fileChs := 0x98
  fileRead := 0xA3
  number := 0xE3
  placed := ⟨by decide, by decide⟩
  data t := by cases t <;> decide
  name := by decide

/-- The boot sector with its texts. -/
def sampleSector : Mem 16 :=
  ((((bootSector.fill 0x180 17 (Text.searchBootBin.bytes.getD · 0)).fill 0x198 15
    (Text.execBootBin.bytes.getD · 0)).fill 0x1A8 8 (Text.errDiskRead.bytes.getD · 0)).fill 0x1B0 11
    (Text.errNotFound.bytes.getD · 0)).fill 0x1C0 11 (bootName.getD · 0)

/-- Nothing but an entry for `BOOT.BIN`, of this size, at cluster 2. -/
def sampleRoot (size : BitVec 16) : Mem 16 :=
  ((Mem.fill (fun _ => 0) 512 11 (bootName.getD · 0)).write16 (512 + 26) 2).write16 (512 + 28) size

def sampleOutcome (size : BitVec 16) : Outcome :=
  ⟨0, 0, 0, 0, 0, 0, 0, false, false, false, sampleRoot size⟩

theorem sample_prepared : Prepared sampleLayout 18 2 sampleSector where
  loaded := {
    texts := by
      unfold Mem.Holds
      intro t
      cases t <;> decide +kernel
    name := by
      unfold Mem.Holds
      decide +kernel }
  geometry := by constructor <;> decide +kernel
  drive := floppy_drive
  sectorSize := by decide +kernel
  entries := by decide +kernel

theorem sample_booting (size : BitVec 16) : Booting sampleLayout (fun _ => .succeeded (sampleOutcome size))
    18 2 0 (sampleOutcome size) (booted sampleSector 0) where
  prepared := sample_prepared
  ds := rfl
  lt := by decide
  failed j hj := absurd hj (Nat.not_lt_zero j)
  read := rfl

theorem sample_first (size : BitVec 16) (h : Named (sampleRoot size) 0) :
    First (sampleOutcome size).mem 0 where
  lt := by decide
  named := h
  before j hj := absurd hj (Nat.not_lt_zero j)

/-- 33 sectors at cluster 2, which is LBA 33. -/
theorem loads_iff_floppy :
    (∃ e call, Exec (step sampleLayout fun _ => .succeeded (sampleOutcome 0x4200))
        (.readEntries, booted sampleSector 0) e ∧ e.machine.calls[0 + 0 + 1]? = some call ∧
      Asks 18 2 (((fileSize (sampleRoot 0x4200) 0).toNat + 511) / 512)
        ((firstCluster (sampleRoot 0x4200) 0).toNat + 31) call) ↔
    (0 : BitVec 32).toNat < 512 ∧ (firstCluster (sampleRoot 0x4200) 0).toNat + 31 < 2 ^ 16 ∧
      ((firstCluster (sampleRoot 0x4200) 0).toNat + 31) / (18 * 2) < 1024 ∧
      ((firstCluster (sampleRoot 0x4200) 0).toNat + 31) % 256 =
        ((fileSize (sampleRoot 0x4200) 0).toNat + 511) / 512 :=
  loads_iff (sample_booting 0x4200) (sample_first 0x4200 (by unfold Named Mem.Holds; decide +kernel))

/-- A file of 1024 bytes has two sectors; the BIOS is asked for 33. -/
theorem two_sectors_not_asked :
    (fileSize (sampleRoot 0x400) 0).toNat = 1024 ∧ (firstCluster (sampleRoot 0x400) 0).toNat = 2 ∧
    ¬ ∃ e call, Exec (step sampleLayout fun _ => .succeeded (sampleOutcome 0x400))
        (.readEntries, booted sampleSector 0) e ∧ e.machine.calls[0 + 0 + 1]? = some call ∧
      Asks 18 2 2 33 call := by
  have hcluster : firstCluster (sampleRoot 0x400) 0 = 2 := by decide +kernel
  have hnamed : Named (sampleRoot 0x400) 0 := by unfold Named Mem.Holds; decide +kernel
  refine ⟨by decide +kernel, by rw [hcluster]; rfl, ?_⟩
  intro ⟨e, call, he, hcall, hasks⟩
  obtain ⟨e', hexec, ⟨hlt, -⟩ | ⟨-, call', hcall', hax, -⟩⟩ :=
    run_cases (sample_booting 0x400) (sample_first 0x400 hnamed)
  · exact hlt (by decide)
  · obtain rfl := he.deterministic hexec
    obtain rfl := Option.some.inj (hcall.symm.trans hcall')
    have hal := hasks.al
    rw [hax, show firstCluster (sampleOutcome 0x400).mem 0 = 2 from hcluster,
      BitVec.extractLsb'_append_eq_right] at hal
    exact absurd hal (by decide)

end Stage1
end Amethyst
