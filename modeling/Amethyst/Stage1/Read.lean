import Amethyst.Loop
import Amethyst.Stage1.Chs
import Mathlib.Data.Nat.Find

/-!
# Amethyst.Stage1.Read

`read` (`stage1/boot.asm`), which asks the BIOS for sectors up to six times. `Reply` is what an
`int 0x13` does: a call that fails leaves AX as it likes and keeps the other registers, one that
succeeds may change them all. Both may have stored to the buffer.

Each turn sets AH, DL, ES and BX again, but not AL.

* `pass_failed`, `pass_succeeded`: one turn.
* `read_failed`, `read_succeeded`: the whole loop, for the two kinds of replies.
* `read_repeats_iff`: when the retries repeat the request.
-/

namespace Amethyst
namespace Stage1

open RealMode RealMode.Op

/-- `buffer`, behind the boot sector. -/
def buffer : BitVec 16 := 512

/-! ## The BIOS -/

inductive Reply where
  | failed (ax : BitVec 16) (zf lt : Bool) (mem : Mem 16)
  | succeeded (o : Outcome)

/-- What each `int 0x13` does, by how many there were before. -/
abbrev Replies := Nat → Reply

/-- AL after a call that fails. -/
def Reply.leavesAl : Reply → BitVec 8
  | failed ax _ _ _ => ax.extractLsb' 0 8
  | succeeded o => o.eax.extractLsb' 0 8

def Reply.Fails : Reply → Prop
  | failed _ _ _ _ => True
  | succeeded _ => False

def Reply.outcome (m : Machine) : Reply → Outcome
  | failed v zf lt mem =>
    { eax := m.eax.extractLsb' 16 16 ++ v
      ebx := m.ebx
      ecx := m.ecx
      edx := m.edx
      si := m.si
      di := m.di
      bp := m.bp
      cf := true
      zf, lt, mem }
  | succeeded o => { o with cf := false }

def int13 (replies : Replies) : Op := fun m =>
  RealMode.int13 (fun n => (replies n).outcome m) buffer m

/-! ## The loop -/

inductive ReadEnd where
  | ret (m : Machine)
  | diskError (m : Machine)

def ReadEnd.machine : ReadEnd → Machine
  | ret m => m
  | diskError m => m

variable (tryCnt : BitVec 16)

/-- From `.try` to the `int 0x13`. -/
def read.try : Op :=
  exec [mov dl (byte (abs bsDriveNumber)),
    mov bx (imm 0x7c0),
    mov es bx,
    mov bx (imm buffer),
    mov ah (imm 2)]

def read.pass (replies : Replies) (m : Machine) : Pass Machine ReadEnd :=
  let m := int13 replies (read.try m)
  if !m.cf then .leave (.ret m)
  else
    let m := exec [cmp (byte (abs tryCnt)) (imm 5)] m
    if m.zf then .leave (.diskError m) else .next (exec [inc (byte (abs tryCnt))] m)

/-- `read`. `try_cnt` counts the turns, in a byte. -/
def read (replies : Replies) (m : Machine) : Option ReadEnd :=
  Loop.run (read.pass tryCnt replies) 256 (exec [mov (byte (abs tryCnt)) (imm 0)] m)

/-! ## Requests -/

/-- The registers that an `int 0x13` is given. -/
structure Request where
  ax : BitVec 16
  bx : BitVec 16
  cx : BitVec 16
  dx : BitVec 16
  es : BitVec 16
deriving DecidableEq, Repr

def request (c : DiskCall) : Request := ⟨c.ax, c.bx, c.cx, c.dx, c.es⟩

/-- `n` sectors at the CH, CL and DH of `m`, from the boot drive to the buffer. -/
def wanted (m : Machine) (n : BitVec 8) : Request where
  ax := 2#8 ++ n
  bx := buffer
  cx := cx.get m
  dx := dh.get m ++ m.mem bsDriveNumber
  es := 0x07C0

/-- The requests made between two machines of a run. -/
def requests (m m' : Machine) : List Request := (m'.calls.drop m.calls.length).map request

/-- AL at a turn: the caller's at first, then what the last call left. -/
def alAt (replies : Replies) (m : Machine) : Nat → BitVec 8
  | 0 => al.get m
  | j + 1 => (replies (m.calls.length + j)).leavesAl

/-- The requests of the first `j` turns. -/
def turns (replies : Replies) (m : Machine) (j : Nat) : List Request :=
  (List.range j).map fun i => wanted m (alAt replies m i)

/-! ## One turn -/

section

variable {tryCnt : BitVec 16} {replies : Replies} {j : Nat} {m m' : Machine}

/-- Where the calls of a run go on from those of `m`. -/
def Asked (replies : Replies) (m : Machine) (j : Nat) (m' : Machine) : Prop :=
  ∃ new, m'.calls = m.calls ++ new ∧ new.map request = turns replies m j

theorem Asked.requests (h : Asked replies m j m') : requests m m' = turns replies m j := by
  obtain ⟨new, hc, hn⟩ := h
  rw [Stage1.requests, hc, List.drop_left, hn]

theorem Asked.length (h : Asked replies m j m') : m'.calls.length = m.calls.length + j := by
  obtain ⟨new, hc, hn⟩ := h
  have hl := congrArg List.length hn
  rw [turns, List.length_map, List.length_map, List.length_range] at hl
  rw [hc, List.length_append, hl]

variable (tryCnt) in
/-- `read` called in `m`, after `j` calls of the BIOS that failed. -/
structure Tried (replies : Replies) (m : Machine) (j : Nat) (m' : Machine) : Prop where
  ecx : m'.ecx = m.ecx
  dh : dh.get m' = dh.get m
  al : al.get m' = alAt replies m j
  sp : m'.sp = m.sp
  stack : m'.stack = m.stack
  ds : m'.ds = m.ds
  mem : ∀ x < buffer, x ≠ tryCnt → m'.mem x = m.mem x
  asked : Asked replies m j m'

theorem Tried.still {m'' : Machine} (h : Tried tryCnt replies m j m') (hc : m''.ecx = m'.ecx)
    (hd : m''.edx = m'.edx) (ha : m''.eax = m'.eax) (hsp : m''.sp = m'.sp)
    (hst : m''.stack = m'.stack) (hds : m''.ds = m'.ds)
    (hm : ∀ x, x ≠ tryCnt → m''.mem x = m'.mem x) (hcalls : m''.calls = m'.calls) :
    Tried tryCnt replies m j m'' where
  ecx := hc.trans h.ecx
  dh := (congrArg (BitVec.extractLsb' 8 8) hd).trans h.dh
  al := (congrArg (BitVec.extractLsb' 0 8) ha).trans h.al
  sp := hsp.trans h.sp
  stack := hst.trans h.stack
  ds := hds.trans h.ds
  mem x hx hne := (hm x hne).trans (h.mem x hx hne)
  asked := by
    obtain ⟨new, hnew, hmap⟩ := h.asked
    exact ⟨new, hcalls.trans hnew, hmap⟩

/-- Where `try_cnt` may be: behind the header, in the boot sector. -/
structure Placed (tryCnt : BitVec 16) : Prop where
  header : 62 ≤ tryCnt.toNat
  sector : tryCnt.toNat < 510

theorem Tried.start (replies : Replies) (m : Machine) :
    Tried tryCnt replies m 0 (exec [mov (byte (abs tryCnt)) (imm 0)] m) where
  ecx := rfl
  dh := rfl
  al := rfl
  sp := rfl
  stack := rfl
  ds := rfl
  mem x _ hx := by simp [hx]
  asked := ⟨[], by simp, rfl⟩

/-- The request of a turn. -/
theorem Tried.request (h : Tried tryCnt replies m j m') (ht : Placed tryCnt) :
    request (read.try m').int13Call = wanted m (alAt replies m j) := by
  have hd : m'.mem bsDriveNumber = m.mem bsDriveNumber := by
    apply h.mem
    · decide
    · intro he
      have := ht.header
      rw [← he] at this
      revert this
      decide
  have h1 : m'.edx.extractLsb' 8 8 = m.edx.extractLsb' 8 8 := h.dh
  have h2 : m'.eax.extractLsb' 0 8 = alAt replies m j := h.al
  simp [Stage1.request, Machine.int13Call, read.try, wanted, low16_low8_append, h.ecx, h1, h2, hd]

theorem Tried.asked_next (h : Tried tryCnt replies m j m') (ht : Placed tryCnt)
    {m'' : Machine} (hc : m''.calls = (int13 replies (read.try m')).calls) :
    Asked replies m (j + 1) m'' := by
  obtain ⟨new, hnew, hmap⟩ := h.asked
  refine ⟨new ++ [(read.try m').int13Call], ?_, ?_⟩
  · rw [hc, ← List.append_assoc, ← hnew]
    rfl
  · rw [List.map_append, hmap, turns, turns, List.range_succ, List.map_append, List.map_singleton,
      List.map_singleton, h.request ht]

theorem int13_failed {v : BitVec 16} {zf lt : Bool} {mem : Mem 16}
    (h : replies m.calls.length = .failed v zf lt mem) : int13 replies m = { m with
      eax := m.eax.extractLsb' 16 16 ++ v
      cf := true
      zf, lt
      mem := fun x => if x < buffer then m.mem x else mem x
      calls := m.calls ++ [m.int13Call] } := by
  simp [int13, RealMode.int13, h, Reply.outcome]

theorem int13_succeeded {o : Outcome} (h : replies m.calls.length = .succeeded o) :
    int13 replies m = { RealMode.int13 (fun _ => o) buffer m with cf := false } := by
  simp [int13, RealMode.int13, h, Reply.outcome]

theorem Placed.lt (ht : Placed tryCnt) : tryCnt < buffer := by
  have := ht.sector
  simp only [buffer]
  bv_omega

/-- The byte counts the six turns apart. -/
theorem count_eq_five (hj : j < 6) : (BitVec.ofNat 8 j == 5#8) = decide (j = 5) := by
  have h : ∀ j < 6, (BitVec.ofNat 8 j == 5#8) = decide (j = 5) := by decide
  exact h j hj

theorem Tried.failed (ht : Placed tryCnt) (h : Tried tryCnt replies m j m')
    (hf : (replies (m.calls.length + j)).Fails) : ∃ q, int13 replies (read.try m') = q ∧
      q.cf = true ∧ q.mem tryCnt = m'.mem tryCnt ∧ Tried tryCnt replies m (j + 1) q := by
  cases hr : replies (m.calls.length + j) with
  | succeeded o =>
    rw [hr] at hf
    exact hf.elim
  | failed v zf lt mem =>
    have hlen : (read.try m').calls.length = m.calls.length + j := h.asked.length
    have hasked : Asked replies m (j + 1) (int13 replies (read.try m')) := h.asked_next ht rfl
    rw [int13_failed (hlen ▸ hr)] at hasked ⊢
    refine ⟨_, rfl, rfl, if_pos ht.lt, ?_⟩
    exact {
      ecx := h.ecx
      dh := (high8_low8_append ..).trans h.dh
      al := by
        rw [alAt, hr]
        exact low8_append16 ..
      sp := h.sp
      stack := h.stack
      ds := h.ds
      mem := fun x hx hne => (if_pos hx).trans (h.mem x hx hne)
      asked := hasked }

/-- A call that fails: the next turn, or the end after the sixth. -/
theorem pass_failed (ht : Placed tryCnt) (h : Tried tryCnt replies m j m')
    (hc : m'.mem tryCnt = BitVec.ofNat 8 j) (hj : j < 6)
    (hf : (replies (m.calls.length + j)).Fails) : ∃ m'', Tried tryCnt replies m (j + 1) m'' ∧
      ((j = 5 ∧ read.pass tryCnt replies m' = .leave (.diskError m'')) ∨
      (j < 5 ∧ read.pass tryCnt replies m' = .next m'' ∧
        m''.mem tryCnt = BitVec.ofNat 8 (j + 1))) := by
  obtain ⟨q, hq, hcf, hcnt, hq'⟩ := h.failed ht hf
  let q' := exec [cmp (byte (abs tryCnt)) (imm 5)] q
  have hz : q'.zf = decide (j = 5) := by
    rw [← count_eq_five hj, ← hc, ← hcnt]
    simp [q']
  have hpass : read.pass tryCnt replies m' = if q'.zf then .leave (.diskError q')
      else .next (exec [inc (byte (abs tryCnt))] q') := by
    rw [read.pass, hq, hcf]
    rfl
  rw [hpass, hz]
  by_cases h5 : j = 5
  · exact ⟨q', hq'.still rfl rfl rfl rfl rfl rfl (fun _ _ => rfl) rfl, .inl ⟨h5, if_pos (by simpa)⟩⟩
  · refine ⟨exec [inc (byte (abs tryCnt))] q', ?_, .inr ⟨by omega, if_neg (by simpa), ?_⟩⟩
    · exact hq'.still rfl rfl rfl rfl rfl rfl (fun x hx => by simp [q', hx]) rfl
    · simp [q', hcnt, hc, BitVec.ofNat_add]

variable (tryCnt) in
/-- `read` called in `m` has returned to its caller, after a last call that did `o`. -/
structure Returned (replies : Replies) (m : Machine) (j : Nat) (o : Outcome) (m' : Machine) :
    Prop where
  edx : m'.edx = o.edx
  sp : m'.sp = m.sp
  stack : m'.stack = m.stack
  ds : m'.ds = m.ds
  es : m'.es = 0x07C0
  mem : ∀ x < buffer, x ≠ tryCnt → m'.mem x = m.mem x
  sectors : ∀ x, buffer ≤ x → m'.mem x = o.mem x
  asked : Asked replies m (j + 1) m'

theorem pass_succeeded (ht : Placed tryCnt) (h : Tried tryCnt replies m j m') {o : Outcome}
    (hr : replies (m.calls.length + j) = .succeeded o) : ∃ m'',
      read.pass tryCnt replies m' = .leave (.ret m'') ∧ Returned tryCnt replies m j o m'' := by
  have hlen : (read.try m').calls.length = m.calls.length + j := h.asked.length
  have hasked : Asked replies m (j + 1) (int13 replies (read.try m')) := h.asked_next ht rfl
  have hcall := int13_succeeded (hlen ▸ hr)
  rw [hcall] at hasked
  refine ⟨_, by rw [read.pass, hcall]; rfl, ?_⟩
  exact {
    edx := rfl
    sp := h.sp
    stack := h.stack
    ds := h.ds
    es := by simp [RealMode.int13, read.try]
    mem := fun x hx hne => (if_pos hx).trans (h.mem x hx hne)
    sectors := fun x hx => if_neg (BitVec.not_lt.mpr hx)
    asked := hasked }

/-! ## The loop -/

/-- By induction on the calls that fail. -/
theorem read_turns (ht : Placed tryCnt) (replies : Replies) (m : Machine) {k : Nat} (hk : k < 6)
    (hf : ∀ j < k, (replies (m.calls.length + j)).Fails) : ∃ m',
      read tryCnt replies m = Loop.run (read.pass tryCnt replies) (256 - k) m' ∧
      Tried tryCnt replies m k m' ∧ m'.mem tryCnt = BitVec.ofNat 8 k := by
  induction k with
  | zero => exact ⟨_, rfl, .start replies m, by simp⟩
  | succ k ih =>
    obtain ⟨m₁, hrun, htried, hcnt⟩ := ih (by omega) fun j hj => hf j (by omega)
    obtain ⟨m₂, htried₂, ⟨h5, -⟩ | ⟨-, hpass, hcnt₂⟩⟩ :=
      pass_failed ht htried hcnt (by omega) (hf k (Nat.lt_succ_self k))
    · omega
    · have hfuel : 256 - k = 256 - (k + 1) + 1 := by omega
      refine ⟨m₂, ?_, htried₂, hcnt₂⟩
      rw [hrun, hfuel, Loop.run_next hpass]

/-- The first call that succeeds is the last. -/
theorem read_succeeded (ht : Placed tryCnt) (replies : Replies) (m : Machine) {k : Nat} {o : Outcome}
    (hk : k < 6) (hf : ∀ j < k, (replies (m.calls.length + j)).Fails)
    (hr : replies (m.calls.length + k) = .succeeded o) : ∃ m',
      read tryCnt replies m = some (.ret m') ∧ Returned tryCnt replies m k o m' := by
  obtain ⟨m₁, hrun, htried, -⟩ := read_turns ht replies m hk hf
  obtain ⟨m', hpass, hret⟩ := pass_succeeded ht htried hr
  have hfuel : 256 - k = 255 - k + 1 := by omega
  exact ⟨m', by rw [hrun, hfuel, Loop.run_leave hpass], hret⟩

/-- Six failures are an error. -/
theorem read_failed (ht : Placed tryCnt) (replies : Replies) (m : Machine)
    (hf : ∀ j < 6, (replies (m.calls.length + j)).Fails) : ∃ m',
      read tryCnt replies m = some (.diskError m') ∧ Tried tryCnt replies m 6 m' := by
  obtain ⟨m₁, hrun, htried, hcnt⟩ :=
    read_turns ht replies m (show 5 < 6 by decide) fun j hj => hf j (by omega)
  obtain ⟨m', htried', ⟨-, hpass⟩ | ⟨h5, -⟩⟩ :=
    pass_failed ht htried hcnt (by decide) (hf 5 (by decide))
  · exact ⟨m', by rw [hrun, Loop.run_leave hpass], htried'⟩
  · exact absurd h5 (Nat.lt_irrefl 5)

theorem Reply.eq_of_not_fails {r : Reply} (h : ¬ r.Fails) : ∃ o, r = .succeeded o := by
  cases r with
  | failed => exact absurd trivial h
  | succeeded o => exact ⟨o, rfl⟩

/-- The six first replies: all are failures, or there is a first one that is not. -/
theorem replies_cases (replies : Replies) (n : Nat) : (∀ j < 6, (replies (n + j)).Fails) ∨
    ∃ k < 6, ∃ o, (∀ j < k, (replies (n + j)).Fails) ∧ replies (n + k) = .succeeded o := by
  by_cases h : ∃ k, k < 6 ∧ ¬ (replies (n + k)).Fails
  · classical
    obtain ⟨hk, hn⟩ := Nat.find_spec h
    obtain ⟨o, ho⟩ := Reply.eq_of_not_fails hn
    refine .inr ⟨Nat.find h, hk, o, fun j hj => ?_, ho⟩
    by_contra hj'
    exact Nat.find_min h hj ⟨Nat.lt_trans hj hk, hj'⟩
  · refine .inl fun j hj => ?_
    by_contra hn
    exact h ⟨j, hj, hn⟩

/-! ## The requests -/

/-- What is asked of a `read` called in `m` that ends in `e`. -/
structure Repeats (replies : Replies) (m : Machine) (e : ReadEnd) : Prop where
  atMost : (requests m e.machine).length ≤ 6
  same : ∀ q ∈ requests m e.machine, q = wanted m (al.get m)
  returns : ∀ k < 6, (∀ j < k, (replies (m.calls.length + j)).Fails) →
    ¬ (replies (m.calls.length + k)).Fails →
      (∃ m', e = .ret m') ∧ (requests m e.machine).length = k + 1
  error : (∃ m', e = .diskError m') ↔ ∀ j < 6, (replies (m.calls.length + j)).Fails
  errorAfter : (∃ m', e = .diskError m') → (requests m e.machine).length = 6

theorem turns_length (replies : Replies) (m : Machine) (j : Nat) :
    (turns replies m j).length = j := by
  rw [turns, List.length_map, List.length_range]

/-- The first request of a `read` called in `m`. -/
theorem turns_head {n k : Nat} {calls : List DiskCall} (replies : Replies) (m : Machine)
    (h : (calls.drop n).map request = turns replies m (k + 1)) :
    ∃ call, calls[n]? = some call ∧ request call = wanted m (al.get m) := by
  have h0 : ((calls.drop n).map request)[0]? = some (wanted m (al.get m)) := by
    rw [h, turns]
    simp [alAt]
  rw [List.getElem?_map, List.getElem?_drop, Nat.add_zero] at h0
  exact Option.map_eq_some_iff.mp h0

theorem turns_same (replies : Replies) (m : Machine) (k : Nat) :
    (∀ q ∈ turns replies m (k + 1), q = wanted m (al.get m)) ↔
      ∀ i < k, (replies (m.calls.length + i)).leavesAl = al.get m := by
  have hwanted (a : BitVec 8) : wanted m a = wanted m (al.get m) ↔ a = al.get m := by
    constructor
    · intro h
      have := congrArg (fun q => q.ax.extractLsb' 0 8) h
      simpa only [wanted, BitVec.extractLsb'_append_eq_right] using this
    · intro h
      rw [h]
  simp only [turns, List.forall_mem_map, List.mem_range, hwanted, Nat.forall_lt_succ_left, alAt,
    true_and]

/-- `read` ends after call `k`: it is the first that succeeds, or the sixth failure. -/
theorem read_ends (ht : Placed tryCnt) (replies : Replies) (m : Machine) : ∃ e k,
    read tryCnt replies m = some e ∧ requests m e.machine = turns replies m (k + 1) ∧ k < 6 ∧
    (∀ j < k, (replies (m.calls.length + j)).Fails) ∧
    ((¬ (replies (m.calls.length + k)).Fails ∧ ∃ m', e = .ret m') ∨
      (k = 5 ∧ (replies (m.calls.length + k)).Fails ∧ ∃ m', e = .diskError m')) := by
  obtain hf | ⟨k, hk, o, hf, hr⟩ := replies_cases replies m.calls.length
  · obtain ⟨m', hread, htried⟩ := read_failed ht replies m hf
    exact ⟨_, 5, hread, htried.asked.requests, by decide, fun j hj => hf j (by omega),
      .inr ⟨rfl, hf 5 (by decide), m', rfl⟩⟩
  · obtain ⟨m', hread, hret⟩ := read_succeeded ht replies m hk hf hr
    have hn : ¬ (replies (m.calls.length + k)).Fails := by
      rw [hr]
      exact id
    exact ⟨_, k, hread, hret.asked.requests, hk, hf, .inl ⟨hn, m', rfl⟩⟩

variable (tryCnt) in
/-- `read` counts the calls right, and repeats the request exactly when each call that fails, and is
followed by another, leaves the caller's AL. -/
theorem read_repeats_iff (ht : Placed tryCnt) (replies : Replies) (m : Machine) :
    (∃ e, read tryCnt replies m = some e ∧ Repeats replies m e) ↔
      ∀ k < 5, (∀ j ≤ k, (replies (m.calls.length + j)).Fails) →
        (replies (m.calls.length + k)).leavesAl = al.get m := by
  obtain ⟨e, k, hread, hreq, hk, hf, hend⟩ := read_ends ht replies m
  have hcond : (∀ i < 5, (∀ j ≤ i, (replies (m.calls.length + j)).Fails) →
      (replies (m.calls.length + i)).leavesAl = al.get m) ↔
      ∀ q ∈ requests m e.machine, q = wanted m (al.get m) := by
    rw [hreq, turns_same]
    constructor
    · intro h i hi
      exact h i (by omega) fun j hj => hf j (by omega)
    · intro h i hi hfi
      by_cases hik : i < k
      · exact h i hik
      · obtain ⟨hn, -⟩ | ⟨h5, -⟩ := hend
        · exact absurd (hfi k (by omega)) hn
        · omega
  have hlen : (requests m e.machine).length = k + 1 := by rw [hreq, turns_length]
  rw [hcond]
  constructor
  · intro ⟨e', he, h⟩
    obtain rfl := Option.some.inj (hread.symm.trans he)
    exact h.same
  · intro h
    refine ⟨e, hread, ?_⟩
    obtain ⟨hn, m', rfl⟩ | ⟨rfl, hf5, m', rfl⟩ := hend
    · have hno : ¬ ∃ m'', ReadEnd.ret m' = .diskError m'' := fun ⟨_, he⟩ => by cases he
      refine ⟨by omega, h, fun i _ hfi hni => ⟨⟨m', rfl⟩, ?_⟩, ?_, fun he => absurd he hno⟩
      · obtain hlt | rfl | hlt := Nat.lt_trichotomy i k
        · exact absurd (hf i hlt) hni
        · exact hlen
        · exact absurd (hfi k hlt) hn
      · exact iff_of_false hno fun hall => hn (hall k hk)
    · have hall : ∀ j < 6, (replies (m.calls.length + j)).Fails := Nat.forall_lt_succ_right.mpr ⟨hf, hf5⟩
      exact ⟨by omega, h, fun i hi _ hni => absurd (hall i hi) hni, iff_of_true ⟨m', rfl⟩ hall,
        fun _ => hlen⟩

end

/-! ## A sample -/

/-- A read that succeeds and changes no register. -/
def quietRead (mem : Mem 16) : Reply := .succeeded ⟨0, 0, 0, 0, 0, 0, 0, false, false, false, mem⟩

/-- The first call fails, and says that no sector was transferred; the next ones succeed. -/
def flaky : Replies
  | 0 => .failed 0x0400 false false bootSector
  | _ => quietRead bootSector

theorem placed_sample : Placed 0x180 := ⟨by decide, by decide⟩

theorem read_repeats_iff_quiet :
    (∃ e, read 0x180 (fun _ => quietRead bootSector) (booted bootSector 19) = some e ∧
      Repeats (fun _ => quietRead bootSector) (booted bootSector 19) e) ↔
      ∀ k < 5, (∀ j ≤ k, (quietRead bootSector).Fails) →
        (quietRead bootSector).leavesAl = al.get (booted bootSector 19) :=
  read_repeats_iff 0x180 placed_sample _ _

/-- The second request is for no sectors. -/
theorem flaky_read_asks_for_none :
    ¬ ∃ e, read 0x180 flaky (booted bootSector 19) = some e ∧
      Repeats flaky (booted bootSector 19) e := by
  intro ⟨e, he, h⟩
  have hf : ∀ j < 1, (flaky ((booted bootSector 19).calls.length + j)).Fails := by
    intro j hj
    obtain rfl := Nat.lt_one_iff.mp hj
    trivial
  obtain ⟨m', hread, hret⟩ := read_succeeded placed_sample flaky (booted bootSector 19)
    (show 1 < 6 by decide) hf rfl
  obtain rfl := Option.some.inj (hread.symm.trans he)
  have hsame := h.same
  rw [show requests (booted bootSector 19) (ReadEnd.ret m').machine = _ from hret.asked.requests,
    turns_same] at hsame
  exact absurd (hsame 0 Nat.one_pos) (by decide)

end Stage1
end Amethyst
