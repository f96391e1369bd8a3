import Amethyst.Installer.FatPath
import Mathlib.Data.List.TakeWhile

/-!
# Amethyst.Installer.FatWalk

What a lookup leaves behind. `EntryExit` and `LookupExit` name the ways out of `fat12_read_entry` and of
a pass of the lookup; `entryExit` and `passExit` are the tests that lead there, and `entryOutcome` and
`passOutcome` say what the code does on each.
-/

namespace Amethyst
namespace Installer

/-- The block is live beside those of `base`. -/
structure Owns (lo hi : Nat) (base : Set Chunk) (c : Chunk) (w : World) : Prop where
  inv : w.state.heap.Inv lo hi
  fresh : c ∉ base
  live : w.live = insert c base

theorem Owns.mem {lo hi : Nat} {base : Set Chunk} {c : Chunk} {w : World} (h : Owns lo hi base c w) :
    c ∈ w.live := h.live ▸ Set.mem_insert c base

theorem World.live_of_state {w w' : World} (h : w'.state = w.state) : w'.live = w.live :=
  congrArg (fun s => s.heap.live) h

theorem Owns.setErr {lo hi : Nat} {base : Set Chunk} {c : Chunk} {w : World} (h : Owns lo hi base c w)
    (e : Err) : Owns lo hi base c (w.setErr e) := ⟨h.inv, h.fresh, h.live⟩

/-- Of two new blocks either is beside the other. -/
theorem Owns.comm {lo hi : Nat} {base : Set Chunk} {c d : Chunk} {w : World}
    (h : Owns lo hi (insert c base) d w) (hc : c ∉ base) : Owns lo hi (insert d base) c w ∧ d ∉ base := by
  have hd := h.fresh
  rw [Set.mem_insert_iff, not_or] at hd
  refine ⟨⟨h.inv, fun hmem => ?_, h.live.trans (Set.insert_comm d c base)⟩, hd.2⟩
  cases hmem with
  | inl he => exact hd.1 he.symm
  | inr hmem => exact hc hmem

theorem Owns.freed {lo hi : Nat} {base : Set Chunk} {c : Chunk} {w w' : World} (h : Owns lo hi base c w)
    (hf : Freed lo hi w c w') : w'.live = base := by
  rw [hf.live, h.live, Set.insert_sdiff_self_of_notMem h.fresh]

theorem Granted.owns {lo hi : Nat} {w w₁ w' : World} {c : Chunk} (h : Granted lo hi w c w₁)
    (hstate : w'.state = w₁.state) : Owns lo hi w.live c w' where
  inv := by
    rw [hstate]
    exact h.inv
  fresh := h.fresh
  live := by rw [World.live_of_state hstate, h.live]

/-! ## The exits of `fat12_read_entry` -/

inductive EntryExit where
  | badCluster
  | stopped
  | endless
  | refused
  | errorSet
  | unreadable
  | read
deriving DecidableEq, Repr

def entryExit (dr : DiskRead) (disk : DiskPtr) (fats : Word) (start : Cluster) (w : World) : EntryExit :=
  if 0xFF8 ≤ start then .badCluster
  else if (disk w.mem).info.bytesPerSector = 0 then .stopped
  else
    match countClusters (disk w.mem).fat12 fats clusterValues start 0 w with
    | none => .endless
    | some (clusters, w₀) =>
      let (output, w₁) := w₀.malloc ((disk w.mem).fat12.info.entrySize clusters)
      if output = 0 then .refused
      else if w₁.state.err ≠ .no then .errorSet
      else
        let (status, w₂) := readCluster dr (disk w.mem).fat12 output start w₁
        if status ≠ 0 then .unreadable
        -- the last `fat12_next_cluster` divides by what the read has left in the field
        else if (disk w₂.mem).info.bytesPerSector = 0 then .stopped
        else .read

/-- What `fat12_read_entry` returns on each of them, and the world it leaves. -/
inductive EntryOutcome (lo hi : Nat) (dr : DiskRead) (disk : DiskPtr) (fats : Word) (start : Cluster)
    (pOutput : Word) (w : World) : EntryExit → Option (Word × World) → Prop where
  | badCluster (h : 0xFF8 ≤ start) :
      EntryOutcome lo hi dr disk fats start pOutput w .badCluster (some (pOutput, w.setErr .invarg))
  | stopped (h : start < 0xFF8) :
      EntryOutcome lo hi dr disk fats start pOutput w .stopped none
  | endless (h : start < 0xFF8) (hendless : ¬ Acyclic (disk w.mem).fat12.info fats w.mem start) :
      EntryOutcome lo hi dr disk fats start pOutput w .endless none
  | refused {w' : World} (h : start < 0xFF8) (hrefused : Refused lo hi w w') :
      EntryOutcome lo hi dr disk fats start pOutput w .refused (some (0, w'))
  | errorSet {output size : Word} {w' : World} (h : start < 0xFF8)
      (hgranted : Granted lo hi w ⟨output, size⟩ w') (hset : w.state.err ≠ .no) :
      EntryOutcome lo hi dr disk fats start pOutput w .errorSet (some (output, w'))
  | unreadable {output : Word} {w' : World} (h : start < 0xFF8) (hno : w.state.err = .no)
      (hinv : w'.state.heap.Inv lo hi) (hlive : w'.live = w.live) (hio : w'.state.err = .io)
      (hne : output ≠ 0) :
      EntryOutcome lo hi dr disk fats start pOutput w .unreadable (some (output, w'))
  | read {output : Word} {w₁ w' : World} {n : Nat} (h : start < 0xFF8) (hno : w.state.err = .no)
      (hend : EndsAfter (disk w.mem).fat12.info fats w.mem start n)
      (hgranted : Granted lo hi w ⟨output, (disk w.mem).fat12.info.entrySize (BitVec.ofNat 32 n)⟩ w₁)
      (hread : readCluster dr (disk w.mem).fat12 output start w₁ = (0, w')) (hstate : w'.state = w₁.state)
      (hblock : w.malloc ((disk w.mem).fat12.info.entrySize (BitVec.ofNat 32 n)) = (output, w₁)) :
      EntryOutcome lo hi dr disk fats start pOutput w .read (some (output, w'))

section

variable {lo hi : Nat} (hlo : 0 < lo) (hhi : hi < 2 ^ 32) {dr : DiskRead} (hk : Keeps lo hi dr)
include hlo hhi hk

/-- A read to a live block leaves the allocator and `_err` alone. -/
theorem diskRead_live {w : World} (hinv : w.state.heap.Inv lo hi) {c : Chunk} (hc : c ∈ w.live)
    (drive : BitVec 8) (count : BitVec 16) (lba : BitVec 64) :
    (w.diskRead dr drive c.start count lba).2.state = w.state := by
  obtain ⟨h1, h2⟩ := Heap.Inv.inside hinv hc
  have hpos := (Heap.Inv.real hlo hhi hinv hc).size_pos
  exact hk _ _ _ _ _ h1 (by omega)

/-- The read to a block that has just been taken. -/
theorem readCluster_state {w w₁ : World} {output size : Word} (hg : Granted lo hi w ⟨output, size⟩ w₁)
    (disk : Disk) (start : Cluster) :
    (readCluster dr disk output start w₁).2.state = w₁.state :=
  diskRead_live hlo hhi hk hg.inv (c := ⟨output, size⟩) (hg.live ▸ Set.mem_insert _ _) _ _ _

theorem entryOutcome {w : World} (hinv : w.state.heap.Inv lo hi) (disk : DiskPtr) {fats : Word}
    (hfats : fats ≠ 0) (start : Cluster) (pOutput : Word) :
    EntryOutcome lo hi dr disk fats start pOutput w (entryExit dr disk fats start w)
      (disk.fat12ReadEntry dr pOutput fats start w) := by
  by_cases hbad : 0xFF8 ≤ start
  · simp only [entryExit, if_pos hbad, DiskPtr.fat12ReadEntry_guarded (Or.inr hbad)]
    exact .badCluster hbad
  have hlt := BitVec.not_le.mp hbad
  have hguard : ¬ (fats = 0 ∨ 0xFF8 ≤ start) := fun h => h.elim hfats hbad
  simp only [entryExit, if_neg hbad]
  by_cases hzero : (disk w.mem).info.bytesPerSector = 0
  · rw [if_pos hzero, DiskPtr.fat12ReadEntry_stopped hguard hzero]
    exact .stopped hlt
  rw [if_neg hzero]
  cases hcount : countClusters (disk w.mem).fat12 fats clusterValues start 0 w with
  | none =>
    rw [DiskPtr.fat12ReadEntry_endless hguard hzero hcount]
    refine .endless hlt fun hac => ?_
    obtain ⟨n, hn, hend⟩ := hac.endsAfter
    rw [countClusters_spec hfats n start 0 clusterValues hend (Nat.lt_of_le_of_lt hn (by decide))]
      at hcount
    cases hcount
  | some r =>
    obtain ⟨clusters, w₀⟩ := r
    obtain ⟨n, hend, rfl, rfl⟩ := countClusters_some hfats hcount
    simp only []
    rcases World.malloc_spec hlo hhi hinv ((disk w₀.mem).fat12.info.entrySize (BitVec.ofNat 32 n)) with
      ⟨w₁, e, hrefused⟩ | ⟨output, w₁, e, hg⟩
    · rw [DiskPtr.fat12ReadEntry_counted hguard hzero rfl hcount e, if_pos hrefused.err]
      simp only [e, if_true]
      exact .refused hlt hrefused
    · have hne := hg.ne_zero
      rw [DiskPtr.fat12ReadEntry_counted hguard hzero rfl hcount e]
      simp only [e, if_neg hne]
      by_cases hno : w₀.state.err = .no
      · have hset : ¬ w₁.state.err ≠ .no := not_not.mpr (hg.err.trans hno)
        have hstate := readCluster_state hlo hhi hk hg (disk w₀.mem).fat12 start
        simp only [if_neg hset]
        obtain ⟨⟨status, w₂⟩, e₂⟩ : ∃ r, readCluster dr (disk w₀.mem).fat12 output start w₁ = r := ⟨_, rfl⟩
        rw [e₂] at hstate
        simp only [e₂]
        by_cases hs : status = 0
        · subst hs
          rw [if_neg (not_not.mpr rfl), if_neg (not_not.mpr rfl)]
          by_cases hlast : (disk w₂.mem).info.bytesPerSector = 0
          · rw [if_pos hlast, if_pos hlast]
            exact .stopped hlt
          · rw [if_neg hlast, if_neg hlast]
            exact .read hlt hno hend hg e₂ hstate e
        · have howns := hg.owns hstate
          obtain ⟨w₃, e₃, hfreed⟩ := World.free_spec hlo hhi howns.inv howns.mem
          simp only [if_pos hs, e₃, Option.map_some]
          refine .unreadable hlt hno hfreed.inv ?_ rfl hne
          rw [World.setErr_live, howns.freed hfreed]
      · have hset : w₁.state.err ≠ .no := fun h => hno (hg.err.symm.trans h)
        simp only [if_pos hset]
        exact .errorSet hlt hg hno

end

/-! ## The exits of a pass -/

/-- The ways out of a lookup. A pass leaves by one of the last six; on `entry .read` it goes round. -/
inductive LookupExit where
  | noFats
  | stopped
  | noRoot
  | noName
  | endless
  | missing
  | notADir
  | entry (e : EntryExit)
  | found
deriving DecidableEq, Repr

def passExit (dr : DiskRead) (garbage : Word) (disk : DiskPtr) (fats : Word) (p : Position) : LookupExit :=
  let (token, next, w) := fat12FilenameTokenize p.current p.world
  if w.state.err ≠ .no then .noName
  else
    match fat12FindEntry garbage p.entries token w with
    | .lost _ => .endless
    | .done it w =>
      if w.state.err ≠ .no then .missing
      else
        match next with
        | none => .found
        | some _ =>
          if !isSubdirectory w.mem it then .notADir
          else
            match w.free p.entries with
            | none => .endless
            | some w' => .entry (entryExit dr disk fats (firstCluster w.mem it) w')

/-- The exits on which a directory block stays live: `entries` is not freed when the rest of the path
is empty, and `fat12_read_entry` has taken a block when it sees that `free(entries)` set `_err`. -/
def LookupExit.Leaks (e : LookupExit) : Prop := e = .noName ∨ e = .entry .errorSet

instance (e : LookupExit) : Decidable e.Leaks := inferInstanceAs (Decidable (_ ∨ _))

/-- The exits that are none: the scan of a directory or the count of a chain does not end, or a division
by zero stops the call. -/
def LookupExit.Endless (e : LookupExit) : Prop :=
  e = .endless ∨ e = .entry .endless ∨ e = .stopped ∨ e = .entry .stopped

theorem entry_endless_iff {e : EntryExit} :
    (LookupExit.entry e).Endless ↔ e = .endless ∨ e = .stopped := by
  simp [LookupExit.Endless]

/-- At the head of a pass one block beside those of `base` is live, the directory. -/
structure At (lo hi : Nat) (base : Set Chunk) (p : Position) : Prop where
  err : p.world.state.err = .no
  owns : ∃ size, Owns lo hi base ⟨p.entries, size⟩ p.world

/-- What the lookup leaves by an exit. -/
structure Left (lo hi : Nat) (base : Set Chunk) (e : LookupExit) (w' : World) : Prop where
  inv : w'.state.heap.Inv lo hi
  live : ¬ e.Leaks → w'.live = base
  leak : e.Leaks → ∃ c ∉ base, w'.live = insert c base
  no : w'.state.err = .no → e = .found
  io : w'.state.err = .io ↔ e = .entry .unreadable

/-- The directory is scanned to its entry, to an end or for ever, and nothing else changes. By
induction on the slots. -/
theorem findEntryLoop_cases (pEntry : Word) (name : List Byte) {w : World} (hno : w.state.err = .no) :
    ∀ (n : Nat) (dir : Word), findEntryLoop pEntry name n dir w = .lost w ∨
      (∃ e, e ≠ .no ∧ e ≠ .io ∧ findEntryLoop pEntry name n dir w = .done pEntry (w.setErr e)) ∨
      ∃ it, findEntryLoop pEntry name n dir w = .done it w := by
  intro n
  induction n with
  | zero => exact fun _ => .inl rfl
  | succ n ih =>
    intro dir
    by_cases hend : w.mem dir = 0
    · rw [findEntryLoop, if_pos hend]
      exact .inr (.inl ⟨.notfound, by simp, by simp, rfl⟩)
    by_cases hdel : (w.mem dir).signExtend 32 = (0xE5 : Word)
    · rw [findEntryLoop, if_neg hend, if_pos hdel]
      exact ih _
    by_cases hzero : dir = 0
    · subst hzero
      refine .inr (.inl ⟨.invarg, by simp, by simp, ?_⟩)
      rw [findEntryLoop, if_neg hend, if_neg hdel]
      simp [fat12ClusterfilenameToFilename]
    · rw [findEntryLoop, if_neg hend, if_neg hdel]
      simp only [fat12ClusterfilenameToFilename, if_neg hzero, hno, ne_eq, not_true_eq_false, if_false]
      split
      · exact .inr (.inr ⟨dir, rfl⟩)
      · exact ih _

theorem fat12FindEntry_cases (pEntry : Word) {dir : Word} (hdir : dir ≠ 0) (name : List Byte) {w : World}
    (hno : w.state.err = .no) : fat12FindEntry pEntry dir name w = .lost w ∨
      (∃ e, e ≠ .no ∧ e ≠ .io ∧ fat12FindEntry pEntry dir name w = .done pEntry (w.setErr e)) ∨
      ∃ it, fat12FindEntry pEntry dir name w = .done it w := by
  simp only [fat12FindEntry, if_neg hdir]
  exact findEntryLoop_cases pEntry name hno addressSlots dir

theorem length_next {filename current token : List Byte} {w w' : World}
    (h : fat12FilenameTokenize filename w = (token, some current, w')) :
    current.length < filename.length := by
  simp only [fat12FilenameTokenize] at h
  split at h
  · cases h
  · injection h with _ h
    injection h with h _
    have hle := List.length_dropWhile_le (· ≠ (0x2F : Byte)) filename
    cases hd : filename.dropWhile (· ≠ 0x2F) with
    | nil =>
      rw [hd] at h
      cases h
    | cons c l =>
      rw [hd] at h hle
      cases h
      exact hle

section

variable {lo hi : Nat} (hlo : 0 < lo) (hhi : hi < 2 ^ 32)
include hlo hhi

/-- `free` of the block leaves the others. -/
theorem Owns.free {base : Set Chunk} {c : Chunk} {w : World} (h : Owns lo hi base c w) :
    ∃ w', w.free c.start = some w' ∧ w'.state.heap.Inv lo hi ∧ w'.live = base ∧ w'.mem = w.mem ∧
      (w'.state.err = .internal ∨ w'.state.err = w.state.err) := by
  obtain ⟨w', hfree, hf⟩ := World.free_spec hlo hhi h.inv h.mem
  refine ⟨w', hfree, hf.inv, h.freed hf, hf.mem, ?_⟩
  by_cases hplace : w.state.heap.NoPlace c
  · exact .inl (hf.noPlace hplace)
  · exact .inr (hf.place hplace)

/-- `fat12_find_failure` frees the directory and leaves an error set. -/
theorem fat12FindFailure_left {w : World} {entries size : Word} {base : Set Chunk}
    (h : Owns lo hi base ⟨entries, size⟩ w) (hno : w.state.err ≠ .no) (hio : w.state.err ≠ .io)
    (pEntry : Word) {e : LookupExit} (hleak : ¬ e.Leaks) (hread : e ≠ .entry .unreadable) :
    ∃ w', fat12FindFailure pEntry entries w = .done pEntry w' ∧
      Left lo hi base e w' := by
  obtain ⟨w', hfree, hinv', hlive', -, herr⟩ := h.free hlo hhi
  refine ⟨w', by simp only [fat12FindFailure, hfree], hinv', fun _ => hlive', fun h => absurd h hleak,
    fun h => ?_, ⟨fun h => ?_, fun h => absurd h hread⟩⟩
  · cases herr with
    | inl hi => simp [hi] at h
    | inr he => exact absurd (he.symm.trans h) hno
  · cases herr with
    | inl hi => simp [hi] at h
    | inr he => exact absurd (he.symm.trans h) hio

variable {dr : DiskRead} (hk : Keeps lo hi dr) {fats : Word} (hfats : fats ≠ 0)
include hk hfats

/-- The next directory, after the one before it is freed: the call does not return, or it is read, or the
lookup leaves. -/
theorem nextDirectory_cases {base : Set Chunk} {w : World} (hinv : w.state.heap.Inv lo hi)
    (hlive : w.live = base) (herr : w.state.err = .internal ∨ w.state.err = .no) (disk : DiskPtr)
    (start : Cluster) (pOutput : Word) :
    (disk.fat12ReadEntry dr pOutput fats start w = none ∧
        (LookupExit.entry (entryExit dr disk fats start w)).Endless) ∨
      (∃ output w' n, disk.fat12ReadEntry dr pOutput fats start w =
          some (output, w') ∧ w'.state.err = .no ∧ Owns lo hi base ⟨output, n⟩ w') ∨
      ∃ output w', disk.fat12ReadEntry dr pOutput fats start w =
          some (output, w') ∧ w'.state.err ≠ .no ∧
        Left lo hi base (.entry (entryExit dr disk fats start w)) w' := by
  have hout := entryOutcome hlo hhi hk hinv disk hfats start pOutput
  generalize entryExit dr disk fats start w = e at hout ⊢
  generalize disk.fat12ReadEntry dr pOutput fats start w = r at hout ⊢
  have hnoleak : ∀ {e : EntryExit}, e ≠ .errorSet → ¬ (LookupExit.entry e).Leaks := by
    intro e he h
    cases h with
    | inl h => cases h
    | inr h => exact he (LookupExit.entry.inj h)
  cases hout with
  | badCluster h =>
    exact .inr (.inr ⟨_, _, rfl, by simp, hinv, fun _ => hlive, fun h => absurd h (hnoleak (by simp)),
      by simp, by simp⟩)
  | stopped h => exact .inl ⟨rfl, entry_endless_iff.mpr (.inr rfl)⟩
  | endless h hendless => exact .inl ⟨rfl, entry_endless_iff.mpr (.inl rfl)⟩
  | refused h hrefused =>
    exact .inr (.inr ⟨_, _, rfl, hrefused.err, hrefused.inv, fun _ => hrefused.live.trans hlive,
      fun h => absurd h (hnoleak (by simp)), fun h => absurd h hrefused.err,
      ⟨fun h => absurd h hrefused.notIo, by simp⟩⟩)
  | @errorSet output size w' h hgranted hset =>
    have herr' : w'.state.err = .internal := hgranted.err.trans (herr.resolve_right hset)
    refine .inr (.inr ⟨output, w', rfl, by simp [herr'], hgranted.inv, fun h => absurd (.inr rfl) h,
      fun _ => ⟨_, hlive ▸ hgranted.fresh, ?_⟩, by simp [herr'], by simp [herr']⟩)
    rw [hgranted.live, hlive]
  | unreadable h hno hinv' hlive' hio hne =>
    exact .inr (.inr ⟨_, _, rfl, by simp [hio], hinv', fun _ => hlive'.trans hlive,
      fun h => absurd h (hnoleak (by simp)), by simp [hio], by simp [hio]⟩)
  | @read output w₁ w' n h hno hend hgranted hread hstate =>
    have hnext := hgranted.owns hstate
    rw [hlive] at hnext
    exact .inr (.inl ⟨output, w', _, rfl, by rw [hstate, hgranted.err, hno], hnext⟩)

variable {disk : DiskPtr}

/-- One pass goes round with the next directory, or leaves. One case for each exit. -/
theorem passOutcome (garbage pEntry : Word) {base : Set Chunk} {p : Position} (hp : At lo hi base p) :
    (∃ q, lookupPass dr garbage pEntry disk fats p = .next q ∧ At lo hi base q ∧
        q.current.length < p.current.length) ∨
      (∃ w', lookupPass dr garbage pEntry disk fats p = .leave (.lost w') ∧
        (passExit dr garbage disk fats p).Endless) ∨
      ∃ it w', lookupPass dr garbage pEntry disk fats p = .leave (.done it w') ∧
        Left lo hi base (passExit dr garbage disk fats p) w' := by
  obtain ⟨entries, current, w⟩ := p
  obtain ⟨hno, size, howns⟩ := hp
  simp only at hno howns
  have hne : entries ≠ 0 := Heap.Inv.start_ne_zero hlo hhi howns.inv howns.mem
  by_cases hname : current = []
  · refine .inr (.inr ⟨pEntry, w.setErr .invarg, ?_, ?_⟩)
    · simp [lookupPass, fat12FilenameTokenize, hname]
    · have he : passExit dr garbage disk fats ⟨entries, current, w⟩ = .noName := by
        simp [passExit, fat12FilenameTokenize, hname]
      rw [he]
      exact ⟨howns.inv, fun h => absurd (.inl rfl) h, fun _ => ⟨_, howns.fresh, howns.live⟩, by simp,
        by simp⟩
  obtain ⟨token, next, htok⟩ : ∃ token next, fat12FilenameTokenize current w = (token, next, w) := by
    simp only [fat12FilenameTokenize, if_neg hname]
    exact ⟨_, _, rfl⟩
  have hset : ¬ w.state.err ≠ .no := not_not.mpr hno
  simp only [lookupPass, passExit, htok, if_neg hset]
  rcases fat12FindEntry_cases garbage hne token hno with hf | ⟨e, hne', hio', hf⟩ | ⟨it, hf⟩
  · simp only [hf]
    exact .inr (.inl ⟨w, rfl, .inl rfl⟩)
  · have hset' : (w.setErr e).state.err ≠ .no := hne'
    simp only [hf, if_pos hset']
    obtain ⟨w', hff, hl⟩ := fat12FindFailure_left hlo hhi (e := .missing)
      ((howns.setErr e).setErr .notfound) (by simp) (by simp) pEntry (by decide) (by simp)
    exact .inr (.inr ⟨pEntry, w', congrArg Pass.leave hff, hl⟩)
  simp only [hf, if_neg hset]
  cases next with
  | none =>
    obtain ⟨w', hfree, hinv', hlive', -, herr⟩ := howns.free hlo hhi
    simp only [hfree]
    refine .inr (.inr ⟨it, w', rfl, hinv', fun _ => hlive', fun h => absurd h (by decide), fun _ => rfl,
      ⟨fun h => ?_, by simp⟩⟩)
    cases herr with
    | inl hi => simp [hi] at h
    | inr he => simp [he, hno] at h
  | some current' =>
    simp only
    by_cases hdir : isSubdirectory w.mem it
    · simp only [hdir, Bool.not_true, Bool.false_eq_true, if_false]
      obtain ⟨w₁, hfree, hinv₁, hlive₁, hmem₁, herr₁⟩ := howns.free hlo hhi
      simp only [hfree]
      have herr : w₁.state.err = .internal ∨ w₁.state.err = .no := herr₁.imp_right fun h => h.trans hno
      rcases nextDirectory_cases hlo hhi hk hfats hinv₁ hlive₁ herr disk
        (firstCluster w.mem it) entries with ⟨hr, he⟩ | ⟨output, w', n, hr, hok, hnext⟩ |
          ⟨output, w', hr, hbad, hleft⟩
      · simp only [hr]
        exact .inr (.inl ⟨w₁, rfl, he⟩)
      · simp only [hr, if_neg (not_not.mpr hok)]
        exact .inl ⟨_, rfl, ⟨hok, n, hnext⟩, length_next htok⟩
      · simp only [hr, if_pos hbad]
        exact .inr (.inr ⟨pEntry, w', rfl, hleft⟩)
    · simp only [hdir, Bool.not_false, if_true]
      obtain ⟨w', hff, hl⟩ := fat12FindFailure_left hlo hhi (e := .notADir)
        (howns.setErr .notadir) (by simp) (by simp) pEntry (by decide) (by simp)
      exact .inr (.inr ⟨pEntry, w', congrArg Pass.leave hff, hl⟩)

theorem lookupPass_next (garbage pEntry : Word) {base : Set Chunk} (p q : Position)
    (hp : At lo hi base p) (hq : lookupPass dr garbage pEntry disk fats p = .next q) :
    At lo hi base q ∧ q.current.length < p.current.length := by
  rcases passOutcome hlo hhi hk hfats garbage pEntry hp with ⟨q', hq', h⟩ | ⟨w', hw, -⟩ | ⟨it, w', hw, -⟩
  · rw [hq] at hq'
    cases hq'
    exact h
  · rw [hq] at hw
    cases hw
  · rw [hq] at hw
    cases hw

end

/-! ## The whole lookup -/

/-- The position before the first pass, if the root directory could be read. -/
def lookupStart (dr : DiskRead) (garbage : Word) (disk : DiskPtr) (filename : List Byte) (w : World) :
    Option Position :=
  match disk.fat12ReadRootDirectory dr garbage w with
  | none => none
  | some (entries, w) =>
    if w.state.err ≠ .no then none else some ⟨entries.getD garbage, skipSlash filename, w⟩

/-- The position before the pass that leaves. -/
def lookupEnd (dr : DiskRead) (garbage : Word) (disk : DiskPtr) (fats : Word) (p : Position) : Position :=
  Loop.last (lookupPass dr garbage garbage disk fats) (p.current.length + 1) p

def lookupExit (dr : DiskRead) (garbage : Word) (disk : DiskPtr) (fats : Word) (filename : List Byte)
    (w : World) : LookupExit :=
  if (disk w.mem).info.bytesPerSector = 0 then .stopped
  else
    match lookupStart dr garbage disk filename w with
    | none => .noRoot
    | some p => passExit dr garbage disk fats (lookupEnd dr garbage disk fats p)

section

variable {lo hi : Nat} (hlo : 0 < lo) (hhi : hi < 2 ^ 32) {dr : DiskRead} (hk : Keeps lo hi dr)
  {w : World} (hinv : w.state.heap.Inv lo hi) (hno : w.state.err = .no) (disk : Disk) (garbage : Word)
include hlo hhi hk hinv hno

/-- A buffer is refused, or it is granted and read to. -/
theorem fat12ReadFats_cases :
    (∃ w', fat12ReadFats dr (some disk) w = (0, w') ∧ Refused lo hi w w') ∨
      ∃ fats size w', fat12ReadFats dr (some disk) w = (fats, w') ∧
        Owns lo hi w.live ⟨fats, size⟩ w' ∧ w'.state.err = .no := by
  obtain ⟨size, hsize⟩ : ∃ size, disk.info.bytesPerSector.setWidth 32 *
    disk.info.sectorPerFat.setWidth 32 * disk.info.fatCount.setWidth 32 = size := ⟨_, rfl⟩
  simp only [fat12ReadFats, hsize]
  rcases World.malloc_spec hlo hhi hinv size with ⟨w', e, hr⟩ | ⟨fats, w₁, e, hg⟩
  · simp only [e, if_true]
    exact .inl ⟨w', rfl, hr⟩
  · simp only [e, if_neg hg.ne_zero]
    have hstate := diskRead_live hlo hhi hk hg.inv (hg.live ▸ Set.mem_insert _ _) disk.id
      ((disk.info.sectorPerFat.setWidth 32 * disk.info.fatCount.setWidth 32 : Word).setWidth 16) 1
    exact .inr ⟨fats, size, _, rfl, hg.owns hstate, by rw [hstate, hg.err, hno]⟩

/-- The root directory is what one `malloc` returns, read to if that is a block. -/
theorem fat12ReadRootDirectory_malloc : ∃ size output w₁, w.malloc size = (output, w₁) ∧
    (output = 0 ∧ Refused lo hi w w₁ ∧
        fat12ReadRootDirectory dr (some garbage) (some disk) w = some (some 0, w₁) ∨
      Granted lo hi w ⟨output, size⟩ w₁ ∧ ∃ w', w'.state = w₁.state ∧
        fat12ReadRootDirectory dr (some garbage) (some disk) w = some (some output, w')) := by
  obtain ⟨n, hn⟩ : ∃ n : BitVec 64, (32 * disk.info.maxRootEntryCount.setWidth 32 /
    disk.info.bytesPerSector.setWidth 32 : Word).setWidth 64 = n := ⟨_, rfl⟩
  refine ⟨(n * disk.info.bytesPerSector.setWidth 64).setWidth 32, ?_⟩
  simp only [fat12ReadRootDirectory, hn]
  rcases World.malloc_spec hlo hhi hinv ((n * disk.info.bytesPerSector.setWidth 64).setWidth 32) with
    ⟨w', e, hr⟩ | ⟨entries, w₁, e, hg⟩
  · simp only [e, if_true]
    exact ⟨0, w', rfl, .inl ⟨rfl, hr, rfl⟩⟩
  · simp only [e, if_neg hg.ne_zero]
    obtain ⟨lba, hlba⟩ : ∃ lba : BitVec 64, (disk.info.sectorPerFat.setWidth 32 *
      disk.info.fatCount.setWidth 32 + disk.info.reservedSectorCount.setWidth 32 : Word).setWidth 64 * 0
        + 0x13 = lba := ⟨_, rfl⟩
    have hstate := diskRead_live hlo hhi hk hg.inv (hg.live ▸ Set.mem_insert _ _) disk.id
      (n.setWidth 16) lba
    have herr : (w₁.diskRead dr disk.id entries (n.setWidth 16) lba).2.state.err = .no := by
      rw [hstate, hg.err, hno]
    refine ⟨entries, w₁, rfl, .inr ⟨hg, _, hstate, ?_⟩⟩
    simp only [hlba, herr, ne_eq, not_true_eq_false, if_false]

theorem fat12ReadRootDirectory_cases :
    (∃ w', fat12ReadRootDirectory dr (some garbage) (some disk) w = some (some 0, w') ∧
        Refused lo hi w w') ∨
      ∃ entries size w', fat12ReadRootDirectory dr (some garbage) (some disk) w =
          some (some entries, w') ∧ Owns lo hi w.live ⟨entries, size⟩ w' ∧ w'.state.err = .no := by
  obtain ⟨size, output, w₁, -, ⟨-, hr, hroot⟩ | ⟨hg, w', hstate, hroot⟩⟩ :=
    fat12ReadRootDirectory_malloc hlo hhi hk hinv hno disk garbage
  · exact .inl ⟨w₁, hroot, hr⟩
  · exact .inr ⟨output, size, w', hroot, hg.owns hstate, by rw [hstate, hg.err, hno]⟩

/-- The lookup does not return, or leaves by its exit. -/
theorem fat12GetEntryOfFilename_cases (disk : DiskPtr) {fats : Word} (hfats : fats ≠ 0)
    (filename : List Byte) :
    (∃ w', fat12GetEntryOfFilename dr garbage garbage (some disk) fats (some filename) w = .lost w' ∧
        (lookupExit dr garbage disk fats filename w).Endless) ∨
      ∃ it w', fat12GetEntryOfFilename dr garbage garbage (some disk) fats (some filename) w =
          .done it w' ∧
        Left lo hi w.live (lookupExit dr garbage disk fats filename w) w' := by
  simp only [fat12GetEntryOfFilename, lookupExit, lookupStart]
  by_cases hzero : (disk w.mem).info.bytesPerSector = 0
  · simp only [DiskPtr.fat12ReadRootDirectory_stopped hzero, if_pos hzero]
    exact .inl ⟨w, rfl, .inr (.inr (.inl rfl))⟩
  simp only [DiskPtr.fat12ReadRootDirectory_ok hzero, if_neg hzero]
  rcases fat12ReadRootDirectory_cases hlo hhi hk hinv hno (disk w.mem).fat12 garbage with
    ⟨w', e, hr⟩ | ⟨entries, size, w', e, howns, hno'⟩
  · simp only [e, if_pos hr.err]
    exact .inr ⟨garbage, w', rfl, hr.inv, fun _ => hr.live, fun h => absurd h (by decide),
      fun h => absurd h hr.err, ⟨fun h => absurd h hr.notIo, by simp⟩⟩
  · simp only [e, if_neg (not_not.mpr hno'), Option.getD_some]
    obtain ⟨p, hp⟩ : ∃ p : Position, (⟨entries, skipSlash filename, w'⟩ : Position) = p := ⟨_, rfl⟩
    have hat : At lo hi w.live p := hp ▸ ⟨hno', size, howns⟩
    have hlen : (skipSlash filename).length = p.current.length := hp ▸ rfl
    simp only [hp, hlen]
    obtain ⟨hlast, r, hleave, hrun⟩ := Loop.leaves (fun p => p.current.length)
      (lookupPass_next hlo hhi hk hfats garbage garbage) (p.current.length + 1) p hat
      (Nat.lt_succ_self _)
    rw [hrun]
    rcases passOutcome hlo hhi hk hfats garbage garbage hlast with
      ⟨q, hq, -⟩ | ⟨w'', hw, hend⟩ | ⟨it, w'', hw, hleft⟩
    · rw [hleave] at hq
      cases hq
    · rw [hleave] at hw
      cases hw
      exact .inl ⟨w'', rfl, hend⟩
    · rw [hleave] at hw
      cases hw
      exact .inr ⟨it, w'', rfl, hleft⟩

end

end Installer
end Amethyst
