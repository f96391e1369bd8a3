import Amethyst.Installer.Loading

/-!
# Amethyst.Installer.PathDescent

What a path means. `resolve` goes down its components by recursion, from the directory in which the
first one is looked up, and `Descends` is the way that it has gone.

* `lookup_resolves`: the loop of `fat12_get_entry_of_filename`, which cuts the path and replaces the
  directory as it goes, gives what the recursion gives.
* `fat12GetEntryOfFilename_descends`: the slot it returns, and where it stops with `_ERR_NOTFOUND` and
  with `_ERR_NOTADIR`. No `free` on the way can fail: the directory that is given back is the last block
  that was taken (`Heap.malloc_place`).
-/

namespace Amethyst
namespace Installer

/-! ## The meaning of a path -/

/-- The names between the slashes, without the leading one. -/
def components (filename : List Byte) : List (List Byte) := (skipSlash filename).splitOn 0x2F

/-- What a path stands for: a slot, with the memory it is in, or nothing. `stuck` if an allocation or a
read fails, a chain or a scan has no end, or a division by zero stops a read. -/
inductive Resolved where
  | slot (it : Word) (m : Mem 32)
  | missing
  | notADir
  | stuck

/-- The directory of the slot `it` is read, in the place of the one that `it` is in. -/
def subdirectory (dr : DiskRead) (disk : DiskPtr) (fats entries it : Word) (w : World) :
    Option (Word × World) :=
  match w.free entries with
  | none => none
  | some w' =>
    match disk.fat12ReadEntry dr entries fats (firstCluster w.mem it) w' with
    | none => none
    | some (output, w'') => if w''.state.err = .no then some (output, w'') else none

/-- Look the name up, and the rest of the path in its directory. -/
def resolve (dr : DiskRead) (garbage : Word) (disk : DiskPtr) (fats : Word) (name : List Byte)
    (rest : List (List Byte)) (entries : Word) (w : World) : Resolved :=
  match fat12FindEntry garbage entries name w with
  | .lost _ => .stuck
  | .done it w' =>
    if w'.state.err ≠ .no then .missing
    else
      match rest with
      | [] => .slot it w'.mem
      | next :: rest =>
        if !isSubdirectory w'.mem it then .notADir
        else
          match subdirectory dr disk fats entries it w' with
          | none => .stuck
          | some (entries, w) => resolve dr garbage disk fats next rest entries w

/-- The root directory, read. -/
def rootDirectory (dr : DiskRead) (garbage : Word) (disk : DiskPtr) (w : World) : Option (Word × World) :=
  match disk.fat12ReadRootDirectory dr garbage w with
  | none => none
  | some (output, w') => if w'.state.err = .no then some (output.getD garbage, w') else none

def resolvePath (dr : DiskRead) (garbage : Word) (disk : DiskPtr) (fats : Word) (filename : List Byte)
    (w : World) : Resolved :=
  match rootDirectory dr garbage disk w, components filename with
  | some (entries, w'), name :: rest => resolve dr garbage disk fats name rest entries w'
  | _, _ => .stuck

/-- An error that is not one of the two the lookup sets itself. -/
def Err.Outer (e : Err) : Prop := e ≠ .no ∧ e ≠ .notfound ∧ e ≠ .notadir

/-- How the lookup comes back. -/
def Resolved.Matches (pEntry : Word) : Resolved → Result Word → Prop
  | .slot it m, r => ∃ w, r = .done it w ∧ w.state.err = .no ∧ w.mem = m
  | .missing, r => ∃ w, r = .done pEntry w ∧ w.state.err = .notfound
  | .notADir, r => ∃ w, r = .done pEntry w ∧ w.state.err = .notadir
  | .stuck, r => (∃ w, r = .lost w) ∨ ∃ w, r = .done pEntry w ∧ w.state.err.Outer

section

variable (dr : DiskRead) (garbage : Word) (disk : DiskPtr) (fats : Word)

/-- The name is found in the directory, at `it`. -/
def Finds (name : List Byte) (entries : Word) (w : World) (it : Word) : Prop :=
  fat12FindEntry garbage entries name w = .done it w

/-- The name is not found in the directory. -/
def Misses (name : List Byte) (entries : Word) (w : World) : Prop :=
  ∃ e, e ≠ .no ∧ fat12FindEntry garbage entries name w = .done garbage (w.setErr e)

/-- From the directory `entries` in `w` the names lead to another: each is found, is a subdirectory, and
is read. -/
inductive Descends : List (List Byte) → Word → World → Word → World → Prop where
  | here {entries : Word} {w : World} : Descends [] entries w entries w
  | down {name : List Byte} {names : List (List Byte)} {entries next last it : Word} {w w' w'' : World}
      (hfind : Finds garbage name entries w it) (hdir : isSubdirectory w.mem it = true)
      (hread : subdirectory dr disk fats entries it w = some (next, w'))
      (hrest : Descends names next w' last w'') : Descends (name :: names) entries w last w''

/-- How the descent ends: with a slot at the last name; at a name that is missing; at a name, not the
last one, that is found and is no subdirectory. -/
def EndsWith (names : List (List Byte)) (entries : Word) (w : World) : Resolved → Prop
  | .slot it m => ∃ before name dir w', names = before ++ [name] ∧
      Descends dr garbage disk fats before entries w dir w' ∧ Finds garbage name dir w' it ∧ m = w'.mem
  | .missing => ∃ before name after dir w', names = before ++ name :: after ∧
      Descends dr garbage disk fats before entries w dir w' ∧ Misses garbage name dir w'
  | .notADir => ∃ before name next after dir w', names = before ++ name :: next :: after ∧
      Descends dr garbage disk fats before entries w dir w' ∧
      ∃ it, Finds garbage name dir w' it ∧ isSubdirectory w'.mem it = false
  | .stuck => True

end

/-! ## One component -/

theorem subdirectory_err {dr : DiskRead} {disk : DiskPtr} {fats entries it next : Word} {w w' : World}
    (h : subdirectory dr disk fats entries it w = some (next, w')) : w'.state.err = .no := by
  simp only [subdirectory] at h
  split at h
  · cases h
  · split at h
    · cases h
    · split at h
      · cases h
        assumption
      · cases h

/-- The scan does not end or finds nothing, or the name is found. -/
theorem find_cases (garbage : Word) (name : List Byte) (entries : Word) {w : World}
    (hno : w.state.err = .no) :
    (fat12FindEntry garbage entries name w = .lost w ∨ Misses garbage name entries w) ∨
      ∃ it, Finds garbage name entries w it := by
  by_cases hne : entries = 0
  · exact .inl (.inr ⟨.invarg, by simp, by simp [fat12FindEntry, hne]⟩)
  rcases fat12FindEntry_cases garbage hne name hno with hf | ⟨e, he, -, hf⟩ | hf
  · exact .inl (.inl hf)
  · exact .inl (.inr ⟨e, he, hf⟩)
  · exact .inr hf

section

variable {dr : DiskRead} {garbage : Word} {disk : DiskPtr} {fats : Word} {name : List Byte}
  {rest : List (List Byte)} {entries : Word} {w : World}

theorem resolve_lost (h : fat12FindEntry garbage entries name w = .lost w) :
    resolve dr garbage disk fats name rest entries w = .stuck := by
  cases rest <;> simp [resolve, h]

theorem resolve_misses (h : Misses garbage name entries w) :
    resolve dr garbage disk fats name rest entries w = .missing := by
  obtain ⟨e, he, hf⟩ := h
  cases rest <;> simp [resolve, hf, he]

variable {it : Word} (hfind : Finds garbage name entries w it) (hno : w.state.err = .no)
include hfind hno

theorem resolve_last : resolve dr garbage disk fats name [] entries w = .slot it w.mem := by
  unfold Finds at hfind
  simp [resolve, hfind, hno]

theorem resolve_notADir {next : List Byte} (hdir : isSubdirectory w.mem it = false) :
    resolve dr garbage disk fats name (next :: rest) entries w = .notADir := by
  unfold Finds at hfind
  simp [resolve, hfind, hno, hdir]

theorem resolve_unread {next : List Byte} (hdir : isSubdirectory w.mem it = true)
    (hread : subdirectory dr disk fats entries it w = none) :
    resolve dr garbage disk fats name (next :: rest) entries w = .stuck := by
  unfold Finds at hfind
  simp [resolve, hfind, hno, hdir, hread]

theorem resolve_down {next : List Byte} (hdir : isSubdirectory w.mem it = true) {entries' : Word}
    {w' : World} (hread : subdirectory dr disk fats entries it w = some (entries', w')) :
    resolve dr garbage disk fats name (next :: rest) entries w =
      resolve dr garbage disk fats next rest entries' w' := by
  unfold Finds at hfind
  rw [resolve]
  simp [hfind, hno, hdir, hread]

end

/-! ## The components of a string -/

/-- A string has no slash, or splits at the first one. -/
theorem splitOn_slash (s : List Byte) :
    (s.dropWhile (· ≠ 0x2F) = [] ∧ s.splitOn 0x2F = [s.takeWhile (· ≠ 0x2F)]) ∨
      ∃ l, s.dropWhile (· ≠ 0x2F) = 0x2F :: l ∧
        s.splitOn 0x2F = s.takeWhile (· ≠ 0x2F) :: l.splitOn 0x2F := by
  have hsplit := List.takeWhile_append_dropWhile (p := (· ≠ (0x2F : Byte))) (l := s)
  have hnot : (0x2F : Byte) ∉ s.takeWhile (· ≠ 0x2F) := by
    intro h
    have := List.mem_takeWhile_imp h
    simp at this
  cases hd : s.dropWhile (· ≠ 0x2F) with
  | nil =>
    rw [hd, List.append_nil] at hsplit
    refine .inl ⟨rfl, ?_⟩
    rw [hsplit] at hnot ⊢
    exact List.splitOn_eq_singleton hnot
  | cons c l =>
    have hc : c = 0x2F := by
      have := List.head?_dropWhile_not (fun x => decide (x ≠ (0x2F : Byte))) s
      rw [hd] at this
      simpa using this
    subst hc
    rw [hd] at hsplit
    refine .inr ⟨l, rfl, ?_⟩
    conv_lhs => rw [← hsplit]
    exact List.splitOn_append_cons_self_of_not_mem hnot l

theorem tokenize_cons {current name : List Byte} {rest : List (List Byte)}
    (h : current.splitOn 0x2F = name :: rest) (hname : name ≠ []) (w : World) :
    (rest = [] ∧ fat12FilenameTokenize current w = (name, none, w)) ∨
      ∃ s, rest = s.splitOn 0x2F ∧ fat12FilenameTokenize current w = (name, some s, w) := by
  have hne : current ≠ [] := by
    intro h0
    rw [h0, List.splitOn_nil] at h
    cases h
    exact hname rfl
  simp only [fat12FilenameTokenize, if_neg hne]
  rcases splitOn_slash current with ⟨hd, hs⟩ | ⟨l, hd, hs⟩
  · rw [hs] at h
    cases h
    exact .inl ⟨rfl, by rw [hd]; rfl⟩
  · rw [hs] at h
    cases h
    exact .inr ⟨l, rfl, by rw [hd]; rfl⟩

/-! ## What the lookup holds -/

/-- A directory has been read: `_err` is clear, its block is live, and `free` has a place for it. -/
structure Holding (lo hi : Nat) (entries : Word) (w : World) : Prop where
  inv : w.state.heap.Inv lo hi
  err : w.state.err = .no
  block : ∃ size, (⟨entries, size⟩ : Chunk) ∈ w.live ∧ ¬ w.state.heap.NoPlace ⟨entries, size⟩

theorem Refused.outer {lo hi : Nat} {w w' : World} {size : Word} (hno : w.state.err = .no)
    (e : w.malloc size = (0, w')) (h : Refused lo hi w w') : w'.state.err.Outer := by
  have hmalloc : w' = (w.malloc size).2 := congrArg Prod.snd e.symm
  refine ⟨h.err, ?_, ?_⟩
  · rw [hmalloc]
    exact World.malloc_err w size (by simp [hno]) (by simp) (by simp) (by simp)
  · rw [hmalloc]
    exact World.malloc_err w size (by simp [hno]) (by simp) (by simp) (by simp)

section

variable {lo hi : Nat} (hlo : 0 < lo) (hhi : hi < 2 ^ 32)
include hlo hhi

/-- The directory is given back, and `_err` stays what it is. -/
theorem Holding.free {entries : Word} {w : World} (h : Holding lo hi entries w) (e : Err) :
    ∃ w', (w.setErr e).free entries = some w' ∧ w'.state.heap.Inv lo hi ∧ w'.state.err = e ∧
      w'.mem = w.mem := by
  obtain ⟨size, hmem, hplace⟩ := h.block
  obtain ⟨w', hfree, hf⟩ := World.free_spec hlo hhi (w := w.setErr e) h.inv hmem
  exact ⟨w', hfree, hf.inv, hf.place hplace, hf.mem⟩

/-- A block that is taken and read to can be given back. -/
theorem holding_of_granted {w w₁ w' : World} {output size : Word} (hinv : w.state.heap.Inv lo hi)
    (hno : w.state.err = .no) (e : w.malloc size = (output, w₁))
    (hg : Granted lo hi w ⟨output, size⟩ w₁) (hstate : w'.state = w₁.state) :
    Holding lo hi output w' where
  inv := by
    rw [hstate]
    exact hg.inv
  err := by rw [hstate, hg.err, hno]
  block := by
    refine ⟨size, ?_, ?_⟩
    · rw [World.live_of_state hstate, hg.live]
      exact Set.mem_insert _ _
    · rw [hstate]
      exact World.malloc_place hlo hhi hinv e hg.ne_zero

theorem Holding.free_no {entries : Word} {w : World} (h : Holding lo hi entries w) :
    ∃ w', w.free entries = some w' ∧ w'.state.heap.Inv lo hi ∧ w'.state.err = .no ∧ w'.mem = w.mem := by
  have hself : w.setErr .no = w := by
    rw [← h.err]
    rfl
  have hfree := h.free hlo hhi .no
  rwa [hself] at hfree

variable {dr : DiskRead} (hk : Keeps lo hi dr) {w : World} (hinv : w.state.heap.Inv lo hi)
  (hno : w.state.err = .no) (disk : DiskPtr)
include hk hinv hno

theorem entry_holding (fats : Word) (start : Cluster) (pOutput : Word) :
    disk.fat12ReadEntry dr pOutput fats start w = none ∨
      ∃ output w', disk.fat12ReadEntry dr pOutput fats start w = some (output, w') ∧
        (Holding lo hi output w' ∨ w'.state.err.Outer) := by
  by_cases hguard : fats = 0 ∨ 0xFF8 ≤ start
  · rw [DiskPtr.fat12ReadEntry_guarded hguard]
    exact .inr ⟨_, _, rfl, .inr (by simp [Err.Outer])⟩
  have hfats : fats ≠ 0 := fun h0 => hguard (.inl h0)
  by_cases hzero : (disk w.mem).info.bytesPerSector = 0
  · exact .inl (DiskPtr.fat12ReadEntry_stopped hguard hzero)
  cases hcount : countClusters (disk w.mem).fat12 fats clusterValues start 0 w with
  | none => exact .inl (DiskPtr.fat12ReadEntry_endless hguard hzero hcount)
  | some r =>
    obtain ⟨clusters, w₀⟩ := r
    obtain ⟨-, -, -, rfl⟩ := countClusters_some hfats hcount
    rcases World.malloc_spec hlo hhi hinv ((disk w₀.mem).fat12.info.entrySize clusters) with
      ⟨w₁, e, hr⟩ | ⟨output, w₁, e, hg⟩
    · rw [DiskPtr.fat12ReadEntry_counted hguard hzero rfl hcount e, if_pos hr.err]
      exact .inr ⟨_, _, rfl, .inr (hr.outer hno e)⟩
    have hset : ¬ w₁.state.err ≠ .no := not_not.mpr (hg.err.trans hno)
    have hhold := holding_of_granted hlo hhi hinv hno e hg
      (readCluster_state hlo hhi hk hg (disk w₀.mem).fat12 start)
    rw [DiskPtr.fat12ReadEntry_counted hguard hzero rfl hcount e, if_neg hset]
    split
    · obtain ⟨w₃, e₃, -⟩ := hhold.free_no hlo hhi
      rw [e₃]
      exact .inr ⟨_, _, rfl, .inr (by simp [Err.Outer])⟩
    · split
      · exact .inl rfl
      · exact .inr ⟨_, _, rfl, .inl hhold⟩

theorem root_holding (garbage : Word) :
    disk.fat12ReadRootDirectory dr garbage w = none ∨
      ∃ output w', disk.fat12ReadRootDirectory dr garbage w = some (some output, w') ∧
        (Holding lo hi output w' ∨ w'.state.err.Outer) := by
  by_cases hzero : (disk w.mem).info.bytesPerSector = 0
  · exact .inl (DiskPtr.fat12ReadRootDirectory_stopped hzero garbage)
  rw [DiskPtr.fat12ReadRootDirectory_ok hzero]
  obtain ⟨size, output, w₁, e, ⟨rfl, hr, hroot⟩ | ⟨hg, w', hstate, hroot⟩⟩ :=
    fat12ReadRootDirectory_malloc hlo hhi hk hinv hno (disk w.mem).fat12 garbage
  · exact .inr ⟨0, w₁, hroot, .inr (hr.outer hno e)⟩
  · exact .inr ⟨output, w', hroot, .inl (holding_of_granted hlo hhi hinv hno e hg hstate)⟩

end

/-! ## The loop -/

section

variable {lo hi : Nat} (hlo : 0 < lo) (hhi : hi < 2 ^ 32) (dr : DiskRead) (garbage pEntry : Word)
  (disk : DiskPtr) (fats : Word)
include hlo hhi

theorem findFailure_holding {entries : Word} {w : World} (h : Holding lo hi entries w) (e : Err) :
    ∃ w', fat12FindFailure pEntry entries (w.setErr e) = .done pEntry w' ∧ w'.state.err = e := by
  obtain ⟨w', hfree, -, herr, -⟩ := h.free hlo hhi e
  exact ⟨w', by simp only [fat12FindFailure, hfree], herr⟩

section

variable {entries : Word} {current name : List Byte} {next : Option (List Byte)} {w : World}
  (hp : Holding lo hi entries w) (htok : fat12FilenameTokenize current w = (name, next, w))
include hp htok

variable (rest : List (List Byte)) in
/-- A name that is not found ends the loop, and the recursion. -/
theorem pass_unfound (hfind : fat12FindEntry garbage entries name w = .lost w ∨
      Misses garbage name entries w) :
    ∃ r, lookupPass dr garbage pEntry disk fats ⟨entries, current, w⟩ = .leave r ∧
      (resolve dr garbage disk fats name rest entries w).Matches pEntry r := by
  have hset : ¬ w.state.err ≠ .no := not_not.mpr hp.err
  cases hfind with
  | inl hlost =>
    rw [resolve_lost hlost]
    refine ⟨.lost w, ?_, .inl ⟨w, rfl⟩⟩
    simp only [lookupPass, htok, if_neg hset, hlost]
  | inr hmiss =>
    rw [resolve_misses hmiss]
    obtain ⟨e, he, hfind⟩ := hmiss
    have hset' : (w.setErr e).state.err ≠ .no := he
    obtain ⟨w', hfail, herr⟩ := findFailure_holding hlo hhi pEntry hp .notfound
    refine ⟨.done pEntry w', ?_, w', rfl, herr⟩
    simp only [lookupPass, htok, if_neg hset, hfind, if_pos hset']
    exact congrArg Pass.leave hfail

variable {it : Word} (hfind : Finds garbage name entries w it)
include hfind

theorem pass_last (hnext : next = none) :
    ∃ w', lookupPass dr garbage pEntry disk fats ⟨entries, current, w⟩ = .leave (.done it w') ∧
      w'.state.err = .no ∧ w'.mem = w.mem := by
  unfold Finds at hfind
  have hset : ¬ w.state.err ≠ .no := not_not.mpr hp.err
  obtain ⟨w', hfree, -, herr, hmem⟩ := hp.free_no hlo hhi
  refine ⟨w', ?_, herr, hmem⟩
  simp only [lookupPass, htok, if_neg hset, hfind, hnext, hfree]

variable {s : List Byte} (hnext : next = some s)
include hnext

theorem pass_notADir (hdir : isSubdirectory w.mem it = false) :
    ∃ w', lookupPass dr garbage pEntry disk fats ⟨entries, current, w⟩ = .leave (.done pEntry w') ∧
      w'.state.err = .notadir := by
  unfold Finds at hfind
  have hset : ¬ w.state.err ≠ .no := not_not.mpr hp.err
  obtain ⟨w', hfail, herr⟩ := findFailure_holding hlo hhi pEntry hp .notadir
  refine ⟨w', ?_, herr⟩
  simp only [lookupPass, htok, if_neg hset, hfind, hnext, hdir, Bool.not_false, if_true, hfail]

variable (hk : Keeps lo hi dr)
include hk

/-- A subdirectory is read and looked into, or the lookup comes back without it. -/
theorem pass_down (hdir : isSubdirectory w.mem it = true) :
    (subdirectory dr disk fats entries it w = none ∧
      ∃ r, lookupPass dr garbage pEntry disk fats ⟨entries, current, w⟩ = .leave r ∧
        Resolved.stuck.Matches pEntry r) ∨
    ∃ entries' w', subdirectory dr disk fats entries it w = some (entries', w') ∧
      lookupPass dr garbage pEntry disk fats ⟨entries, current, w⟩ = .next ⟨entries', s, w'⟩ ∧
      Holding lo hi entries' w' := by
  unfold Finds at hfind
  have hset : ¬ w.state.err ≠ .no := not_not.mpr hp.err
  obtain ⟨w₁, hfree, hinv₁, hno₁, -⟩ := hp.free_no hlo hhi
  simp only [lookupPass, htok, if_neg hset, hfind, hnext, hdir, Bool.not_true, Bool.false_eq_true,
    if_false, subdirectory, hfree]
  rcases entry_holding hlo hhi hk hinv₁ hno₁ disk fats (firstCluster w.mem it) entries with
    hread | ⟨output, w', hread, hhold | houter⟩
  · simp only [hread]
    exact .inl ⟨trivial, _, rfl, .inl ⟨w₁, rfl⟩⟩
  · simp only [hread, hhold.err, ne_eq, not_true_eq_false, if_false, if_true]
    exact .inr ⟨output, w', rfl, rfl, hhold⟩
  · simp only [hread, if_pos houter.1, if_neg houter.1]
    exact .inl ⟨trivial, _, rfl, .inr ⟨w', rfl, houter⟩⟩

end

variable {dr} (hk : Keeps lo hi dr)
include hk

/-- The loop gives what the recursion gives. By induction on the components that are left. -/
theorem lookup_resolves : ∀ (rest : List (List Byte)) (name : List Byte) (p : Position) (n : Nat),
    Holding lo hi p.entries p.world → p.current.splitOn 0x2F = name :: rest → [] ∉ name :: rest →
    p.current.length < n → ∃ r, Loop.run (lookupPass dr garbage pEntry disk fats) n p = some r ∧
      (resolve dr garbage disk fats name rest p.entries p.world).Matches pEntry r := by
  intro rest
  induction rest with
  | nil =>
    intro name p n hp hsplit hnames hn
    obtain ⟨n, rfl⟩ : ∃ l, n = l + 1 := ⟨n - 1, by omega⟩
    obtain ⟨entries, current, w⟩ := p
    simp only at hp hsplit hn ⊢
    have hname : name ≠ [] := fun h => hnames (h ▸ List.mem_cons_self)
    have htok : fat12FilenameTokenize current w = (name, none, w) := by
      rcases tokenize_cons hsplit hname w with ⟨-, h⟩ | ⟨s, hs, -⟩
      · exact h
      · exact absurd hs.symm (List.splitOn_ne_nil _ _)
    rcases find_cases garbage name entries hp.err with hfind | ⟨it, hfind⟩
    · obtain ⟨r, hpass, hr⟩ := pass_unfound hlo hhi dr garbage pEntry disk fats hp htok [] hfind
      exact ⟨r, Loop.run_leave hpass, hr⟩
    · obtain ⟨w', hpass, herr, hmem⟩ :=
        pass_last hlo hhi dr garbage pEntry disk fats hp htok hfind rfl
      rw [Loop.run_leave hpass, resolve_last hfind hp.err]
      exact ⟨_, rfl, w', rfl, herr, hmem⟩
  | cons next rest ih =>
    intro name p n hp hsplit hnames hn
    obtain ⟨n, rfl⟩ : ∃ l, n = l + 1 := ⟨n - 1, by omega⟩
    obtain ⟨entries, current, w⟩ := p
    simp only at hp hsplit hn ⊢
    have hname : name ≠ [] := fun h => hnames (h ▸ List.mem_cons_self)
    obtain ⟨s, hs, htok⟩ : ∃ s, next :: rest = s.splitOn 0x2F ∧
        fat12FilenameTokenize current w = (name, some s, w) := by
      rcases tokenize_cons hsplit hname w with ⟨h, -⟩ | h
      · cases h
      · exact h
    rcases find_cases garbage name entries hp.err with hfind | ⟨it, hfind⟩
    · obtain ⟨r, hpass, hr⟩ :=
        pass_unfound hlo hhi dr garbage pEntry disk fats hp htok (next :: rest) hfind
      exact ⟨r, Loop.run_leave hpass, hr⟩
    cases hdir : isSubdirectory w.mem it with
    | false =>
      obtain ⟨w', hpass, herr⟩ :=
        pass_notADir hlo hhi dr garbage pEntry disk fats hp htok hfind rfl hdir
      rw [Loop.run_leave hpass, resolve_notADir hfind hp.err hdir]
      exact ⟨_, rfl, w', rfl, herr⟩
    | true =>
      rcases pass_down hlo hhi dr garbage pEntry disk fats hp htok hfind rfl hk hdir with
        ⟨hread, r, hpass, hr⟩ | ⟨entries', w', hread, hpass, hhold⟩
      · rw [Loop.run_leave hpass, resolve_unread hfind hp.err hdir hread]
        exact ⟨r, rfl, hr⟩
      · rw [Loop.run_next hpass, resolve_down hfind hp.err hdir hread]
        refine ih next ⟨entries', s, w'⟩ n hhold hs.symm (fun h => hnames (List.mem_cons_of_mem _ h)) ?_
        have := length_next htok
        simp only
        omega

end

/-! ## Where the descent stops -/

section

variable {dr : DiskRead} {garbage : Word} {disk : DiskPtr} {fats : Word}

/-- The recursion over the rest of the path goes on from where the descent has come. -/
theorem resolve_descends {before : List (List Byte)} {entries dir : Word} {w w' : World}
    (hway : Descends dr garbage disk fats before entries w dir w') (hno : w.state.err = .no)
    {first name : List Byte} {rest after : List (List Byte)}
    (hlist : first :: rest = before ++ name :: after) :
    w'.state.err = .no ∧ resolve dr garbage disk fats first rest entries w =
      resolve dr garbage disk fats name after dir w' := by
  induction hway generalizing first rest with
  | here =>
    cases hlist
    exact ⟨hno, rfl⟩
  | @down c names entries next last it w w' w'' hfind hdir hread hrest ih =>
    injection hlist with hc hrest'
    subst hc
    cases rest with
    | nil => simp at hrest'
    | cons second rest =>
      rw [resolve_down hfind hno hdir hread]
      exact ih (subdirectory_err hread) hrest'

theorem EndsWith.down {name : List Byte} {names : List (List Byte)} {entries next it : Word}
    {w w' : World} (hfind : Finds garbage name entries w it) (hdir : isSubdirectory w.mem it = true)
    (hread : subdirectory dr disk fats entries it w = some (next, w')) {r : Resolved}
    (h : EndsWith dr garbage disk fats names next w' r) :
    EndsWith dr garbage disk fats (name :: names) entries w r := by
  cases r with
  | slot it' m =>
    obtain ⟨before, c, dir, w'', rfl, hway, hend⟩ := h
    exact ⟨name :: before, c, dir, w'', rfl, .down hfind hdir hread hway, hend⟩
  | missing =>
    obtain ⟨before, c, after, dir, w'', rfl, hway, hend⟩ := h
    exact ⟨name :: before, c, after, dir, w'', rfl, .down hfind hdir hread hway, hend⟩
  | notADir =>
    obtain ⟨before, c, next', after, dir, w'', rfl, hway, hend⟩ := h
    exact ⟨name :: before, c, next', after, dir, w'', rfl, .down hfind hdir hread hway, hend⟩
  | stuck => trivial

variable (dr garbage disk fats) in
/-- By induction on the components. -/
theorem endsWith_resolve : ∀ (rest : List (List Byte)) (name : List Byte) (entries : Word) {w : World},
    w.state.err = .no → EndsWith dr garbage disk fats (name :: rest) entries w
      (resolve dr garbage disk fats name rest entries w) := by
  intro rest
  induction rest with
  | nil =>
    intro name entries w hno
    rcases find_cases garbage name entries hno with (hlost | hmiss) | ⟨it, hfind⟩
    · rw [resolve_lost hlost]
      trivial
    · rw [resolve_misses hmiss]
      exact ⟨[], name, [], entries, w, rfl, .here, hmiss⟩
    · rw [resolve_last hfind hno]
      exact ⟨[], name, entries, w, rfl, .here, hfind, rfl⟩
  | cons next rest ih =>
    intro name entries w hno
    rcases find_cases garbage name entries hno with (hlost | hmiss) | ⟨it, hfind⟩
    · rw [resolve_lost hlost]
      trivial
    · rw [resolve_misses hmiss]
      exact ⟨[], name, next :: rest, entries, w, rfl, .here, hmiss⟩
    cases hdir : isSubdirectory w.mem it with
    | false =>
      rw [resolve_notADir hfind hno hdir]
      exact ⟨[], name, next, rest, entries, w, rfl, .here, it, hfind, hdir⟩
    | true =>
      cases hread : subdirectory dr disk fats entries it w with
      | none =>
        rw [resolve_unread hfind hno hdir hread]
        trivial
      | some r =>
        obtain ⟨entries', w'⟩ := r
        rw [resolve_down hfind hno hdir hread]
        exact (ih next entries' (subdirectory_err hread)).down hfind hdir hread

/-- Where the descent stops is what the recursion gives. -/
theorem resolve_eq_iff {name : List Byte} {rest : List (List Byte)} {entries : Word} {w : World}
    (hno : w.state.err = .no) {r : Resolved} (hr : r ≠ .stuck) :
    resolve dr garbage disk fats name rest entries w = r ↔
      EndsWith dr garbage disk fats (name :: rest) entries w r := by
  constructor
  · intro h
    subst h
    exact endsWith_resolve dr garbage disk fats rest name entries hno
  · intro h
    cases r with
    | slot it m =>
      obtain ⟨before, c, dir, w', hlist, hway, hfind, rfl⟩ := h
      obtain ⟨hno', he⟩ := resolve_descends hway hno hlist
      rw [he, resolve_last hfind hno']
    | missing =>
      obtain ⟨before, c, after, dir, w', hlist, hway, hmiss⟩ := h
      rw [(resolve_descends hway hno hlist).2, resolve_misses hmiss]
    | notADir =>
      obtain ⟨before, c, next, after, dir, w', hlist, hway, it, hfind, hdir⟩ := h
      obtain ⟨hno', he⟩ := resolve_descends hway hno hlist
      rw [he, resolve_notADir hfind hno' hdir]
    | stuck => exact absurd rfl hr

end

theorem rootDirectory_err {dr : DiskRead} {garbage root : Word} {disk : DiskPtr} {w w₀ : World}
    (h : rootDirectory dr garbage disk w = some (root, w₀)) : w₀.state.err = .no := by
  simp only [rootDirectory] at h
  split at h
  · cases h
  · split at h
    · cases h
      assumption
    · cases h

theorem resolvePath_eq_iff {dr : DiskRead} {garbage : Word} {disk : DiskPtr} {fats : Word}
    {filename : List Byte} {w : World} {r : Resolved} (hr : r ≠ .stuck) :
    resolvePath dr garbage disk fats filename w = r ↔
      ∃ root w₀, rootDirectory dr garbage disk w = some (root, w₀) ∧
        EndsWith dr garbage disk fats (components filename) root w₀ r := by
  obtain ⟨name, rest, hsplit⟩ : ∃ name rest, components filename = name :: rest :=
    List.exists_cons_of_ne_nil (List.splitOn_ne_nil _ _)
  rw [hsplit]
  simp only [resolvePath, hsplit]
  cases hroot : rootDirectory dr garbage disk w with
  | none =>
    simp only []
    refine iff_of_false (fun h => hr h.symm) fun h => ?_
    obtain ⟨root, w₀, h, -⟩ := h
    cases h
  | some d =>
    obtain ⟨root, w₀⟩ := d
    simp only []
    rw [resolve_eq_iff (rootDirectory_err hroot) hr]
    constructor
    · intro h
      exact ⟨root, w₀, rfl, h⟩
    · intro h
      obtain ⟨root', w', he, h⟩ := h
      cases he
      exact h

/-! ## The whole lookup -/

section

variable {pEntry : Word} {r : Resolved}

/-- What a result says of the path. -/
theorem Resolved.Matches.of_done {it : Word} {w : World} (h : r.Matches pEntry (.done it w)) :
    (w.state.err = .no → r = .slot it w.mem) ∧ (w.state.err = .notfound → r = .missing) ∧
      (w.state.err = .notadir → r = .notADir) := by
  cases r with
  | slot it' m =>
    obtain ⟨w', he, herr, rfl⟩ := h
    cases he
    simp [herr]
  | missing =>
    obtain ⟨w', he, herr⟩ := h
    cases he
    simp [herr]
  | notADir =>
    obtain ⟨w', he, herr⟩ := h
    cases he
    simp [herr]
  | stuck =>
    rcases h with ⟨w', he⟩ | ⟨w', he, hno, hmiss, hnot⟩
    · cases he
    · cases he
      exact ⟨fun h => absurd h hno, fun h => absurd h hmiss, fun h => absurd h hnot⟩

variable {result : Result Word} (h : r.Matches pEntry result)
include h

theorem Resolved.Matches.slot_iff {it : Word} {m : Mem 32} :
    (∃ w', result = .done it w' ∧ w'.state.err = .no ∧ w'.mem = m) ↔ r = .slot it m := by
  constructor
  · intro hres
    obtain ⟨w', rfl, hno, rfl⟩ := hres
    exact h.of_done.1 hno
  · intro hr
    subst hr
    exact h

theorem Resolved.Matches.missing_iff :
    (∃ it w', result = .done it w' ∧ w'.state.err = .notfound) ↔ r = .missing := by
  constructor
  · intro hres
    obtain ⟨it, w', rfl, hmiss⟩ := hres
    exact h.of_done.2.1 hmiss
  · intro hr
    subst hr
    exact ⟨pEntry, h⟩

theorem Resolved.Matches.notADir_iff :
    (∃ it w', result = .done it w' ∧ w'.state.err = .notadir) ↔ r = .notADir := by
  constructor
  · intro hres
    obtain ⟨it, w', rfl, hnot⟩ := hres
    exact h.of_done.2.2 hnot
  · intro hr
    subst hr
    exact ⟨pEntry, h⟩

end

section

variable {lo hi : Nat} (hlo : 0 < lo) (hhi : hi < 2 ^ 32) {dr : DiskRead} (hk : Keeps lo hi dr)
  {w : World} (hinv : w.state.heap.Inv lo hi) (hno : w.state.err = .no) (disk : DiskPtr)
  (fats garbage pEntry : Word) {filename : List Byte} (hnames : [] ∉ components filename)
include hlo hhi hk hinv hno hnames

theorem fat12GetEntryOfFilename_resolves :
    (resolvePath dr garbage disk fats filename w).Matches pEntry
      (fat12GetEntryOfFilename dr garbage pEntry (some disk) fats (some filename) w) := by
  obtain ⟨name, rest, hsplit⟩ : ∃ name rest, components filename = name :: rest :=
    List.exists_cons_of_ne_nil (List.splitOn_ne_nil _ _)
  rw [hsplit] at hnames
  simp only [resolvePath, rootDirectory, fat12GetEntryOfFilename, hsplit]
  rcases root_holding hlo hhi hk hinv hno disk garbage with hnone | ⟨output, w', hroot, hout⟩
  · rw [hnone]
    exact .inl ⟨w, rfl⟩
  simp only [hroot]
  cases hout with
  | inl hhold =>
    simp only [hhold.err, if_true, ne_eq, not_true_eq_false, if_false, Option.getD_some]
    obtain ⟨r, hrun, hr⟩ := lookup_resolves hlo hhi garbage pEntry disk fats hk rest name
      ⟨output, skipSlash filename, w'⟩ ((skipSlash filename).length + 1) hhold hsplit hnames
      (Nat.lt_succ_self _)
    rw [hrun]
    exact hr
  | inr houter =>
    simp only [if_neg houter.1, if_pos houter.1]
    exact .inr ⟨w', rfl, houter⟩

/-- The lookup returns the slot that the recursion gives, in the memory that it is in; it reports a
missing name, and a name in the way that is no subdirectory, exactly where the descent from the root
directory comes to one. -/
theorem fat12GetEntryOfFilename_descends :
    (∀ it m, (∃ w', fat12GetEntryOfFilename dr garbage pEntry (some disk) fats (some filename) w =
        .done it w' ∧ w'.state.err = .no ∧ w'.mem = m) ↔
      resolvePath dr garbage disk fats filename w = .slot it m) ∧
    ((∃ it w', fat12GetEntryOfFilename dr garbage pEntry (some disk) fats (some filename) w =
        .done it w' ∧ w'.state.err = .notfound) ↔
      ∃ root w₀, rootDirectory dr garbage disk w = some (root, w₀) ∧
        EndsWith dr garbage disk fats (components filename) root w₀ .missing) ∧
    ((∃ it w', fat12GetEntryOfFilename dr garbage pEntry (some disk) fats (some filename) w =
        .done it w' ∧ w'.state.err = .notadir) ↔
      ∃ root w₀, rootDirectory dr garbage disk w = some (root, w₀) ∧
        EndsWith dr garbage disk fats (components filename) root w₀ .notADir) := by
  have hmatch := fat12GetEntryOfFilename_resolves hlo hhi hk hinv hno disk fats garbage pEntry hnames
  rw [hmatch.missing_iff, hmatch.notADir_iff]
  exact ⟨fun it m => hmatch.slot_iff, resolvePath_eq_iff (by simp), resolvePath_eq_iff (by simp)⟩

end

/-! ### A file in a directory -/

/-- `TEST` -/
def testName : List Byte := [0x54, 0x45, 0x53, 0x54]

/-- `FILE.TXT` -/
def fileName : List Byte := [0x46, 0x49, 0x4C, 0x45, 0x2E, 0x54, 0x58, 0x54]

section

variable {lo hi top sure : Nat} (hlo : 0 < lo) (hhi : hi < 2 ^ 32)
include hlo hhi

/-- A name that the directory has on the volume is found once the directory is loaded. -/
theorem Loaded.find {size : Word} {n : Nat} {d : Directory} {w w₁ : World}
    (hs : w.state.heap.Stacked lo hi top) (h : Loaded lo hi top size n d.byte w w₁)
    (hfit : top + n < 2 ^ 32) (hle : top ≤ hi) {name : List Byte} {r : Record} (hsound : d.Sound n name)
    (hfind : d.find name = some r) (hnul : 0 ∉ name) (garbage : Word) :
    ∃ it, Finds garbage name (BitVec.ofNat 32 top) w₁ it ∧ (recordAt w₁.mem it).Same r := by
  have htop := top_toNat hhi hle
  rcases hsound.find_loaded h.holds hnul (top_ne_zero hlo hhi hs hle) (by omega) garbage rfl h.err with
    ⟨-, hnone⟩ | ⟨it, r', hit, hsome, hsame⟩
  · rw [hfind] at hnone
    cases hnone
  · rw [hfind] at hsome
    cases hsome
    exact ⟨it, hit, hsame⟩

variable {v : Volume} (hv : v.Standard sure) {drive : BitVec 8} {dr : DiskRead}
  (hr : ReadsUp lo hi sure drive 512 v.content dr) {disk : DiskPtr} {w : World}
include hv hr

theorem rootDirectory_loads (hs : w.state.heap.Stacked lo hi top) (hno : w.state.err = .no)
    (hslots : w.live.ncard < chunkQty) (hdisk : (disk w.mem).fat12 = ⟨drive, v.format⟩) (garbage : Word)
    (hfit : top + v.format.rootBytes ≤ hi) :
    ∃ size w', rootDirectory dr garbage disk w = some (BitVec.ofNat 32 top, w') ∧
      Loaded lo hi top size (min v.format.rootBytes sure) v.root.byte w w' := by
  obtain ⟨size, w', -, e, h⟩ := fat12ReadRootDirectory_loads hlo hhi hs hno hslots hv hr hdisk garbage hfit
  refine ⟨size, w', ?_, h⟩
  simp only [rootDirectory, e, h.err, if_true]
  rfl

/-- The block at the top is given back, and the directory of a slot in it read in its place. The FATs and
the `disk_t` are in front of it. -/
theorem subdirectory_loads (hslots : w.live.ncard + 1 < chunkQty) {size : Word} {n : Nat} {f : Nat → Byte}
    {w₁ : World} (h : Loaded lo hi top size n f w w₁) {fats : Word} (hfats : w.mem.Holds fats 512 v.fatByte)
    (hbottom : lo ≤ fats.toNat) (hinside : fats.toNat + 512 ≤ top)
    (hdisk : HoldsDisk lo top ⟨drive, v.format⟩ disk w)
    {c : Cluster} (hc : v.Single c) {it : Word} (hfirst : firstCluster w₁.mem it = c)
    (hfit : top + v.format.clusterBytes ≤ hi) :
    ∃ w₂ size' w₃, w₂.state.heap.Stacked lo hi top ∧
      subdirectory dr disk fats (BitVec.ofNat 32 top) it w₁ = some (BitVec.ofNat 32 top, w₃) ∧
      Loaded lo hi top size' v.format.clusterBytes (v.clusterByte c) w₂ w₃ := by
  have htop := top_toNat hhi (show top ≤ hi by omega)
  have hmem : (⟨BitVec.ofNat 32 top, size⟩ : Chunk) ∈ w₁.live := h.live ▸ Set.mem_insert _ _
  obtain ⟨w₂, hfree, hs₂, hlive, herr, hmem₂⟩ := World.free_top hlo hhi h.stacked hmem htop
  have hkept : ∀ x : Word, lo ≤ x.toNat → x.toNat < top → w₂.mem x = w.mem x := by
    intro x h1 h2
    rw [hmem₂, h.below x h1 h2]
  have hcard : w₂.live.ncard < chunkQty := by
    rw [hlive, h.live]
    exact Nat.lt_of_le_of_lt ((Set.ncard_sdiff_singleton_le _ _).trans (Set.ncard_insert_le _ _)) hslots
  have hfats₂ : w₂.mem.Holds fats 512 v.fatByte := by
    refine hfats.congr fun i hi => ?_
    have haddr : (fats + BitVec.ofNat 32 i).toNat = fats.toNat + i := toNat_add_ofNat (by omega)
    exact hkept _ (by omega) (by omega)
  have hne : fats ≠ 0 := by
    rintro rfl
    simp at hbottom
    omega
  obtain ⟨size', w₃, -, e, h₃⟩ := fat12ReadEntry_loads hlo hhi hs₂ (herr.trans h.err) hcard hv hr
    (hdisk.congr hkept) hc hne hfats₂ (Nat.le_refl _) (BitVec.ofNat 32 top) hfit
  refine ⟨w₂, size', w₃, hs₂, ?_, h₃⟩
  simp only [subdirectory, show w₁.free (BitVec.ofNat 32 top) = some w₂ from hfree, hfirst, e, h₃.err,
    if_true]

end

/-- `/TEST/FILE.TXT`, looked up on a floppy disk that has it, with its FATs in memory. -/
theorem fat12GetEntryOfFilename_descends_subdirectory : ∃ w it w', FloppyOpen w ∧ ∃ w₁,
    fat12ReadFats (diskRead (idealBios sampleContent)) (some (diskAt 0x00100000 w.mem).fat12) w =
      (0x0010002C, w₁) ∧
    fat12GetEntryOfFilename (diskRead (idealBios sampleContent)) 0 0 (some (diskAt 0x00100000)) 0x0010002C
      (some (0x2F :: testName ++ 0x2F :: fileName)) w₁ = .done it w' ∧ w'.state.err = .no ∧
    (recordAt w'.mem it).Same (((floppyDisk.volume sampleContent).subdirectory 2).record 0) := by
  obtain ⟨w, h⟩ := floppy_open
  have hk : Keeps 0x00100000 0x001FFFFF (diskRead (idealBios sampleContent)) :=
    diskRead_keeps (by decide) (by decide) _
  have hv := floppyDisk_standard sampleContent
  have hr : ReadsUp 0x00100000 0x001FFFFF 4096 0 512 sampleContent (diskRead (idealBios sampleContent)) :=
    diskRead_readsUp (by decide) (by decide) (idealBios_delivers 0 sampleContent)
  have hdisk : ∀ m : Mem 32, (∀ x : Word, 0x00100000 ≤ x.toNat → x.toNat < 0x0010002C → m x = w.mem x) →
      (diskAt 0x00100000 m).fat12 = ⟨0, (floppyDisk.volume sampleContent).format⟩ := fun m hm =>
    congrArg DiskT.fat12 ((diskAt_below (by decide) (by decide) (show 0x0010002C < 2 ^ 32 by decide) hm).trans
      h.disk)
  have hcard : w.live.ncard = 1 := by rw [h.live, Set.ncard_singleton]
  -- the FATs
  obtain ⟨size, w₁, hsize, e₁, h₁⟩ := fat12ReadFats_loads (by decide) (by decide) h.stacked h.err
    (hcard ▸ by decide) hv hr (by decide)
  obtain rfl : size = 9216 := BitVec.eq_of_toNat_eq hsize
  have hcard₁ : w₁.live.ncard ≤ 2 := by
    rw [h₁.live]
    exact (Set.ncard_insert_le _ _).trans (by rw [hcard])
  have hs₁ : w₁.state.heap.Stacked 0x00100000 0x001FFFFF 0x0010242C := h₁.stacked
  have hfats : w₁.mem.Holds 0x0010002C 512 (floppyDisk.volume sampleContent).fatByte := fun i hi =>
    h₁.holds i (Nat.lt_of_lt_of_le hi (by decide))
  have hdisk₁ : ∀ m : Mem 32, (∀ x : Word, 0x00100000 ≤ x.toNat → x.toNat < 0x0010242C → m x = w₁.mem x) →
      (diskAt 0x00100000 m).fat12 = ⟨0, (floppyDisk.volume sampleContent).format⟩ := fun m hm =>
    hdisk m fun x hx1 hx2 => (hm x hx1 (by omega)).trans (h₁.below x hx1 hx2)
  -- the two directories
  obtain ⟨rootSize, w₂, hroot, h₂⟩ := rootDirectory_loads (by decide) (by decide) hv hr hs₁ h₁.err
    (Nat.lt_of_le_of_lt hcard₁ (by decide)) (hdisk₁ _ fun _ _ _ => rfl) 0 (by decide)
  obtain ⟨dir, hfind, hsame⟩ := Loaded.find (by decide) (by decide) hs₁ h₂ (by decide) (by decide)
    (sampleContent_root.1 testName _ (by decide)) sampleContent_root.2 (by decide) 0
  have hcluster : firstCluster w₂.mem dir = 2 := by
    rw [hsame.masked]
    decide
  obtain ⟨w₃, dirSize, w₄, hs₃, hsub, h₄⟩ := subdirectory_loads (by decide) (by decide) hv hr
    (Nat.lt_of_le_of_lt (Nat.add_le_add_right hcard₁ 1) (by decide)) h₂ hfats (by decide) (by decide) hdisk₁
    sampleContent_single.1 hcluster (by decide)
  obtain ⟨it, hfind', hsame'⟩ := Loaded.find (by decide) (by decide) hs₃ h₄ (by decide) (by decide)
    (sampleContent_test.1 fileName _ (by decide)) sampleContent_test.2 (by decide) 0
  have hresolve : resolvePath (diskRead (idealBios sampleContent)) 0 (diskAt 0x00100000) 0x0010002C
      (0x2F :: testName ++ 0x2F :: fileName) w₁ = .slot it w₄.mem := by
    have hnames : components (0x2F :: testName ++ 0x2F :: fileName) = [testName, fileName] := by decide
    simp only [resolvePath, hroot, hnames]
    exact (resolve_down hfind h₂.err (hsame.subdirectory.trans (by decide)) hsub).trans
      (resolve_last hfind' h₄.err)
  obtain ⟨w', hrun, herr', hmem'⟩ := ((fat12GetEntryOfFilename_descends (by decide) (by decide) hk
    h₁.stacked.toWhole.toInv h₁.err (diskAt 0x00100000) 0x0010002C 0 0 (by decide)).1 it w₄.mem).mpr hresolve
  refine ⟨w, it, w', h, w₁, ?_, hrun, herr', hmem' ▸ hsame'⟩
  rw [h.disk]
  exact e₁

end Installer
end Amethyst
