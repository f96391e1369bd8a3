import Amethyst.Installer.DivideError
import Amethyst.Installer.PathDescent

/-!
# Amethyst.Installer.VolumeRead

`file_read` (`installer/src/sys/disk/file.c`) on a volume, over the `disk_read` of `disk.c` and a BIOS
that delivers the sectors.

* `lookup_ends`: the loop of `fat12_get_entry_of_filename` ends where `Volume.lookup` does.
* `fileRead_volume`: the block that comes back holds the file that the path leads to on the volume, and
  nothing else is left behind; a path that leads to none gives `NULL` and its error.
-/

namespace Amethyst
namespace Installer

/-! ## The top of the heap -/

/-- The blocks are those of `w₀`, and so is the memory of the heap in front of `top`. -/
structure Back (lo hi top : Nat) (w₀ w : World) : Prop where
  stacked : w.state.heap.Stacked lo hi top
  live : w.live = w₀.live
  kept : ∀ x : Word, lo ≤ x.toNat → x.toNat < top → w.mem x = w₀.mem x

/-- The block at the top is the directory `d`, as far as it is read. -/
structure InDirectory (lo hi top sure : Nat) (w₀ : World) (d : Directory) (w : World) : Prop where
  block : ∃ size : Word, w.state.heap.Stacked lo hi (top + size.toNat) ∧
    w.live = insert ⟨BitVec.ofNat 32 top, size⟩ w₀.live
  err : w.state.err = .no
  holds : w.mem.Holds (BitVec.ofNat 32 top) (min d.size sure) d.byte
  kept : ∀ x : Word, lo ≤ x.toNat → x.toNat < top → w.mem x = w₀.mem x

/-- The first sector of the table is in memory in front of `top`. -/
structure HoldsFats (lo top : Nat) (v : Volume) (fats : Word) (w : World) : Prop where
  bottom : lo ≤ fats.toNat
  inside : fats.toNat + 512 ≤ top
  holds : w.mem.Holds fats 512 v.fatByte

section

variable {lo hi top : Nat} (hlo : 0 < lo) (hhi : hi < 2 ^ 32) {w₀ : World}
  (hs₀ : w₀.state.heap.Stacked lo hi top)
include hlo hhi hs₀

/-- A block at the top is none of those in front of it. -/
theorem top_notMem (hle : top ≤ hi) (size : Word) : (⟨BitVec.ofNat 32 top, size⟩ : Chunk) ∉ w₀.live := by
  intro hmem
  have hend := hs₀.end_le hlo hhi hmem
  have hpos := (hs₀.real hlo hhi hmem).size_pos
  have htop := top_toNat hhi hle
  simp only at hend hpos
  omega

omit hlo hhi hs₀ in
theorem Back.loaded {w w' : World} (hb : Back lo hi top w₀ w) {size : Word} {n : Nat} {d : Directory}
    {sure : Nat} (hn : n = min d.size sure) (h : Loaded lo hi top size n d.byte w w') :
    InDirectory lo hi top sure w₀ d w' where
  block := ⟨size, h.stacked, hb.live ▸ h.live⟩
  err := h.err
  holds := hn ▸ h.holds
  kept x h1 h2 := (h.below x h1 h2).trans (hb.kept x h1 h2)

theorem InDirectory.free {sure : Nat} {d : Directory} {w : World}
    (h : InDirectory lo hi top sure w₀ d w) (hle : top ≤ hi) (e : Err) :
    ∃ w', (w.setErr e).free (BitVec.ofNat 32 top) = some w' ∧ Back lo hi top w₀ w' ∧ w'.state.err = e ∧
      w'.mem = w.mem := by
  obtain ⟨size, hstacked, hlive⟩ := h.block
  obtain ⟨w', hfree, hs', hlive', herr, hmem⟩ := World.free_top hlo hhi (w := w.setErr e)
    (c := ⟨BitVec.ofNat 32 top, size⟩) hstacked (by rw [World.setErr_live, hlive]; exact Set.mem_insert _ _)
    (top_toNat hhi hle)
  refine ⟨w', hfree, ⟨hs', ?_, fun x h1 h2 => ?_⟩, herr, hmem⟩
  · rw [hlive', World.setErr_live, hlive,
      Set.insert_sdiff_self_of_notMem (top_notMem hlo hhi hs₀ hle size)]
  · rw [hmem]
    exact h.kept x h1 h2

theorem InDirectory.free_no {sure : Nat} {d : Directory} {w : World}
    (h : InDirectory lo hi top sure w₀ d w) (hle : top ≤ hi) :
    ∃ w', w.free (BitVec.ofNat 32 top) = some w' ∧ Back lo hi top w₀ w' ∧ w'.state.err = .no ∧
      w'.mem = w.mem := by
  have hself : w.setErr .no = w := by
    rw [← h.err]
    rfl
  have hfree := h.free hlo hhi hs₀ hle .no
  rwa [hself] at hfree

omit hlo hhi hs₀ in
theorem HoldsFats.back {v : Volume} {fats : Word} (h : HoldsFats lo top v fats w₀) {w : World}
    (hb : Back lo hi top w₀ w) (hlt : top < 2 ^ 32) : w.mem.Holds fats 512 v.fatByte := by
  have h1 := h.bottom
  have h2 := h.inside
  refine h.holds.congr fun i hi => ?_
  have haddr : (fats + BitVec.ofNat 32 i).toNat = fats.toNat + i := toNat_add_ofNat (by omega)
  exact hb.kept _ (by omega) (by omega)

end

/-! ## The lookup -/

/-- How the lookup comes back from a path that leads to the target. -/
def Ends (lo hi top : Nat) (pEntry : Word) (w₀ : World) : Target → Result Word → Prop
  | .file c, r => ∃ it w, r = .done it w ∧ Back lo hi top w₀ w ∧ w.state.err = .no ∧
      isSubdirectory w.mem it = false ∧ firstCluster w.mem it = c &&& 0xFFF
  | .directory, r => ∃ it w, r = .done it w ∧ Back lo hi top w₀ w ∧ w.state.err = .no ∧
      isSubdirectory w.mem it = true
  | .missing, r => ∃ w, r = .done pEntry w ∧ Back lo hi top w₀ w ∧ w.state.err = .notfound
  | .notADirectory, r => ∃ w, r = .done pEntry w ∧ Back lo hi top w₀ w ∧ w.state.err = .notadir

section

variable {lo hi top sure : Nat} (hlo : 0 < lo) (hhi : hi < 2 ^ 32) {w₀ : World}
  (hs₀ : w₀.state.heap.Stacked lo hi top) {d : Directory} {w : World}
  (h : InDirectory lo hi top sure w₀ d w) (hle : top ≤ hi)
include hlo hhi hs₀ h

/-- A name that is found, with the record it has on the volume. -/
theorem InDirectory.find (hfit : top + d.size ≤ hi) {name : List Byte} (hd : d.Sound sure name)
    (hname : 0 ∉ name) (garbage : Word) :
    fat12FindEntry garbage (BitVec.ofNat 32 top) name w = .done garbage (w.setErr .notfound) ∧
        d.find name = none ∨
      ∃ it r, fat12FindEntry garbage (BitVec.ofNat 32 top) name w = .done it w ∧ d.find name = some r ∧
        (recordAt w.mem it).Same r := by
  have htop := top_toNat hhi (show top ≤ hi by omega)
  have hsure : d.Sound (min d.size sure) name := by
    refine ⟨?_, hd.formed, hd.dead⟩
    obtain ⟨i, h1, h2, hi⟩ := hd.marked
    exact ⟨i, h1, by omega, hi⟩
  exact hsure.find_loaded h.holds hname (top_ne_zero hlo hhi hs₀ (by omega)) (by omega) garbage rfl h.err

variable {current name : List Byte} {next : Option (List Byte)}
  (htok : fat12FilenameTokenize current w = (name, next, w)) (dr : DiskRead) (garbage pEntry : Word)
  (disk : DiskPtr) (fats : Word)
include hle htok

theorem InDirectory.pass_missing
    (hfind : fat12FindEntry garbage (BitVec.ofNat 32 top) name w = .done garbage (w.setErr .notfound)) :
    ∃ w', lookupPass dr garbage pEntry disk fats ⟨BitVec.ofNat 32 top, current, w⟩ =
        .leave (.done pEntry w') ∧ Back lo hi top w₀ w' ∧ w'.state.err = .notfound := by
  obtain ⟨w', hfree, hback, herr, -⟩ := h.free hlo hhi hs₀ hle .notfound
  have hset : ¬ w.state.err ≠ .no := not_not.mpr h.err
  have hset' : (w.setErr .notfound).state.err ≠ .no := by simp
  have hagain : (w.setErr .notfound).setErr .notfound = w.setErr .notfound := rfl
  refine ⟨w', ?_, hback, herr⟩
  simp only [lookupPass, htok, if_neg hset, hfind, if_pos hset', hagain, fat12FindFailure, hfree]

variable {it : Word} (hfind : fat12FindEntry garbage (BitVec.ofNat 32 top) name w = .done it w)
include hfind

theorem InDirectory.pass_last (hnext : next = none) :
    ∃ w', lookupPass dr garbage pEntry disk fats ⟨BitVec.ofNat 32 top, current, w⟩ =
        .leave (.done it w') ∧ Back lo hi top w₀ w' ∧ w'.state.err = .no ∧ w'.mem = w.mem := by
  obtain ⟨w', hfree, hback, herr, hmem⟩ := h.free_no hlo hhi hs₀ hle
  have hset : ¬ w.state.err ≠ .no := not_not.mpr h.err
  refine ⟨w', ?_, hback, herr, hmem⟩
  simp only [lookupPass, htok, if_neg hset, hfind, hnext, hfree]

variable {s : List Byte} (hnext : next = some s)
include hnext

theorem InDirectory.pass_notADir (hdir : isSubdirectory w.mem it = false) :
    ∃ w', lookupPass dr garbage pEntry disk fats ⟨BitVec.ofNat 32 top, current, w⟩ =
        .leave (.done pEntry w') ∧ Back lo hi top w₀ w' ∧ w'.state.err = .notadir := by
  obtain ⟨w', hfree, hback, herr, -⟩ := h.free hlo hhi hs₀ hle .notadir
  have hset : ¬ w.state.err ≠ .no := not_not.mpr h.err
  refine ⟨w', ?_, hback, herr⟩
  simp only [lookupPass, htok, if_neg hset, hfind, hnext, hdir, Bool.not_false, if_true,
    fat12FindFailure, hfree]

/-- The directory is given back, and the next one takes its place. -/
theorem InDirectory.pass_down {v : Volume} (hv : v.Standard sure) {drive : BitVec 8}
    (hr : ReadsUp lo hi sure drive 512 v.content dr) (hslots : w₀.live.ncard < chunkQty)
    (hfats : HoldsFats lo top v fats w₀) (hdisk : HoldsDisk lo top ⟨drive, v.format⟩ disk w₀)
    (hdir : isSubdirectory w.mem it = true) {c : Cluster} (hc : v.Single c)
    (hfirst : firstCluster w.mem it = c) (hfit : top + v.format.clusterBytes ≤ hi) :
    ∃ w', lookupPass dr garbage pEntry disk fats ⟨BitVec.ofNat 32 top, current, w⟩ =
        .next ⟨BitVec.ofNat 32 top, s, w'⟩ ∧ InDirectory lo hi top sure w₀ (v.subdirectory c) w' := by
  obtain ⟨w₁, hfree, hback, hno, hmem⟩ := h.free_no hlo hhi hs₀ hle
  have hset : ¬ w.state.err ≠ .no := not_not.mpr h.err
  have hne : fats ≠ 0 := by
    rintro rfl
    have := hfats.bottom
    simp at this
    omega
  obtain ⟨size, w', -, hread, hload⟩ := fat12ReadEntry_loads hlo hhi hback.stacked hno
    (hback.live ▸ hslots) hv hr (hdisk.congr hback.kept) hc hne (hfats.back hback (by omega)) (Nat.le_refl _)
    (BitVec.ofNat 32 top) hfit
  have hsize : v.format.clusterBytes = min (v.subdirectory c).size sure :=
    (Nat.min_eq_left hv.clusterSure).symm
  refine ⟨w', ?_, hback.loaded hsize hload⟩
  simp only [lookupPass, htok, if_neg hset, hfind, hnext, hdir, Bool.not_true, Bool.false_eq_true,
    if_false, hfree, hfirst, hread, hload.err, ne_eq, not_true_eq_false]

end

section

variable {lo hi top sure : Nat} (hlo : 0 < lo) (hhi : hi < 2 ^ 32) {w₀ : World}
  (hs₀ : w₀.state.heap.Stacked lo hi top) (hslots : w₀.live.ncard < chunkQty) {v : Volume}
  (hv : v.Standard sure) {drive : BitVec 8} {dr : DiskRead}
  (hr : ReadsUp lo hi sure drive 512 v.content dr) {fats : Word} (hfats : HoldsFats lo top v fats w₀)
  {disk : DiskPtr} (hdisk : HoldsDisk lo top ⟨drive, v.format⟩ disk w₀)
  (hfit : top + v.format.clusterBytes ≤ hi) (garbage pEntry : Word)
include hlo hhi hs₀ hslots hv hr hfats hdisk hfit

/-- The loop ends where the lookup on the volume does. By induction on the components that are left. -/
theorem lookup_ends : ∀ (rest : List (List Byte)) (name : List Byte) (d : Directory)
    (current : List Byte) (w : World) (n : Nat), InDirectory lo hi top sure w₀ d w → top + d.size ≤ hi →
    current.splitOn 0x2F = name :: rest → (∀ c ∈ name :: rest, c ≠ [] ∧ 0 ∉ c) →
    v.Sound sure d name rest → current.length < n →
    ∃ r, Loop.run (lookupPass dr garbage pEntry disk fats) n
        ⟨BitVec.ofNat 32 top, current, w⟩ = some r ∧
      Ends lo hi top pEntry w₀ (v.lookup d name rest) r := by
  intro rest
  induction rest with
  | nil =>
    intro name d current w n h hsize hsplit hnames hsound hn
    obtain ⟨n, rfl⟩ : ∃ l, n = l + 1 := ⟨n - 1, by omega⟩
    obtain ⟨hname, hnul⟩ := hnames name List.mem_cons_self
    have htok : fat12FilenameTokenize current w = (name, none, w) := by
      rcases tokenize_cons hsplit hname w with ⟨-, htok⟩ | ⟨s, hs, -⟩
      · exact htok
      · exact absurd hs.symm (List.splitOn_ne_nil _ _)
    have hle : top ≤ hi := by omega
    rcases h.find hlo hhi hs₀ hsize hsound.1 hnul garbage with ⟨hfind, hnone⟩ | ⟨it, r, hfind, hsome, hsame⟩
    · obtain ⟨w', hpass, hback, herr⟩ :=
        h.pass_missing hlo hhi hs₀ hle htok dr garbage pEntry disk fats hfind
      rw [Loop.run_leave hpass, Volume.lookup_missing hnone]
      exact ⟨_, rfl, w', rfl, hback, herr⟩
    · obtain ⟨w', hpass, hback, herr, hmem⟩ :=
        h.pass_last hlo hhi hs₀ hle htok dr garbage pEntry disk fats hfind rfl
      have hkind : isSubdirectory w'.mem it = r.isDirectory := by rw [hmem, hsame.subdirectory]
      rw [Loop.run_leave hpass]
      cases hdir : r.isDirectory with
      | true =>
        rw [Volume.lookup_directory hsome hdir]
        exact ⟨_, rfl, it, w', rfl, hback, herr, hkind.trans hdir⟩
      | false =>
        rw [Volume.lookup_file hsome hdir]
        exact ⟨_, rfl, it, w', rfl, hback, herr, hkind.trans hdir, by rw [hmem, hsame.masked]⟩
  | cons next rest ih =>
    intro name d current w n h hsize hsplit hnames hsound hn
    obtain ⟨n, rfl⟩ : ∃ l, n = l + 1 := ⟨n - 1, by omega⟩
    obtain ⟨hname, hnul⟩ := hnames name List.mem_cons_self
    obtain ⟨s, hs, htok⟩ : ∃ s, next :: rest = s.splitOn 0x2F ∧
        fat12FilenameTokenize current w = (name, some s, w) := by
      rcases tokenize_cons hsplit hname w with ⟨hnil, -⟩ | htok
      · cases hnil
      · exact htok
    have hle : top ≤ hi := by omega
    rcases h.find hlo hhi hs₀ hsize hsound.1 hnul garbage with ⟨hfind, hnone⟩ | ⟨it, r, hfind, hsome, hsame⟩
    · obtain ⟨w', hpass, hback, herr⟩ :=
        h.pass_missing hlo hhi hs₀ hle htok dr garbage pEntry disk fats hfind
      rw [Loop.run_leave hpass, Volume.lookup_missing hnone]
      exact ⟨_, rfl, w', rfl, hback, herr⟩
    have hkind := hsame.subdirectory
    cases hdir : r.isDirectory with
    | false =>
      obtain ⟨w', hpass, hback, herr⟩ := h.pass_notADir hlo hhi hs₀ hle htok dr garbage pEntry
        disk fats hfind rfl (hkind.trans hdir)
      rw [Loop.run_leave hpass, Volume.lookup_notADirectory hsome hdir]
      exact ⟨_, rfl, w', rfl, hback, herr⟩
    | true =>
      obtain ⟨hsingle, hsound'⟩ := hsound.2 r hsome hdir
      have hfirst : firstCluster w.mem it = r.cluster := by
        rw [hsame.masked, masked_cluster hsingle.last]
      obtain ⟨w', hpass, h'⟩ := h.pass_down hlo hhi hs₀ hle htok dr garbage pEntry disk fats
        hfind rfl hv hr hslots hfats hdisk (hkind.trans hdir) hsingle hfirst hfit
      rw [Loop.run_next hpass, Volume.lookup_down hsome hdir]
      have hlt := length_next htok
      exact ih next _ s w' n h' hfit hs.symm (fun c hc => hnames c (List.mem_cons_of_mem _ hc)) hsound'
        (by omega)

end

/-! ## The file -/

/-- What `file_read` has to give for a path that leads to the target: the block holds the file, and the
heap in front of `top` is what it was. -/
def Gives (lo hi top : Nat) (v : Volume) (w : World) : Target → Result Word → Prop
  | .file c, r => ∃ ptr size w', r = .done ptr w' ∧ w'.state.err = .no ∧
      size.toNat = v.format.clusterBytes ∧ (⟨ptr, size⟩ : Chunk) ∉ w.live ∧
      w'.live = insert ⟨ptr, size⟩ w.live ∧ w'.mem.Holds ptr v.format.clusterBytes (v.clusterByte c) ∧
      w'.state.heap.Whole lo hi ∧ ∀ x : Word, lo ≤ x.toNat → x.toNat < top → w'.mem x = w.mem x
  | .directory, r => ∃ w', r = .done 0 w' ∧ w'.state.err = .no ∧ Back lo hi top w w'
  | .missing, r => ∃ w', r = .done 0 w' ∧ w'.state.err = .notfound ∧ Back lo hi top w w'
  | .notADirectory, r => ∃ w', r = .done 0 w' ∧ w'.state.err = .notadir ∧ Back lo hi top w w'

section

variable {lo hi top : Nat} (hlo : 0 < lo) (hhi : hi < 2 ^ 32) {w w₁ : World}
  (hs : w.state.heap.Stacked lo hi top) {size : Word} {n : Nat} {f : Nat → Byte}
  (hload : Loaded lo hi top size n f w w₁) (hfit : top + size.toNat ≤ hi)
include hlo hhi hs hload hfit

/-- Without a file only the FATs are left, and they are given back; the error stays. -/
theorem Back.failure {w₂ : World} (hb : Back lo hi (top + size.toNat) w₁ w₂) :
    ∃ w', fileReadFailure (BitVec.ofNat 32 top) w₂ = .done 0 w' ∧ w'.state.err = w₂.state.err ∧
      Back lo hi top w w' := by
  have hmem : (⟨BitVec.ofNat 32 top, size⟩ : Chunk) ∈ w₂.live := by
    rw [hb.live, hload.live]
    exact Set.mem_insert _ _
  obtain ⟨w', hfree, hstacked, hlive, herr, hmem'⟩ := World.free_top hlo hhi
    (c := ⟨BitVec.ofNat 32 top, size⟩) hb.stacked hmem (top_toNat hhi (by omega))
  refine ⟨w', by simp only [fileReadFailure, hfree], herr, hstacked, ?_, fun x h1 h2 => ?_⟩
  · rw [hlive, hb.live, hload.live,
      Set.insert_sdiff_self_of_notMem (top_notMem hlo hhi hs (by omega) size)]
  · rw [hmem', hb.kept x h1 (by omega), hload.below x h1 h2]

/-- The FATs are given back from under the block of the file. -/
theorem Loaded.fats {w₂ w₃ : World} (hb : Back lo hi (top + size.toNat) w₁ w₂) {size' : Word} {n' : Nat}
    {f' : Nat → Byte} (hload' : Loaded lo hi (top + size.toNat) size' n' f' w₂ w₃)
    (hfit' : top + size.toNat + size'.toNat ≤ hi) :
    ∃ w', w₃.free (BitVec.ofNat 32 top) = some w' ∧ w'.state.err = .no ∧
      (⟨BitVec.ofNat 32 (top + size.toNat), size'⟩ : Chunk) ∉ w.live ∧
      w'.live = insert ⟨BitVec.ofNat 32 (top + size.toNat), size'⟩ w.live ∧ w'.mem = w₃.mem ∧
      w'.state.heap.Whole lo hi ∧ ∀ x : Word, lo ≤ x.toNat → x.toNat < top → w'.mem x = w.mem x := by
  have hlive : w₃.live = insert ⟨BitVec.ofNat 32 (top + size.toNat), size'⟩
      (insert ⟨BitVec.ofNat 32 top, size⟩ w.live) := by rw [hload'.live, hb.live, hload.live]
  have hmem : (⟨BitVec.ofNat 32 top, size⟩ : Chunk) ∈ w₃.live := by
    rw [hlive]
    exact Set.mem_insert_of_mem _ (Set.mem_insert _ _)
  have hnew := top_notMem hlo hhi hload.stacked (show top + size.toNat ≤ hi by omega) size'
  rw [hload.live, Set.mem_insert_iff, not_or] at hnew
  obtain ⟨w', hfree, hf, hw, herr⟩ := World.free_of_whole hlo hhi hload'.stacked.toWhole hmem
  refine ⟨w', hfree, herr.trans hload'.err, hnew.2, ?_, hf.mem, hw, fun x h1 h2 => ?_⟩
  · rw [hf.live, hlive, Set.insert_comm, Set.insert_sdiff_self_of_notMem]
    rw [Set.mem_insert_iff, not_or]
    exact ⟨fun he => hnew.1 he.symm, top_notMem hlo hhi hs (by omega) size⟩
  · rw [hf.mem, hload'.below x h1 (by omega), hb.kept x h1 (by omega), hload.below x h1 h2]

end

/-! ## A path on the volume -/

namespace Volume

variable (v : Volume)

/-- What a path leads to, in upper case and from the root directory. -/
def target (path : List Byte) : Target :=
  match components (fat12RegularfilenameToFilename path) with
  | [] => .missing
  | name :: rest => v.lookup v.root name rest

/-- No component is empty, and the path is sound from the root directory on. -/
def SoundPath (sure : Nat) (path : List Byte) : Prop :=
  [] ∉ components (fat12RegularfilenameToFilename path) ∧
    ∀ name rest, components (fat12RegularfilenameToFilename path) = name :: rest →
      v.Sound sure v.root name rest

end Volume

theorem mem_of_mem_splitOn {s c : List Byte} {a x : Byte} (hc : c ∈ s.splitOn a) (hx : x ∈ c) : x ∈ s := by
  have hs : [a].intercalate (s.splitOn a) = s := List.intercalate_splitOn a
  obtain ⟨i, hi⟩ := List.mem_iff_getElem?.mp hc
  have hmem : c ∈ (s.splitOn a).intersperse [a] :=
    List.mem_iff_getElem?.mpr ⟨2 * i, by rw [List.getElem?_intersperse_two_mul, hi]⟩
  rw [← hs]
  exact List.mem_flatten_of_mem hmem hx

theorem toupper_ne_zero : ∀ c : Byte, c ≠ 0 → toupper c ≠ 0 := by decide +kernel

/-- The components of a string hold no NUL. -/
theorem noNul_components {path : List Byte} (h : 0 ∉ path) {c : List Byte}
    (hc : c ∈ components (fat12RegularfilenameToFilename path)) : 0 ∉ c := by
  intro hx
  have hmem : 0 ∈ fat12RegularfilenameToFilename path := by
    have hskip := mem_of_mem_splitOn hc hx
    revert hskip
    cases fat12RegularfilenameToFilename path with
    | nil => exact id
    | cons b s =>
      rw [skipSlash]
      split
      · exact List.mem_cons_of_mem _
      · exact id
  obtain ⟨b, hb, hzero⟩ := List.mem_map.mp hmem
  exact toupper_ne_zero b (fun h0 => h (h0 ▸ hb)) hzero

section

variable {lo hi top sure : Nat} (hlo : 0 < lo) (hhi : hi < 2 ^ 32) {w : World}
  (hs : w.state.heap.Stacked lo hi top) (hno : w.state.err = .no)
  (hslots : w.live.ncard + 1 < chunkQty) {v : Volume} (hv : v.Standard sure) {drive : BitVec 8}
  {dr : DiskRead} (hr : ReadsUp lo hi sure drive 512 v.content dr) {disk : DiskPtr}
  (hdisk : HoldsDisk lo top ⟨drive, v.format⟩ disk w)
  (hroot : top + 512 * 18 + v.format.rootBytes ≤ hi)
  (hcluster : top + 512 * 18 + v.format.clusterBytes ≤ hi) (garbage : Word)
include hlo hhi hs hno hslots hv hr hdisk hroot hcluster

theorem fat12FileRead_gives {path : List Byte} (hlen : path.length < 512) (hnul : 0 ∉ path)
    (hpath : v.SoundPath sure path) :
    Gives lo hi top v w (v.target path)
      (fat12FileRead dr garbage (some disk) (some path) w) := by
  obtain ⟨name, rest, hsplit⟩ : ∃ name rest,
      components (fat12RegularfilenameToFilename path) = name :: rest :=
    List.exists_cons_of_ne_nil (List.splitOn_ne_nil _ _)
  have hnames : ∀ c ∈ name :: rest, c ≠ [] ∧ 0 ∉ c := by
    intro c hc
    rw [← hsplit] at hc
    exact ⟨fun h0 => hpath.1 (h0 ▸ hc), noNul_components hnul hc⟩
  have hsound := hpath.2 name rest hsplit
  have htarget : v.target path = v.lookup v.root name rest := by
    rw [Volume.target, hsplit]
  obtain ⟨size, w₁, hsize, e₁, hload⟩ := fat12ReadFats_loads hlo hhi hs hno (by omega) hv hr (by omega)
  have hsure := hv.sector
  have htop := top_toNat hhi (show top ≤ hi by omega)
  have hfats : HoldsFats lo (top + size.toNat) v (BitVec.ofNat 32 top) w₁ := by
    refine ⟨by rw [htop]; exact hs.bottom, by omega, fun i hi => hload.holds i (by omega)⟩
  have hdisk₁ : HoldsDisk lo (top + size.toNat) ⟨drive, v.format⟩ disk w₁ :=
    fun m hm => hdisk m fun x h1 h2 => (hm x h1 (by omega)).trans (hload.below x h1 h2)
  have hslots₁ : w₁.live.ncard < chunkQty := by
    rw [hload.live]
    have := Set.ncard_insert_le (⟨BitVec.ofNat 32 top, size⟩ : Chunk) w.live
    omega
  obtain ⟨rootSize, w₂, -, e₂, hload₂⟩ := fat12ReadRootDirectory_loads hlo hhi hload.stacked hload.err hslots₁ hv
    hr hdisk₁.here garbage (by omega)
  have hback : Back lo hi (top + size.toNat) w₁ w₁ := ⟨hload.stacked, rfl, fun _ _ _ => rfl⟩
  have hin := hback.loaded (d := v.root) rfl hload₂
  obtain ⟨r, hrun, hends⟩ := lookup_ends hlo hhi hload.stacked hslots₁ hv hr hfats hdisk₁ (by omega) garbage garbage
    rest name v.root (skipSlash (fat12RegularfilenameToFilename path)) w₂
    ((skipSlash (fat12RegularfilenameToFilename path)).length + 1) hin
    (show top + size.toNat + v.format.rootBytes ≤ hi by omega) hsplit hnames hsound (Nat.lt_succ_self _)
  have hlook : LooksUp dr garbage disk path w (BitVec.ofNat 32 top) r := by
    rw [← hdisk w.mem fun _ _ _ => rfl] at e₁
    refine ⟨w₁, e₁, hload.err, ?_⟩
    simp only [fat12GetEntryOfFilename, e₂, if_neg (not_not.mpr hload₂.err), Option.getD_some, hrun]
  rw [htarget]
  have hsingle := fun c => Volume.Sound.single (c := c) hsound
  generalize v.lookup v.root name rest = target at hends hsingle
  cases target with
  | file c =>
    obtain ⟨it, w₃, rfl, hb, herr, hdir, hfirst⟩ := hends
    have hc := hsingle c rfl
    rw [masked_cluster hc.last] at hfirst
    have hne : BitVec.ofNat 32 top ≠ 0 := top_ne_zero hlo hhi hs (by omega)
    obtain ⟨size', w₄, hsize', hread, hload'⟩ := fat12ReadEntry_loads hlo hhi hb.stacked herr
      (hb.live ▸ hslots₁) hv hr (hdisk₁.congr hb.kept) hc hne (hfats.back hb (by omega)) (Nat.le_refl _) garbage (by omega)
    obtain ⟨w', hfree, herr', hfresh, hlive, hmem, hw, hkept⟩ :=
      hload.fats hlo hhi hs (by omega) hb hload' (by omega)
    rw [fat12FileRead_tail hlen hno hlook, fileReadTail, if_neg (not_not.mpr herr),
      if_neg (by simp [hdir]), hfirst]
    simp only [hread, hfree]
    exact ⟨_, size', w', rfl, herr', hsize', hfresh, hlive, hmem ▸ hload'.holds, hw, hkept⟩
  | directory =>
    obtain ⟨it, w₃, rfl, hb, herr, hdir⟩ := hends
    obtain ⟨w', hfail, herr', hb'⟩ := Back.failure hlo hhi hs hload (by omega) hb
    rw [fat12FileRead_tail hlen hno hlook, fileReadTail, if_neg (not_not.mpr herr), if_pos hdir]
    exact ⟨w', hfail, herr'.trans herr, hb'⟩
  | missing =>
    obtain ⟨w₃, rfl, hb, herr⟩ := hends
    obtain ⟨w', hfail, herr', hb'⟩ := Back.failure hlo hhi hs hload (by omega) hb
    rw [fat12FileRead_tail hlen hno hlook, fileReadTail, if_pos (by simp [herr])]
    exact ⟨w', hfail, herr'.trans herr, hb'⟩
  | notADirectory =>
    obtain ⟨w₃, rfl, hb, herr⟩ := hends
    obtain ⟨w', hfail, herr', hb'⟩ := Back.failure hlo hhi hs hload (by omega) hb
    rw [fat12FileRead_tail hlen hno hlook, fileReadTail, if_pos (by simp [herr])]
    exact ⟨w', hfail, herr'.trans herr, hb'⟩

end

/-! ## `file_read` -/

theorem holdsDisk_diskAt {lo top : Nat} {disk : Word} (hlo : lo ≤ disk.toNat)
    (htop : disk.toNat + sizeofDisk ≤ top) (hend : top < 2 ^ 32) (w : World) :
    HoldsDisk lo top (diskAt disk w.mem).fat12 (diskAt disk) w :=
  fun _ hm => congrArg DiskT.fat12 (diskAt_below hlo htop hend hm)

/-- For every sound path, `file_read` gives what the path leads to on the volume. The `disk_t` is one of
the blocks in front of `top`. -/
theorem fileRead_volume {lo hi top : Nat} (hlo : 0x10000 ≤ lo) (hhi : hi + 2 ^ 26 ≤ 2 ^ 32) {w : World}
    (hs : w.state.heap.Stacked lo hi top) (hno : w.state.err = .no) (hslots : w.live.ncard + 1 < chunkQty)
    {disk : Word} (hbelow : lo ≤ disk.toNat) (habove : disk.toNat + sizeofDisk ≤ top) {d : DiskT}
    (hdisk : diskAt disk w.mem = d) (htype : d.type = .fat12) {content : Sectors} {bios : Bios}
    (hbios : Delivers d.id content bios) (hv : (d.volume content).Standard 4096)
    (hroot : top + 512 * 18 + d.info.rootBytes ≤ hi)
    (hcluster : top + 512 * 18 + d.info.clusterBytes ≤ hi) {path : List Byte}
    (hlen : path.length < 512) (hnul : 0 ∉ path) (hpath : (d.volume content).SoundPath 4096 path)
    (garbage : Word) :
    Gives lo hi top (d.volume content) w ((d.volume content).target path)
      (fileRead (diskRead bios) garbage disk (some path) w) := by
  have hne : disk ≠ 0 := by
    rintro rfl
    simp at hbelow
    omega
  have hguard : ¬ (disk = 0 ∨ some path = none) := fun h => h.elim hne (Option.some_ne_none path)
  have hr := diskRead_readsUp hlo hhi hbios
  have hholds := holdsDisk_diskAt hbelow habove (by omega) w
  rw [hdisk] at hholds
  rw [fileRead, if_neg hguard, diskPtr_of_ne_zero hne, hdisk]
  simp only [htype]
  exact fat12FileRead_gives (by omega) (by omega) hs hno hslots hv hr hholds hroot hcluster garbage hlen hnul hpath

/-- `/test/file.txt` -/
def samplePath : List Byte :=
  [0x2F, 0x74, 0x65, 0x73, 0x74, 0x2F, 0x66, 0x69, 0x6C, 0x65, 0x2E, 0x74, 0x78, 0x74]

theorem samplePath_components : components (fat12RegularfilenameToFilename samplePath) =
    [[0x54, 0x45, 0x53, 0x54], [0x46, 0x49, 0x4C, 0x45, 0x2E, 0x54, 0x58, 0x54]] := by decide

theorem sampleContent_target : (floppyDisk.volume sampleContent).target samplePath = .file 3 := by
  rw [Volume.target, samplePath_components]
  simp only
  rw [Volume.lookup_down sampleContent_root.2 (by decide),
    show ((floppyDisk.volume sampleContent).root.record 0).cluster = 2 by decide,
    Volume.lookup_file sampleContent_test.2 (by decide)]
  decide

theorem sampleContent_sound : (floppyDisk.volume sampleContent).SoundPath 4096 samplePath := by
  rw [Volume.SoundPath, samplePath_components]
  refine ⟨by decide, fun name rest hpath => ?_⟩
  cases hpath
  refine ⟨sampleContent_root.1 _ _ (by decide), fun r hr _ => ?_⟩
  cases Option.mem_unique hr sampleContent_root.2
  rw [show ((floppyDisk.volume sampleContent).root.record 0).cluster = 2 by decide]
  refine ⟨⟨by decide, by decide, by decide, by decide⟩, sampleContent_test.1 _ _ (by decide), fun r hr _ => ?_⟩
  cases Option.mem_unique hr sampleContent_test.2
  rw [show (((floppyDisk.volume sampleContent).subdirectory 2).record 0).cluster = 3 by decide]
  exact ⟨by decide, by decide, by decide, by decide⟩

/-- The cluster of `FILE.TXT`. -/
theorem sampleContent_file {i : Nat} (hi : i < 512) :
    (floppyDisk.volume sampleContent).clusterByte 3 i = 0x41 := by
  have hdiv : i / 512 = 0 := Nat.div_eq_of_lt hi
  have hbyte : (floppyDisk.volume sampleContent).clusterByte 3 i =
      sampleContent (34 + BitVec.ofNat 64 (i / 512)) (i % 512) := rfl
  rw [hbyte, hdiv]
  rfl

theorem fileRead_volume_subdirectory : ∃ w ptr size w', FloppyOpen w ∧
    fileRead (diskRead (idealBios sampleContent)) 0 0x00100000 (some samplePath) w = .done ptr w' ∧
      w'.live = insert ⟨ptr, size⟩ w.live ∧ w'.mem.Holds ptr 512 fun _ => 0x41 := by
  obtain ⟨w, hopen⟩ := floppy_open
  have h : Gives 0x00100000 0x001FFFFF 0x0010002C (floppyDisk.volume sampleContent) w
      ((floppyDisk.volume sampleContent).target samplePath)
      (fileRead (diskRead (idealBios sampleContent)) 0 0x00100000 (some samplePath) w) :=
    fileRead_volume (by decide) (by decide) hopen.stacked hopen.err
      (by rw [hopen.live, Set.ncard_singleton]; decide) (by decide) (by decide) hopen.disk rfl
      (idealBios_delivers floppyDisk.id sampleContent) (floppyDisk_standard sampleContent) (by decide) (by decide)
      (by decide) (by decide) sampleContent_sound 0
  rw [sampleContent_target] at h
  obtain ⟨ptr, size, w', hdone, -, -, -, hnew, hholds, -⟩ := h
  refine ⟨w, ptr, size, w', hopen, hdone, hnew, fun i hi => ?_⟩
  exact (hholds i hi).trans (sampleContent_file hi)

end Installer
end Amethyst
