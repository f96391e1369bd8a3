import Amethyst.Installer.DisplayName
import Mathlib.Data.List.Find

/-!
# Amethyst.Installer.Volume

What a FAT12 volume holds, read off its sectors alone: the table, the root directory, the clusters, and
the slots of a directory up to its end marker. `Volume.lookup` goes down a path from one directory to the
next.

`Volume.Sound` is what the path has to meet for the lookup of the installer to agree: each directory on it
ends in time, its live slots are well formed, no dead slot reads as the name, and what is read has one
cluster.
-/

namespace Amethyst
namespace Installer

/-! ## Slots -/

/-- The 32 bytes of a slot. -/
abbrev Record := Nat → Byte

namespace Record

variable (r : Record)

def nameField : List Byte := (List.range 8).map r

def extensionField : List Byte := (List.range 3).map fun i => r (8 + i)

def isLabel : Bool := (r 11).getLsbD 3

def isDirectory : Bool := (r 11).getLsbD 4

def cluster : Cluster := r 27 ++ r 26

/-- Neither deleted nor a volume label. -/
def Live : Prop := r 0 ≠ 0xE5 ∧ ¬ r.isLabel

instance : Decidable r.Live := inferInstanceAs (Decidable (_ ∧ _))

/-- The name, and behind a point the extension if there is one. -/
def name : List Byte :=
  trimmed r.nameField ++
    if r.extensionField.all (· = 0x20) then [] else 0x2E :: trimmed r.extensionField

/-- What the fields read as when each is cut at its first blank, and the whole at a NUL. -/
def cut : List Byte :=
  stringOf (r.nameField.takeWhile (· ≠ 0x20) ++ (if r 8 ≠ 0x20 then [0x2E] else []) ++
    r.extensionField.takeWhile (· ≠ 0x20))

/-- The fields are padded with blanks, and hold no NUL. -/
structure WellFormed : Prop where
  name : Padded r.nameField
  extension : Padded r.extensionField
  noNul : ∀ c ∈ r.nameField ++ r.extensionField, c ≠ 0

end Record

/-! ## Directories -/

/-- The bytes of a directory. -/
structure Directory where
  byte : Nat → Byte
  size : Nat

namespace Directory

variable (d : Directory)

def record (i : Nat) : Record := fun k => d.byte (32 * i + k)

/-- The slots in front of the end marker. -/
def used : List Record := ((List.range (d.size / 32)).map d.record).takeWhile fun r => r 0 ≠ 0

def entries : List Record := d.used.filter fun r => r.Live

def find (name : List Byte) : Option Record := d.entries.find? fun r => r.name = name

/-- Within the first `sure` bytes the directory ends, and a lookup of the name by the cut fields is one
by the names of the entries. -/
structure Sound (sure : Nat) (name : List Byte) : Prop where
  marked : ∃ i, 32 * (i + 1) ≤ d.size ∧ 32 * (i + 1) ≤ sure ∧ d.byte (32 * i) = 0
  formed : ∀ r ∈ d.entries, r.WellFormed
  dead : ∀ r ∈ d.used, ¬ r.Live → r.cut ≠ name

end Directory

/-! ## Volumes -/

structure Volume where
  format : Fat12
  content : Sectors

/-- What a path leads to. -/
inductive Target where
  | file (cluster : Cluster)
  | directory
  | missing
  | notADirectory
deriving DecidableEq, Repr

namespace Volume

variable (v : Volume)

/-- The bytes from this sector on. -/
def region (lba : Nat) : Nat → Byte :=
  v.content.byte v.format.bytesPerSector.toNat (BitVec.ofNat 64 lba)

def fatByte : Nat → Byte := v.region v.format.reservedSectorCount.toNat

def fatEntry (c : Cluster) : BitVec 12 := entry12 v.fatByte c.toNat

def root : Directory where
  byte := v.region (v.format.reservedSectorCount.toNat + v.format.fatSectors)
  size := v.format.rootBytes

def clusterByte (c : Cluster) : Nat → Byte :=
  v.region (v.format.firstDataSector + (c.toNat - 2) * v.format.sectorPerCluster.toNat)

/-- The directory in a cluster. -/
def subdirectory (c : Cluster) : Directory := ⟨v.clusterByte c, v.format.clusterBytes⟩

/-- What the name and the rest of a path lead to. -/
def lookup (d : Directory) (name : List Byte) : List (List Byte) → Target
  | [] =>
    match d.find name with
    | none => .missing
    | some r => if r.isDirectory then .directory else .file r.cluster
  | next :: rest =>
    match d.find name with
    | none => .missing
    | some r => if r.isDirectory then lookup (v.subdirectory r.cluster) next rest else .notADirectory

/-- A chain of one cluster of the data area, whose entry starts in the first sector of the table. -/
structure Single (c : Cluster) : Prop where
  first : 2 ≤ c
  last : c < 0xFF8
  ends : 0xFF8 ≤ v.fatEntry c
  sector : c.toNat + c.toNat / 2 < v.format.bytesPerSector.toNat

/-- Each directory on the path is sound for the name that is looked up in it, and what is read on the way
and at the end has one cluster. -/
def Sound (sure : Nat) (d : Directory) (name : List Byte) : List (List Byte) → Prop
  | [] => d.Sound sure name ∧ ∀ r ∈ d.find name, ¬ r.isDirectory → v.Single r.cluster
  | next :: rest => d.Sound sure name ∧ ∀ r ∈ d.find name, r.isDirectory →
      v.Single r.cluster ∧ Sound sure (v.subdirectory r.cluster) next rest

section

variable {v : Volume} {d : Directory} {name next : List Byte} {rest : List (List Byte)} {r : Record}

theorem lookup_missing (h : d.find name = none) : v.lookup d name rest = .missing := by
  cases rest <;> simp [lookup, h]

theorem lookup_file (h : d.find name = some r) (hdir : r.isDirectory = false) :
    v.lookup d name [] = .file r.cluster := by simp [lookup, h, hdir]

theorem lookup_directory (h : d.find name = some r) (hdir : r.isDirectory = true) :
    v.lookup d name [] = .directory := by simp [lookup, h, hdir]

theorem lookup_notADirectory (h : d.find name = some r) (hdir : r.isDirectory = false) :
    v.lookup d name (next :: rest) = .notADirectory := by simp [lookup, h, hdir]

theorem lookup_down (h : d.find name = some r) (hdir : r.isDirectory = true) :
    v.lookup d name (next :: rest) = v.lookup (v.subdirectory r.cluster) next rest := by
  rw [lookup]
  simp [h, hdir]

/-- The file at the end of a sound path has one cluster. By induction on the components. -/
theorem Sound.single {sure : Nat} {c : Cluster} : ∀ {rest : List (List Byte)} {name : List Byte}
    {d : Directory}, v.Sound sure d name rest → v.lookup d name rest = .file c → v.Single c := by
  intro rest
  induction rest with
  | nil =>
    intro name d h hfile
    cases hfind : d.find name with
    | none =>
      rw [lookup_missing hfind] at hfile
      cases hfile
    | some r =>
      cases hdir : r.isDirectory with
      | true =>
        rw [lookup_directory hfind hdir] at hfile
        cases hfile
      | false =>
        rw [lookup_file hfind hdir] at hfile
        cases hfile
        exact h.2 r hfind (by simp [hdir])
  | cons next rest ih =>
    intro name d h hfile
    cases hfind : d.find name with
    | none =>
      rw [lookup_missing hfind] at hfile
      cases hfile
    | some r =>
      cases hdir : r.isDirectory with
      | true =>
        rw [lookup_down hfind hdir] at hfile
        exact ih (h.2 r hfind hdir).2 hfile
      | false =>
        rw [lookup_notADirectory hfind hdir] at hfile
        cases hfile

end

end Volume

/-! ## The cut fields -/

theorem stringOf_of_noNul {array : List Byte} (h : ∀ c ∈ array, c ≠ 0) : stringOf array = array :=
  List.takeWhile_eq_self_iff.mpr fun c hc => decide_eq_true (h c hc)

namespace Record

variable {r : Record}

theorem extensionField_eq : r.extensionField = [r 8, r 9, r 10] := rfl

/-- The extension is blank when its first byte is. -/
theorem WellFormed.blank_iff (h : r.WellFormed) : r 8 = 0x20 ↔ ∀ c ∈ r.extensionField, c = 0x20 := by
  constructor
  · intro hfirst
    have hpad := h.extension
    rw [Padded, extensionField_eq, List.dropWhile_cons_of_neg (by simpa using hfirst)] at hpad
    exact hpad
  · intro hall
    exact hall _ List.mem_cons_self

theorem WellFormed.fields_noNul (h : r.WellFormed) :
    ∀ c ∈ r.nameField.takeWhile (· ≠ 0x20) ++ (if r 8 ≠ 0x20 then [0x2E] else []) ++
      r.extensionField.takeWhile (· ≠ 0x20), c ≠ 0 := by
  intro c hc
  rw [List.mem_append, List.mem_append] at hc
  rcases hc with (hc | hc) | hc
  · exact h.noNul c (List.mem_append_left _ ((List.takeWhile_prefix _).subset hc))
  · split at hc
    · rw [List.mem_singleton.mp hc]
      decide
    · cases hc
  · exact h.noNul c (List.mem_append_right _ ((List.takeWhile_prefix _).subset hc))

/-- Cut at its blanks a well-formed slot reads as its name. -/
theorem WellFormed.cut_eq (h : r.WellFormed) : r.cut = r.name := by
  rw [cut, stringOf_of_noNul h.fields_noNul, Record.name, ← h.name.eq_append.2, ← h.extension.eq_append.2, List.append_assoc]
  have hall : r.extensionField.all (· = 0x20) ↔ r 8 = 0x20 := by
    rw [h.blank_iff]
    simp
  simp only [hall]
  by_cases hblank : r 8 = 0x20
  · rw [if_neg (not_not.mpr hblank), if_pos hblank, trimmed_of_blank (h.blank_iff.mp hblank)]
    rfl
  · rw [if_pos hblank, if_neg hblank]
    rfl

end Record

/-! ## The first slot of a name -/

namespace Directory

variable {d : Directory} {sure : Nat} {name : List Byte}

/-- The slots in front of the first marker. -/
theorem used_eq {k : Nat} (hk : k < d.size / 32) (hused : ∀ i < k, d.byte (32 * i) ≠ 0)
    (hmark : d.byte (32 * k) = 0) : d.used = (List.range k).map d.record := by
  obtain ⟨n, hn⟩ : ∃ n, d.size / 32 = k + (n + 1) := ⟨d.size / 32 - k - 1, by omega⟩
  have hfirst : ∀ r ∈ (List.range k).map d.record, decide (r 0 ≠ 0) = true := by
    intro r hr
    obtain ⟨i, hi, rfl⟩ := List.mem_map.mp hr
    exact decide_eq_true (hused i (List.mem_range.mp hi))
  rw [used, hn, List.range_add, List.map_append, List.takeWhile_append_of_pos hfirst, List.range_succ_eq_map,
    List.map_cons, List.map_cons, List.takeWhile_cons_of_neg (by simpa [record] using hmark), List.append_nil]

section

variable (hsize : 64 ≤ d.size) (hfirst : d.byte 0 ≠ 0) (hmark : d.byte 32 = 0) (hlive : (d.record 0).Live)
include hsize hfirst hmark hlive

/-- A directory of one entry. -/
theorem entries_one : d.used = [d.record 0] ∧ d.entries = [d.record 0] := by
  have hused : d.used = [d.record 0] := by
    refine used_eq (show 1 < d.size / 32 by omega) (fun i hi => ?_) hmark
    obtain rfl : i = 0 := by omega
    exact hfirst
  refine ⟨hused, ?_⟩
  rw [entries, hused]
  simp [hlive]

theorem find_one (hname : (d.record 0).name = name) : d.find name = some (d.record 0) := by
  rw [find, (entries_one hsize hfirst hmark hlive).2]
  simp [hname]

theorem sound_one (hsure : 64 ≤ sure) (hformed : (d.record 0).WellFormed) : d.Sound sure name := by
  obtain ⟨hused, hentries⟩ := entries_one hsize hfirst hmark hlive
  refine ⟨⟨1, hsize, hsure, hmark⟩, fun r hr => ?_, fun r hr hdead => ?_⟩
  · rw [hentries, List.mem_singleton] at hr
    exact hr ▸ hformed
  · rw [hused, List.mem_singleton] at hr
    exact absurd (hr ▸ hlive) hdead

end

/-- A lookup by the cut fields of all slots finds the entry of that name. -/
theorem Sound.find_eq (h : d.Sound sure name) :
    d.find name = d.used.find? fun r => r.cut = name := by
  rw [find, entries, List.find?_filter]
  refine List.find?_congr fun r hr => ?_
  by_cases hlive : r.Live
  · have hformed := h.formed r (List.mem_filter.mpr ⟨hr, decide_eq_true hlive⟩)
    simp [hlive, hformed.cut_eq]
  · simp [hlive, h.dead r hr hlive]

/-- The first marker. -/
theorem first_marker (hmarked : ∃ i, 32 * (i + 1) ≤ d.size ∧ 32 * (i + 1) ≤ sure ∧ d.byte (32 * i) = 0) :
    ∃ k, 32 * (k + 1) ≤ sure ∧ 32 * (k + 1) ≤ d.size ∧ (∀ i < k, d.byte (32 * i) ≠ 0) ∧
      d.byte (32 * k) = 0 := by
  obtain ⟨i, hsize, hsure, hzero⟩ := hmarked
  have hex : ∃ k, d.byte (32 * k) = 0 := ⟨i, hzero⟩
  have hle : Nat.find hex ≤ i := Nat.find_min' hex hzero
  exact ⟨Nat.find hex, by omega, by omega, fun j hj => Nat.find_min hex hj, Nat.find_spec hex⟩

/-- The index of the first slot of the name, if any, among the slots in front of the marker. -/
theorem Sound.find_index (h : d.Sound sure name) : ∃ k, 32 * (k + 1) ≤ sure ∧ 32 * (k + 1) ≤ d.size ∧
    (∀ i < k, d.byte (32 * i) ≠ 0) ∧ d.byte (32 * k) = 0 ∧
    d.find name = ((List.range k).find? fun i => (d.record i).cut = name).map d.record := by
  obtain ⟨k, hsure, hsize, hused, hmark⟩ := first_marker h.marked
  refine ⟨k, hsure, hsize, hused, hmark, ?_⟩
  rw [h.find_eq, used_eq (by omega) hused hmark, List.find?_map]
  rfl

end Directory
end Installer
end Amethyst
