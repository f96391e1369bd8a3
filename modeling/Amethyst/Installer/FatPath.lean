import Amethyst.Installer.Fault
import Amethyst.Loop
import Mathlib.Data.List.TakeWhile

/-!
# Amethyst.Installer.FatPath

Looking up a path (`fat12_find_entry`, `fat12_filename_tokenize`, `fat12_get_entry_of_filename`,
`fat12_read_directory`, `fat12_file_read` of `fat12.c`).

A path is the list of its bytes. The buffer that it is copied to has 512 bytes; the copy of a longer
one leaves it, and nothing is said of what happens then. A local pointer that is not assigned holds
`garbage`. A scan of a directory has no bound of its own and runs on through memory; after all slots of
the address space it is back where it was.

The `disk_t` is behind a pointer: each call that reads the disk is given what is there by then. A call
that is stopped at a division by zero does not return.

One pass of the `while (1)` of `fat12_get_entry_of_filename` is `lookupPass`, from one `Position` to
the next.
-/

namespace Amethyst
namespace Installer

/-! ## Directory slots -/

/-- The slots of 32 bytes, `sizeof(fat12_entry)`, that the address space has. -/
def addressSlots : Nat := 2 ^ 27

/-- `attributes.volume_label` -/
def isVolumeLabel (m : Mem 32) (slot : Word) : Bool := (m (slot + 11)).getLsbD 3

/-- `attributes.subdirectory` -/
def isSubdirectory (m : Mem 32) (slot : Word) : Bool := (m (slot + 11)).getLsbD 4

/-- `first_logical_cluster & 0xFFF` -/
def firstCluster (m : Mem 32) (slot : Word) : Cluster := m.read16 (slot + 26) &&& 0xFFF

def bytes (m : Mem 32) (a : Word) (n : Nat) : List Byte :=
  (List.range n).map fun i => m (a + BitVec.ofNat 32 i)

/-- What `fat12_clusterfilename_to_filename` stores before the final NUL: the name and the extension,
each up to its first blank, with a point between them unless the extension starts with a blank. -/
def clusterfilename (m : Mem 32) (src : Word) : List Byte :=
  (bytes m src 8).takeWhile (· ≠ 0x20) ++ (if m (src + 8) ≠ 0x20 then [0x2E] else []) ++
    (bytes m (src + 8) 3).takeWhile (· ≠ 0x20)

/-- `fat12_clusterfilename_to_filename`. Its `dest` is an array of the caller, so never `NULL`. -/
def fat12ClusterfilenameToFilename (src : Word) (w : World) : List Byte × World :=
  if src = 0 then ([], w.setErr .invarg) else (clusterfilename w.mem src, w)

/-- The string in an array that holds these bytes and a NUL. -/
def stringOf (array : List Byte) : List Byte := array.takeWhile (· ≠ 0)

theorem zero_notMem_stringOf (array : List Byte) : 0 ∉ stringOf array := by
  intro h
  have := List.mem_takeWhile_imp h
  simp at this

/-- `fat12_regularfilename_to_filename`, of a string. -/
def fat12RegularfilenameToFilename (src : List Byte) : List Byte := src.map toupper

/-- The loop of `fat12_find_entry`, for at most `n` slots. -/
def findEntryLoop (pEntry : Word) (name : List Byte) : Nat → Word → World → Result Word
  | 0, _, w => .lost w
  | n + 1, dir, w =>
    if w.mem dir = 0 then .done pEntry (w.setErr .notfound)
    -- `filename` is an array of `char`: the byte is compared with its sign
    else if (w.mem dir).signExtend 32 = (0xE5 : Word) then findEntryLoop pEntry name n (dir + 32) w
    else
      let (entryName, w) := fat12ClusterfilenameToFilename dir w
      if w.state.err ≠ .no then .done pEntry w
      else if strcmp (stringOf entryName) name = 0 then .done dir w
      else findEntryLoop pEntry name n (dir + 32) w

/-- No `char` equals `0xE5`: a deleted slot is not skipped. -/
theorem signExtend_ne_deleted : ∀ b : Byte, b.signExtend 32 ≠ (0xE5 : Word) := by decide +kernel

/-- `fat12_find_entry`, with `*pEntry` before and after. -/
def fat12FindEntry (pEntry dir : Word) (name : List Byte) (w : World) : Result Word :=
  if dir = 0 then .done pEntry (w.setErr .invarg)
  else findEntryLoop pEntry name addressSlots dir w

/-- `fat12_filename_tokenize`: the token that the string now is, and the next string, if any. -/
def fat12FilenameTokenize (filename : List Byte) (w : World) :
    List Byte × Option (List Byte) × World :=
  if filename = [] then ([], none, w.setErr .invarg)
  else
    let next := (filename.dropWhile (· ≠ 0x2F)).tail?
    (filename.takeWhile (· ≠ 0x2F), next, w)

/-! ## `fat12_get_entry_of_filename` -/

/-- `entries` and `current` at the head of the `while (1)`, and the world. -/
structure Position where
  entries : Word
  current : List Byte
  world : World

/-- `fat12_find_failure` -/
def fat12FindFailure (pEntry entries : Word) (w : World) : Result Word :=
  match w.free entries with
  | none => .lost w
  | some w => .done pEntry w

def lookupPass (dr : DiskRead) (garbage pEntry : Word) (disk : DiskPtr) (fats : Word) (p : Position) :
    Pass Position (Result Word) :=
  let (token, next, w) := fat12FilenameTokenize p.current p.world
  if w.state.err ≠ .no then .leave (.done pEntry w)
  else
    match fat12FindEntry garbage p.entries token w with
    | .lost w => .leave (.lost w)
    | .done it w =>
      if w.state.err ≠ .no then
        .leave (fat12FindFailure pEntry p.entries (w.setErr .notfound))
      else
        match next with
        | none =>
          match w.free p.entries with
          | none => .leave (.lost w)
          | some w => .leave (.done it w)
        | some current =>
          if !isSubdirectory w.mem it then
            .leave (fat12FindFailure pEntry p.entries (w.setErr .notadir))
          else
            let cluster := firstCluster w.mem it
            match w.free p.entries with
            | none => .leave (.lost w)
            | some w =>
              match disk.fat12ReadEntry dr p.entries fats cluster w with
              | none => .leave (.lost w)
              | some (entries, w) =>
                if w.state.err ≠ .no then .leave (.done pEntry w)
                else .next ⟨entries, current, w⟩

/-- `if (*filename == '/') filename++;` -/
def skipSlash : List Byte → List Byte
  | [] => []
  | c :: filename => if c = 0x2F then filename else c :: filename

/-- `fat12_get_entry_of_filename`, with `*pEntry` before and after. Each pass of the `while (1)` but
the last takes a character off the path. -/
def fat12GetEntryOfFilename (dr : DiskRead) (garbage pEntry : Word) (disk : Option DiskPtr)
    (fats : Word) (filename : Option (List Byte)) (w : World) : Result Word :=
  match disk, filename with
  | some disk, some filename =>
    match disk.fat12ReadRootDirectory dr garbage w with
    | none => .lost w
    | some (entries, w) =>
      if w.state.err ≠ .no then .done pEntry w
      else
        let p : Position := ⟨entries.getD garbage, skipSlash filename, w⟩
        (Loop.run (lookupPass dr garbage pEntry disk fats) (p.current.length + 1) p).getD (.lost w)
  | _, _ => .done pEntry (w.setErr .invarg)

/-! ## `fat12_read_directory` and `fat12_file_read` -/

/-- `fat12_read_directory`, with `*pEntry` before and after. -/
def fat12ReadDirectory (dr : DiskRead) (garbage pEntry : Word) (disk : DiskPtr) (dirname : List Byte)
    (w : World) : Result Word :=
  if 512 ≤ dirname.length then .lost w
  else
    let (fats, w) := fat12ReadFats dr (some (disk w.mem).fat12) w
    if w.state.err ≠ .no then .done pEntry w
    else
      match fat12GetEntryOfFilename dr garbage garbage (some disk) fats
        (some (fat12RegularfilenameToFilename dirname)) w with
      | .lost w => .lost w
      | .done entry w =>
        if w.state.err ≠ .no then .done pEntry w
        else if !isSubdirectory w.mem entry then .done pEntry (w.setErr .notadir)
        else
          match disk.fat12ReadEntry dr pEntry fats (firstCluster w.mem entry) w with
          | none => .lost w
          | some (entries, w) =>
            match w.free fats with
            | none => .lost w
            | some w => .done entries w

/-- `find_error`, `fats_error` and `not_a_file_error` of `fat12_file_read`. -/
def fileReadFailure (fats : Word) (w : World) : Result Word :=
  match w.free fats with
  | none => .lost w
  | some w => .done 0 w

def fat12FileRead (dr : DiskRead) (garbage : Word) (disk : Option DiskPtr)
    (filename : Option (List Byte)) (w : World) : Result Word :=
  match disk, filename with
  | some disk, some filename =>
    if 512 ≤ filename.length then .lost w
    else if w.state.err ≠ .no then .done 0 w
    else
      let (fats, w) := fat12ReadFats dr (some (disk w.mem).fat12) w
      if w.state.err ≠ .no then fileReadFailure fats w
      else
        match fat12GetEntryOfFilename dr garbage garbage (some disk) fats
          (some (fat12RegularfilenameToFilename filename)) w with
        | .lost w => .lost w
        | .done entry w =>
          if w.state.err ≠ .no then fileReadFailure fats w
          else if isSubdirectory w.mem entry then fileReadFailure fats w
          else
            match disk.fat12ReadEntry dr garbage fats (firstCluster w.mem entry) w with
            | none => .lost w
            | some (buffer, w) =>
              match w.free fats with
              | none => .lost w
              | some w => .done buffer w
  | _, _ => .done 0 (w.setErr .invarg)

end Installer
end Amethyst
