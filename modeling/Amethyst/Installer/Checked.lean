import Amethyst.Installer.FatDir

/-!
# Amethyst.Installer.Checked

The calls of the reader (`fat12.c`, `file.c`, `dir.c`) with the fault of the processor at a division by
zero: `Checked.f` is `f`, and says where a division has stopped it. `Checked.Spec`: it computes what `f`
does until a field that is zero stops it.
-/

namespace Amethyst
namespace Installer

namespace Checked

variable {σ ρ : Type}

/-- `Loop.run` -/
def run (pass : σ → Checked (Pass σ ρ)) : Nat → σ → Checked (Option ρ)
  | 0, _ => ok none
  | n + 1, s => do
    match ← pass s with
    | .leave r => ok (some r)
    | .next s => run pass n s

/-! ## The reader -/

def lookupPass (dr : DiskRead) (garbage pEntry : Word) (disk : DiskPtr) (fats : Word) (p : Position) :
    Checked (Pass Position (Result Word)) :=
  let (token, next, w) := fat12FilenameTokenize p.current p.world
  if w.state.err ≠ .no then ok (.leave (.done pEntry w))
  else
    match fat12FindEntry garbage p.entries token w with
    | .lost w => ok (.leave (.lost w))
    | .done it w =>
      if w.state.err ≠ .no then
        ok (.leave (fat12FindFailure pEntry p.entries (w.setErr .notfound)))
      else
        match next with
        | none =>
          match w.free p.entries with
          | none => ok (.leave (.lost w))
          | some w => ok (.leave (.done it w))
        | some current =>
          if !isSubdirectory w.mem it then
            ok (.leave (fat12FindFailure pEntry p.entries (w.setErr .notadir)))
          else
            let cluster := firstCluster w.mem it
            match w.free p.entries with
            | none => ok (.leave (.lost w))
            | some w => do
              match ← fat12ReadEntry dr clusterValues p.entries (some disk) fats cluster w with
              | none => ok (.leave (.lost w))
              | some (entries, w) =>
                if w.state.err ≠ .no then ok (.leave (.done pEntry w))
                else ok (.next ⟨entries, current, w⟩)

def fat12GetEntryOfFilename (dr : DiskRead) (garbage pEntry : Word) (disk : Option DiskPtr) (fats : Word)
    (filename : Option (List Byte)) (w : World) : Checked (Result Word) :=
  match disk, filename with
  | some disk, some filename => do
    match ← fat12ReadRootDirectory dr (some garbage) (some (disk w.mem).fat12) w with
    | none => ok (.lost w)
    | some (entries, w) =>
      if w.state.err ≠ .no then ok (.done pEntry w)
      else
        let p : Position := ⟨entries.getD garbage, skipSlash filename, w⟩
        let r ← run (lookupPass dr garbage pEntry disk fats) (p.current.length + 1) p
        ok (r.getD (.lost w))
  | _, _ => ok (.done pEntry (w.setErr .invarg))

def fat12ReadDirectory (dr : DiskRead) (garbage pEntry : Word) (disk : DiskPtr) (dirname : List Byte)
    (w : World) : Checked (Result Word) :=
  if 512 ≤ dirname.length then ok (.lost w)
  else
    let (fats, w) := fat12ReadFats dr (some (disk w.mem).fat12) w
    if w.state.err ≠ .no then ok (.done pEntry w)
    else do
      match ← fat12GetEntryOfFilename dr garbage garbage (some disk) fats
        (some (fat12RegularfilenameToFilename dirname)) w with
      | .lost w => ok (.lost w)
      | .done entry w =>
        if w.state.err ≠ .no then ok (.done pEntry w)
        else if !isSubdirectory w.mem entry then ok (.done pEntry (w.setErr .notadir))
        else
          match ← fat12ReadEntry dr clusterValues pEntry (some disk) fats (firstCluster w.mem entry)
            w with
          | none => ok (.lost w)
          | some (entries, w) =>
            match w.free fats with
            | none => ok (.lost w)
            | some w => ok (.done entries w)

def fat12FileRead (dr : DiskRead) (garbage : Word) (disk : Option DiskPtr)
    (filename : Option (List Byte)) (w : World) : Checked (Result Word) :=
  match disk, filename with
  | some disk, some filename =>
    if 512 ≤ filename.length then ok (.lost w)
    else if w.state.err ≠ .no then ok (.done 0 w)
    else
      let (fats, w) := fat12ReadFats dr (some (disk w.mem).fat12) w
      if w.state.err ≠ .no then ok (fileReadFailure fats w)
      else do
        match ← fat12GetEntryOfFilename dr garbage garbage (some disk) fats
          (some (fat12RegularfilenameToFilename filename)) w with
        | .lost w => ok (.lost w)
        | .done entry w =>
          if w.state.err ≠ .no then ok (fileReadFailure fats w)
          else if isSubdirectory w.mem entry then ok (fileReadFailure fats w)
          else
            match ← fat12ReadEntry dr clusterValues garbage (some disk) fats
              (firstCluster w.mem entry) w with
            | none => ok (.lost w)
            | some (buffer, w) =>
              match w.free fats with
              | none => ok (.lost w)
              | some w => ok (.done buffer w)
  | _, _ => ok (.done 0 (w.setErr .invarg))

def readRoot (dr : DiskRead) (garbage : Word) (disk : DiskPtr) (w : World) : Checked (Result Word) := do
  match ← fat12ReadRootDirectory dr (some garbage) (some (disk w.mem).fat12) w with
  | none => ok (.lost w)
  | some (entries, w) => ok (.done (entries.getD garbage) w)

def readEntries (dr : DiskRead) (garbage : Word) (disk : DiskPtr) (dirname : Option (List Byte))
    (w : World) : Checked (Result Word) :=
  match dirname with
  | none => readRoot dr garbage disk w
  | some dirname =>
    if strcmp dirname rootName = 0 then readRoot dr garbage disk w
    else fat12ReadDirectory dr garbage garbage disk dirname w

def fat12DirOpen (dr : DiskRead) (garbage : Word) (disk : Option DiskPtr) (dir : Word)
    (dirname : Option (List Byte)) (w : World) : Checked (Result Word) :=
  match disk with
  | none => ok (.done 0 (w.setErr .invarg))
  | some disk =>
    if (disk w.mem).type ≠ .fat12 ∨ dir = 0 then ok (.done 0 (w.setErr .invarg))
    else do
      match ← readEntries dr garbage disk dirname w with
      | .lost w => ok (.lost w)
      | .done entries w =>
        if w.state.err ≠ .no then ok (.done 0 w)
        else
          match countEntries w.mem addressSlots entries 0 with
          | none => ok (.lost w)
          | some count =>
            let w := w.store32 (dir + 8) count
            let (listing, w) := w.malloc (count * dirEntrySize)
            let w := w.store32 (dir + 4) listing
            if w.state.err ≠ .no then ok (.done 0 w)
            else
              match fillEntries listing count addressSlots entries 0 w with
              | none => ok (.lost w)
              | some w =>
                match w.free entries with
                | none => ok (.lost w)
                | some w => ok (.done dir w)

def dirOpen (dr : DiskRead) (garbage disk : Word) (dirname : Option (List Byte)) (w : World) :
    Checked (Result Word) :=
  let (dir, w) := w.malloc dirSize
  if dir = 0 then ok (.done 0 w)
  else
    let w := w.store32 dir disk
    match (diskAt disk w.mem).type with
    | .fat12 => fat12DirOpen dr garbage (diskPtr disk) dir dirname w
    | .unknown => ok (.done 0 w)

end Checked

/-- `file_read` -/
def fileRead (dr : DiskRead) (garbage disk : Word) (filename : Option (List Byte)) (w : World) :
    Result Word :=
  if disk = 0 ∨ filename = none then .done 0 w
  else
    match (diskAt disk w.mem).type with
    | .fat12 => fat12FileRead dr garbage (diskPtr disk) filename w
    | .unknown => .done 0 (w.setErr .unknfs)

def Checked.fileRead (dr : DiskRead) (garbage disk : Word) (filename : Option (List Byte)) (w : World) :
    Checked (Result Word) :=
  if disk = 0 ∨ filename = none then ok (.done 0 w)
  else
    match (diskAt disk w.mem).type with
    | .fat12 => Checked.fat12FileRead dr garbage (diskPtr disk) filename w
    | .unknown => ok (.done 0 (w.setErr .unknfs))

/-! ## What the reader keeps -/

/-- A property of the world that no step of the reader breaks. -/
structure Kept (dr : DiskRead) (P : World → Prop) : Prop where
  setErr : ∀ w e, P w → P (w.setErr e)
  malloc : ∀ w size, P w → P (w.malloc size).2
  free : ∀ w ptr w', P w → w.free ptr = some w' → P w'
  diskRead : ∀ w drive ptr count lba, P w → P (w.diskRead dr drive ptr count lba).2

/-- The world that a pass of a loop has come to. -/
def passWorld : Pass Position (Result Word) → World
  | .next p => p.world
  | .leave r => r.world

section

variable {dr : DiskRead} {P : World → Prop} (hP : Kept dr P)
include hP

theorem Kept.fat12FindFailure {w : World} (hw : P w) (pEntry entries : Word) :
    P (fat12FindFailure pEntry entries w).world := by
  rw [Installer.fat12FindFailure]
  cases hf : w.free entries with
  | none => exact hw
  | some w' => exact hP.free _ _ _ hw hf

theorem Kept.fileReadFailure {w : World} (hw : P w) (fats : Word) : P (fileReadFailure fats w).world := by
  rw [Installer.fileReadFailure]
  cases hf : w.free fats with
  | none => exact hw
  | some w' => exact hP.free _ _ _ hw hf

/-- By induction on the slots. -/
theorem Kept.findEntryLoop (pEntry : Word) (name : List Byte) : ∀ (n : Nat) (dir : Word) (w : World),
    P w → P (findEntryLoop pEntry name n dir w).world := by
  intro n
  induction n with
  | zero => exact fun _ _ hw => hw
  | succ n ih =>
    intro dir w hw
    have hname : P (fat12ClusterfilenameToFilename dir w).2 := by
      rw [fat12ClusterfilenameToFilename]
      split
      · exact hP.setErr _ _ hw
      · exact hw
    simp only [Installer.findEntryLoop]
    split
    · exact hP.setErr _ _ hw
    split
    · exact ih _ _ hw
    split
    · exact hname
    split
    · exact hname
    · exact ih _ _ hname

theorem Kept.fat12FindEntry {w : World} (hw : P w) (pEntry dir : Word) (name : List Byte) :
    P (fat12FindEntry pEntry dir name w).world := by
  rw [Installer.fat12FindEntry]
  split
  · exact hP.setErr _ _ hw
  · exact hP.findEntryLoop pEntry name _ _ w hw

theorem Kept.fat12ReadFats {w : World} (hw : P w) (disk : Option Disk) : P (fat12ReadFats dr disk w).2 := by
  cases disk with
  | none => exact hP.setErr _ _ hw
  | some disk =>
    simp only [Installer.fat12ReadFats]
    split
    · exact hP.malloc _ _ hw
    · exact hP.diskRead _ _ _ _ _ (hP.malloc _ _ hw)

end

/-! ## Where a computation is stopped -/

namespace Checked

variable {α β : Type}

/-- The computation does what `a` says, which meets `R`, or is stopped where the field is zero and `P`
still holds. -/
structure Spec (disk : DiskPtr) (P : World → Prop) (x : Checked α) (a : α) (R : α → Prop) : Prop where
  post : R a
  agrees : x = ok a ∨ ∃ w, x = divideError w ∧ P w ∧ (disk w.mem).info.bytesPerSector = 0

section

variable {disk : DiskPtr} {P : World → Prop} {R : α → Prop} {S : β → Prop}

theorem Spec.ok {a : α} (h : R a) : Spec disk P (ok a) a R := ⟨h, .inl rfl⟩

theorem Spec.bind {x : Checked α} {a : α} {f : α → Checked β} {b : β} (h : Spec disk P x a R)
    (hf : R a → Spec disk P (f a) b S) : Spec disk P (x >>= f) b S := by
  obtain ⟨hpost, hagrees⟩ := hf h.post
  refine ⟨hpost, ?_⟩
  rcases h.agrees with rfl | ⟨w, rfl, hw⟩
  · exact hagrees
  · exact .inr ⟨w, rfl, hw⟩

/-- Nothing is returned by a call that is stopped. -/
theorem Spec.returned {x : Checked (Option α)} {a : Option α} {R : Option α → Prop}
    (h : Spec disk P x a R) (hnone : R none) : Spec disk P x x.returned R := by
  rcases h.agrees with rfl | ⟨w, rfl, hw⟩
  · exact h
  · exact ⟨hnone, .inr ⟨w, rfl, hw⟩⟩

/-- By induction on the passes. -/
theorem run_spec {pass : Position → Checked (Pass Position (Result Word))}
    {pass' : Position → Pass Position (Result Word)}
    (hpass : ∀ p, P p.world → Spec disk P (pass p) (pass' p) fun r => P (passWorld r)) :
    ∀ (n : Nat) (p : Position), P p.world →
      Spec disk P (run pass n p) (Loop.run pass' n p) fun r => ∀ a, r = some a → P a.world := by
  intro n
  induction n with
  | zero =>
    intro p _
    refine .ok fun a h => ?_
    cases h
  | succ n ih =>
    intro p hp
    refine (hpass p hp).bind fun hpost => ?_
    rw [Loop.run]
    cases hr : pass' p with
    | leave r =>
      rw [hr] at hpost
      refine .ok fun a h => ?_
      cases h
      exact hpost
    | next q =>
      rw [hr] at hpost
      exact ih q hpost

variable {w : World} (hw : P w) {d : Disk} (hd : (disk w.mem).fat12 = d)
include hw hd

theorem divisor_eq_zero (h : d.info.bytesPerSector.setWidth 32 = (0 : Word)) :
    P w ∧ (disk w.mem).info.bytesPerSector = 0 := by
  subst hd
  refine ⟨hw, BitVec.eq_of_toNat_eq ?_⟩
  have h0 := congrArg BitVec.toNat h
  rwa [BitVec.toNat_setWidth_of_le (by decide)] at h0

theorem divide_spec (a : Word) : Spec disk P (divide w a (d.info.bytesPerSector.setWidth 32))
    (a / d.info.bytesPerSector.setWidth 32) fun _ => True := by
  refine ⟨trivial, ?_⟩
  rw [divide]
  split
  · rename_i h
    exact .inr ⟨w, rfl, divisor_eq_zero hw hd h⟩
  · exact .inl rfl

theorem remainder_spec (a : Word) : Spec disk P (remainder w a (d.info.bytesPerSector.setWidth 32))
    (a % d.info.bytesPerSector.setWidth 32) fun _ => True := by
  refine ⟨trivial, ?_⟩
  rw [remainder]
  split
  · rename_i h
    exact .inr ⟨w, rfl, divisor_eq_zero hw hd h⟩
  · exact .inl rfl

theorem nextCluster_spec (fats : Word) (cluster : Cluster) : Spec disk P (nextCluster d.info fats w cluster)
    (Installer.nextCluster d.info fats w.mem cluster) fun _ => True := by
  rw [nextCluster]
  refine (divide_spec hw hd _).bind fun _ => (remainder_spec hw hd _).bind fun _ => ?_
  exact .ok trivial

theorem clusterToLba_spec (cluster : Cluster) : Spec disk P (clusterToLba d.info cluster w)
    (Installer.clusterToLba d.info cluster) fun _ => True := by
  rw [clusterToLba]
  exact (divide_spec hw hd _).bind fun _ => .ok trivial

theorem fat12ClusterToLba_spec (cluster : Cluster) : Spec disk P (fat12ClusterToLba (some d) cluster w)
    (Installer.fat12ClusterToLba (some d) cluster w) fun _ => True := by
  rw [fat12ClusterToLba]
  exact (clusterToLba_spec hw hd cluster).bind fun _ => .ok trivial

end

section

variable {dr : DiskRead} {P : World → Prop} (hP : Kept dr P) {disk : DiskPtr}
include hP

/-- Neither the memory nor the property changes. -/
theorem fat12NextCluster_spec {w : World} (hw : P w) {d : Disk} (hd : (disk w.mem).fat12 = d) (fats : Word)
    (cluster : Cluster) : Spec disk P (fat12NextCluster (some d) fats cluster w)
      (Installer.fat12NextCluster (some d) fats cluster w) fun r => P r.2 ∧ r.2.mem = w.mem := by
  simp only [fat12NextCluster, Installer.fat12NextCluster]
  split
  · exact .ok ⟨hP.setErr _ _ hw, rfl⟩
  · exact (nextCluster_spec hw hd fats cluster).bind fun _ => .ok ⟨hw, rfl⟩

/-- By induction on the fuel. -/
theorem countClusters_spec {d : Disk} (fats : Word) : ∀ (fuel : Nat) (current : Cluster) (size : Word)
    (w : World), P w → (disk w.mem).fat12 = d →
    Spec disk P (countClusters d fats fuel current size w)
      (Installer.countClusters d fats fuel current size w)
      fun r => ∀ s w', r = some (s, w') → P w' ∧ w'.mem = w.mem := by
  intro fuel
  induction fuel with
  | zero =>
    intro current size w _ _
    refine .ok fun s w' h => ?_
    cases h
  | succ fuel ih =>
    intro current size w hw hd
    rw [countClusters, Installer.countClusters]
    split
    · refine (fat12NextCluster_spec hP hw hd fats current).bind fun hnext => ?_
      obtain ⟨⟨next, w₁⟩, e⟩ : ∃ r, Installer.fat12NextCluster (some d) fats current w = r := ⟨_, rfl⟩
      rw [e] at hnext ⊢
      obtain ⟨hw₁, hmem⟩ := hnext
      have hrest := ih next (size + 1) w₁ hw₁ (by rw [hmem, hd])
      exact ⟨fun s w' h => hmem ▸ hrest.post s w' h, hrest.agrees⟩
    · refine .ok fun s w' h => ?_
      cases h
      exact ⟨hw, rfl⟩

theorem fat12ReadRootDirectory_spec {w : World} (hw : P w) (pOutput : Option Word) :
    Spec disk P (fat12ReadRootDirectory dr pOutput (some (disk w.mem).fat12) w)
      (Installer.fat12ReadRootDirectory dr pOutput (some (disk w.mem).fat12) w)
      fun r => ∀ o w', r = some (o, w') → P w' := by
  cases pOutput with
  | none =>
    refine .ok fun o w' h => ?_
    cases h
    exact hP.setErr _ _ hw
  | some pOutput =>
    simp only [fat12ReadRootDirectory, Installer.fat12ReadRootDirectory]
    refine (divide_spec hw rfl _).bind fun _ => ?_
    generalize e : w.malloc _ = r
    obtain ⟨output, w₁⟩ := r
    have hw₁ : P w₁ := (congrArg (P ·.2) e).mp (hP.malloc _ _ hw)
    simp only
    split
    · refine .ok fun o w' h => ?_
      cases h
      exact hw₁
    have hw₂ := fun drive count lba => hP.diskRead _ drive output count lba hw₁
    split
    · refine .ok fun o w' h => ?_
      obtain ⟨w'', hfree, he⟩ := Option.map_eq_some_iff.mp h
      cases he
      exact hP.free _ _ _ (hw₂ _ _ _) hfree
    · refine .ok fun o w' h => ?_
      cases h
      exact hw₂ _ _ _

theorem fat12ReadEntry_spec {w : World} (hw : P w) (fuel : Nat) (pOutput fats : Word) (start : Cluster) :
    Spec disk P (fat12ReadEntry dr fuel pOutput (some disk) fats start w)
      (Installer.fat12ReadEntry dr fuel pOutput (some (disk w.mem).fat12) fats start w)
      fun r => ∀ o w', r = some (o, w') → P w' := by
  simp only [fat12ReadEntry, Installer.fat12ReadEntry]
  by_cases hguard : fats = 0 ∨ 0xFF8 ≤ start
  · rw [if_pos hguard, if_pos hguard]
    refine .ok fun o w' h => ?_
    cases h
    exact hP.setErr _ _ hw
  rw [if_neg hguard, if_neg hguard]
  refine (countClusters_spec hP fats fuel start 0 w hw rfl).bind fun hcount => ?_
  cases hc : Installer.countClusters (disk w.mem).fat12 fats fuel start 0 w with
  | none =>
    refine .ok fun o w' h => ?_
    cases h
  | some r =>
    obtain ⟨size, w₁⟩ := r
    obtain ⟨hw₁, hmem⟩ := hcount size w₁ hc
    simp only
    generalize e : w₁.malloc _ = r
    obtain ⟨output, w₂⟩ := r
    have hw₂ : P w₂ := (congrArg (P ·.2) e).mp (hP.malloc _ _ hw₁)
    have hmem₂ : w₂.mem = w.mem := (congrArg (·.2.mem) e).symm.trans hmem
    simp only
    split
    · refine .ok fun o w' h => ?_
      cases h
      exact hw₂
    rw [hmem₂]
    refine (fat12ClusterToLba_spec hw₂ (by rw [hmem₂]) start).bind fun _ => ?_
    simp only [Installer.fat12ClusterToLba, hmem₂]
    obtain ⟨⟨status, w₃⟩, e₃⟩ : ∃ r, w₂.diskRead dr (disk w.mem).fat12.id
        (output + (0 : BitVec 16).setWidth 32) ((disk w.mem).fat12.info.sectorPerCluster.setWidth 16)
        (Installer.clusterToLba (disk w.mem).fat12.info start) = r := ⟨_, rfl⟩
    have hw₃ : P w₃ := (congrArg (P ·.2) e₃).mp (hP.diskRead _ _ _ _ _ hw₂)
    simp only [e₃]
    split
    · refine .ok fun o w' h => ?_
      obtain ⟨w'', hfree, he⟩ := Option.map_eq_some_iff.mp h
      cases he
      exact hP.setErr _ _ (hP.free _ _ _ hw₃ hfree)
    -- what the last call gives is not used
    have hfats : fats ≠ 0 := fun h0 => hguard (.inl h0)
    refine (fat12NextCluster_spec hP hw₃ rfl fats start).bind fun _ => ?_
    simp only [Installer.fat12NextCluster, if_neg hfats]
    refine .ok fun o w' h => ?_
    cases h
    exact hw₃

theorem rootDirectory_spec {w : World} (hw : P w) (garbage : Word) :
    Spec disk P (fat12ReadRootDirectory dr (some garbage) (some (disk w.mem).fat12) w)
      (disk.fat12ReadRootDirectory dr garbage w) fun r => ∀ o w', r = some (o, w') → P w' :=
  (fat12ReadRootDirectory_spec hP hw (some garbage)).returned (by simp)

theorem entry_spec {w : World} (hw : P w) (pOutput fats : Word) (start : Cluster) :
    Spec disk P (fat12ReadEntry dr clusterValues pOutput (some disk) fats start w)
      (disk.fat12ReadEntry dr pOutput fats start w) fun r => ∀ o w', r = some (o, w') → P w' :=
  (fat12ReadEntry_spec hP hw clusterValues pOutput fats start).returned (by simp)

theorem lookupPass_spec (garbage pEntry fats : Word) {p : Position} (hp : P p.world) :
    Spec disk P (lookupPass dr garbage pEntry disk fats p)
      (Installer.lookupPass dr garbage pEntry disk fats p) fun r => P (passWorld r) := by
  have htok : P (fat12FilenameTokenize p.current p.world).2.2 := by
    rw [fat12FilenameTokenize]
    split
    · exact hP.setErr _ _ hp
    · exact hp
  simp only [lookupPass, Installer.lookupPass]
  generalize fat12FilenameTokenize p.current p.world = r at htok ⊢
  obtain ⟨token, next, w⟩ := r
  simp only at htok ⊢
  split
  · exact .ok htok
  have hfind := hP.fat12FindEntry htok garbage p.entries token
  generalize fat12FindEntry garbage p.entries token w = r at hfind ⊢
  cases r with
  | lost w => exact .ok hfind
  | done it w =>
    simp only
    split
    · exact .ok (hP.fat12FindFailure (hP.setErr _ _ hfind) _ _)
    cases next with
    | none =>
      cases hf : w.free p.entries with
      | none => exact .ok hfind
      | some w' => exact .ok (hP.free _ _ _ hfind hf)
    | some current =>
      simp only
      split
      · exact .ok (hP.fat12FindFailure (hP.setErr _ _ hfind) _ _)
      cases hf : w.free p.entries with
      | none => exact .ok hfind
      | some w' =>
        have hw' := hP.free _ _ _ hfind hf
        simp only
        refine (entry_spec hP hw' p.entries fats (firstCluster w.mem it)).bind fun hpost => ?_
        generalize disk.fat12ReadEntry dr p.entries fats (firstCluster w.mem it) w' = r at hpost ⊢
        cases r with
        | none => exact .ok hw'
        | some r =>
          have hr := hpost r.1 r.2 rfl
          simp only
          split
          · exact .ok hr
          · exact .ok hr

theorem fat12GetEntryOfFilename_spec (garbage pEntry fats : Word) (filename : List Byte) {w : World}
    (hw : P w) :
    Spec disk P (fat12GetEntryOfFilename dr garbage pEntry (some disk) fats (some filename) w)
      (Installer.fat12GetEntryOfFilename dr garbage pEntry (some disk) fats (some filename) w)
      fun r => P r.world := by
  simp only [fat12GetEntryOfFilename, Installer.fat12GetEntryOfFilename]
  refine (rootDirectory_spec hP hw garbage).bind fun hpost => ?_
  generalize disk.fat12ReadRootDirectory dr garbage w = r at hpost ⊢
  cases r with
  | none => exact .ok hw
  | some r =>
    have hr := hpost r.1 r.2 rfl
    simp only
    split
    · exact .ok hr
    refine (run_spec (fun p hp => lookupPass_spec hP garbage pEntry fats hp) _
      ⟨r.1.getD garbage, skipSlash filename, r.2⟩ hr).bind fun hrun => .ok ?_
    generalize Loop.run _ _ _ = a at hrun ⊢
    cases a with
    | none => exact hr
    | some a => exact hrun a rfl

theorem fat12ReadDirectory_spec (garbage pEntry : Word) (dirname : List Byte) {w : World} (hw : P w) :
    Spec disk P (fat12ReadDirectory dr garbage pEntry disk dirname w)
      (Installer.fat12ReadDirectory dr garbage pEntry disk dirname w) fun r => P r.world := by
  simp only [fat12ReadDirectory, Installer.fat12ReadDirectory]
  split
  · exact .ok hw
  have hfats := hP.fat12ReadFats hw (some (disk w.mem).fat12)
  generalize fat12ReadFats dr (some (disk w.mem).fat12) w = r at hfats ⊢
  obtain ⟨fats, w⟩ := r
  simp only at hfats ⊢
  split
  · exact .ok hfats
  refine (fat12GetEntryOfFilename_spec hP garbage garbage fats _ hfats).bind fun hentry => ?_
  generalize Installer.fat12GetEntryOfFilename dr garbage garbage (some disk) fats
    (some (fat12RegularfilenameToFilename dirname)) w = r at hentry ⊢
  cases r with
  | lost w => exact .ok hentry
  | done entry w =>
    simp only
    split
    · exact .ok hentry
    split
    · exact .ok (hP.setErr _ _ hentry)
    have hw : P w := hentry
    refine (entry_spec hP hw pEntry fats _).bind fun hpost => ?_
    generalize disk.fat12ReadEntry dr pEntry fats (firstCluster w.mem entry) w = r at hpost ⊢
    cases r with
    | none => exact .ok hw
    | some r =>
      have hr := hpost r.1 r.2 rfl
      simp only
      cases hf : r.2.free fats with
      | none => exact .ok hr
      | some w' => exact .ok (hP.free _ _ _ hr hf)

theorem fat12FileRead_spec (garbage : Word) (filename : List Byte) {w : World} (hw : P w) :
    Spec disk P (fat12FileRead dr garbage (some disk) (some filename) w)
      (Installer.fat12FileRead dr garbage (some disk) (some filename) w) fun r => P r.world := by
  simp only [fat12FileRead, Installer.fat12FileRead]
  split
  · exact .ok hw
  split
  · exact .ok hw
  have hfats := hP.fat12ReadFats hw (some (disk w.mem).fat12)
  generalize fat12ReadFats dr (some (disk w.mem).fat12) w = r at hfats ⊢
  obtain ⟨fats, w⟩ := r
  simp only at hfats ⊢
  split
  · exact .ok (hP.fileReadFailure hfats fats)
  refine (fat12GetEntryOfFilename_spec hP garbage garbage fats _ hfats).bind fun hentry => ?_
  generalize Installer.fat12GetEntryOfFilename dr garbage garbage (some disk) fats
    (some (fat12RegularfilenameToFilename filename)) w = r at hentry ⊢
  cases r with
  | lost w => exact .ok hentry
  | done entry w =>
    simp only
    split
    · exact .ok (hP.fileReadFailure hentry fats)
    split
    · exact .ok (hP.fileReadFailure hentry fats)
    have hw : P w := hentry
    refine (entry_spec hP hw garbage fats _).bind fun hpost => ?_
    generalize disk.fat12ReadEntry dr garbage fats (firstCluster w.mem entry) w = r at hpost ⊢
    cases r with
    | none => exact .ok hw
    | some r =>
      have hr := hpost r.1 r.2 rfl
      simp only
      cases hf : r.2.free fats with
      | none => exact .ok hr
      | some w' => exact .ok (hP.free _ _ _ hr hf)

theorem readRoot_spec (garbage : Word) {w : World} (hw : P w) :
    Spec disk P (readRoot dr garbage disk w) (Installer.readRoot dr garbage disk w)
      fun r => P r.world := by
  rw [readRoot, Installer.readRoot]
  refine (rootDirectory_spec hP hw garbage).bind fun hpost => ?_
  generalize disk.fat12ReadRootDirectory dr garbage w = r at hpost ⊢
  cases r with
  | none => exact .ok hw
  | some r => exact .ok (hpost r.1 r.2 rfl)

theorem readEntries_spec (garbage : Word) (dirname : Option (List Byte)) {w : World} (hw : P w) :
    Spec disk P (readEntries dr garbage disk dirname w)
      (Installer.readEntries dr garbage disk dirname w) fun r => P r.world := by
  cases dirname with
  | none => exact readRoot_spec hP garbage hw
  | some dirname =>
    simp only [readEntries, Installer.readEntries]
    split
    · exact readRoot_spec hP garbage hw
    · exact fat12ReadDirectory_spec hP garbage garbage dirname hw

end

end Checked

end Installer
end Amethyst
