import Amethyst.Installer.FileRead

/-!
# Amethyst.Installer.FileBlocks

The blocks that `fat12_file_read` leaves live. The FATs, the directories on the path and the buffer
come from `malloc`; the FATs and the directories are freed on the way, but for two exits of the lookup.

`fat12FileRead_balanced_iff`: when no block stays live but the buffer.
-/

namespace Amethyst
namespace Installer

/-- The live blocks are those from before, and the buffer exactly if the call succeeded. -/
def Balanced (w : World) (ptr : Word) (w' : World) : Prop :=
  (ptr ≠ 0 ∧ w'.state.err = .no → ∃ size, (⟨ptr, size⟩ : Chunk) ∉ w.live ∧
    w'.live = insert ⟨ptr, size⟩ w.live) ∧
  (¬ (ptr ≠ 0 ∧ w'.state.err = .no) → w'.live = w.live)

section

variable {w w' : World} {ptr : Word}

theorem balanced_of_failure (h : ¬ (ptr ≠ 0 ∧ w'.state.err = .no)) :
    Balanced w ptr w' ↔ w'.live = w.live :=
  ⟨fun hb => hb.2 h, fun he => ⟨fun hs => absurd hs h, fun _ => he⟩⟩

theorem insert_ne_self {c : Chunk} {s : Set Chunk} (h : c ∉ s) : insert c s ≠ s := by
  intro he
  exact h (he ▸ Set.mem_insert c s)

end

section

variable {lo hi : Nat} (hlo : 0 < lo) (hhi : hi < 2 ^ 32) {dr : DiskRead} (hk : Keeps lo hi dr)
  {w : World} (hinv : w.state.heap.Inv lo hi) (hno : w.state.err = .no) {garbage : Word} {disk : DiskPtr}
  {filename : List Byte}
include hlo hhi hk hinv hno

omit hlo hhi hk hinv hno in
theorem length_of_done {r : Word} {w' : World}
    (h : fat12FileRead dr garbage (some disk) (some filename) w = .done r w') :
    filename.length < 512 := by
  by_contra hle
  simp only [fat12FileRead, if_pos (Nat.le_of_not_lt hle)] at h
  cases h

omit hk hinv hno in
/-- Once the file is read, the buffer is the only new block, and the call succeeds exactly if `freed`
takes the FATs. -/
theorem balanced_of_read {fats size : Word} {w₁ w₂ w' : World} {buffer : Word}
    (hfresh : (⟨fats, size⟩ : Chunk) ∉ w.live) (hlive : w₁.live = insert ⟨fats, size⟩ w.live)
    (hfreed : Freed lo hi w₂ ⟨fats, size⟩ w') (hmem : (⟨fats, size⟩ : Chunk) ∈ w₂.live) {n : Word}
    (howns : Owns lo hi w₁.live ⟨buffer, n⟩ w₂) (herr : w₂.state.err = .no) :
    Balanced w buffer w' ↔ w₂.Takes fats := by
  have hne : buffer ≠ 0 := Heap.Inv.start_ne_zero hlo hhi howns.inv howns.mem
  rw [hlive] at howns
  obtain ⟨hfats, hbuffer⟩ := howns.comm hfresh
  have hlive' : w'.live = insert ⟨buffer, n⟩ w.live := hfats.freed hfreed
  have hsucc : buffer ≠ 0 ∧ w'.state.err = .no ↔ w₂.Takes fats := by
    rw [World.takes_iff hlo hhi howns.inv hmem, hfreed.err_iff (by simp)]
    exact ⟨fun hs => hs.2.1, fun hplace => ⟨hne, hplace, herr⟩⟩
  constructor
  · intro hb
    by_contra htakes
    have hsame := hb.2 fun hs => htakes (hsucc.mp hs)
    exact insert_ne_self hbuffer (hlive'.symm.trans hsame)
  · intro htakes
    exact ⟨fun _ => ⟨n, hbuffer, hlive'⟩, fun hfail => absurd (hsucc.mpr htakes) hfail⟩

/-- What `file_read` leaves is balanced unless its lookup leaks, or the file has been read and
`free(fats)` sets `_err`. -/
theorem fat12FileRead_balanced_iff {ptr : Word} {w' : World}
    (hrun : fat12FileRead dr garbage (some disk) (some filename) w = .done ptr w') :
    Balanced w ptr w' ↔ ¬ (pathExit dr garbage disk filename w).Leaks ∧
      ∀ fats start w₁ buffer w₂, ReadsFile dr garbage disk filename w fats start w₁ buffer w₂ →
        w₂.Takes fats := by
  have hout := fileOutcome hlo hhi hk hinv hno garbage disk (length_of_done hrun)
  rw [hrun] at hout
  cases hout with
  | noFats hexit hnone hlive herr =>
    rw [balanced_of_failure (by simp), hexit]
    refine ⟨fun _ => ⟨by decide, fun fats start w₁ buffer w₂ hr => ?_⟩, fun _ => hlive⟩
    obtain ⟨⟨entry, hl, -⟩, -⟩ := hr
    exact absurd hl (hnone _ _)
  | @noFile fats size entry w₁ _ h hfresh hleft hnot hfreed =>
    rw [balanced_of_failure (by simp), hfreed.live]
    constructor
    · intro he
      refine ⟨fun hleak => ?_, fun fats start w₁ buffer w₂ hr => absurd hr.1 ?_⟩
      · obtain ⟨c, hc, hlive⟩ := hleft.leak hleak
        rw [Set.mem_insert_iff, not_or] at hc
        have hcw : c ∈ w₁.live \ {⟨fats, size⟩} := hlive ▸ ⟨Set.mem_insert _ _, hc.1⟩
        exact hc.2 (he ▸ hcw)
      · exact h.not_findsFile hnot _ _ _
    · intro hcond
      rw [hleft.live hcond.1, Set.insert_sdiff_self_of_notMem hfresh]
  | @file fats size start w₁ e buffer w₂ _ h hexit hfresh hlive hentry hread hout hfreed hinv₂ hmem =>
    have hfound : ¬ LookupExit.found.Leaks := by decide
    rw [h.forall_reads hread, hentry, hexit, and_iff_right hfound]
    have hfail : w₂.state.err ≠ .no → ¬ (ptr ≠ 0 ∧ w'.state.err = .no) := fun herr hs =>
      herr ((hfreed.err_iff (by simp)).mp hs.2).2
    have hsame : w₂.live = w₁.live → w'.live = w.live := by
      intro he
      rw [hfreed.live, he, hlive, Set.insert_sdiff_self_of_notMem hfresh]
    cases hout with
    | badCluster hbad =>
      rw [balanced_of_failure (hfail (by simp))]
      exact iff_of_true (hsame rfl) (by simp)
    | refused hlt hrefused =>
      rw [balanced_of_failure (hfail hrefused.err)]
      exact iff_of_true (hsame hrefused.live) (by simp)
    | errorSet hlt hgranted hset =>
      obtain ⟨-, -, h1, -⟩ := h
      exact absurd h1 hset
    | unreadable hlt h1 _ hlive₂ hio hne =>
      rw [balanced_of_failure (hfail (by simp [hio]))]
      exact iff_of_true (hsame hlive₂) (by simp)
    | read hlt h1 hend hgranted hstatus hstate =>
      have herr₂ : w₂.state.err = .no := by rw [hstate, hgranted.err, h1]
      rw [balanced_of_read hlo hhi hfresh hlive hfreed hmem (hgranted.owns hstate) herr₂]
      simp

end

/-- The empty path, on a floppy disk. -/
theorem flat_no_name {dr : DiskRead} (hd : FlatRead 0 0 dr) :
    ∃ w' c, fat12FileRead dr 0 (some (diskAt flatDisk)) (some []) (flatWorld 0) = .done 0 w' ∧
      w'.state.err = .invarg ∧ w'.live = {c} := by
  obtain ⟨entries, w, hne, hfresh, h, hlook⟩ := flat_lookup hd 0 []
  have hset : ¬ w.state.err ≠ .no := not_not.mpr h.err
  have hpass : lookupPass dr 0 0 (diskAt flatDisk) 0x00100000
      ⟨entries, skipSlash (fat12RegularfilenameToFilename []), w⟩ =
        .leave (.done 0 (w.setErr .invarg)) := rfl
  have hw : (w.setErr .invarg).state.heap.Whole 0x00100000 0x001FFFFF := h.whole
  have hlive : (w.setErr .invarg).live = insert firstFats {⟨entries, 7168⟩} :=
    h.live.trans (Set.pair_comm _ _)
  obtain ⟨w', e, hf, -, herr⟩ := World.free_of_whole (by decide) (by decide) hw
    (hlive ▸ Set.mem_insert firstFats _)
  refine ⟨w', ⟨entries, 7168⟩, ?_, herr, ?_⟩
  · rw [fat12FileRead_tail (by decide) rfl (hlook _ rfl _ hpass).1, fileReadTail,
      if_pos (show (w.setErr .invarg).state.err ≠ .no by simp), fileReadFailure,
      show (w.setErr .invarg).free 0x00100000 = some w' from e]
  · rw [hf.live, hlive, Set.insert_sdiff_self_of_notMem]
    intro he
    exact hfresh he.symm

/-- A file that is read from a floppy disk, and the empty path. -/
theorem fat12FileRead_balanced_iff_floppy :
    (∃ buffer w', fat12FileRead (diskRead (idealBios fun _ _ => 0xEF)) 0 (some (diskAt flatDisk))
        (some (flatName 0xEF)) (flatWorld 0xEF) = .done buffer w' ∧ buffer ≠ 0 ∧
      (Balanced (flatWorld 0xEF) buffer w' ↔
        ¬ (pathExit (diskRead (idealBios fun _ _ => 0xEF)) 0 (diskAt flatDisk) (flatName 0xEF)
          (flatWorld 0xEF)).Leaks ∧
        ∀ fats start w₁ buffer w₂, ReadsFile (diskRead (idealBios fun _ _ => 0xEF)) 0 (diskAt flatDisk)
          (flatName 0xEF) (flatWorld 0xEF) fats start w₁ buffer w₂ → w₂.Takes fats)) ∧
    ∃ w', fat12FileRead (diskRead (idealBios fun _ _ => 0)) 0 (some (diskAt flatDisk)) (some [])
        (flatWorld 0) = .done 0 w' ∧
      (Balanced (flatWorld 0) 0 w' ↔
        ¬ (pathExit (diskRead (idealBios fun _ _ => 0)) 0 (diskAt flatDisk) [] (flatWorld 0)).Leaks ∧
        ∀ fats start w₁ buffer w₂, ReadsFile (diskRead (idealBios fun _ _ => 0)) 0 (diskAt flatDisk) []
          (flatWorld 0) fats start w₁ buffer w₂ → w₂.Takes fats) := by
  obtain ⟨buffer, w₁, e₁, hne, -⟩ := flat_file_read (diskRead_flat 0xEF)
  obtain ⟨w', c, e, -⟩ := flat_no_name (diskRead_flat 0)
  exact ⟨⟨buffer, w₁, e₁, hne, fat12FileRead_balanced_iff (by decide) (by decide)
      (diskRead_keeps (by decide) (by decide) _) (flatWorld_flat _).whole.toInv rfl e₁⟩,
    ⟨w', e, fat12FileRead_balanced_iff (by decide) (by decide)
      (diskRead_keeps (by decide) (by decide) _) (flatWorld_flat _).whole.toInv rfl e⟩⟩

/-- The root directory of the lookup of an empty path stays live. -/
theorem fat12FileRead_empty_path_leaks :
    (flatWorld 0).live = ∅ ∧
    ∃ w' c, fat12FileRead (diskRead (idealBios fun _ _ => 0)) 0 (some (diskAt flatDisk)) (some [])
      (flatWorld 0) = .done 0 w' ∧ w'.state.err = .invarg ∧ w'.live = {c} ∧
        ¬ Balanced (flatWorld 0) 0 w' := by
  obtain ⟨w', c, e, herr, hlive⟩ := flat_no_name (diskRead_flat 0)
  refine ⟨(flatWorld_flat _).live, w', c, e, herr, hlive, fun hb => ?_⟩
  have hsame := hb.2 (by simp)
  rw [hlive, (flatWorld_flat _).live] at hsame
  exact Set.singleton_ne_empty c hsame

end Installer
end Amethyst
