import Amethyst.HeapLive
import Amethyst.HeapSpace
import Amethyst.Installer.DiskFrame
import Amethyst.Installer.Fat12

/-!
# Amethyst.Installer.Live

The live blocks of a world under the calls that the file system makes. `Refused`, `Granted` and
`Freed` say what a `malloc` and a `free` leave behind. `free` reports `_ERR_INTERNAL` when `freed` has
no place for the block, which is gone from `allocated` all the same.

`Keeps lo hi dr`: `disk_read` leaves the allocator and `_err` alone when it reads to an address of
the heap `[lo, hi)`. The one of `disk.c` does (`diskRead_keeps`): it allocates only for a page at
address 0.
-/

namespace Amethyst
namespace Installer

/-- A call that returns, or one that never does or does what C leaves undefined. -/
inductive Result (α : Type) where
  | done (a : α) (w : World)
  | lost (w : World)

def World.live (w : World) : Set Chunk := w.state.heap.live

section

variable (w : World) (e : Err)

@[simp] theorem World.setErr_err : (w.setErr e).state.err = e := rfl

@[simp] theorem World.setErr_heap : (w.setErr e).state.heap = w.state.heap := rfl

@[simp] theorem World.setErr_live : (w.setErr e).live = w.live := rfl

@[simp] theorem World.setErr_mem : (w.setErr e).mem = w.mem := rfl

@[simp] theorem World.setErr_reads : (w.setErr e).reads = w.reads := rfl

end

/-- A `malloc` that returned `NULL`. -/
structure Refused (lo hi : Nat) (w w' : World) : Prop where
  inv : w'.state.heap.Inv lo hi
  err : w'.state.err ≠ .no
  notIo : w'.state.err ≠ .io
  live : w'.live = w.live
  mem : w'.mem = w.mem
  reads : w'.reads = w.reads

/-- A `malloc` that returned the block `c`. -/
structure Granted (lo hi : Nat) (w : World) (c : Chunk) (w' : World) : Prop where
  inv : w'.state.heap.Inv lo hi
  err : w'.state.err = w.state.err
  fresh : c ∉ w.live
  live : w'.live = insert c w.live
  mem : w'.mem = w.mem
  reads : w'.reads = w.reads
  ne_zero : c.start ≠ 0

/-- A `free` of the live block `c`. -/
structure Freed (lo hi : Nat) (w : World) (c : Chunk) (w' : World) : Prop where
  inv : w'.state.heap.Inv lo hi
  live : w'.live = w.live \ {c}
  mem : w'.mem = w.mem
  reads : w'.reads = w.reads
  noPlace : w.state.heap.NoPlace c → w'.state.err = .internal
  place : ¬ w.state.heap.NoPlace c → w'.state.err = w.state.err

theorem Freed.err_iff {lo hi : Nat} {w w' : World} {c : Chunk} (h : Freed lo hi w c w') {e : Err}
    (he : e ≠ .internal) :
    w'.state.err = e ↔ ¬ w.state.heap.NoPlace c ∧ w.state.err = e := by
  by_cases hplace : w.state.heap.NoPlace c
  · rw [h.noPlace hplace]
    simp [hplace, he.symm]
  · rw [h.place hplace]
    simp [hplace]

/-- `free` finds no place for the chunk exactly when it gives up. -/
theorem giveBack_none_iff {lo hi : Nat} (hlo : 0 < lo) (hhi : hi < 2 ^ 32) {h : Heap} {c : Chunk}
    (hpk : Packed lo hi (c.span :: spans h.freed)) :
    giveBack c h.freed = some none ↔ h.NoPlace c := by
  constructor
  · intro hg
    rcases giveBack_spec hlo hhi hpk with ⟨-, hno⟩ | ⟨l, hg', -⟩
    · exact hno
    · rw [hg] at hg'
      cases hg'
  · intro hno
    have hreal : c.Real := Heap.real_of_packed_cons hlo hhi hpk
    have hclean : Clean h.freed := Heap.real_of_packed hlo hhi hpk fun _ hs => List.mem_cons_of_mem _ hs
    have hscan : scan c.merge h.freed = none := by
      rw [scan_none]
      intro d hd
      cases hm : c.merge d with
      | none => rfl
      | some r =>
        exfalso
        obtain ⟨hdr, -, htouch⟩ := Chunk.merge_some hreal (hclean d hd) hm
        have hnt := hno.1 d.span (mem_spans.mpr ⟨d, hd, hdr.ne_empty, rfl⟩)
        cases htouch with
        | inl h1 => exact hnt (.inr h1.1)
        | inr h1 => exact hnt (.inl h1.1)
    simp only [giveBack, mergeChunk, hscan, insertChunk_none.mpr hno.2]

/-- `malloc` sets no error but these three. -/
theorem World.malloc_err (w : World) (size : Word) {e : Err} (h : w.state.err ≠ e) (h1 : e ≠ .invarg)
    (h2 : e ≠ .heapfull) (h3 : e ≠ .internal) : (w.malloc size).2.state.err ≠ e := by
  simp only [World.malloc, Installer.malloc]
  split
  · exact h1.symm
  · exact h2.symm
  · exact h3.symm
  · exact h

section

variable {lo hi : Nat} (hlo : 0 < lo) (hhi : hi < 2 ^ 32) {w : World} (hinv : w.state.heap.Inv lo hi)
include hlo hhi hinv

theorem World.malloc_spec (size : Word) :
    (∃ w', w.malloc size = (0, w') ∧ Refused lo hi w w') ∨
      ∃ ptr w', w.malloc size = (ptr, w') ∧ Granted lo hi w ⟨ptr, size⟩ w' := by
  obtain ⟨r, h', e⟩ : ∃ r h', w.state.heap.malloc size = (r, h') := ⟨_, _, rfl⟩
  have hinv' := Heap.malloc_inv hlo hhi hinv e
  simp only [World.malloc, Installer.malloc, e]
  rcases Heap.malloc_live hlo hhi hinv e with ⟨-, hr, hlive⟩ | ⟨p, rfl, hp, hfresh, hlive⟩
  · left
    cases r with
    | zeroSize => exact ⟨_, rfl, hinv', by simp, by simp, hlive, rfl, rfl⟩
    | heapFull => exact ⟨_, rfl, hinv', by simp, by simp, hlive, rfl, rfl⟩
    | noSlot => exact ⟨_, rfl, hinv', by simp, by simp, hlive, rfl, rfl⟩
    | ok p => exact absurd rfl (hr p)
  · exact .inr ⟨_, _, rfl, hinv', rfl, hfresh, hlive, rfl, rfl, hp⟩

/-- A block that has just been taken could be given back. -/
theorem World.malloc_place {size ptr : Word} {w' : World} (e : w.malloc size = (ptr, w'))
    (hne : ptr ≠ 0) : ¬ w'.state.heap.NoPlace ⟨ptr, size⟩ := by
  obtain ⟨r, h', hm⟩ : ∃ r h', w.state.heap.malloc size = (r, h') := ⟨_, _, rfl⟩
  simp only [World.malloc, Installer.malloc, hm] at e
  cases r with
  | ok p =>
    cases e
    exact Heap.malloc_place hlo hhi hinv hm
  | _ =>
    cases e
    exact absurd rfl hne

/-- `free` reports an error exactly when `freed` has no place for the block. -/
theorem World.free_spec {c : Chunk} (hc : c ∈ w.live) :
    ∃ w', w.free c.start = some w' ∧ Freed lo hi w c w' := by
  obtain ⟨r, h', e, hinv', hlive, hr⟩ := Heap.free_live hlo hhi hinv (givesBack hlo hhi) hc
  have hiff := giveBack_none_iff hlo hhi (hinv.packed_freed hc)
  rcases hr with ⟨hg, rfl⟩ | ⟨⟨freed, hg⟩, rfl⟩
  · refine ⟨{ w with state := ⟨h', .internal⟩ }, ?_, hinv', hlive, rfl, rfl, fun _ => rfl,
      fun hplace => absurd (hiff.mp hg) hplace⟩
    simp [World.free, Installer.free, e]
  · refine ⟨{ w with state := ⟨h', w.state.err⟩ }, ?_, hinv', hlive, rfl, rfl, fun hno => ?_,
      fun _ => rfl⟩
    · simp [World.free, Installer.free, e]
    · rw [hiff.mpr hno] at hg
      cases hg

end

/-! ## Whole heaps -/

section

variable {lo hi : Nat} (hlo : 0 < lo) (hhi : hi < 2 ^ 32) {w : World} (hw : w.state.heap.Whole lo hi)
include hlo hhi hw

/-- On a whole heap `free` always finds a place. -/
theorem World.place_of_whole {c : Chunk} (hc : c ∈ w.live) : ¬ w.state.heap.NoPlace c := by
  intro hno
  obtain ⟨i, hi⟩ := List.getElem?_of_mem hc.1
  exact hw.slot hlo hhi hi (hw.start_ne_zero hlo hhi hc) hno.1 hno.2

theorem World.free_of_whole {c : Chunk} (hc : c ∈ w.live) :
    ∃ w', w.free c.start = some w' ∧ Freed lo hi w c w' ∧ w'.state.heap.Whole lo hi ∧
      w'.state.err = w.state.err := by
  obtain ⟨w', e, hf⟩ := World.free_spec hlo hhi hw.toInv hc
  refine ⟨w', e, hf, ?_, hf.place (World.place_of_whole hlo hhi hw hc)⟩
  obtain ⟨r, h', e', -, hw'⟩ := free_whole hlo hhi hw c.start
  simp only [World.free, Installer.free, e'] at e
  cases r <;> cases e <;> exact hw'

/-- Beside one block at the start of the heap there is room for all that is left. -/
theorem World.malloc_beside {c : Chunk} (hlive : w.live ⊆ {c}) (hstart : c.start.toNat = lo)
    {size : Word} (hs : size ≠ 0) (hfit : lo + c.size.toNat + size.toNat ≤ hi) :
    ∃ ptr w', w.malloc size = (ptr, w') ∧ Granted lo hi w ⟨ptr, size⟩ w' ∧
      w'.state.heap.Whole lo hi := by
  obtain ⟨r, h', e⟩ : ∃ r h', w.state.heap.malloc size = (r, h') := ⟨_, _, rfl⟩
  have hroom : w.state.heap.Room lo hi size.toNat := by
    refine ⟨lo + c.size.toNat, Nat.le_add_right _ _, hfit, fun x h1 _ hx => ?_⟩
    obtain ⟨s, hmem, hcov⟩ := hx
    obtain ⟨d, hd, hne, rfl⟩ := mem_spans.mp hmem
    have hdc : d = c := hlive ⟨hd, hne⟩
    simp only [hdc, Span.Covers, Chunk.span] at hcov
    omega
  have hfull : r ≠ .heapFull := by
    intro hr
    exact (hw.heapFull_iff hlo hhi hs).mp (by rw [e, hr]) hroom
  have hslot : r ≠ .noSlot := by
    intro hr
    subst hr
    rcases Heap.malloc_cases e with ⟨h, -⟩ | ⟨h, -⟩ | ⟨-, i, c, p, c', -, -, ⟨-, h, -⟩ | ⟨h, -⟩⟩
    · cases h
    · cases h
    · exact h _ (hw.slot_of_single hlive) rfl
    · cases h
  have hwhole := Heap.malloc_whole hlo hhi hw e hslot
  rcases World.malloc_spec hlo hhi hw.toInv size with ⟨w', ew, hr⟩ | ⟨ptr, w', ew, hg⟩
  · exfalso
    simp only [World.malloc, Installer.malloc, e] at ew
    cases r with
    | zeroSize =>
      rcases Heap.malloc_cases e with ⟨-, h, -⟩ | ⟨h, -⟩ | ⟨-, i, c, p, c', -, -, ⟨h, -⟩ | ⟨h, -⟩⟩
      · exact hs h
      all_goals cases h
    | heapFull => exact hfull rfl
    | noSlot => exact hslot rfl
    | ok p =>
      cases ew
      exact Heap.malloc_ok_ne_zero hlo hhi hw.toInv e rfl
  · refine ⟨ptr, w', ew, hg, ?_⟩
    simp only [World.malloc, Installer.malloc, e] at ew
    cases r <;> cases ew <;> exact hwhole

end

/-- `disk_read` leaves the allocator and `_err` alone when it reads to an address in `[lo, hi)`. -/
def Keeps (lo hi : Nat) (dr : DiskRead) : Prop :=
  ∀ drive (ptr : Word) count lba w, lo ≤ ptr.toNat → ptr.toNat < hi →
    (dr drive ptr count lba w).2.state = w.state

theorem memcpy_state {dest : Word} (h : dest ≠ 0) (src count : Word) (w : World) :
    (memcpy dest src count w).2.state = w.state := by
  rw [memcpy_of_ne_zero h]

/-- Without a page at address 0 the page loop allocates nothing. -/
theorem readPages_state (bios : Bios) (drive : BitVec 8) : ∀ (n : Nat) (ptr : Word)
    (lba : BitVec 64) (w : World), (∀ i < n, ptr + BitVec.ofNat 32 (4096 * i) ≠ 0) →
    (readPages bios drive n ptr lba w).2.2.state = w.state := by
  intro n
  induction n with
  | zero => exact fun _ _ _ _ => rfl
  | succ n ih =>
    intro ptr lba w hne
    have hptr : ptr ≠ 0 := by simpa using hne 0 (Nat.succ_pos n)
    simp only [readPages]
    rw [ih, memcpy_state hptr, diskReadInt13_state]
    intro i hi
    have := hne (i + 1) (by omega)
    rwa [bufferSize_eq, add_add_ofNat, Nat.add_comm, ← Nat.mul_succ]

/-- A transfer that does not wrap round to address 0 allocates nothing. -/
theorem diskRead_state (bios : Bios) (drive : BitVec 8) {ptr : Word} {count : BitVec 16}
    (hptr : ptr ≠ 0) (hend : ptr.toNat + 512 * count.toNat < 2 ^ 32) (lba : BitVec 64) (w : World) :
    (diskRead bios drive ptr count lba w).2.state = w.state := by
  have hpos : 0 < ptr.toNat := Nat.pos_of_ne_zero fun h0 => hptr (BitVec.eq_of_toNat_eq h0)
  have hpage : ∀ i ≤ count.toNat / 8, ptr + BitVec.ofNat 32 (4096 * i) ≠ 0 := by
    intro i hi h0
    have := congrArg BitVec.toNat h0
    rw [toNat_add_ofNat (by omega)] at this
    exact absurd this (by simp; omega)
  have hlast := readPages_ptr bios drive (count.toNat / bufferPgSize) ptr lba w
  have hpages := readPages_state bios drive (count.toNat / bufferPgSize) ptr lba w
    fun i hi => hpage i (Nat.le_of_lt hi)
  by_cases hd : Direct ptr count
  · rw [diskRead, if_pos hd, diskReadInt13_state]
  · simp only [diskRead, if_neg hd]
    split
    · rw [diskReadInt13_state, hpages]
    · rw [memcpy_state, diskReadInt13_state, hpages]
      rw [hlast]
      exact hpage _ (Nat.le_refl _)

/-- The `disk_read` of `disk.c`, on a heap that ends well below the end of memory. -/
theorem diskRead_keeps {lo hi : Nat} (hlo : 0 < lo) (hhi : hi + 2 ^ 25 ≤ 2 ^ 32) (bios : Bios) :
    Keeps lo hi (diskRead bios) := by
  intro drive ptr count lba w h1 h2
  have hc := count.isLt
  refine diskRead_state bios drive ?_ (by omega) lba w
  intro h0
  rw [h0] at h1
  exact absurd (Nat.lt_of_lt_of_le hlo h1) (by simp)

end Installer
end Amethyst
