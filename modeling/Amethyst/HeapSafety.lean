import Amethyst.Installer.Allocator
import Amethyst.Kernel.Allocator

/-!
# Amethyst.HeapSafety

Safety of both allocators over every run from `alloc_init`.

* `alloc_safe`: the used entries of the two tables are always packed in the heap, every call
  returns, and a block handed out is separate from every live block.
* `failed_malloc_unchanged_iff`: a `malloc` that returns `NULL` leaves the tables alone, except in
  a state where `freed` has the space and `allocated` has no slot.
-/

namespace Amethyst

/-- What the callers of `alloc_init` pass: `start > 0`, `cap > 0`, `start + cap < 2^32`. -/
structure HeapRange (start cap : Word) : Prop where
  start_pos : 0 < start.toNat
  cap_pos : 0 < cap.toNat
  hi_lt : start.toNat + cap.toNat < 2 ^ 32

theorem HeapRange.init_inv {start cap : Word} (hr : HeapRange start cap) :
    (allocInit start cap).Inv start.toNat (start.toNat + cap.toNat) :=
  Heap.inv_allocInit hr.start_pos hr.cap_pos

namespace Heap

/-- `malloc(size)` went from `h` to `h'` and returned `ptr`: the block lies in the heap, took an
empty slot of `allocated`, and is separate from every block that was live. -/
structure HandsOut (lo hi : Nat) (h h' : Heap) (size ptr : Word) : Prop where
  inside : lo ≤ ptr.toNat ∧ ptr.toNat + size.toNat ≤ hi
  slot : ∃ j, h.allocated[j]? = some Chunk.empty ∧ h'.allocated = h.allocated.set j ⟨ptr, size⟩
  fresh : ∀ s ∈ spans h.allocated, s.Sep (Chunk.span ⟨ptr, size⟩)

/-- The used entries are packed in the heap, and `malloc` hands out blocks of its own. -/
structure Safe (lo hi : Nat) (h : Heap) (malloc : Word → Word × Heap) : Prop where
  packed : Packed lo hi h.blocks
  handsOut : ∀ size, (malloc size).1 ≠ 0 → HandsOut lo hi h (malloc size).2 size (malloc size).1

/-- `freed` has room for `size` bytes and `allocated` has no empty slot. -/
def OutOfSlots (h : Heap) (size : Word) : Prop :=
  size ≠ 0 ∧ (∃ c ∈ h.freed, size ≤ c.size) ∧ ∀ c ∈ h.allocated, c ≠ Chunk.empty

section

variable {lo hi : Nat} (hlo : 0 < lo) (hhi : hi < 2 ^ 32) {h h' : Heap} (hinv : h.Inv lo hi)
include hlo hhi hinv

theorem malloc_handsOut {size : Word} {r : MallocEnd} (hm : h.malloc size = (r, h'))
    (hr : r.ptr ≠ 0) : HandsOut lo hi h h' size r.ptr := by
  rcases malloc_cases hm with ⟨rfl, -⟩ | ⟨rfl, -⟩ | ⟨hs, i, c, p, c', h1, h2, h3⟩
  · exact absurd rfl hr
  · exact absurd rfl hr
  rcases h3 with ⟨rfl, -⟩ | ⟨rfl, j, hj, rfl⟩
  · exact absurd rfl hr
  have hcl := hinv.clean_freed hlo hhi
  obtain ⟨-, -, rfl, -⟩ := Chunk.cut_some (hcl c (List.mem_of_getElem? h1)) hs h2
  have hcut := (regroup_cut hcl hs h1 h2).1
  have hall := (hcut.append_left (spans h.allocated)).packed_iff.mpr hinv.packed
  refine ⟨hall.inside (Chunk.span ⟨c.start, size⟩) (by simp), ⟨j, hj, rfl⟩, fun s hs => ?_⟩
  exact hall.sep_append hs (by simp [MallocEnd.ptr])

/-- The chunk `malloc` cuts off and drops is lost exactly when `allocated` is full. -/
theorem malloc_null_iff {size : Word} {r : MallocEnd} (hm : h.malloc size = (r, h')) :
    (r.ptr = 0 → h' = h) ↔ ¬ h.OutOfSlots size := by
  rcases malloc_cases hm with ⟨rfl, hz, rfl⟩ | ⟨rfl, -, hno, rfl⟩ | ⟨hs, i, c, p, c', h1, h2, h3⟩
  · exact iff_of_true (fun _ => rfl) fun ho => ho.1 hz
  · refine iff_of_true (fun _ => rfl) fun ho => ?_
    obtain ⟨-, ⟨c, hc, hle⟩, -⟩ := ho
    exact hno c hc hle
  have hcl := hinv.clean_freed hlo hhi
  obtain ⟨-, hp, -, -⟩ := Chunk.cut_some (hcl c (List.mem_of_getElem? h1)) hs h2
  rcases h3 with ⟨rfl, hfull, rfl⟩ | ⟨rfl, j, hj, rfl⟩
  · have hle := (Chunk.cut_fits h2).1
    refine iff_of_false (fun hsame => ?_) fun hn => hn ⟨hs, ⟨c, List.mem_of_getElem? h1, hle⟩, hfull⟩
    have he := congrArg (fun x : Heap => x.freed[i]?) (hsame rfl)
    obtain ⟨hilt, -⟩ := List.getElem?_eq_some_iff.mp h1
    simp only [List.getElem?_set_self hilt, h1, Option.some.injEq] at he
    subst he
    simp only [Chunk.cut, hle, if_true, Option.some.injEq, Prod.mk.injEq] at h2
    have hsz := congrArg (fun x : Chunk => x.size.toNat) h2.2
    simp only [BitVec.toNat_sub_of_le hle] at hsz
    have := BitVec.le_def.mp hle
    have hz : size.toNat = 0 := by omega
    exact hs (BitVec.eq_of_toNat_eq (by simpa using hz))
  · refine iff_of_true (fun h0 => ?_) fun ho => ho.2.2 _ (List.mem_of_getElem? hj) rfl
    have := hp.start_pos
    rw [show p.start = 0 from h0] at this
    exact absurd this (by simp)

end

end Heap

section

variable {start cap : Word} (hr : HeapRange start cap) (calls : List Call)
include hr

theorem HeapRange.installer (err : Installer.Err) :
    ∃ s, Installer.run ⟨allocInit start cap, err⟩ calls = some s ∧
      s.heap.Inv start.toNat (start.toNat + cap.toNat) :=
  Installer.run_inv hr.start_pos hr.hi_lt calls hr.init_inv

theorem HeapRange.kernel :
    (Kernel.run (allocInit start cap) calls).Inv start.toNat (start.toNat + cap.toNat) :=
  Kernel.run_inv hr.start_pos hr.hi_lt hr.init_inv calls

end

/-- **Heap safety of both allocators.** After any calls: the installer's run has returned, the used
entries of both tables are pairwise separate ranges of positive size inside the heap, and a `malloc`
that returns a block hands out bytes of no live block. -/
theorem alloc_safe {start cap : Word} (hr : HeapRange start cap) (calls : List Call) :
    (∀ err, ∃ s, Installer.run ⟨allocInit start cap, err⟩ calls = some s ∧
      s.heap.Safe start.toNat (start.toNat + cap.toNat) fun size =>
        ((Installer.malloc s size).1, (Installer.malloc s size).2.heap)) ∧
    (Kernel.run (allocInit start cap) calls).Safe start.toNat (start.toNat + cap.toNat)
      (Kernel.malloc (Kernel.run (allocInit start cap) calls)) := by
  constructor
  · intro err
    obtain ⟨s, hrun, hinv⟩ := hr.installer calls err
    refine ⟨s, hrun, hinv.packed, fun size hp => ?_⟩
    obtain ⟨h1, h2⟩ := Installer.malloc_heap s size
    simp only [h1, h2] at hp ⊢
    exact Heap.malloc_handsOut hr.start_pos hr.hi_lt hinv rfl hp
  · have hinv := hr.kernel calls
    exact ⟨hinv.packed, fun size hp => Heap.malloc_handsOut hr.start_pos hr.hi_lt hinv rfl hp⟩

/-- The installer's own heap, after two blocks are taken and the first is given back twice. -/
theorem alloc_safe_installer_heap :
    let calls := [.malloc 0x200, .malloc 0x30, .free 0x100000, .free 0x100000]
    (∀ err, ∃ s, Installer.run ⟨allocInit 0x100000 0xFFFFF, err⟩ calls = some s ∧
      s.heap.Safe 0x100000 0x1FFFFF fun size =>
        ((Installer.malloc s size).1, (Installer.malloc s size).2.heap)) ∧
    (Kernel.run (allocInit 0x100000 0xFFFFF) calls).Safe 0x100000 0x1FFFFF
      (Kernel.malloc (Kernel.run (allocInit 0x100000 0xFFFFF) calls)) :=
  alloc_safe ⟨by decide, by decide, by decide⟩ _

/-- **A failed `malloc` changes nothing, unless `allocated` is out of slots.** In every state after
any calls, for both allocators and every size: the tables are as before whenever `malloc` returns
`NULL`, if and only if not both `freed` has room and `allocated` has no empty slot. -/
theorem failed_malloc_unchanged_iff {start cap : Word} (hr : HeapRange start cap)
    (calls : List Call) (size : Word) :
    (∀ err s, Installer.run ⟨allocInit start cap, err⟩ calls = some s →
      (((Installer.malloc s size).1 = 0 → (Installer.malloc s size).2.heap = s.heap) ↔
        ¬ s.heap.OutOfSlots size)) ∧
    (((Kernel.malloc (Kernel.run (allocInit start cap) calls) size).1 = 0 →
        (Kernel.malloc (Kernel.run (allocInit start cap) calls) size).2 =
          Kernel.run (allocInit start cap) calls) ↔
      ¬ (Kernel.run (allocInit start cap) calls).OutOfSlots size) := by
  constructor
  · intro err s hrun
    obtain ⟨s', hrun', hinv⟩ := hr.installer calls err
    rw [hrun] at hrun'
    cases hrun'
    obtain ⟨h1, h2⟩ := Installer.malloc_heap s size
    rw [h1, h2]
    exact Heap.malloc_null_iff hr.start_pos hr.hi_lt hinv rfl
  · exact Heap.malloc_null_iff hr.start_pos hr.hi_lt (hr.kernel calls) rfl

theorem failed_malloc_unchanged_installer_heap :
    (∀ err s, Installer.run ⟨allocInit 0x100000 0xFFFFF, err⟩ [.malloc 0x200] = some s →
      (((Installer.malloc s 0x100000).1 = 0 → (Installer.malloc s 0x100000).2.heap = s.heap) ↔
        ¬ s.heap.OutOfSlots 0x100000)) ∧
    (((Kernel.malloc (Kernel.run (allocInit 0x100000 0xFFFFF) [.malloc 0x200]) 0x100000).1 = 0 →
        (Kernel.malloc (Kernel.run (allocInit 0x100000 0xFFFFF) [.malloc 0x200]) 0x100000).2 =
          Kernel.run (allocInit 0x100000 0xFFFFF) [.malloc 0x200]) ↔
      ¬ (Kernel.run (allocInit 0x100000 0xFFFFF) [.malloc 0x200]).OutOfSlots 0x100000) :=
  failed_malloc_unchanged_iff ⟨by decide, by decide, by decide⟩ _ _

/-! ## A run that fills `allocated` -/

/-- `k` blocks of one byte are out: `freed` is one entry, `allocated` has `k` used slots. -/
structure OneByteBlocks (start cap : Word) (tail : Table) (k : Nat) (h : Heap) : Prop where
  freed : h.freed = ⟨start + BitVec.ofNat 32 k, cap - BitVec.ofNat 32 k⟩ :: tail
  used : (spans h.allocated).length = k
  length : h.allocated.length = chunkQty

section

variable {start cap : Word} {tail : Table}

theorem OneByteBlocks.malloc {k : Nat} {h : Heap} (hb : OneByteBlocks start cap tail k h)
    (hk : k + 1 < cap.toNat) (hnw : start.toNat + cap.toNat < 2 ^ 32) :
    h.malloc 1 = match insertChunk ⟨start + BitVec.ofNat 32 k, 1⟩ h.allocated with
      | none => (.noSlot, { h with
          freed := ⟨start + BitVec.ofNat 32 (k + 1), cap - BitVec.ofNat 32 (k + 1)⟩ :: tail })
      | some allocated => (.ok (start + BitVec.ofNat 32 k),
          ⟨allocated, ⟨start + BitVec.ofNat 32 (k + 1), cap - BitVec.ofNat 32 (k + 1)⟩ :: tail⟩) := by
  have hone : (1 : Word).toNat = 1 := rfl
  have hof : (BitVec.ofNat 32 k).toNat = k := by
    rw [BitVec.toNat_ofNat, Nat.mod_eq_of_lt (by omega)]
  have hle : BitVec.ofNat 32 k ≤ cap := by rw [BitVec.le_def, hof]; omega
  have hsz : (cap - BitVec.ofNat 32 k).toNat = cap.toNat - k := by
    rw [BitVec.toNat_sub_of_le hle, hof]
  have h1 : (1 : Word) ≤ cap - BitVec.ofNat 32 k := by
    rw [BitVec.le_def, hsz, hone]
    omega
  have hsub : cap - BitVec.ofNat 32 k - 1 = cap - BitVec.ofNat 32 (k + 1) := by
    rw [BitVec.ofNat_add, BitVec.sub_sub]; rfl
  have hne : cap - BitVec.ofNat 32 (k + 1) ≠ 0 := by
    rw [← hsub]
    intro e
    have := congrArg BitVec.toNat e
    rw [BitVec.toNat_sub_of_le h1, hsz, hone, show (0 : Word).toNat = 0 from rfl] at this
    omega
  have hadd : start + BitVec.ofNat 32 k + 1 = start + BitVec.ofNat 32 (k + 1) := by
    rw [BitVec.ofNat_add, BitVec.add_assoc]; rfl
  simp only [Heap.malloc, hb.freed, removeChunkBySize, scan, Chunk.cut, h1, if_true, hsub, hne,
    if_false, hadd, Option.map_some]
  rfl

/-- While `allocated` has an empty slot, `malloc(1)` takes one byte more. -/
theorem OneByteBlocks.next {k : Nat} {h : Heap} (hb : OneByteBlocks start cap tail k h)
    (hk : k + 1 < cap.toNat) (hs : 0 < start.toNat) (hnw : start.toNat + cap.toNat < 2 ^ 32)
    (hslot : k < chunkQty) : OneByteBlocks start cap tail (k + 1) (h.malloc 1).2 := by
  rw [hb.malloc hk hnw]
  split
  · rename_i hi
    have := length_spans_of_full (insertChunk_none.mp hi)
    have := hb.used
    have := hb.length
    omega
  · rename_i allocated hi
    obtain ⟨j, hj, rfl⟩ := insertChunk_some hi
    have hone : (1 : Word).toNat = 1 := rfl
    have hst : (start + BitVec.ofNat 32 k).toNat = start.toNat + k := by
      rw [BitVec.toNat_add, BitVec.toNat_ofNat, Nat.mod_eq_of_lt (by omega : k < 2 ^ 32),
        Nat.mod_eq_of_lt (by omega)]
    have hreal : (⟨start + BitVec.ofNat 32 k, 1⟩ : Chunk).Real :=
      ⟨by simp only [hst]; omega, by simp only [hone]; omega, by simp only [hst, hone]; omega⟩
    refine ⟨rfl, ?_, by simp [hb.length]⟩
    rw [(Heap.spans_insert hj hreal).length_eq, List.length_cons, hb.used]

/-- Once every slot is used, `malloc(1)` refuses and drops a byte of `freed`. -/
theorem OneByteBlocks.full {h : Heap} (hb : OneByteBlocks start cap tail chunkQty h)
    (hk : chunkQty + 1 < cap.toNat) (hnw : start.toNat + cap.toNat < 2 ^ 32) :
    (h.malloc 1).1 = .noSlot ∧ (h.malloc 1).2 ≠ h := by
  have hfull : ∀ c ∈ h.allocated, c ≠ Chunk.empty := by
    have hlen : (h.allocated.filter (· ≠ Chunk.empty)).length = h.allocated.length := by
      rw [hb.length, ← hb.used, spans, List.length_map]
    intro c hc
    have := List.length_filter_eq_length_iff.mp hlen c hc
    simpa using this
  rw [hb.malloc hk hnw, insertChunk_none.mpr hfull]
  refine ⟨rfl, fun e => ?_⟩
  have e' := congrArg Heap.freed e
  simp only [hb.freed, List.cons.injEq, Chunk.mk.injEq, and_true] at e'
  have := congrArg BitVec.toNat ((BitVec.add_right_inj _).mp e'.1)
  simp only [BitVec.toNat_ofNat] at this
  omega

theorem oneByteBlocks_allocInit (start cap : Word) :
    OneByteBlocks start cap (List.replicate (chunkQty - 1) Chunk.empty) 0 (allocInit start cap) := by
  have hq : List.replicate chunkQty Chunk.empty =
      Chunk.empty :: List.replicate (chunkQty - 1) Chunk.empty := rfl
  refine ⟨?_, ?_, ?_⟩
  · simp only [allocInit, hq, List.set_cons_zero, BitVec.add_zero, BitVec.sub_zero]
  · simp only [allocInit, spans_replicate, List.length_nil]
  · simp only [allocInit, List.length_replicate]

section

variable (hs : 0 < start.toNat) (hcap : chunkQty + 1 < cap.toNat)
  (hnw : start.toNat + cap.toNat < 2 ^ 32)
include hs hcap hnw

theorem OneByteBlocks.installer_run : ∀ (n k : Nat) (s : Installer.State), k + n = chunkQty →
    OneByteBlocks start cap tail k s.heap →
    ∃ s', Installer.run s (List.replicate n (.malloc 1)) = some s' ∧
      OneByteBlocks start cap tail chunkQty s'.heap := by
  intro n
  induction n with
  | zero => exact fun k s hk hb => ⟨s, rfl, (by omega : k = chunkQty) ▸ hb⟩
  | succ n ih =>
    intro k s hk hb
    have hb' := hb.next (by omega) hs hnw (by omega)
    rw [← (Installer.malloc_heap s 1).2] at hb'
    obtain ⟨s', hrun, h'⟩ := ih (k + 1) _ (by omega) hb'
    exact ⟨s', by simpa [Installer.run, Installer.step, List.replicate_succ] using hrun, h'⟩

theorem OneByteBlocks.kernel_run : ∀ (n k : Nat) (h : Heap), k + n = chunkQty →
    OneByteBlocks start cap tail k h →
    OneByteBlocks start cap tail chunkQty (Kernel.run h (List.replicate n (.malloc 1))) := by
  intro n
  induction n with
  | zero => exact fun k h hk hb => (by omega : k = chunkQty) ▸ hb
  | succ n ih =>
    intro k h hk hb
    exact ih (k + 1) _ (by omega) (hb.next (by omega) hs hnw (by omega))

end

end

/-- After `CHUNK_QTY` calls `malloc(1)` on the heaps of `_start`, the next one returns `NULL` and
takes a byte out of `freed`, in both allocators. -/
theorem failed_malloc_loses_byte :
    (∃ s, Installer.run ⟨allocInit 0x100000 0xFFFFF, .no⟩ (List.replicate chunkQty (.malloc 1)) =
        some s ∧
      (Installer.malloc s 1).1 = 0 ∧ (Installer.malloc s 1).2.heap ≠ s.heap) ∧
    (Kernel.malloc (Kernel.run (allocInit 0x1000000 0x1000000)
        (List.replicate chunkQty (.malloc 1))) 1).1 = 0 ∧
    (Kernel.malloc (Kernel.run (allocInit 0x1000000 0x1000000)
        (List.replicate chunkQty (.malloc 1))) 1).2 ≠
      Kernel.run (allocInit 0x1000000 0x1000000) (List.replicate chunkQty (.malloc 1)) := by
  constructor
  · obtain ⟨s, hrun, hb⟩ := OneByteBlocks.installer_run
      (by decide) (by decide) (by decide) chunkQty 0 ⟨allocInit 0x100000 0xFFFFF, .no⟩
      (Nat.zero_add _) (oneByteBlocks_allocInit 0x100000 0xFFFFF)
    obtain ⟨h1, h2⟩ := hb.full (by decide) (by decide)
    obtain ⟨e1, e2⟩ := Installer.malloc_heap s 1
    exact ⟨s, hrun, by rw [e1, h1]; rfl, by rwa [e2]⟩
  · have hb := OneByteBlocks.kernel_run
      (by decide) (by decide) (by decide) chunkQty 0 (allocInit 0x1000000 0x1000000)
      (Nat.zero_add _) (oneByteBlocks_allocInit 0x1000000 0x1000000)
    obtain ⟨h1, h2⟩ := hb.full (by decide) (by decide)
    exact ⟨by rw [Kernel.malloc_fst, h1]; rfl, by rwa [Kernel.malloc_snd]⟩

end Amethyst
