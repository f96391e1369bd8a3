import Amethyst.Chunk

/-!
# Amethyst.Heap

`alloc_init`, `malloc` and `free` on the two tables of an allocator. The two allocators differ in
how `free` puts a chunk back into `freed` (`giveBack`) and in what they report; the rest is here.

`Heap.malloc_cases` and `Heap.free_cases` say once what a call can do. From them: the ranges of
the used entries stay packed in the heap whatever is called (`Heap.Inv`, `malloc_inv`, `free_inv`),
provided `giveBack` only regroups ranges (`GivesBack`).
-/

namespace Amethyst

structure Heap where
  allocated : Table
  freed : Table
deriving DecidableEq, Repr

/-- `alloc_init`: every slot is reset, then `freed[0]` is the whole heap. -/
def allocInit (start cap : Word) : Heap where
  allocated := List.replicate chunkQty Chunk.empty
  freed := (List.replicate chunkQty Chunk.empty).set 0 ⟨start, cap⟩

/-- How `malloc` ends: its three refusals in source order, or the address it returns. -/
inductive MallocEnd where
  | zeroSize
  | heapFull
  | noSlot
  | ok (ptr : Word)
deriving DecidableEq, Repr

/-- The return value of `malloc`: every refusal is `NULL`. -/
def MallocEnd.ptr : MallocEnd → Word
  | .ok ptr => ptr
  | _ => 0

inductive FreeEnd where
  | null
  | notAllocated
  | noSlot
  | ok
deriving DecidableEq, Repr

inductive Call where
  | malloc (size : Word)
  | free (ptr : Word)
deriving DecidableEq, Repr

namespace Heap

def malloc (h : Heap) (size : Word) : MallocEnd × Heap :=
  if size = 0 then (.zeroSize, h)
  else
    match removeChunkBySize h.freed size with
    | none => (.heapFull, h)
    | some (chunk, freed) =>
      match insertChunk chunk h.allocated with
      -- the chunk has left `freed` and enters no table
      | none => (.noSlot, { h with freed := freed })
      | some allocated => (.ok chunk.start, ⟨allocated, freed⟩)

/-- `giveBack chunk freed` is `none` if it does not return, `some none` if no slot took the chunk. -/
def free (giveBack : Chunk → Table → Option (Option Table)) (h : Heap) (ptr : Word) :
    Option (FreeEnd × Heap) :=
  if ptr = 0 then some (.null, h)
  else
    match removeChunkByAddress h.allocated ptr with
    | none => some (.notAllocated, h)
    | some (chunk, allocated) =>
      match giveBack chunk h.freed with
      | none => none
      | some none => some (.noSlot, { h with allocated := allocated })
      | some (some freed) => some (.ok, ⟨allocated, freed⟩)

end Heap

/-! ## Table operations -/

theorem insertChunk_none {p : Chunk} {l : Table} :
    insertChunk p l = none ↔ ∀ c ∈ l, c ≠ Chunk.empty := by
  simp only [insertChunk, Option.map_eq_none_iff, scan_none, ite_eq_right_iff, reduceCtorEq,
    imp_false, Chunk.isEmpty_iff, ne_eq]

theorem insertChunk_some {p : Chunk} {l l' : Table} (h : insertChunk p l = some l') :
    ∃ j, l[j]? = some Chunk.empty ∧ l' = l.set j p := by
  obtain ⟨⟨j, u, l''⟩, hs, rfl⟩ := Option.map_eq_some_iff.mp h
  obtain ⟨c, c', h1, h2, rfl, -⟩ := scan_some hs
  split at h2
  · rename_i he
    cases h2
    exact ⟨j, by rw [h1, Chunk.isEmpty_iff.mp he], rfl⟩
  · cases h2

theorem removeChunkBySize_none {l : Table} {size : Word} :
    removeChunkBySize l size = none ↔ ∀ c ∈ l, ¬ size ≤ c.size := by
  simp [removeChunkBySize, scan_none, Chunk.cut]

theorem removeChunkBySize_some {l l' : Table} {size : Word} {p : Chunk}
    (h : removeChunkBySize l size = some (p, l')) :
    ∃ i c c', l[i]? = some c ∧ c.cut size = some (p, c') ∧ l' = l.set i c' := by
  obtain ⟨⟨i, v, l''⟩, hs, e⟩ := Option.map_eq_some_iff.mp h
  cases e
  obtain ⟨c, c', h1, h2, h3, -⟩ := scan_some hs
  exact ⟨i, c, c', h1, h2, h3⟩

theorem removeChunkByAddress_none {l : Table} {ptr : Word} :
    removeChunkByAddress l ptr = none ↔ ∀ c ∈ l, c.start ≠ ptr := by
  simp [removeChunkByAddress, scan_none]

theorem removeChunkByAddress_some {l l' : Table} {ptr : Word} {p : Chunk}
    (h : removeChunkByAddress l ptr = some (p, l')) :
    ∃ i, l[i]? = some p ∧ p.start = ptr ∧ l' = l.set i Chunk.empty := by
  obtain ⟨⟨i, v, l''⟩, hs, e⟩ := Option.map_eq_some_iff.mp h
  cases e
  obtain ⟨c, c', h1, h2, h3, -⟩ := scan_some hs
  split at h2
  · rename_i he
    cases h2
    exact ⟨i, h1, he, h3⟩
  · cases h2

/-! ## What a call can do -/

namespace Heap

variable {h h' : Heap}

/-- `malloc` refuses and changes nothing, or cuts a chunk off a free entry, which it then either
puts into an empty slot of `allocated` or drops. -/
theorem malloc_cases {size : Word} {r : MallocEnd} (hm : h.malloc size = (r, h')) :
    (r = .zeroSize ∧ size = 0 ∧ h' = h) ∨
    (r = .heapFull ∧ size ≠ 0 ∧ (∀ c ∈ h.freed, ¬ size ≤ c.size) ∧ h' = h) ∨
    (size ≠ 0 ∧ ∃ i c p c', h.freed[i]? = some c ∧ c.cut size = some (p, c') ∧
      ((r = .noSlot ∧ (∀ d ∈ h.allocated, d ≠ Chunk.empty) ∧ h' = ⟨h.allocated, h.freed.set i c'⟩) ∨
        (r = .ok p.start ∧ ∃ j, h.allocated[j]? = some Chunk.empty ∧
          h' = ⟨h.allocated.set j p, h.freed.set i c'⟩))) := by
  unfold malloc at hm
  split at hm
  · cases hm
    exact .inl ⟨rfl, ‹_›, rfl⟩
  · rename_i hs
    split at hm
    · rename_i hr
      cases hm
      exact .inr (.inl ⟨rfl, hs, removeChunkBySize_none.mp hr, rfl⟩)
    · rename_i p freed hr
      obtain ⟨i, c, c', h1, h2, rfl⟩ := removeChunkBySize_some hr
      refine .inr (.inr ⟨hs, i, c, p, c', h1, h2, ?_⟩)
      split at hm
      · rename_i hi
        cases hm
        exact .inl ⟨rfl, insertChunk_none.mp hi, rfl⟩
      · rename_i allocated hi
        cases hm
        obtain ⟨j, h3, rfl⟩ := insertChunk_some hi
        exact .inr ⟨rfl, j, h3, rfl⟩

theorem free_cases (h : Heap) (giveBack : Chunk → Table → Option (Option Table)) (ptr : Word) :
    (h.free giveBack ptr = some (.null, h) ∧ ptr = 0) ∨
    (h.free giveBack ptr = some (.notAllocated, h) ∧ ptr ≠ 0 ∧ ∀ c ∈ h.allocated, c.start ≠ ptr) ∨
    (ptr ≠ 0 ∧ ∃ i p, h.allocated[i]? = some p ∧ p.start = ptr ∧
      ((giveBack p h.freed = none ∧ h.free giveBack ptr = none) ∨
        (giveBack p h.freed = some none ∧
          h.free giveBack ptr = some (.noSlot, ⟨h.allocated.set i Chunk.empty, h.freed⟩)) ∨
        ∃ freed, giveBack p h.freed = some (some freed) ∧
          h.free giveBack ptr = some (.ok, ⟨h.allocated.set i Chunk.empty, freed⟩))) := by
  unfold free
  split
  · exact .inl ⟨rfl, ‹_›⟩
  · rename_i hp
    split
    · rename_i hr
      exact .inr (.inl ⟨rfl, hp, removeChunkByAddress_none.mp hr⟩)
    · rename_i p allocated hr
      obtain ⟨i, h1, h2, rfl⟩ := removeChunkByAddress_some hr
      refine .inr (.inr ⟨hp, i, p, h1, h2, ?_⟩)
      split
      · exact .inl ⟨‹_›, rfl⟩
      · exact .inr (.inl ⟨‹_›, rfl⟩)
      · exact .inr (.inr ⟨_, ‹_›, rfl⟩)

/-! ## The invariant -/

/-- The used entries of both tables. -/
def blocks (h : Heap) : List (Span Nat) := spans h.allocated ++ spans h.freed

/-- The used entries of both tables are packed in the heap `[lo, hi)`. -/
structure Inv (lo hi : Nat) (h : Heap) : Prop where
  packed : Packed lo hi h.blocks
  length_allocated : h.allocated.length = chunkQty
  length_freed : h.freed.length = chunkQty

section

variable {lo hi : Nat}

theorem real_of_packed {l : Table} {ss : List (Span Nat)} (hlo : 0 < lo) (hhi : hi < 2 ^ 32)
    (hp : Packed lo hi ss) (hsub : ∀ s ∈ spans l, s ∈ ss) : Clean l := by
  intro c hc
  by_cases he : c = Chunk.empty
  · exact .inl he
  · right
    have hs := hsub _ (mem_spans.mpr ⟨c, hc, he, rfl⟩)
    have h1 := hp.pos _ hs
    obtain ⟨h2, h3⟩ := hp.inside _ hs
    simp only [Chunk.span] at h1 h2 h3
    exact ⟨by omega, by omega, by omega⟩

theorem Inv.clean_allocated (hlo : 0 < lo) (hhi : hi < 2 ^ 32) (hi' : h.Inv lo hi) :
    Clean h.allocated :=
  real_of_packed hlo hhi hi'.packed (by simp +contextual [blocks])

theorem Inv.clean_freed (hlo : 0 < lo) (hhi : hi < 2 ^ 32) (hi' : h.Inv lo hi) : Clean h.freed :=
  real_of_packed hlo hhi hi'.packed (by simp +contextual [blocks])

end

theorem blocks_allocInit {start cap : Word} (h : (⟨start, cap⟩ : Chunk) ≠ Chunk.empty) :
    (allocInit start cap).blocks = [(⟨start, cap⟩ : Chunk).span] := by
  rw [blocks, allocInit, spans_replicate, spans_replicate_set chunkQty_pos h, List.nil_append]

theorem inv_allocInit {start cap : Word} (hs : 0 < start.toNat) (hc : 0 < cap.toNat) :
    (allocInit start cap).Inv start.toNat (start.toNat + cap.toNat) := by
  have hne : (⟨start, cap⟩ : Chunk) ≠ Chunk.empty := by
    rintro e
    cases e
    exact absurd hs (by simp)
  refine ⟨?_, by simp [allocInit], by simp [allocInit]⟩
  rw [blocks_allocInit hne]
  refine ⟨?_, ?_, List.pairwise_singleton _ _⟩
  · simpa [Chunk.span] using hc
  · simp [Chunk.span]

/-- Cutting a chunk off a free entry only cuts its range. -/
theorem regroup_cut {l : Table} (hl : Clean l) {size : Word} (hs : size ≠ 0) {i : Nat}
    {c p c' : Chunk} (hc : l[i]? = some c) (hcut : c.cut size = some (p, c')) :
    Regroup (p.span :: spans (l.set i c')) (spans l) ∧ p.Real := by
  obtain ⟨hilt, rfl⟩ := List.getElem?_eq_some_iff.mp hc
  obtain ⟨hcr, hp, -, h⟩ := Chunk.cut_some (hl _ (List.getElem_mem hilt)) hs hcut
  refine ⟨?_, hp⟩
  have hold := spans_of_getElem? hc hcr.ne_empty
  rcases h with ⟨rfl, e⟩ | ⟨hc', e, ht⟩
  · exact .perm (by rw [← e]; exact hold.symm)
  · have hnew := spans_set hilt hc'.ne_empty
    refine .trans (.perm (hnew.cons _)) (.trans ?_ (.perm hold.symm))
    have hj := Regroup.join (spans (l.set i Chunk.empty)) (p := p.span.lo) (q := p.span.hi)
      (r := c'.span.hi) (by have := hp.size_pos; simp only [Chunk.span]; omega)
      (by rw [ht]; have := hc'.size_pos; simp only [Chunk.span]; omega)
    rw [e]
    convert hj using 3
    rw [ht]

theorem spans_insert {l : Table} {j : Nat} {p : Chunk} (hj : l[j]? = some Chunk.empty)
    (hp : p.Real) : (spans (l.set j p)).Perm (p.span :: spans l) := by
  obtain ⟨hjlt, -⟩ := List.getElem?_eq_some_iff.mp hj
  have h := spans_set hjlt hp.ne_empty
  rwa [spans_set_empty hj] at h

/-- Growing an entry by a chunk that touches it joins their ranges. -/
theorem regroup_merge {l : Table} (hl : Clean l) {p c c' : Chunk} {u : Unit} {i : Nat}
    (hp : p.Real) (hc : l[i]? = some c) (hm : p.merge c = some (u, c')) :
    Regroup (p.span :: spans l) (spans (l.set i c')) ∧ c'.Real := by
  obtain ⟨hilt, rfl⟩ := List.getElem?_eq_some_iff.mp hc
  obtain ⟨hcr, hc', h⟩ := Chunk.merge_some hp (hl _ (List.getElem_mem hilt)) hm
  refine ⟨?_, hc'⟩
  have hold := (spans_of_getElem? hc hcr.ne_empty).cons p.span
  have hnew := spans_set hilt hc'.ne_empty
  have hp2 := hp.size_pos
  have hc2 := hcr.size_pos
  rcases h with ⟨ht, e⟩ | ⟨ht, e⟩
  · refine .trans (.perm (hold.trans (List.Perm.swap _ _ _))) (.trans ?_ (.perm hnew.symm))
    have hj := Regroup.join (spans (l.set i Chunk.empty)) (p := l[i].span.lo) (q := l[i].span.hi)
      (r := p.span.hi) (by simp only [Chunk.span]; omega)
      (by rw [ht]; simp only [Chunk.span]; omega)
    rw [e]
    convert hj using 3
    rw [ht]
  · refine .trans (.perm hold) (.trans ?_ (.perm hnew.symm))
    have hj := Regroup.join (spans (l.set i Chunk.empty)) (p := p.span.lo) (q := p.span.hi)
      (r := l[i].span.hi) (by simp only [Chunk.span]; omega)
      (by rw [ht]; simp only [Chunk.span]; omega)
    rw [e]
    convert hj using 3
    rw [ht]

/-- A merge loop that finds nothing: no used entry touches the chunk. -/
theorem not_touch_of_scan {l : Table} (hl : Clean l) {p : Chunk} (hp : p.Real)
    (h : scan p.merge l = none) : ∀ s ∈ spans l, ¬ p.span.Touch s := by
  intro s hs
  obtain ⟨c, hc, hne, rfl⟩ := mem_spans.mp hs
  exact Chunk.merge_none hp ((hl c hc).resolve_left hne) (scan_none.mp h c hc)

section

variable {lo hi : Nat} (hlo : 0 < lo) (hhi : hi < 2 ^ 32)
include hlo hhi

/-- A `malloc` that drops no chunk only regroups the ranges of the used entries. -/
theorem malloc_regroup (hinv : h.Inv lo hi) {size : Word} {r : MallocEnd}
    (hm : h.malloc size = (r, h')) (hr : r ≠ .noSlot) : Regroup h.blocks h'.blocks := by
  rcases malloc_cases hm with ⟨-, -, rfl⟩ | ⟨-, -, -, rfl⟩ | ⟨hs, i, c, p, c', h1, h2, h3⟩
  · exact .refl _
  · exact .refl _
  obtain ⟨hcut, hp⟩ := regroup_cut (hinv.clean_freed hlo hhi) hs h1 h2
  rcases h3 with ⟨rfl, -⟩ | ⟨-, j, hj, rfl⟩
  · exact absurd rfl hr
  · refine .trans (.symm (hcut.append_left _)) (.perm ?_)
    exact List.perm_middle.trans ((spans_insert hj hp).symm.append_right _)

theorem malloc_inv (hinv : h.Inv lo hi) {size : Word} {r : MallocEnd}
    (hm : h.malloc size = (r, h')) : h'.Inv lo hi := by
  have hre := malloc_regroup hlo hhi hinv hm
  rcases malloc_cases hm with ⟨-, -, rfl⟩ | ⟨-, -, -, rfl⟩ | ⟨hs, i, c, p, c', h1, h2, h3⟩
  · exact hinv
  · exact hinv
  rcases h3 with ⟨-, -, rfl⟩ | ⟨rfl, j, -, rfl⟩
  · have hcut := (regroup_cut (hinv.clean_freed hlo hhi) hs h1 h2).1
    have hall := (hcut.append_left (spans h.allocated)).packed_iff.mpr hinv.packed
    exact ⟨hall.sublist ((List.sublist_cons_self _ _).append_left _), hinv.length_allocated,
      by simp [hinv.length_freed]⟩
  · exact ⟨(hre (by simp)).packed_iff.mp hinv.packed, by simp [hinv.length_allocated],
      by simp [hinv.length_freed]⟩

theorem malloc_ok_ne_zero (hinv : h.Inv lo hi) {size p : Word}
    (hm : h.malloc size = (.ok p, h')) : p ≠ 0 := by
  rcases malloc_cases hm with ⟨e, -⟩ | ⟨e, -⟩ | ⟨hs, i, c, q, c', h1, h2, h3⟩
  · cases e
  · cases e
  have hq := (regroup_cut (hinv.clean_freed hlo hhi) hs h1 h2).2.start_pos
  rcases h3 with ⟨e, -⟩ | ⟨e, -⟩
  · cases e
  · cases e
    intro h0
    rw [h0] at hq
    exact absurd hq (by simp)

theorem malloc_ne_zero_iff (hinv : h.Inv lo hi) (size : Word) :
    (h.malloc size).1.ptr ≠ 0 ↔
      size ≠ 0 ∧ (∃ c ∈ h.freed, size ≤ c.size) ∧ Chunk.empty ∈ h.allocated := by
  obtain ⟨r, h', e⟩ : ∃ r h', h.malloc size = (r, h') := ⟨_, _, rfl⟩
  rw [e]
  rcases malloc_cases e with ⟨rfl, hz, -⟩ | ⟨rfl, -, hno, -⟩ | ⟨hs, i, c, p, c', hc, hcut, h3⟩
  · exact iff_of_false (fun hp => hp rfl) fun hr => hr.1 hz
  · refine iff_of_false (fun hp => hp rfl) fun hr => ?_
    obtain ⟨-, ⟨c, hc, hle⟩, -⟩ := hr
    exact hno c hc hle
  rcases h3 with ⟨rfl, hfull, -⟩ | ⟨rfl, j, hj, -⟩
  · exact iff_of_false (fun hp => hp rfl) fun hr => hfull _ hr.2.2 rfl
  · exact iff_of_true (malloc_ok_ne_zero hlo hhi hinv e)
      ⟨hs, ⟨c, List.mem_of_getElem? hc, (Chunk.cut_fits hcut).1⟩, List.mem_of_getElem? hj⟩

end

theorem real_of_packed_cons {lo hi : Nat} (hlo : 0 < lo) (hhi : hi < 2 ^ 32) {p : Chunk}
    {ss : List (Span Nat)} (hp : Packed lo hi (p.span :: ss)) : p.Real := by
  obtain ⟨h1, h2, h3, -⟩ := packed_cons.mp hp
  simp only [Chunk.span] at h1 h2 h3
  exact ⟨by omega, by omega, by omega⟩

/-- `giveBack` returns, and either takes no chunk or regroups its range with those of `freed`. -/
def GivesBack (lo hi : Nat) (giveBack : Chunk → Table → Option (Option Table)) : Prop :=
  ∀ p l, Packed lo hi (p.span :: spans l) → ∃ o, giveBack p l = some o ∧
    ∀ l', o = some l' → Regroup (p.span :: spans l) (spans l') ∧ l'.length = l.length

section

variable {lo hi : Nat} {giveBack : Chunk → Table → Option (Option Table)}

/-- The chunk `free` takes out of `allocated`, with what stays in the tables. -/
theorem Inv.take (hlo : 0 < lo) (hhi : hi < 2 ^ 32) (hinv : h.Inv lo hi) {i : Nat} {p : Chunk}
    (hp : h.allocated[i]? = some p) (hne : p.start ≠ 0) :
    p.Real ∧ (h.blocks).Perm (p.span :: (spans (h.allocated.set i Chunk.empty) ++ spans h.freed)) := by
  have hmem := List.mem_of_getElem? hp
  have hpe : p ≠ Chunk.empty := by
    rintro rfl
    exact hne rfl
  refine ⟨(hinv.clean_allocated hlo hhi p hmem).resolve_left hpe, ?_⟩
  exact (spans_of_getElem? hp hpe).append_right _

/-- What `free` does on a packed heap: nothing, or it takes the block out of `allocated` and
`giveBack` drops it or regroups it with `freed`. -/
theorem free_spec (hlo : 0 < lo) (hhi : hi < 2 ^ 32) (hg : GivesBack lo hi giveBack)
    (hinv : h.Inv lo hi) (ptr : Word) :
    (∃ r, h.free giveBack ptr = some (r, h) ∧ r ≠ .noSlot ∧ r ≠ .ok) ∨
    ∃ i p, h.allocated[i]? = some p ∧ p.start = ptr ∧ ptr ≠ 0 ∧
      Packed lo hi (p.span :: spans h.freed) ∧
      ((giveBack p h.freed = some none ∧ ∃ h', h.free giveBack ptr = some (.noSlot, h') ∧
          h'.Inv lo hi) ∨
        ∃ freed h', giveBack p h.freed = some (some freed) ∧
          h.free giveBack ptr = some (.ok, h') ∧ h' = ⟨h.allocated.set i Chunk.empty, freed⟩ ∧
          h'.Inv lo hi ∧ Regroup h.blocks h'.blocks) := by
  rcases free_cases h giveBack ptr with ⟨e, -⟩ | ⟨e, -, -⟩ | ⟨hne, i, p, hp, rfl, hf⟩
  · exact .inl ⟨_, e, by simp, by simp⟩
  · exact .inl ⟨_, e, by simp, by simp⟩
  right
  obtain ⟨hpr, hperm⟩ := hinv.take hlo hhi hp hne
  have hpk := hinv.packed.perm hperm
  have hpf : Packed lo hi (p.span :: spans h.freed) :=
    hpk.sublist (List.Sublist.cons_cons _ (List.sublist_append_right _ _))
  obtain ⟨o, ho, hl⟩ := hg p h.freed hpf
  refine ⟨i, p, hp, rfl, hne, hpf, ?_⟩
  rcases hf with ⟨hn, -⟩ | ⟨hn, e⟩ | ⟨freed, hs, e⟩
  · rw [ho] at hn; cases hn
  · refine .inl ⟨hn, _, e, ?_, by simp [hinv.length_allocated], hinv.length_freed⟩
    exact hpk.sublist (List.sublist_cons_self _ _)
  · rw [ho] at hs
    cases hs
    obtain ⟨hre, hlen⟩ := hl freed rfl
    have hre' : Regroup h.blocks (spans (h.allocated.set i Chunk.empty) ++ spans freed) :=
      .trans (.perm (hperm.trans List.perm_middle.symm)) (hre.append_left _)
    refine .inr ⟨freed, _, ho, e, rfl, ⟨hre'.packed_iff.mp hinv.packed, ?_, ?_⟩, hre'⟩
    · simp [hinv.length_allocated]
    · simp [hlen, hinv.length_freed]

theorem free_inv (hlo : 0 < lo) (hhi : hi < 2 ^ 32) (hg : GivesBack lo hi giveBack)
    (hinv : h.Inv lo hi) (ptr : Word) :
    ∃ r h', h.free giveBack ptr = some (r, h') ∧ h'.Inv lo hi := by
  rcases free_spec hlo hhi hg hinv ptr with
    ⟨r, e, -⟩ | ⟨i, p, -, -, -, -, ⟨-, h', e, hinv'⟩ | ⟨freed, h', -, e, -, hinv', -⟩⟩
  · exact ⟨r, h, e, hinv⟩
  · exact ⟨_, h', e, hinv'⟩
  · exact ⟨_, h', e, hinv'⟩

end

end Heap

end Amethyst
