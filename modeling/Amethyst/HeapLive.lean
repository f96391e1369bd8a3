import Amethyst.HeapSafety
import Mathlib.Data.Set.Insert
import Mathlib.Order.BooleanAlgebra.Set

/-!
# Amethyst.HeapLive

The set of live blocks of a heap, and what `malloc` and `free` do to it. On a heap that satisfies the
invariant a block is live once, and no two live blocks share a byte, so that `malloc` adds one block
(`malloc_live`) and `free` takes one out (`free_live`), whatever becomes of `freed`.
-/

namespace Amethyst
namespace Heap

/-- The used entries of `allocated`. -/
def live (h : Heap) : Set Chunk := fun c => c ∈ h.allocated ∧ c ≠ Chunk.empty

/-- `freed` has no entry that touches the chunk and no empty slot. -/
def NoPlace (h : Heap) (c : Chunk) : Prop :=
  (∀ s ∈ spans h.freed, ¬ c.span.Touch s) ∧ ∀ d ∈ h.freed, d ≠ Chunk.empty

theorem mem_live {h : Heap} {c : Chunk} : c ∈ h.live ↔ c ∈ h.allocated ∧ c ≠ Chunk.empty := Iff.rfl

theorem live_allocInit (start cap : Word) : (allocInit start cap).live = ∅ := by
  ext c
  simp only [mem_live, allocInit, List.mem_replicate, Set.mem_empty_iff_false, iff_false]
  intro h
  exact h.2 h.1.2

theorem live_insert {h : Heap} {freed : Table} {j : Nat} (hj : h.allocated[j]? = some Chunk.empty)
    {p : Chunk} (hp : p ≠ Chunk.empty) :
    live ⟨h.allocated.set j p, freed⟩ = insert p h.live := by
  obtain ⟨hlt, hget⟩ := List.getElem?_eq_some_iff.mp hj
  ext c
  simp only [mem_live, Set.mem_insert_iff]
  constructor
  · intro hc
    cases List.mem_or_eq_of_mem_set hc.1 with
    | inl hmem => exact .inr ⟨hmem, hc.2⟩
    | inr he => exact .inl he
  · intro hc
    cases hc with
    | inl he =>
      subst he
      exact ⟨List.mem_set hlt _, hp⟩
    | inr hc =>
      obtain ⟨i, hi, he⟩ := List.mem_iff_getElem.mp hc.1
      have hij : j ≠ i := by
        intro hij
        subst hij
        exact hc.2 (he.symm.trans hget)
      refine ⟨List.mem_iff_getElem.mpr ⟨i, by simpa using hi, ?_⟩, hc.2⟩
      rw [List.getElem_set_ne hij, he]

section

variable {lo hi : Nat} (hlo : 0 < lo) (hhi : hi < 2 ^ 32) {h : Heap} (hinv : h.Inv lo hi)
include hlo hhi hinv

theorem Inv.real {c : Chunk} (hc : c ∈ h.live) : c.Real :=
  (hinv.clean_allocated hlo hhi c hc.1).resolve_left hc.2

omit hlo hhi in
theorem Inv.inside {c : Chunk} (hc : c ∈ h.live) :
    lo ≤ c.start.toNat ∧ c.start.toNat + c.size.toNat ≤ hi :=
  hinv.packed.inside c.span
    (List.mem_append_left _ (mem_spans.mpr ⟨c, hc.1, hc.2, rfl⟩))

theorem Inv.start_ne_zero {c : Chunk} (hc : c ∈ h.live) : c.start ≠ 0 := by
  intro h0
  have hreal := hinv.real hlo hhi hc
  have := hreal.start_pos
  rw [h0] at this
  exact absurd this (by simp)

omit hlo hhi in
theorem Inv.packed_freed {c : Chunk} (hc : c ∈ h.live) :
    Packed lo hi (c.span :: spans h.freed) := by
  have hmem : c.span ∈ spans h.allocated := mem_spans.mpr ⟨c, hc.1, hc.2, rfl⟩
  exact hinv.packed.sublist ((List.singleton_sublist.mpr hmem).append (List.Sublist.refl _))

omit hlo hhi in
/-- Two live blocks are one block or share no byte. -/
theorem Inv.live_sep {c d : Chunk} (hc : c ∈ h.live) (hd : d ∈ h.live) (hne : c ≠ d) :
    c.span.Sep d.span := by
  refine hinv.packed.sep_of_ne (List.mem_append_left _ (mem_spans.mpr ⟨c, hc.1, hc.2, rfl⟩))
    (List.mem_append_left _ (mem_spans.mpr ⟨d, hd.1, hd.2, rfl⟩)) fun he => hne ?_
  obtain ⟨start, size⟩ := c
  obtain ⟨start', size'⟩ := d
  simp only [Chunk.span, Span.mk.injEq] at he
  have h1 : start = start' := BitVec.eq_of_toNat_eq he.1
  have h2 : size = size' := BitVec.eq_of_toNat_eq (by omega)
  rw [h1, h2]

theorem Inv.live_inj {c d : Chunk} (hc : c ∈ h.live) (hd : d ∈ h.live) (he : c.start = d.start) :
    c = d := by
  by_contra hne
  have hsep := hinv.live_sep hc hd hne
  have h1 := (hinv.real hlo hhi hc).size_pos
  have h2 := (hinv.real hlo hhi hd).size_pos
  simp only [Span.Sep, Chunk.span, he] at hsep
  omega

/-- A `malloc` adds a new block, or returns `NULL` and adds none. -/
theorem malloc_live {size : Word} {r : MallocEnd} {h' : Heap} (hm : h.malloc size = (r, h')) :
    (r.ptr = 0 ∧ (∀ p, r ≠ .ok p) ∧ h'.live = h.live) ∨
      ∃ p, r = .ok p ∧ p ≠ 0 ∧ (⟨p, size⟩ : Chunk) ∉ h.live ∧ h'.live = insert ⟨p, size⟩ h.live := by
  rcases malloc_cases hm with ⟨rfl, -, rfl⟩ | ⟨rfl, -, -, rfl⟩ | ⟨hs, i, c, p, c', h1, h2, h3⟩
  · exact .inl ⟨rfl, by simp, rfl⟩
  · exact .inl ⟨rfl, by simp, rfl⟩
  · cases h3 with
    | inl h3 =>
      obtain ⟨rfl, -, rfl⟩ := h3
      exact .inl ⟨rfl, by simp, rfl⟩
    | inr h3 =>
      obtain ⟨rfl, j, hj, rfl⟩ := h3
      obtain ⟨-, rfl⟩ := Chunk.cut_fits h2
      obtain ⟨hcut, hreal⟩ := regroup_cut (hinv.clean_freed hlo hhi) hs h1 h2
      refine .inr ⟨_, rfl, malloc_ok_ne_zero hlo hhi hinv hm, fun hlive => ?_,
        live_insert hj hreal.ne_empty⟩
      -- the cut chunk is separate from every live block, itself included
      have hall := (hcut.append_left (spans h.allocated)).packed_iff.mpr hinv.packed
      have hmem : Chunk.span ⟨c.start, size⟩ ∈ spans h.allocated :=
        mem_spans.mpr ⟨_, hlive.1, hlive.2, rfl⟩
      have hsep := hall.sep_append hmem List.mem_cons_self
      have hpos : 0 < size.toNat := hreal.size_pos
      simp only [Span.Sep, Chunk.span] at hsep
      omega

/-- The entry that a block was cut from has a place for it: what is left of the entry touches the block,
and if nothing is left the entry is empty. -/
theorem malloc_place {size ptr : Word} {h' : Heap} (hm : h.malloc size = (.ok ptr, h')) :
    ¬ h'.NoPlace ⟨ptr, size⟩ := by
  intro hno
  rcases malloc_cases hm with ⟨h1, -⟩ | ⟨h1, -⟩ | ⟨hs, i, c, p, c', h1, h2, ⟨h3, -⟩ | ⟨h3, j, -, rfl⟩⟩
  · cases h1
  · cases h1
  · cases h3
  obtain ⟨hlt, rfl⟩ := List.getElem?_eq_some_iff.mp h1
  obtain ⟨-, -, rfl, hrest⟩ :=
    Chunk.cut_some (hinv.clean_freed hlo hhi _ (List.getElem_mem hlt)) hs h2
  cases h3
  cases hrest with
  | inl hempty => exact hno.2 c' (List.mem_set hlt c') hempty.1
  | inr hrest =>
    obtain ⟨hreal, -, htouch⟩ := hrest
    exact hno.1 c'.span (mem_spans.mpr ⟨c', List.mem_set hlt c', hreal.ne_empty, rfl⟩) (.inl htouch)

theorem live_remove {freed : Table} {i : Nat} {p : Chunk} (hp : h.allocated[i]? = some p)
    (hne : p.start ≠ 0) : live ⟨h.allocated.set i Chunk.empty, freed⟩ = h.live \ {p} := by
  obtain ⟨hreal, hperm⟩ := hinv.take hlo hhi hp hne
  obtain ⟨-, -, -, hsep, -⟩ := packed_cons.mp (hinv.packed.perm hperm)
  obtain ⟨hlt, hget⟩ := List.getElem?_eq_some_iff.mp hp
  ext c
  simp only [mem_live, Set.mem_sdiff, Set.mem_singleton_iff]
  constructor
  · intro hc
    have hmem := (List.mem_or_eq_of_mem_set hc.1).resolve_right hc.2
    refine ⟨⟨hmem, hc.2⟩, fun he => ?_⟩
    -- the slot of the block is empty now, and it was in no other
    subst he
    have hself := hsep c.span
      (List.mem_append_left _ (mem_spans.mpr ⟨c, hc.1, hc.2, rfl⟩))
    have hpos := hreal.size_pos
    simp only [Span.Sep, Chunk.span] at hself
    omega
  · intro hc
    obtain ⟨⟨hmem, hce⟩, hcp⟩ := hc
    obtain ⟨k, hk, he⟩ := List.mem_iff_getElem.mp hmem
    have hik : i ≠ k := by
      intro hik
      subst hik
      exact hcp (he.symm.trans hget)
    refine ⟨List.mem_iff_getElem.mpr ⟨k, by simpa using hk, ?_⟩, hce⟩
    rw [List.getElem_set_ne hik, he]

/-- A `free` of a live block takes it out, whether or not `freed` has a place for it. -/
theorem free_live {giveBack : Chunk → Table → Option (Option Table)} (hg : GivesBack lo hi giveBack)
    {c : Chunk} (hc : c ∈ h.live) :
    ∃ r h', h.free giveBack c.start = some (r, h') ∧ h'.Inv lo hi ∧ h'.live = h.live \ {c} ∧
      (giveBack c h.freed = some none ∧ r = .noSlot ∨
        (∃ freed, giveBack c h.freed = some (some freed)) ∧ r = .ok) := by
  have hc0 := hinv.start_ne_zero hlo hhi hc
  obtain ⟨r, h', e, hinv'⟩ := free_inv hlo hhi hg hinv c.start
  rcases free_cases h giveBack c.start with ⟨-, h0⟩ | ⟨-, -, hno⟩ | ⟨-, i, p, hp, hst, hf⟩
  · exact absurd h0 hc0
  · exact absurd rfl (hno c hc.1)
  · have hpl : p ∈ h.live := by
      refine ⟨List.mem_of_getElem? hp, fun he => hc0 ?_⟩
      rw [← hst, he]
      rfl
    have hpc : p = c := hinv.live_inj hlo hhi hpl hc hst
    subst hpc
    rcases hf with ⟨-, e'⟩ | ⟨hg', e'⟩ | ⟨freed, hg', e'⟩
    · rw [e] at e'
      cases e'
    · rw [e] at e'
      cases e'
      exact ⟨_, _, e, hinv', live_remove hlo hhi hinv hp hc0, .inl ⟨hg', rfl⟩⟩
    · rw [e] at e'
      cases e'
      exact ⟨_, _, e, hinv', live_remove hlo hhi hinv hp hc0, .inr ⟨⟨freed, hg'⟩, rfl⟩⟩

omit hlo hhi in
/-- With one live block `allocated` is not full: no two entries are the same block. -/
theorem Inv.slot_of_single {c : Chunk} (hlive : h.live ⊆ {c}) : Chunk.empty ∈ h.allocated := by
  by_contra hno
  have hall : ∀ d ∈ h.allocated, d = c ∧ d ≠ Chunk.empty := by
    intro d hd
    have hne : d ≠ Chunk.empty := fun he => hno (he ▸ hd)
    exact ⟨hlive ⟨hd, hne⟩, hne⟩
  have heq : h.allocated = List.replicate chunkQty c :=
    List.eq_replicate_iff.mpr ⟨hinv.length_allocated, fun d hd => (hall d hd).1⟩
  have hmem : c ∈ h.allocated := heq ▸ List.mem_replicate.mpr ⟨Nat.ne_of_gt chunkQty_pos, rfl⟩
  have hne := (hall c hmem).2
  have hspans : spans h.allocated = List.replicate chunkQty c.span := by
    simp [heq, spans, hne]
  have hpk : Packed lo hi (spans h.allocated) :=
    hinv.packed.sublist (List.sublist_append_left _ _)
  have hpos := hpk.pos c.span (mem_spans.mpr ⟨c, hmem, hne, rfl⟩)
  have hpair := hpk.sep
  rw [hspans, List.pairwise_replicate] at hpair
  cases hpair with
  | inl hle => exact absurd hle (by decide)
  | inr hsep =>
    simp only [Span.Sep] at hsep
    omega

end

end Heap
end Amethyst
