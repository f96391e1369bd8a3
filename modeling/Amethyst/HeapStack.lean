import Amethyst.HeapLive
import Amethyst.HeapSpace
import Mathlib.Data.Set.Card

/-!
# Amethyst.HeapStack

A heap whose live blocks take every byte in front of an address `top` and none behind it. A caller that
gives its blocks back in the reverse order keeps it so: `malloc` returns `top` and moves it up
(`Stacked.malloc`), and `free` of the last block moves it down again (`Stacked.pop`).
-/

namespace Amethyst
namespace Heap

/-- The live blocks take the bytes from `lo` to `top`. -/
structure Stacked (lo hi top : Nat) (h : Heap) : Prop extends Whole lo hi h where
  bottom : lo ≤ top
  covered : ∀ x, lo ≤ x → x < hi → ((∃ c ∈ h.live, c.span.Covers x) ↔ x < top)

variable {lo hi top : Nat} {h h' : Heap}

theorem covered_live {x : Nat} : Covered (spans h.allocated) x ↔ ∃ c ∈ h.live, c.span.Covers x := by
  constructor
  · rintro ⟨s, hs, hx⟩
    obtain ⟨c, hc, hne, rfl⟩ := mem_spans.mp hs
    exact ⟨c, ⟨hc, hne⟩, hx⟩
  · rintro ⟨c, hc, hx⟩
    exact ⟨c.span, mem_spans.mpr ⟨c, hc.1, hc.2, rfl⟩, hx⟩

/-- After `alloc_init` no block is live. -/
theorem stacked_allocInit {start cap : Word} (hr : HeapRange start cap) :
    (allocInit start cap).Stacked start.toNat (start.toNat + cap.toNat) start.toNat where
  toWhole := whole_allocInit hr
  bottom := Nat.le_refl _
  covered := by
    intro x h1 h2
    rw [live_allocInit]
    constructor
    · rintro ⟨c, hc, -⟩
      exact hc.elim
    · intro h
      omega

/-- Whole again with the same blocks. -/
theorem Stacked.of_live (hs : h.Stacked lo hi top) (hw : h'.Whole lo hi) (hlive : h'.live = h.live) :
    h'.Stacked lo hi top where
  toWhole := hw
  bottom := hs.bottom
  covered := hlive ▸ hs.covered

/-! ## Slots -/

/-- No block is live twice. -/
theorem Inv.nodup (hinv : h.Inv lo hi) (hfull : ∀ c ∈ h.allocated, c ≠ Chunk.empty) : h.allocated.Nodup := by
  have hspans : spans h.allocated = h.allocated.map Chunk.span := by
    rw [spans, List.filter_eq_self.mpr fun c hc => by simpa using hfull c hc]
  have hpk : Packed lo hi (spans h.allocated) := hinv.packed.sublist (List.sublist_append_left _ _)
  have hsep := hpk.sep
  rw [hspans, List.pairwise_map] at hsep
  refine List.Pairwise.imp_of_mem (fun {c d} hc _ hcd he => ?_) hsep
  have hpos := hpk.pos c.span (mem_spans.mpr ⟨c, hc, hfull c hc, rfl⟩)
  subst he
  simp only [Span.Sep] at hcd
  omega

theorem Inv.slot_of_ncard (hinv : h.Inv lo hi) (hcard : h.live.ncard < chunkQty) :
    Chunk.empty ∈ h.allocated := by
  by_contra hno
  have hfull : ∀ c ∈ h.allocated, c ≠ Chunk.empty := fun c hc he => hno (he ▸ hc)
  have hlive : h.live = ↑h.allocated.toFinset := by
    ext c
    rw [List.coe_toFinset, mem_live]
    exact ⟨fun hc => hc.1, fun hc => ⟨hc, hfull c hc⟩⟩
  rw [hlive, Set.ncard_coe_finset, List.toFinset_card_of_nodup (hinv.nodup hfull), hinv.length_allocated]
    at hcard
  exact Nat.lt_irrefl _ hcard

/-! ## The stack -/

section

variable (hlo : 0 < lo) (hhi : hi < 2 ^ 32)
include hlo hhi

/-- A live block ends at `top` or in front of it. -/
theorem Stacked.end_le (hs : h.Stacked lo hi top) {c : Chunk} (hc : c ∈ h.live) :
    c.start.toNat + c.size.toNat ≤ top := by
  obtain ⟨h1, h2⟩ := hs.inside hc
  have hpos := (hs.real hlo hhi hc).size_pos
  have hlast := (hs.covered (c.start.toNat + c.size.toNat - 1) (by omega) (by omega)).mp
    ⟨c, hc, by simp only [Span.Covers, Chunk.span]; omega⟩
  omega

omit hlo hhi in
/-- A free entry starts at `top`: the byte in front of one that starts behind it would belong to an
entry that touches it. -/
theorem Stacked.freed_start (hs : h.Stacked lo hi top) {s : Span Nat} (hmem : s ∈ spans h.freed) :
    s.lo = top := by
  have hin := hs.packed.inside s (List.mem_append_right _ hmem)
  have hpos := hs.packed.pos s (List.mem_append_right _ hmem)
  have hfree : ∀ x, s.Covers x → ¬ x < top := by
    intro x hx hlt
    refine hs.packed.not_covered hmem hx (covered_live.mpr ((hs.covered x ?_ ?_).mpr hlt))
    all_goals
      simp only [Span.Covers] at hx
      omega
  have hbottom := hs.bottom
  have hle := hfree s.lo ⟨Nat.le_refl _, hpos⟩
  by_contra hne
  obtain ⟨r, hr, hcov⟩ := hs.full (s.lo - 1) (by omega) (by omega)
  cases List.mem_append.mp hr with
  | inl hr =>
    have hlt := (hs.covered (s.lo - 1) (by omega) (by omega)).mp (covered_live.mp ⟨r, hr, hcov⟩)
    omega
  | inr hr =>
    simp only [Span.Covers] at hcov
    have hrs : r ≠ s := by
      rintro rfl
      omega
    have hsep := hs.packed.sep_of_ne (List.mem_append_right _ hr) (List.mem_append_right _ hmem) hrs
    have hnot := hs.coalesced.forall hr hmem hrs
    simp only [Span.Sep, Span.Touch] at hsep hnot
    omega

theorem Stacked.malloc (hs : h.Stacked lo hi top) {size : Word} (hsize : size ≠ 0)
    (hfit : top + size.toNat ≤ hi) (hslots : h.live.ncard < chunkQty) :
    ∃ h', h.malloc size = (.ok (BitVec.ofNat 32 top), h') ∧ h'.Stacked lo hi (top + size.toNat) ∧
      h'.live = insert ⟨BitVec.ofNat 32 top, size⟩ h.live := by
  have hslot := hs.toInv.slot_of_ncard hslots
  have hroom : h.Room lo hi size.toNat := by
    refine ⟨top, hs.bottom, hfit, fun x h1 h2 hcov => ?_⟩
    have := (hs.covered x (Nat.le_trans hs.bottom h1) (by omega)).mp (covered_live.mp hcov)
    omega
  obtain ⟨r, h', e⟩ : ∃ r h', h.malloc size = (r, h') := ⟨_, _, rfl⟩
  rcases malloc_cases e with ⟨-, h0, -⟩ | ⟨rfl, -⟩ | ⟨-, i, c, p, c', hc, hcut, ⟨-, hfull, -⟩ | ⟨rfl, -⟩⟩
  · exact absurd h0 hsize
  · exact absurd hroom ((hs.heapFull_iff hlo hhi hsize).mp (by rw [e]))
  · exact absurd rfl (hfull _ hslot)
  obtain ⟨hreal, -, rfl, -⟩ := Chunk.cut_some (hs.clean_freed hlo hhi c (List.mem_of_getElem? hc)) hsize hcut
  have hstart : c.start.toNat = top :=
    hs.freed_start (mem_spans.mpr ⟨c, List.mem_of_getElem? hc, hreal.ne_empty, rfl⟩)
  have hptr : c.start = BitVec.ofNat 32 top := by
    rw [← hstart, BitVec.ofNat_toNat, BitVec.setWidth_eq]
  rw [hptr] at e
  have hlive : h'.live = insert ⟨BitVec.ofNat 32 top, size⟩ h.live := by
    rcases malloc_live hlo hhi hs.toInv e with ⟨-, hno, -⟩ | ⟨p, hp, -, -, hlive⟩
    · exact absurd rfl (hno _)
    · cases hp
      exact hlive
  refine ⟨h', e, ⟨malloc_whole hlo hhi hs.toWhole e (by simp), Nat.le_add_right_of_le hs.bottom, ?_⟩, hlive⟩
  intro x h1 h2
  have hnew : (⟨BitVec.ofNat 32 top, size⟩ : Chunk).span.Covers x ↔ top ≤ x ∧ x < top + size.toNat := by
    simp only [Span.Covers, Chunk.span, ← hptr, hstart]
  rw [hlive, Set.exists_mem_insert, hnew, hs.covered x h1 h2]
  omega

/-- The last block is taken out. -/
theorem Stacked.pop {c : Chunk} (hs : h.Stacked lo hi (top + c.size.toNat)) (hw : h'.Whole lo hi)
    (hc : c ∈ h.live) (hstart : c.start.toNat = top) (hlive : h'.live = h.live \ {c}) :
    h'.Stacked lo hi top := by
  have hin := hs.inside hc
  have hpos := (hs.real hlo hhi hc).size_pos
  refine ⟨hw, by omega, fun x h1 h2 => ?_⟩
  have hall := hs.covered x h1 h2
  constructor
  · rintro ⟨d, hd, hx⟩
    rw [hlive] at hd
    have hsep := hs.live_sep hd.1 hc hd.2
    have hlt := hall.mp ⟨d, hd.1, hx⟩
    simp only [Span.Sep, Span.Covers, Chunk.span] at hsep hx
    omega
  · intro hlt
    obtain ⟨d, hd, hx⟩ := hall.mpr (by omega)
    refine ⟨d, ?_, hx⟩
    rw [hlive]
    refine ⟨hd, fun he => ?_⟩
    rw [he] at hx
    simp only [Span.Covers, Chunk.span] at hx
    omega

end

end Heap
end Amethyst
