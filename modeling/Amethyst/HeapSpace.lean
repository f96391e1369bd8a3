import Amethyst.HeapSafety

/-!
# Amethyst.HeapSpace

No byte of the heap is lost while no `malloc` is refused for want of a slot in `allocated`.

`Heap.Whole` is the invariant: the used entries of both tables tile the heap and no two entries of
`freed` touch. `malloc` keeps it (`malloc_whole`); `free` keeps it if putting the chunk back leaves
`freed` coalesced (`free_whole`), and then it always finds a slot: between two free entries lies a
live block, so `freed` cannot be full when an isolated block comes back (`Whole.slot`).

* `Installer.conservation`: the installer's `free` merges on both sides, so the invariant holds in
  every state.
* `Kernel.serves_of_oneSided`: the kernel's `free` merges on one side, so the invariant holds in
  every run that frees no block between two free entries.
-/

namespace Amethyst
namespace Heap

/-- The used entries tile the heap, and `freed` is coalesced. -/
structure Whole (lo hi : Nat) (h : Heap) : Prop extends Inv lo hi h where
  full : ∀ x, lo ≤ x → x < hi → Covered h.blocks x
  coalesced : Coalesced (spans h.freed)

/-- `size` consecutive bytes of the heap lie outside the live blocks. -/
def Room (lo hi : Nat) (h : Heap) (size : Nat) : Prop :=
  ∃ a, lo ≤ a ∧ a + size ≤ hi ∧ ∀ x, a ≤ x → x < a + size → ¬ Covered (spans h.allocated) x

variable {lo hi : Nat} {h h' : Heap}

theorem Whole.tiles (hw : h.Whole lo hi) : Tiles lo hi h.blocks := ⟨hw.packed, hw.full⟩

theorem whole_allocInit {start cap : Word} (hr : HeapRange start cap) :
    (allocInit start cap).Whole start.toNat (start.toNat + cap.toNat) := by
  have hne : (⟨start, cap⟩ : Chunk) ≠ Chunk.empty := by
    rintro e
    cases e
    exact absurd hr.start_pos (by simp)
  refine ⟨hr.init_inv, fun x h1 h2 => ?_, ?_⟩
  · rw [blocks_allocInit hne]
    exact ⟨_, List.mem_singleton_self _, h1, h2⟩
  · rw [allocInit, spans_replicate_set chunkQty_pos hne]
    exact List.pairwise_singleton _ _

section

variable (hlo : 0 < lo) (hhi : hi < 2 ^ 32)
include hlo hhi

/-- What is left of a cut entry touches no more than the entry did. -/
theorem coalesced_cut {l : Table} (hpk : Packed lo hi (spans l)) (hco : Coalesced (spans l))
    {size : Word} (hs : size ≠ 0) {i : Nat} {c p c' : Chunk} (hc : l[i]? = some c)
    (hcut : c.cut size = some (p, c')) : Coalesced (spans (l.set i c')) := by
  have hl : Clean l := real_of_packed hlo hhi hpk fun _ h => h
  obtain ⟨hilt, rfl⟩ := List.getElem?_eq_some_iff.mp hc
  obtain ⟨hcr, hp, -, h⟩ := Chunk.cut_some (hl _ (List.getElem_mem hilt)) hs hcut
  have hold := spans_of_getElem? hc hcr.ne_empty
  obtain ⟨hnt, hco'⟩ := coalesced_cons.mp (hco.perm hold)
  obtain ⟨-, -, -, hsep, hrest⟩ := packed_cons.mp (hpk.perm hold)
  rcases h with ⟨rfl, -⟩ | ⟨hc', e, ht⟩
  · exact hco'
  · refine Coalesced.perm (spans_set hilt hc'.ne_empty).symm (coalesced_cons.mpr ⟨fun t htm htt => ?_, hco'⟩)
    apply hnt t htm
    have hs' := hsep t htm
    have h1 := hp.size_pos
    have h2 := hc'.size_pos
    rw [e] at hs' ⊢
    refine Span.Touch.of_back ?_ ?_ (hrest.pos t htm) hs' htt
    · simp only [Chunk.span] at ht ⊢; omega
    · simp only [Chunk.span]; omega

theorem malloc_whole (hw : h.Whole lo hi) {size : Word} {r : MallocEnd}
    (hm : h.malloc size = (r, h')) (hr : r ≠ .noSlot) : h'.Whole lo hi := by
  have ht := (malloc_regroup hlo hhi hw.toInv hm hr).tiles hw.tiles
  refine ⟨malloc_inv hlo hhi hw.toInv hm, ht.full, ?_⟩
  rcases malloc_cases hm with ⟨-, -, rfl⟩ | ⟨-, -, -, rfl⟩ | ⟨hs, i, c, p, c', h1, h2, h3⟩
  · exact hw.coalesced
  · exact hw.coalesced
  have hpf : Packed lo hi (spans h.freed) := hw.packed.sublist (List.sublist_append_right _ _)
  have hco := coalesced_cut hlo hhi hpf hw.coalesced hs h1 h2
  rcases h3 with ⟨-, -, rfl⟩ | ⟨-, j, -, rfl⟩
  · exact hco
  · exact hco

/-- When a live block that touches no free entry comes back, `freed` has an empty slot: it has at
most as many used entries as there are other live blocks. -/
theorem Whole.slot (hw : h.Whole lo hi) {i : Nat} {p : Chunk} (hp : h.allocated[i]? = some p)
    (hne : p.start ≠ 0) (hnt : ∀ s ∈ spans h.freed, ¬ p.span.Touch s) :
    ¬ ∀ c ∈ h.freed, c ≠ Chunk.empty := by
  intro hfull
  obtain ⟨hpr, hperm⟩ := hw.take hlo hhi hp hne
  have ht : Tiles lo hi (p.span :: spans (h.allocated.set i Chunk.empty) ++ spans h.freed) :=
    Regroup.tiles (.perm hperm) hw.tiles
  have h1 := ht.length_le hw.coalesced hnt
  have h2 := length_spans_of_full hfull
  have h3 := (spans_of_getElem? hp hpr.ne_empty).length_eq
  have h4 := length_spans_le h.allocated
  have h5 := hw.length_allocated
  have h6 := hw.length_freed
  simp only [List.length_cons] at h3
  omega

/-- `free` keeps the heap whole, and gives the block back, if the chunk it puts into `freed` leaves
no two entries touching. -/
theorem free_whole {giveBack : Chunk → Table → Option (Option Table)}
    (hg : GivesBack lo hi giveBack) (hw : h.Whole lo hi) (ptr : Word)
    (hno : ∀ p, Packed lo hi (p.span :: spans h.freed) → giveBack p h.freed = some none →
      (∀ s ∈ spans h.freed, ¬ p.span.Touch s) ∧ ∀ c ∈ h.freed, c ≠ Chunk.empty)
    (hco : ∀ p ∈ h.allocated, p.start = ptr → Packed lo hi (p.span :: spans h.freed) →
      ∀ freed, giveBack p h.freed = some (some freed) → Coalesced (spans freed)) :
    ∃ r h', h.free giveBack ptr = some (r, h') ∧ r ≠ .noSlot ∧ h'.Whole lo hi := by
  rcases free_spec hlo hhi hg hw.toInv ptr with
    ⟨r, e, hr, -⟩ | ⟨i, p, hp, rfl, hne, hpk, ⟨hn, -⟩ | ⟨freed, h', hs, e, rfl, hinv', hre⟩⟩
  · exact ⟨r, h, e, hr, hw⟩
  · obtain ⟨hnt, hfull⟩ := hno p hpk hn
    exact absurd hfull (hw.slot hlo hhi hp hne hnt)
  · exact ⟨_, _, e, by simp, hinv', (hre.tiles hw.tiles).full,
      hco p (List.mem_of_getElem? hp) rfl hpk freed hs⟩

/-- `malloc` finds no entry large enough exactly when the heap has no room: `freed` is coalesced,
so a run of free bytes lies in one entry. -/
theorem Whole.heapFull_iff (hw : h.Whole lo hi) {size : Word} (hs : size ≠ 0) :
    (h.malloc size).1 = .heapFull ↔ ¬ h.Room lo hi size.toNat := by
  have hs' : 0 < size.toNat := by
    apply Nat.pos_of_ne_zero
    intro e
    exact hs (BitVec.eq_of_toNat_eq (by simpa using e))
  obtain ⟨r, h', hm⟩ : ∃ r h', h.malloc size = (r, h') := ⟨_, _, rfl⟩
  rw [hm]
  constructor
  · rintro rfl ⟨a, h1, h2, h3⟩
    have hno : ∀ c ∈ h.freed, ¬ size ≤ c.size := by
      rcases malloc_cases hm with ⟨e, -⟩ | ⟨-, -, hno, -⟩ | ⟨-, i, c, p, c', -, -, ⟨e, -⟩ | ⟨e, -⟩⟩
      · cases e
      · exact hno
      · cases e
      · cases e
    obtain ⟨s, hsm, h4, h5⟩ := hw.tiles.window hw.coalesced h1 (by omega) h2 h3
    obtain ⟨c, hc, -, rfl⟩ := mem_spans.mp hsm
    refine hno c hc (BitVec.le_def.mpr ?_)
    simp only [Chunk.span] at h4 h5
    omega
  · intro hroom
    rcases malloc_cases hm with ⟨-, e, -⟩ | ⟨e, -, -, -⟩ | ⟨-, i, c, p, c', h1, h2, -⟩
    · exact absurd e hs
    · exact e
    exfalso
    apply hroom
    have hc := List.mem_of_getElem? h1
    have hcr := (Chunk.cut_some (hw.clean_freed hlo hhi c hc) hs h2).1
    have hle' := BitVec.le_def.mp (Chunk.cut_fits h2).1
    have hmem : c.span ∈ spans h.freed := mem_spans.mpr ⟨c, hc, hcr.ne_empty, rfl⟩
    obtain ⟨h3, h4⟩ := hw.packed.inside c.span (by simp [blocks, hmem])
    simp only [Chunk.span] at h3 h4
    refine ⟨c.start.toNat, h3, by omega, fun x h5 h6 => hw.packed.not_covered hmem ?_⟩
    exact ⟨h5, by simp only [Chunk.span]; omega⟩

/-- With no live block, `freed` is the whole heap in one entry, and `malloc` takes its front. -/
theorem Whole.no_live (hw : h.Whole lo hi) (hlt : lo < hi) (hnl : spans h.allocated = []) :
    spans h.freed = [⟨lo, hi⟩] ∧
      ∀ size : Word, size ≠ 0 → lo + size.toNat ≤ hi →
        ∃ p h', h.malloc size = (.ok p, h') ∧ p.toNat = lo := by
  have ht : Tiles lo hi (spans h.freed) := by
    have := hw.tiles
    rwa [blocks, hnl, List.nil_append] at this
  have hone := ht.eq_singleton hw.coalesced hlt
  refine ⟨hone, fun size hs hle => ?_⟩
  have hroom : h.Room lo hi size.toNat := ⟨lo, le_rfl, hle, by simp [hnl, Covered]⟩
  obtain ⟨r, h', hm⟩ : ∃ r h', h.malloc size = (r, h') := ⟨_, _, rfl⟩
  have hnf := mt (hw.heapFull_iff hlo hhi hs).mp (not_not.mpr hroom)
  rw [hm] at hnf
  rcases malloc_cases hm with ⟨-, e, -⟩ | ⟨e, -, -, -⟩ | ⟨-, i, c, p, c', h1, h2, h3⟩
  · exact absurd e hs
  · exact absurd e hnf
  have hc := List.mem_of_getElem? h1
  obtain ⟨hcr, -, rfl, -⟩ := Chunk.cut_some (hw.clean_freed hlo hhi c hc) hs h2
  have hmem : c.span ∈ spans h.freed := mem_spans.mpr ⟨c, hc, hcr.ne_empty, rfl⟩
  rw [hone, List.mem_singleton] at hmem
  rcases h3 with ⟨-, hfull, -⟩ | ⟨rfl, -⟩
  · have h4 := length_spans_of_full hfull
    have h5 := hw.length_allocated
    have h6 := chunkQty_pos
    simp only [hnl, List.length_nil] at h4
    omega
  · exact ⟨_, _, hm, congrArg Span.lo hmem⟩

end

end Heap

/-! ## The installer -/

namespace Installer

/-- The states the calls reach while `malloc` is never refused for want of a slot. -/
inductive Reach (start cap : Word) : State → Prop where
  | init (err : Err) : Reach start cap ⟨allocInit start cap, err⟩
  | malloc {s : State} (size : Word) : Reach start cap s → (s.heap.malloc size).1 ≠ .noSlot →
      Reach start cap (malloc s size).2
  | free {s s' : State} (ptr : Word) : Reach start cap s → free s ptr = some s' →
      Reach start cap s'

section

variable {lo hi : Nat} (hlo : 0 < lo) (hhi : hi < 2 ^ 32)
include hlo hhi

theorem free_whole {s : State} (hw : s.heap.Whole lo hi) (ptr : Word) :
    ∃ r h', s.heap.free giveBack ptr = some (r, h') ∧ r ≠ .noSlot ∧ h'.Whole lo hi := by
  refine Heap.free_whole hlo hhi (givesBack hlo hhi) hw ptr ?_ ?_
  · intro p hpk hn
    rcases giveBack_spec hlo hhi hpk with ⟨-, h1, h2⟩ | ⟨l', e, -⟩
    · exact ⟨h1, h2⟩
    · rw [hn] at e; cases e
  · intro p _ _ hpk freed hs
    rcases giveBack_spec hlo hhi hpk with ⟨e, -⟩ | ⟨l', e, -, -, hco⟩
    · rw [hs] at e; cases e
    · rw [hs] at e; cases e
      exact hco hw.coalesced

end

theorem Reach.whole {start cap : Word} (hr : HeapRange start cap) {s : State}
    (h : Reach start cap s) : s.heap.Whole start.toNat (start.toNat + cap.toNat) := by
  induction h with
  | init err => exact Heap.whole_allocInit hr
  | @malloc s size _ hns ih =>
    rw [(malloc_heap s size).2]
    exact Heap.malloc_whole hr.start_pos hr.hi_lt ih rfl hns
  | @free s s' ptr _ hf ih =>
    obtain ⟨r, h', e, -, hw⟩ := free_whole hr.start_pos hr.hi_lt ih ptr
    simp only [Installer.free, e] at hf
    cases r <;> cases hf <;> exact hw

theorem malloc_heapfull_iff {lo hi : Nat} (hlo : 0 < lo) (hhi : hi < 2 ^ 32) {s : State}
    (hinv : s.heap.Inv lo hi) (size : Word) :
    ((malloc s size).1 = 0 ∧ (malloc s size).2.err = .heapfull) ↔
      (s.heap.malloc size).1 = .heapFull := by
  obtain ⟨r, h', hm⟩ : ∃ r h', s.heap.malloc size = (r, h') := ⟨_, _, rfl⟩
  simp only [malloc, hm]
  cases r with
  | ok p => simpa using fun h0 => absurd h0 (Heap.malloc_ok_ne_zero hlo hhi hinv hm)
  | zeroSize => simp
  | heapFull => simp
  | noSlot => simp

/-- Freeing a live block gives its bytes back and reports nothing. -/
theorem free_live {lo hi : Nat} (hlo : 0 < lo) (hhi : hi < 2 ^ 32) {s : State}
    (hw : s.heap.Whole lo hi) {c : Chunk} (hc : c ∈ s.heap.allocated) (hne : c ≠ Chunk.empty) :
    ∃ h', s.heap.free giveBack c.start = some (.ok, h') ∧
      free s c.start = some ⟨h', s.err⟩ ∧ ∀ x, c.span.Covers x → Covered (spans h'.freed) x := by
  have hcr := (hw.clean_allocated hlo hhi c hc).resolve_left hne
  have hc0 : c.start ≠ 0 := by
    intro e
    have := hcr.start_pos
    rw [e] at this
    exact absurd this (by simp)
  obtain ⟨r₀, h₀, e₀, hns, -⟩ := free_whole hlo hhi hw c.start
  rcases Heap.free_cases s.heap giveBack c.start with
    ⟨-, e⟩ | ⟨-, -, hno⟩ | ⟨-, i, p, hp, hst, hf⟩
  · exact absurd e hc0
  · exact absurd rfl (hno c hc)
  -- the entry found is the block: two live blocks do not start at one address
  obtain ⟨hpr, hperm⟩ := hw.take hlo hhi hp (hst ▸ hc0)
  obtain ⟨hp1, -, -, hsep, hrest⟩ := packed_cons.mp (hw.packed.perm hperm)
  have hcm : c.span ∈ s.heap.blocks := by simp [Heap.blocks, mem_spans.mpr ⟨c, hc, hne, rfl⟩]
  have hcp : c.span = p.span := by
    rcases List.mem_cons.mp (hperm.mem_iff.mp hcm) with e | hm
    · exact e
    · have h1 := hsep _ hm
      have h2 := hrest.pos _ hm
      simp only [Span.Sep, Chunk.span, hst] at h1 h2 hp1
      omega
  have hpk : Packed lo hi (p.span :: spans s.heap.freed) :=
    (hw.packed.perm hperm).sublist (List.Sublist.cons_cons _ (List.sublist_append_right _ _))
  rcases hf with ⟨-, e⟩ | ⟨-, e⟩ | ⟨freed, hs, e⟩
  · rw [e] at e₀; cases e₀
  · rw [e] at e₀; cases e₀; exact absurd rfl hns
  · obtain ⟨o, ho, hl⟩ := givesBack hlo hhi p s.heap.freed hpk
    rw [hs] at ho
    cases ho
    refine ⟨_, e, by simp only [free, e], fun x hx => ?_⟩
    exact ((hl freed rfl).1.covered_iff x).mp ⟨p.span, by simp, hcp ▸ hx⟩

/-- Nothing of the heap is lost, and everything that is free can be had. -/
structure Conserved (start cap : Word) (s : State) : Prop where
  /-- The used entries of the two tables partition the heap. -/
  tiles : Tiles start.toNat (start.toNat + cap.toNat) (spans s.heap.allocated ++ spans s.heap.freed)
  /-- No two used entries of `freed` touch. -/
  coalesced : Coalesced (spans s.heap.freed)
  /-- Freeing a live block gives its bytes back and reports nothing. -/
  free_live : ∀ c ∈ s.heap.allocated, c ≠ Chunk.empty →
    ∃ h', s.heap.free giveBack c.start = some (.ok, h') ∧ free s c.start = some ⟨h', s.err⟩ ∧
      ∀ x, c.span.Covers x → Covered (spans h'.freed) x
  /-- `malloc` reports a full heap exactly when it has no room. -/
  heapfull_iff : ∀ size : Word, size ≠ 0 →
    (((malloc s size).1 = 0 ∧ (malloc s size).2.err = .heapfull) ↔
      ¬ s.heap.Room start.toNat (start.toNat + cap.toNat) size.toNat)
  /-- With no live block, `freed` is the whole heap and `malloc(1)` returns its start. -/
  no_live : spans s.heap.allocated = [] →
    spans s.heap.freed = [Chunk.span ⟨start, cap⟩] ∧ (malloc s 1).1 = start

/-- **Conservation and full coalescing.** It holds in every state reached without a refusal for
want of a slot. -/
theorem conservation {start cap : Word} (hr : HeapRange start cap) {s : State}
    (h : Reach start cap s) : Conserved start cap s := by
  have hw := h.whole hr
  have hlo := hr.start_pos
  have hhi := hr.hi_lt
  refine ⟨hw.tiles, hw.coalesced, fun c hc hne => free_live hlo hhi hw hc hne, ?_, ?_⟩
  · intro size hs
    exact (malloc_heapfull_iff hlo hhi hw.toInv size).trans (hw.heapFull_iff hlo hhi hs)
  · intro hnl
    have hcap := hr.cap_pos
    obtain ⟨h1, h2⟩ := hw.no_live hlo hhi (by omega) hnl
    obtain ⟨p, h', hm, hp⟩ := h2 1 (by decide)
      (by rw [show (1 : Word).toNat = 1 from rfl]; omega)
    refine ⟨h1, ?_⟩
    rw [(malloc_heap s 1).1, hm]
    exact BitVec.eq_of_toNat_eq hp

/-- The installer's own heap, after two blocks are taken. -/
theorem conservation_installer_heap :
    Conserved 0x100000 0xFFFFF
      (malloc (malloc ⟨allocInit 0x100000 0xFFFFF, .no⟩ 0x200).2 0x1400).2 :=
  conservation ⟨by decide, by decide, by decide⟩
    (.malloc 0x1400 (.malloc 0x200 (.init .no) (by decide)) (by decide))

end Installer

/-! ## The kernel -/

namespace Kernel

/-- The block at `ptr` is live and lies between two free entries. -/
def BetweenFree (h : Heap) (ptr : Word) : Prop :=
  ∃ c ∈ h.allocated, c ≠ Chunk.empty ∧ c.start = ptr ∧
    (∃ s ∈ spans h.freed, s.hi = c.span.lo) ∧ ∃ t ∈ spans h.freed, c.span.hi = t.lo

/-- The states the calls reach while `malloc` is never refused for want of a slot and `free` is
called on `ptr` in `h` only if `ok h ptr`. -/
inductive Reach (start cap : Word) (ok : Heap → Word → Prop) : Heap → Prop where
  | init : Reach start cap ok (allocInit start cap)
  | malloc {h : Heap} (size : Word) : Reach start cap ok h → (h.malloc size).1 ≠ .noSlot →
      Reach start cap ok (malloc h size).2
  | free {h : Heap} (ptr : Word) : Reach start cap ok h → ok h ptr → Reach start cap ok (free h ptr)

section

variable {lo hi : Nat} (hlo : 0 < lo) (hhi : hi < 2 ^ 32)
include hlo hhi

/-- Merging on one side leaves `freed` coalesced unless the chunk touches it on both. -/
theorem mergeChunk_coalesced {p : Chunk} {l l' : Table} (hpk : Packed lo hi (p.span :: spans l))
    (hco : Coalesced (spans l))
    (hone : ¬ ((∃ s ∈ spans l, s.hi = p.span.lo) ∧ ∃ t ∈ spans l, p.span.hi = t.lo))
    (h : mergeChunk p l = some l') : Coalesced (spans l') := by
  have hl : Clean l := Heap.real_of_packed hlo hhi hpk (by simp +contextual)
  have hp : p.Real := Heap.real_of_packed_cons hlo hhi hpk
  rcases mergeChunk_some h with ⟨i, c, c', u, hi', hm, rfl⟩ | ⟨hs, j, hj, rfl⟩
  · have hilt := (List.getElem?_eq_some_iff.mp hi').1
    obtain ⟨hcr, hc', hsp⟩ := Chunk.merge_some hp (hl c (List.mem_of_getElem? hi')) hm
    have hold := spans_of_getElem? hi' hcr.ne_empty
    obtain ⟨hnt, hco'⟩ := coalesced_cons.mp (hco.perm hold)
    have hcm : c.span ∈ spans l := hold.mem_iff.mpr (by simp)
    have hmem : ∀ t ∈ spans (l.set i Chunk.empty), t ∈ spans l := fun t ht =>
      hold.mem_iff.mpr (List.mem_cons_of_mem _ ht)
    refine Coalesced.perm (spans_set hilt hc'.ne_empty).symm
      (coalesced_cons.mpr ⟨fun t ht htt => ?_, hco'⟩)
    rcases hsp with ⟨e, hsp⟩ | ⟨e, hsp⟩
    · rw [hsp] at htt
      rcases htt with h1 | h1
      · exact hone ⟨⟨c.span, hcm, e⟩, t, hmem t ht, h1⟩
      · exact hnt t ht (.inr h1)
    · rw [hsp] at htt
      rcases htt with h1 | h1
      · exact hnt t ht (.inl h1)
      · exact hone ⟨⟨t, hmem t ht, h1⟩, c.span, hcm, e⟩
  · exact Coalesced.perm (Heap.spans_insert hj hp).symm
      (coalesced_cons.mpr ⟨Heap.not_touch_of_scan hl hp hs, hco⟩)

theorem free_whole {h : Heap} (hw : h.Whole lo hi) {ptr : Word} (hone : ¬ BetweenFree h ptr) :
    (free h ptr).Whole lo hi := by
  obtain ⟨r, h', e, -, hw'⟩ := Heap.free_whole hlo hhi (givesBack hlo hhi) hw ptr
    (fun p hpk hn => by
      obtain ⟨hs, hfull⟩ := mergeChunk_none (Option.some_inj.mp hn)
      exact ⟨Heap.not_touch_of_scan (hw.clean_freed hlo hhi)
        (Heap.real_of_packed_cons hlo hhi hpk) hs, hfull⟩)
    (fun p hp hst hpk freed hs => mergeChunk_coalesced hlo hhi hpk hw.coalesced
      (fun ⟨h1, h2⟩ =>
        hone ⟨p, hp, (Heap.real_of_packed_cons hlo hhi hpk).ne_empty, hst, h1, h2⟩) (Option.some_inj.mp hs))
  simp only [free, e]
  exact hw'

end

theorem Reach.whole {start cap : Word} (hr : HeapRange start cap) {h : Heap}
    (hreach : Reach start cap (fun h ptr => ¬ BetweenFree h ptr) h) :
    h.Whole start.toNat (start.toNat + cap.toNat) := by
  induction hreach with
  | init => exact Heap.whole_allocInit hr
  | malloc size _ hns ih => exact Heap.malloc_whole hr.start_pos hr.hi_lt ih rfl hns
  | free ptr _ hone ih => exact free_whole hr.start_pos hr.hi_lt ih hone

/-- **The kernel heap serves what it has, if no block is freed between two free ones.** In every
state of such a run `malloc` returns `NULL`, other than for want of a slot, only if the heap has no
room, and once every block is freed `malloc(cap)` succeeds. -/
theorem serves_of_oneSided {start cap : Word} (hr : HeapRange start cap) {h : Heap}
    (hreach : Reach start cap (fun h ptr => ¬ BetweenFree h ptr) h) :
    (∀ size : Word, size ≠ 0 → (h.malloc size).1 ≠ .noSlot → (malloc h size).1 = 0 →
      ¬ h.Room start.toNat (start.toNat + cap.toNat) size.toNat) ∧
    (spans h.allocated = [] → (malloc h cap).1 ≠ 0) := by
  have hw := hreach.whole hr
  have hlo := hr.start_pos
  have hhi := hr.hi_lt
  constructor
  · intro size hs hns h0
    refine (hw.heapFull_iff hlo hhi hs).mp ?_
    obtain ⟨r, h', hm⟩ : ∃ r h', h.malloc size = (r, h') := ⟨_, _, rfl⟩
    rw [malloc_fst] at h0
    rw [hm] at h0 hns ⊢
    rcases Heap.malloc_cases hm with ⟨-, e, -⟩ | ⟨e, -⟩ | ⟨-, i, c, p, c', -, -, ⟨e, -⟩ | ⟨rfl, -⟩⟩
    · exact absurd e hs
    · exact e
    · exact absurd e hns
    · exact absurd h0 (Heap.malloc_ok_ne_zero hlo hhi hw.toInv hm)
  · intro hnl
    have hcap := hr.cap_pos
    have hcz : cap ≠ 0 := by
      rintro rfl
      exact absurd hcap (by simp)
    obtain ⟨p, h', hm, hp⟩ := (hw.no_live hlo hhi (by omega) hnl).2 cap hcz le_rfl
    rw [malloc_fst, hm]
    exact Heap.malloc_ok_ne_zero hlo hhi hw.toInv hm

/-- No entry of `freed` ends where the heap starts. -/
theorem not_betweenFree_start {lo hi : Nat} {h : Heap} (hinv : h.Inv lo hi) {ptr : Word}
    (hp : ptr.toNat = lo) : ¬ BetweenFree h ptr := by
  rintro ⟨c, -, -, rfl, ⟨s, hs, e⟩, -⟩
  have hmem : s ∈ h.blocks := by simp [Heap.blocks, hs]
  have h1 := (hinv.packed.inside s hmem).1
  have h2 := hinv.packed.pos s hmem
  simp only [Chunk.span] at e
  omega

/-- The kernel's own heap, after a block is taken and given back. -/
theorem serves_kernel_heap :
    let h := free (malloc (allocInit 0x1000000 0x1000000) 0x400000).2 0x1000000
    (∀ size : Word, size ≠ 0 → (h.malloc size).1 ≠ .noSlot → (malloc h size).1 = 0 →
      ¬ h.Room 0x1000000 0x2000000 size.toNat) ∧
    (spans h.allocated = [] → (malloc h 0x1000000).1 ≠ 0) := by
  have hr : HeapRange 0x1000000 0x1000000 := ⟨by decide, by decide, by decide⟩
  refine serves_of_oneSided hr (.free _ (.malloc 0x400000 .init (by decide)) ?_)
  exact not_betweenFree_start (Kernel.step_inv hr.start_pos hr.hi_lt hr.init_inv (.malloc _)) rfl

/-! ## A kernel heap that is split for good -/

theorem free_of_merge {allocated allocated' freed freed' : Table} {ptr : Word} {p : Chunk}
    (hp : ptr ≠ 0) (hr : removeChunkByAddress allocated ptr = some (p, allocated'))
    (hm : mergeChunk p freed = some freed') :
    free ⟨allocated, freed⟩ ptr = ⟨allocated', freed'⟩ := by
  simp only [free, Heap.free, hp, if_false, hr, hm]

open Chunk in
/-- Three blocks of the kernel heap, freed in the order first, third, second: `freed` ends as two
entries that touch. -/
theorem reach_split {A F : Table} (hinit : allocInit 0x1000000 0x1000000 =
      ⟨empty :: empty :: empty :: A, ⟨0x1000000, 0x1000000⟩ :: empty :: F⟩)
    (hF : ∀ c ∈ F, c = empty) :
    Reach 0x1000000 0x1000000 (fun _ _ => True)
      ⟨empty :: empty :: empty :: A, ⟨0x1000000, 0x800000⟩ :: ⟨0x1800000, 0x800000⟩ :: F⟩ := by
  have hscan : ∀ p : Chunk, p.Real → p.merge empty = none ∧ scan p.merge F = none := fun p hp =>
    ⟨merge_empty hp, scan_none.mpr fun c hc => hF c hc ▸ merge_empty hp⟩
  have a₁ : (malloc ⟨empty :: empty :: empty :: A, ⟨0x1000000, 0x1000000⟩ :: empty :: F⟩
      0x400000).2 =
    ⟨⟨0x1000000, 0x400000⟩ :: empty :: empty :: A, ⟨0x1400000, 0xC00000⟩ :: empty :: F⟩ := rfl
  have a₂ : (malloc ⟨⟨0x1000000, 0x400000⟩ :: empty :: empty :: A,
      ⟨0x1400000, 0xC00000⟩ :: empty :: F⟩ 0x400000).2 =
    ⟨⟨0x1000000, 0x400000⟩ :: ⟨0x1400000, 0x400000⟩ :: empty :: A,
      ⟨0x1800000, 0x800000⟩ :: empty :: F⟩ := rfl
  have a₃ : (malloc ⟨⟨0x1000000, 0x400000⟩ :: ⟨0x1400000, 0x400000⟩ :: empty :: A,
      ⟨0x1800000, 0x800000⟩ :: empty :: F⟩ 0x800000).2 =
    ⟨⟨0x1000000, 0x400000⟩ :: ⟨0x1400000, 0x400000⟩ :: ⟨0x1800000, 0x800000⟩ :: A,
      empty :: empty :: F⟩ := rfl
  have m₁ : mergeChunk ⟨0x1000000, 0x400000⟩ (empty :: empty :: F) =
      some (⟨0x1000000, 0x400000⟩ :: empty :: F) := by
    obtain ⟨h1, h2⟩ := hscan ⟨0x1000000, 0x400000⟩ ⟨by decide, by decide, by decide⟩
    simp only [mergeChunk, scan, h1, h2, Option.map_none]
    rfl
  have m₃ : mergeChunk ⟨0x1800000, 0x800000⟩ (⟨0x1000000, 0x400000⟩ :: empty :: F) =
      some (⟨0x1000000, 0x400000⟩ :: ⟨0x1800000, 0x800000⟩ :: F) := by
    obtain ⟨h1, h2⟩ := hscan ⟨0x1800000, 0x800000⟩ ⟨by decide, by decide, by decide⟩
    have h3 : merge ⟨0x1800000, 0x800000⟩ ⟨0x1000000, 0x400000⟩ = none := by decide
    simp only [mergeChunk, scan, h1, h2, h3, Option.map_none]
    rfl
  have f₁ : free ⟨⟨0x1000000, 0x400000⟩ :: ⟨0x1400000, 0x400000⟩ :: ⟨0x1800000, 0x800000⟩ :: A,
      empty :: empty :: F⟩ 0x1000000 =
    ⟨empty :: ⟨0x1400000, 0x400000⟩ :: ⟨0x1800000, 0x800000⟩ :: A,
      ⟨0x1000000, 0x400000⟩ :: empty :: F⟩ := free_of_merge (by decide) rfl m₁
  have f₃ : free ⟨empty :: ⟨0x1400000, 0x400000⟩ :: ⟨0x1800000, 0x800000⟩ :: A,
      ⟨0x1000000, 0x400000⟩ :: empty :: F⟩ 0x1800000 =
    ⟨empty :: ⟨0x1400000, 0x400000⟩ :: empty :: A,
      ⟨0x1000000, 0x400000⟩ :: ⟨0x1800000, 0x800000⟩ :: F⟩ := free_of_merge (by decide) rfl m₃
  have f₂ : free ⟨empty :: ⟨0x1400000, 0x400000⟩ :: empty :: A,
      ⟨0x1000000, 0x400000⟩ :: ⟨0x1800000, 0x800000⟩ :: F⟩ 0x1400000 =
    ⟨empty :: empty :: empty :: A,
      ⟨0x1000000, 0x800000⟩ :: ⟨0x1800000, 0x800000⟩ :: F⟩ := free_of_merge (by decide) rfl rfl
  rw [← f₂, ← f₃, ← f₁, ← a₃, ← a₂, ← a₁, ← hinit]
  refine .free _ (.free _ (.free _ ?_ trivial) trivial) trivial
  refine .malloc _ (.malloc _ (.malloc _ .init ?_) ?_) ?_ <;> rw [hinit] <;> intro h <;> cases h

/-- The freed kernel heap then has room for `cap` bytes, and `malloc(cap)` returns `NULL`. -/
theorem free_order_splits_heap :
    ∃ h, Reach 0x1000000 0x1000000 (fun _ _ => True) h ∧ spans h.allocated = [] ∧
      h.Room 0x1000000 0x2000000 0x1000000 ∧ (h.malloc 0x1000000).1 ≠ .noSlot ∧
      (malloc h 0x1000000).1 = 0 := by
  obtain ⟨F, hFe⟩ : ∃ F, F = List.replicate (chunkQty - 2) Chunk.empty := ⟨_, rfl⟩
  obtain ⟨A, hAe⟩ : ∃ A, A = List.replicate (chunkQty - 3) Chunk.empty := ⟨_, rfl⟩
  have hF : ∀ c ∈ F, c = Chunk.empty := fun c hc => List.eq_of_mem_replicate (hFe ▸ hc)
  have hr := reach_split (A := A) (F := F) (by rw [hAe, hFe]; rfl) hF
  have hnone : ∀ c ∈ (⟨0x1000000, 0x800000⟩ : Chunk) :: ⟨0x1800000, 0x800000⟩ :: F,
      ¬ (0x1000000 : Word) ≤ c.size := by
    simp only [List.forall_mem_cons]
    refine ⟨by decide, by decide, fun c hc => ?_⟩
    rw [hF c hc]
    decide
  have hnl : spans (Chunk.empty :: Chunk.empty :: Chunk.empty :: A) = [] := by
    rw [hAe]; simp [spans]
  refine ⟨_, hr, hnl, ⟨0x1000000, by decide, by decide, by simp [hnl, Covered]⟩, ?_, ?_⟩
  · simp only [Heap.malloc, removeChunkBySize_none.mpr hnone]
    intro h
    cases h
  · simp only [malloc_fst, Heap.malloc, removeChunkBySize_none.mpr hnone]
    rfl

end Kernel

end Amethyst
