import Amethyst.HeapLive

/-!
# Amethyst.Installer.MergeCalls

The calls under `free` of the installer's allocator: `merge_chunk` calls `merge_remove_chunk` on the
entry of `freed` that it has grown, and each `merge_remove_chunk` calls itself on the next one.

* `MergeCall.next`: the call that a call of `merge_remove_chunk` makes, by the loop of the source.
* `MergeCall.Steps`: a call is made, through others, under a first one.
* `MergeCall.Ends`: the calls under a call come to an end, which is when `mergeRemoveChunk` has a
  result for some fuel (`ends_iff`).

`free_nested_calls`: under a `free` of a live block they end, each entry of the chain is in use and
each call leaves one used entry less. A call on an emptied entry finds an empty slot, empties it again
and goes on there (`not_ends_of_emptied`).
-/

namespace Amethyst

/-- The number of entries in use. -/
def used (l : Table) : Nat := l.countP (· ≠ Chunk.empty)

theorem used_eq (l : Table) : used l = (spans l).length := by
  rw [used, spans, List.length_map, List.countP_eq_length_filter]

namespace Installer

/-- A call `merge_remove_chunk(&list[index], list)`, with the table it finds. -/
structure MergeCall where
  index : Nat
  list : Table

namespace MergeCall

/-- `*pChunk`. -/
def chunk (c : MergeCall) : Chunk := c.list.getD c.index Chunk.empty

/-- The call it makes, if its loop finds a neighbour. -/
def next (c : MergeCall) : Option MergeCall :=
  (scan c.chunk.merge c.list).map fun (i, _, list') => ⟨i, list'.set c.index Chunk.empty⟩

inductive Steps : MergeCall → MergeCall → Prop where
  | refl {c : MergeCall} : Steps c c
  | tail {c c' c'' : MergeCall} : Steps c c' → c'.next = some c'' → Steps c c''

inductive Ends : MergeCall → Prop where
  | last {c : MergeCall} : c.next = none → Ends c
  | next {c c' : MergeCall} : c.next = some c' → Ends c' → Ends c

theorem mergeRemoveChunk_last {c : MergeCall} (h : c.next = none) (fuel : Nat) :
    mergeRemoveChunk (fuel + 1) c.index c.list = some (false, c.list) := by
  have hs : scan c.chunk.merge c.list = none := by simpa [next] using h
  simp only [mergeRemoveChunk]
  rw [← chunk, hs]

theorem mergeRemoveChunk_next {c c' : MergeCall} (h : c.next = some c') (fuel : Nat) :
    mergeRemoveChunk (fuel + 1) c.index c.list =
      (mergeRemoveChunk fuel c'.index c'.list).map fun r => (true, r.2) := by
  obtain ⟨⟨i, u, list'⟩, hs, rfl⟩ := Option.map_eq_some_iff.mp h
  simp only [mergeRemoveChunk]
  rw [← chunk, hs]

theorem ends_of_fuel : ∀ (fuel : Nat) (c : MergeCall),
    (mergeRemoveChunk fuel c.index c.list).isSome → Ends c := by
  intro fuel
  induction fuel with
  | zero =>
    intro c h
    cases h
  | succ fuel ih =>
    intro c h
    cases hn : c.next with
    | none => exact .last hn
    | some c' =>
      rw [mergeRemoveChunk_next hn, Option.isSome_map] at h
      exact .next hn (ih c' h)

/-- The calls end when some fuel is enough for them. -/
theorem ends_iff {c : MergeCall} :
    Ends c ↔ ∃ fuel, (mergeRemoveChunk fuel c.index c.list).isSome := by
  constructor
  · intro h
    induction h with
    | last hn => exact ⟨1, by rw [mergeRemoveChunk_last hn]; rfl⟩
    | next hn _ ih =>
      obtain ⟨fuel, hf⟩ := ih
      exact ⟨fuel + 1, by rw [mergeRemoveChunk_next hn, Option.isSome_map]; exact hf⟩
  · rintro ⟨fuel, h⟩
    exact ends_of_fuel fuel c h

end MergeCall

/-- The call that `merge_chunk` makes. -/
def firstCall (p : Chunk) (list : Table) : Option MergeCall :=
  (scan p.merge list).map fun (i, _, list') => ⟨i, list'⟩

theorem mergeChunk_of_firstCall {p : Chunk} {l : Table} {c : MergeCall}
    (h : firstCall p l = some c) :
    mergeChunk p l = (mergeRemoveChunk l.length c.index c.list).map fun r => (true, r.2) := by
  obtain ⟨⟨i, u, list'⟩, hs, rfl⟩ := Option.map_eq_some_iff.mp h
  simp only [mergeChunk, hs]

theorem mergeChunk_of_no_call {p : Chunk} {l : Table} (h : firstCall p l = none) :
    mergeChunk p l = some (false, l) := by
  have hs : scan p.merge l = none := by simpa [firstCall] using h
  simp only [mergeChunk, hs]

/-- The call of `merge_remove_chunk` that `free(ptr)` makes, through `merge_chunk`. -/
def State.mergeCall (s : State) (ptr : Word) : Option MergeCall :=
  if ptr = 0 then none
  else (removeChunkByAddress s.heap.allocated ptr).bind fun (chunk, _) =>
    firstCall chunk s.heap.freed

theorem giveBack_returns_iff {p : Chunk} {l : Table} :
    (giveBack p l).isSome ↔ ∀ c, firstCall p l = some c →
      (mergeRemoveChunk l.length c.index c.list).isSome := by
  cases hf : firstCall p l with
  | none => simp [giveBack, mergeChunk_of_no_call hf]
  | some c =>
    simp only [giveBack, mergeChunk_of_firstCall hf, Option.some.injEq, forall_eq']
    cases mergeRemoveChunk l.length c.index c.list with
    | none => simp
    | some r => simp

/-- `free` returns if and only if that call does. -/
theorem free_returns_iff {s : State} {ptr : Word} :
    (∃ s', free s ptr = some s') ↔ ∀ c, s.mergeCall ptr = some c →
      (mergeRemoveChunk s.heap.freed.length c.index c.list).isSome := by
  rw [← Option.isSome_iff_exists]
  simp only [free, Heap.free, State.mergeCall]
  split_ifs with h0
  · simp
  · cases removeChunkByAddress s.heap.allocated ptr with
    | none => simp
    | some r =>
      simp only [Option.bind_some]
      rw [← giveBack_returns_iff]
      cases hg : giveBack r.1 s.heap.freed with
      | none => simp
      | some o => cases o <;> simp

/-! ## On an emptied entry -/

/-- An emptied entry takes in an empty slot, which is empty then as before. -/
theorem MergeCall.next_of_emptied {c : MergeCall} (hl : Clean c.list)
    (he : c.list[c.index]? = some Chunk.empty) :
    ∃ i, c.next = some ⟨i, c.list⟩ ∧ c.list[i]? = some Chunk.empty := by
  have hchunk : c.chunk = Chunk.empty := by rw [chunk, List.getD_eq_getElem?_getD, he]; rfl
  have hself : Chunk.empty.merge Chunk.empty = some ((), Chunk.empty) := by decide
  cases hs : scan Chunk.empty.merge c.list with
  | none =>
    have h := scan_none.mp hs _ (List.mem_of_getElem? he)
    rw [hself] at h
    cases h
  | some r =>
    obtain ⟨i, u, list'⟩ := r
    obtain ⟨d, d', hi, hm, rfl, -⟩ := scan_some hs
    have hd : d = Chunk.empty := by
      cases hl d (List.mem_of_getElem? hi) with
      | inl hd => exact hd
      | inr hd =>
        rw [Chunk.empty_merge hd] at hm
        cases hm
    subst hd
    rw [hself] at hm
    cases hm
    refine ⟨i, ?_, hi⟩
    simp only [next, hchunk, hs, Option.map_some, spans_set_empty hi, spans_set_empty he]

/-- By induction on the calls: each is again on an emptied entry of the same table. -/
theorem MergeCall.not_ends_of_emptied {c : MergeCall} (hl : Clean c.list)
    (he : c.list[c.index]? = some Chunk.empty) : ¬ Ends c := by
  intro h
  induction h with
  | last hn =>
    obtain ⟨i, hn', -⟩ := next_of_emptied hl he
    rw [hn] at hn'
    cases hn'
  | next hn _ ih =>
    obtain ⟨i, hn', hi⟩ := next_of_emptied hl he
    rw [hn] at hn'
    cases hn'
    exact ih hl hi

/-! ## On a used entry -/

section

variable {lo hi : Nat} (hlo : 0 < lo) (hhi : hi < 2 ^ 32)

/-- The call is on a used entry of a packed table. -/
structure MergeCall.Good (lo hi : Nat) (c : MergeCall) : Prop where
  packed : Packed lo hi (spans c.list)
  in_use : ∃ p, c.list[c.index]? = some p ∧ p ≠ Chunk.empty

theorem MergeCall.Good.chunk_ne_empty {c : MergeCall} (h : c.Good lo hi) :
    c.chunk ≠ Chunk.empty := by
  obtain ⟨p, hp, hne⟩ := h.in_use
  rwa [chunk, List.getD_eq_getElem?_getD, hp]

include hlo hhi

theorem MergeCall.Good.next {c c' : MergeCall} (h : c.Good lo hi) (hn : c.next = some c') :
    c'.Good lo hi ∧ used c'.list + 1 = used c.list := by
  obtain ⟨p, hp, hne⟩ := h.in_use
  have hchunk : c.chunk = p := by rw [chunk, List.getD_eq_getElem?_getD, hp]; rfl
  obtain ⟨⟨i, u, list'⟩, hs, rfl⟩ := Option.map_eq_some_iff.mp hn
  rw [hchunk] at hs
  obtain ⟨q, hq, hq', hre, hcount, -⟩ := mergeRemove_step hlo hhi h.packed hp hne hs
  refine ⟨⟨hre.packed_iff.mp h.packed, q, hq, hq'⟩, ?_⟩
  rw [used_eq, used_eq]
  exact hcount

theorem MergeCall.Good.steps {c c' : MergeCall} (h : c.Good lo hi) (hs : Steps c c') :
    c'.Good lo hi := by
  induction hs with
  | refl => exact h
  | tail _ hn ih => exact (ih.next hlo hhi hn).1

theorem MergeCall.Good.returns {c : MergeCall} (h : c.Good lo hi) {fuel : Nat}
    (hf : used c.list ≤ fuel) : (mergeRemoveChunk fuel c.index c.list).isSome := by
  obtain ⟨p, hp, hne⟩ := h.in_use
  rw [used_eq] at hf
  obtain ⟨b, l', e, -⟩ := mergeRemoveChunk_spec hlo hhi fuel c.index c.list p h.packed hp hne hf
  rw [e]
  rfl

theorem MergeCall.Good.ends {c : MergeCall} (h : c.Good lo hi) : Ends c :=
  ends_of_fuel _ c (h.returns hlo hhi le_rfl)

/-- `merge_chunk` calls on the entry it has grown; as many entries are in use as before. -/
theorem firstCall_good {p : Chunk} {l : Table} (hpk : Packed lo hi (p.span :: spans l))
    {c : MergeCall} (h : firstCall p l = some c) : c.Good lo hi ∧ used c.list = used l := by
  have hl : Clean l := Heap.real_of_packed hlo hhi hpk (by simp +contextual)
  obtain ⟨⟨i, u, list'⟩, hs, rfl⟩ := Option.map_eq_some_iff.mp h
  obtain ⟨d, d', hd, hm, rfl, -⟩ := scan_some hs
  obtain ⟨hget, hne, hre, hcount, -⟩ := grow_entry hl (Heap.real_of_packed_cons hlo hhi hpk) hd hm
  refine ⟨⟨hre.packed_iff.mp hpk, d', hget, hne⟩, ?_⟩
  rw [used_eq, used_eq]
  exact hcount

theorem mergeCall_live {s : State} (hinv : s.heap.Inv lo hi) {p : Chunk} (hp : p ∈ s.heap.live) :
    s.mergeCall p.start = firstCall p s.heap.freed := by
  have h0 := hinv.start_ne_zero hlo hhi hp
  rw [State.mergeCall, if_neg h0]
  cases hr : removeChunkByAddress s.heap.allocated p.start with
  | none => exact absurd rfl (removeChunkByAddress_none.mp hr p hp.1)
  | some r =>
    obtain ⟨q, allocated⟩ := r
    obtain ⟨i, hq, hst, -⟩ := removeChunkByAddress_some hr
    have hlive : q ∈ s.heap.live := by
      refine ⟨List.mem_of_getElem? hq, ?_⟩
      rintro rfl
      exact h0 hst.symm
    rw [hinv.live_inj hlo hhi hlive hp hst]
    rfl

end

/-- `merge_remove_chunk` is called as `c` under `free(ptr)`. -/
def State.CallsUnder (s : State) (ptr : Word) (c : MergeCall) : Prop :=
  ∃ c₀, s.mergeCall ptr = some c₀ ∧ c₀.Steps c

/-- **The recursion of `free` ends.** After any calls, and for any live block: `free` returns. The
first call of `merge_remove_chunk` finds as many used entries as `merge_chunk`. Every call under it is
on a used entry, has an end, and makes a call that finds one used entry less. Had it been on an emptied
entry of its table, it would have no end. -/
theorem free_nested_calls {start cap : Word} (hr : HeapRange start cap) {err : Err}
    {calls : List Call} {s : State} (hs : run ⟨allocInit start cap, err⟩ calls = some s)
    {p : Chunk} (hp : p ∈ s.heap.live) :
    (∃ s', free s p.start = some s') ∧
    s.mergeCall p.start = firstCall p s.heap.freed ∧
    (∀ c₀, firstCall p s.heap.freed = some c₀ → used c₀.list = used s.heap.freed) ∧
    ∀ c, s.CallsUnder p.start c →
      c.Ends ∧ c.chunk ≠ Chunk.empty ∧
      (∀ c', c.next = some c' → used c'.list + 1 = used c.list) ∧
      ∀ j, c.list[j]? = some Chunk.empty → ¬ (⟨j, c.list⟩ : MergeCall).Ends := by
  have hlo := hr.start_pos
  have hhi := hr.hi_lt
  obtain ⟨s', hs', hinv⟩ := hr.installer calls err
  rw [hs] at hs'
  cases hs'
  have hcall := mergeCall_live hlo hhi hinv hp
  have hfirst : ∀ c₀, firstCall p s.heap.freed = some c₀ → _ := fun c₀ h =>
    firstCall_good hlo hhi (hinv.packed_freed hp) h
  refine ⟨free_returns_iff.mpr fun c₀ h₀ => ?_, hcall, fun c₀ h => (hfirst c₀ h).2, ?_⟩
  · obtain ⟨hgood, hused⟩ := hfirst c₀ (hcall ▸ h₀)
    refine hgood.returns hlo hhi ?_
    rw [hused]
    exact List.countP_le_length
  rintro c ⟨c₀, h₀, hsteps⟩
  rw [hcall] at h₀
  have hgood := (hfirst c₀ h₀).1.steps hlo hhi hsteps
  refine ⟨hgood.ends hlo hhi, hgood.chunk_ne_empty, fun c' hn => (hgood.next hlo hhi hn).2, ?_⟩
  intro j hj
  exact MergeCall.not_ends_of_emptied
    (Heap.real_of_packed hlo hhi hgood.packed fun _ h => h) hj

/-- The second of two blocks, when the first one is free again and the rest of the heap is behind it. -/
theorem run_middle_block : ∃ s A,
    run ⟨allocInit 0x100000 0xFFFFF, .no⟩ [.malloc 0x200, .malloc 0x200, .free 0x100000] = some s ∧
      s.heap.allocated = Chunk.empty :: ⟨0x100200, 0x200⟩ :: A ∧
      s.heap.freed = ⟨0x100400, 0xFFBFF⟩ :: ⟨0x100000, 0x200⟩ :: A := by
  obtain ⟨A, hA⟩ : ∃ A, A = List.replicate (chunkQty - 2) Chunk.empty := ⟨_, rfl⟩
  have hinit : allocInit 0x100000 0xFFFFF =
      ⟨Chunk.empty :: Chunk.empty :: A, ⟨0x100000, 0xFFFFF⟩ :: Chunk.empty :: A⟩ := by
    rw [hA]
    rfl
  have hrun : run ⟨allocInit 0x100000 0xFFFFF, .no⟩ [.malloc 0x200, .malloc 0x200] =
      some ⟨⟨⟨0x100000, 0x200⟩ :: ⟨0x100200, 0x200⟩ :: A, ⟨0x100400, 0xFFBFF⟩ :: Chunk.empty :: A⟩, .no⟩ := by
    rw [hinit]
    rfl
  -- the first block has no neighbour that is free
  have hscan : scan (Chunk.merge ⟨0x100000, 0x200⟩) (⟨0x100400, 0xFFBFF⟩ :: Chunk.empty :: A) = none := by
    refine scan_none.mpr fun c hc => ?_
    rw [hA, List.mem_cons, List.mem_cons, List.mem_replicate] at hc
    rcases hc with rfl | rfl | ⟨-, rfl⟩
    · decide
    · decide
    · decide
  have hremove : removeChunkByAddress (⟨0x100000, 0x200⟩ :: ⟨0x100200, 0x200⟩ :: A) 0x100000 =
      some (⟨0x100000, 0x200⟩, Chunk.empty :: ⟨0x100200, 0x200⟩ :: A) := rfl
  have hinsert : insertChunk ⟨0x100000, 0x200⟩ (⟨0x100400, 0xFFBFF⟩ :: Chunk.empty :: A) =
      some (⟨0x100400, 0xFFBFF⟩ :: ⟨0x100000, 0x200⟩ :: A) := rfl
  refine ⟨⟨⟨Chunk.empty :: ⟨0x100200, 0x200⟩ :: A, ⟨0x100400, 0xFFBFF⟩ :: ⟨0x100000, 0x200⟩ :: A⟩, .no⟩, A,
    ?_, rfl, rfl⟩
  have hcalls : ([.malloc 0x200, .malloc 0x200, .free 0x100000] : List Call) =
      [.malloc 0x200, .malloc 0x200] ++ [.free 0x100000] := rfl
  rw [hcalls, run, List.foldlM_append, ← run, hrun, Option.bind_eq_bind, Option.bind_some, List.foldlM_cons,
    step, free, Heap.free]
  simp only [hremove, giveBack, mergeChunk, hscan, hinsert]
  rfl

/-- It merges with the rest of the heap, and that with the first block. -/
theorem free_nested_calls_both_sides : ∃ s c₀ c₁,
    run ⟨allocInit 0x100000 0xFFFFF, .no⟩ [.malloc 0x200, .malloc 0x200, .free 0x100000] = some s ∧
    firstCall ⟨0x100200, 0x200⟩ s.heap.freed = some c₀ ∧ c₀.next = some c₁ ∧
    (∃ s', free s 0x100200 = some s') ∧
    s.mergeCall 0x100200 = firstCall ⟨0x100200, 0x200⟩ s.heap.freed ∧
    (∀ c₀, firstCall ⟨0x100200, 0x200⟩ s.heap.freed = some c₀ →
      used c₀.list = used s.heap.freed) ∧
    ∀ c, s.CallsUnder 0x100200 c →
      c.Ends ∧ c.chunk ≠ Chunk.empty ∧
      (∀ c', c.next = some c' → used c'.list + 1 = used c.list) ∧
      ∀ j, c.list[j]? = some Chunk.empty → ¬ (⟨j, c.list⟩ : MergeCall).Ends := by
  obtain ⟨s, A, hrun, hallocated, hfreed⟩ := run_middle_block
  have hr : HeapRange 0x100000 0xFFFFF := ⟨by decide, by decide, by decide⟩
  have hlive : (⟨0x100200, 0x200⟩ : Chunk) ∈ s.heap.live := by
    refine ⟨?_, by decide⟩
    rw [hallocated]
    exact List.mem_cons_of_mem _ List.mem_cons_self
  have h := free_nested_calls hr hrun hlive
  have hfirst : firstCall ⟨0x100200, 0x200⟩ s.heap.freed =
      some ⟨0, ⟨0x100200, 0xFFDFF⟩ :: ⟨0x100000, 0x200⟩ :: A⟩ := by
    rw [hfreed]
    rfl
  have hnext : (⟨0, ⟨0x100200, 0xFFDFF⟩ :: ⟨0x100000, 0x200⟩ :: A⟩ : MergeCall).next =
      some ⟨1, Chunk.empty :: ⟨0x100000, 0xFFFFF⟩ :: A⟩ := by
    have hself : Chunk.merge ⟨0x100200, 0xFFDFF⟩ ⟨0x100200, 0xFFDFF⟩ = none := by decide
    have hbefore : Chunk.merge ⟨0x100200, 0xFFDFF⟩ ⟨0x100000, 0x200⟩ = some ((), ⟨0x100000, 0xFFFFF⟩) := by
      decide
    simp only [MergeCall.next, MergeCall.chunk, List.getD_cons_zero, scan, hself, hbefore]
    rfl
  exact ⟨s, _, _, hrun, hfirst, hnext, h⟩

end Installer
end Amethyst
