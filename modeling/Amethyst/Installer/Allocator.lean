import Amethyst.Heap

/-!
# Amethyst.Installer.Allocator

The installer's allocator (`installer/src/std/allocator.c`). `merge_chunk` grows the first entry of
`freed` that touches the chunk, then calls `merge_remove_chunk` on that very entry, which joins it
to a further neighbour, empties it and recurses on the neighbour.

`mergeRemoveChunk_spec`: on a packed table the recursion ends within as many calls as there are
used entries, it only regroups ranges, and if the entry was the only one that could touch another,
nothing touches afterwards. `mergeChunk_spec` is the same for `merge_chunk`.
-/

namespace Amethyst
namespace Installer

/-- `enum err_type`. -/
inductive Err where
  | no
  | internal
  | invarg
  | heapfull
  | nofont
  | io
  | unknfs
  | notfound
  | notadir
  | notafile
deriving DecidableEq, Repr

/-- `merge_remove_chunk(&list[j], list)`, with at most `fuel` nested calls; `none` if they do not
suffice. The result of the nested call is dropped, as in the source. -/
def mergeRemoveChunk : Nat → Nat → Table → Option (Bool × Table)
  | 0, _, _ => none
  | fuel + 1, j, list =>
    match scan (list.getD j Chunk.empty).merge list with
    | none => some (false, list)
    | some (i, _, list') =>
      -- `*pChunk` is `list[j]`: it is emptied after `list[i]` has grown
      (mergeRemoveChunk fuel i (list'.set j Chunk.empty)).map fun (_, list'') => (true, list'')

/-- `merge_chunk`. Each nested call empties a slot, so more calls than slots mean no end. -/
def mergeChunk (p : Chunk) (list : Table) : Option (Bool × Table) :=
  match scan p.merge list with
  | none => some (false, list)
  | some (i, _, list') => (mergeRemoveChunk list.length i list').map fun (_, list'') => (true, list'')

/-- `merge_chunk(..) == 0 && insert_chunk(..) == 0` of `free`. -/
def giveBack (chunk : Chunk) (freed : Table) : Option (Option Table) :=
  match mergeChunk chunk freed with
  | none => none
  | some (true, freed') => some (some freed')
  | some (false, freed') => some (insertChunk chunk freed')

structure State where
  heap : Heap
  err : Err
deriving DecidableEq, Repr

def free (s : State) (ptr : Word) : Option State :=
  match s.heap.free giveBack ptr with
  | none => none
  | some (.null, h) => some ⟨h, .invarg⟩
  | some (.notAllocated, h) => some ⟨h, .invarg⟩
  | some (.noSlot, h) => some ⟨h, .internal⟩
  | some (.ok, h) => some ⟨h, s.err⟩

def malloc (s : State) (size : Word) : Word × State :=
  match s.heap.malloc size with
  | (.zeroSize, h) => (0, ⟨h, .invarg⟩)
  | (.heapFull, h) => (0, ⟨h, .heapfull⟩)
  | (.noSlot, h) => (0, ⟨h, .internal⟩)
  | (.ok ptr, h) => (ptr, ⟨h, s.err⟩)

def step (s : State) : Call → Option State
  | .malloc size => some (malloc s size).2
  | .free ptr => free s ptr

theorem malloc_heap (s : State) (size : Word) :
    (malloc s size).1 = (s.heap.malloc size).1.ptr ∧
      (malloc s size).2.heap = (s.heap.malloc size).2 := by
  simp only [malloc]
  split <;> simp_all [MallocEnd.ptr]

/-- The state after the calls; `none` if one of them does not return. -/
def run (s : State) (calls : List Call) : Option State := calls.foldlM step s

/-! ## Merging -/

section

variable {lo hi : Nat} (hlo : 0 < lo) (hhi : hi < 2 ^ 32)
include hlo hhi

omit hlo hhi in
/-- The entry `i` takes in the chunk. Nothing else can touch another entry now, if none did before. -/
theorem grow_entry {l : Table} (hl : Clean l) {p c c' : Chunk} {i : Nat} {u : Unit} (hp : p.Real)
    (hi : l[i]? = some c) (hm : p.merge c = some (u, c')) :
    (l.set i c')[i]? = some c' ∧ c' ≠ Chunk.empty ∧
      Regroup (p.span :: spans l) (spans (l.set i c')) ∧
      (spans (l.set i c')).length = (spans l).length ∧
      (Coalesced (spans l) → Coalesced (spans ((l.set i c').set i Chunk.empty))) := by
  have hcr := (Chunk.merge_some hp (hl c (List.mem_of_getElem? hi)) hm).1
  obtain ⟨hre, hc'⟩ := Heap.regroup_merge hl hp hi hm
  have hilt : i < l.length := (List.getElem?_eq_some_iff.mp hi).1
  have hold := spans_of_getElem? hi hcr.ne_empty
  have hnew := spans_set hilt hc'.ne_empty
  refine ⟨List.getElem?_set_self hilt, hc'.ne_empty, hre, ?_, fun hco => ?_⟩
  · rw [hnew.length_eq, hold.length_eq]
    rfl
  · rw [List.set_set]
    exact (coalesced_cons.mp (hco.perm hold)).2

/-- One nested call: the entry `i` has taken in the used entry `j`, which is empty now. Where `j` was
the only entry that could touch others, `i` is. -/
theorem mergeRemove_step {j : Nat} {l : Table} {p : Chunk} (hpk : Packed lo hi (spans l))
    (hj : l[j]? = some p) (hne : p ≠ Chunk.empty) {i : Nat} {u : Unit} {list' : Table}
    (hs : scan p.merge l = some (i, u, list')) :
    ∃ c', (list'.set j Chunk.empty)[i]? = some c' ∧ c' ≠ Chunk.empty ∧
      Regroup (spans l) (spans (list'.set j Chunk.empty)) ∧
      (spans (list'.set j Chunk.empty)).length + 1 = (spans l).length ∧
      (list'.set j Chunk.empty).length = l.length ∧
      (Coalesced (spans (l.set j Chunk.empty)) →
        Coalesced (spans ((list'.set j Chunk.empty).set i Chunk.empty))) := by
  have hl : Clean l := Heap.real_of_packed hlo hhi hpk fun _ h => h
  have hp : p.Real := (hl p (List.mem_of_getElem? hj)).resolve_left hne
  have hout := spans_of_getElem? hj hne
  obtain ⟨c, c', hi', hm, rfl, -⟩ := scan_some hs
  -- the entry does not touch itself, so the loop found another one
  have hij : i ≠ j := by
    rintro rfl
    rw [hj] at hi'
    cases hi'
    obtain ⟨-, -, h⟩ := Chunk.merge_some hp (.inr hp) hm
    have := hp.size_pos
    simp only [Chunk.span] at h
    omega
  have hi₀ : (l.set j Chunk.empty)[i]? = some c := by
    rw [List.getElem?_set_ne (Ne.symm hij), hi']
  rw [List.set_comm _ _ hij]
  obtain ⟨hget, hne', hre, hlen, hco⟩ := grow_entry (hl.set (.inl rfl) j) hp hi₀ hm
  refine ⟨c', hget, hne', .trans (.perm hout) hre, ?_, by simp, hco⟩
  rw [hlen, hout.length_eq]
  rfl

/-- By induction on the nested calls. The entry `j` may touch others; every other pair is apart if
it was before. A call that joins `j` to `i` leaves `i` as the only such entry. -/
theorem mergeRemoveChunk_spec : ∀ (fuel j : Nat) (l : Table) (p : Chunk),
    Packed lo hi (spans l) → l[j]? = some p → p ≠ Chunk.empty → (spans l).length ≤ fuel →
    ∃ b l', mergeRemoveChunk fuel j l = some (b, l') ∧ Regroup (spans l) (spans l') ∧
      l'.length = l.length ∧
      (Coalesced (spans (l.set j Chunk.empty)) → Coalesced (spans l')) := by
  intro fuel
  induction fuel with
  | zero =>
    intro j l p _ hj hne hlen
    have hmem := mem_spans.mpr ⟨p, List.mem_of_getElem? hj, hne, rfl⟩
    have := List.length_pos_of_mem hmem
    omega
  | succ fuel ih =>
    intro j l p hpk hj hne hlen
    have hl : Clean l := Heap.real_of_packed hlo hhi hpk fun _ h => h
    have hp : p.Real := (hl p (List.mem_of_getElem? hj)).resolve_left hne
    have hget : l.getD j Chunk.empty = p := by rw [List.getD_eq_getElem?_getD, hj]; rfl
    simp only [mergeRemoveChunk, hget]
    cases hs : scan p.merge l with
    | none =>
      have hout := spans_of_getElem? hj hne
      refine ⟨false, l, rfl, .refl _, rfl, fun hco => ?_⟩
      have hnt := Heap.not_touch_of_scan hl hp hs
      refine Coalesced.perm hout.symm (coalesced_cons.mpr ⟨fun s hs' => ?_, hco⟩)
      exact hnt s (hout.mem_iff.mpr (List.mem_cons_of_mem _ hs'))
    | some r =>
      obtain ⟨i, u, list'⟩ := r
      obtain ⟨c', hi', hne', hre, hcount, hlength, hco⟩ := mergeRemove_step hlo hhi hpk hj hne hs
      obtain ⟨b, l', he, h1, h2, h3⟩ := ih i (list'.set j Chunk.empty) c' (hre.packed_iff.mp hpk) hi'
        hne' (by omega)
      exact ⟨true, l', by simp [he], .trans hre h1, h2.trans hlength, fun h => h3 (hco h)⟩

/-- `merge_chunk` finds no entry that touches the chunk and changes nothing, or gives the chunk's
bytes to `list` and leaves a coalesced table coalesced. -/
theorem mergeChunk_spec {p : Chunk} {l : Table} (hpk : Packed lo hi (p.span :: spans l)) :
    (mergeChunk p l = some (false, l) ∧ ∀ s ∈ spans l, ¬ p.span.Touch s) ∨
    ∃ l', mergeChunk p l = some (true, l') ∧ Regroup (p.span :: spans l) (spans l') ∧
      l'.length = l.length ∧ (Coalesced (spans l) → Coalesced (spans l')) := by
  have hl : Clean l := Heap.real_of_packed hlo hhi hpk (by simp +contextual)
  have hp : p.Real := Heap.real_of_packed_cons hlo hhi hpk
  unfold mergeChunk
  cases hs : scan p.merge l with
  | none => exact .inl ⟨rfl, Heap.not_touch_of_scan hl hp hs⟩
  | some r =>
    right
    obtain ⟨i, u, list'⟩ := r
    obtain ⟨c, c', hi', hm, rfl, -⟩ := scan_some hs
    obtain ⟨hget, hne, hre, -, hco⟩ := grow_entry hl hp hi' hm
    obtain ⟨b, l', he, h1, h2, h3⟩ := mergeRemoveChunk_spec hlo hhi l.length i (l.set i c') c'
      (hre.packed_iff.mp hpk) hget hne (by simpa using length_spans_le (l.set i c'))
    exact ⟨l', by simp [he], .trans hre h1, by simpa using h2, fun h => h3 (hco h)⟩

/-- What `free` does with the chunk: `freed` takes it, coalesced if it was; or no entry touches the
chunk and no slot is empty. -/
theorem giveBack_spec {p : Chunk} {l : Table} (hpk : Packed lo hi (p.span :: spans l)) :
    (giveBack p l = some none ∧ (∀ s ∈ spans l, ¬ p.span.Touch s) ∧ ∀ c ∈ l, c ≠ Chunk.empty) ∨
    ∃ l', giveBack p l = some (some l') ∧ Regroup (p.span :: spans l) (spans l') ∧
      l'.length = l.length ∧ (Coalesced (spans l) → Coalesced (spans l')) := by
  have hp : p.Real := Heap.real_of_packed_cons hlo hhi hpk
  unfold giveBack
  rcases mergeChunk_spec hlo hhi hpk with ⟨e, hnt⟩ | ⟨l', e, h⟩
  · simp only [e, Option.some.injEq]
    cases hins : insertChunk p l with
    | none => exact .inl ⟨rfl, hnt, insertChunk_none.mp hins⟩
    | some l' =>
      obtain ⟨j, hj, rfl⟩ := insertChunk_some hins
      have hperm := Heap.spans_insert hj hp
      exact .inr ⟨_, rfl, .perm hperm.symm, by simp,
        fun hco => Coalesced.perm hperm.symm (coalesced_cons.mpr ⟨hnt, hco⟩)⟩
  · simp only [e, Option.some.injEq]
    exact .inr ⟨l', rfl, h⟩

theorem givesBack : Heap.GivesBack lo hi giveBack := by
  intro p l hpk
  rcases giveBack_spec hlo hhi hpk with ⟨e, -⟩ | ⟨l', e, h1, h2, -⟩
  · exact ⟨none, e, fun _ h => by cases h⟩
  · exact ⟨some l', e, fun _ h => by cases h; exact ⟨h1, h2⟩⟩

theorem step_inv {s : State} (hinv : s.heap.Inv lo hi) (c : Call) :
    ∃ s', step s c = some s' ∧ s'.heap.Inv lo hi := by
  cases c with
  | malloc size =>
    obtain ⟨r, h', e⟩ : ∃ r h', s.heap.malloc size = (r, h') := ⟨_, _, rfl⟩
    have hi' := Heap.malloc_inv hlo hhi hinv e
    refine ⟨_, rfl, ?_⟩
    simp only [malloc, e]
    cases r <;> exact hi'
  | free ptr =>
    obtain ⟨r, h', e, hi'⟩ := Heap.free_inv hlo hhi (givesBack hlo hhi) hinv ptr
    simp only [step, free, e]
    cases r <;> exact ⟨_, rfl, hi'⟩

/-- Every call returns, and the tables stay packed. -/
theorem run_inv (calls : List Call) : ∀ {s : State}, s.heap.Inv lo hi →
    ∃ s', run s calls = some s' ∧ s'.heap.Inv lo hi := by
  induction calls with
  | nil => exact fun hinv => ⟨_, rfl, hinv⟩
  | cons c calls ih =>
    intro s hinv
    obtain ⟨s₁, h1, hinv₁⟩ := step_inv hlo hhi hinv c
    obtain ⟨s', h2, hinv'⟩ := ih hinv₁
    exact ⟨s', by simpa [run, h1] using h2, hinv'⟩

end

end Installer
end Amethyst
