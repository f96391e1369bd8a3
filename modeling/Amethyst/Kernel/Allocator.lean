import Amethyst.Heap

/-!
# Amethyst.Kernel.Allocator

The kernel's allocator (`kernel/src/libc/allocator.c`). Its `merge_chunk` grows the first entry of
`freed` that touches the chunk and looks no further; `free` reports nothing.
-/

namespace Amethyst
namespace Kernel

/-- `merge_chunk`; `none` is the return value 0. -/
def mergeChunk (p : Chunk) (list : Table) : Option Table :=
  match scan p.merge list with
  | some (_, _, list') => some list'
  | none => insertChunk p list

def free (h : Heap) (ptr : Word) : Heap :=
  match h.free (fun chunk freed => some (mergeChunk chunk freed)) ptr with
  | some (_, h') => h'
  | none => h

def malloc (h : Heap) (size : Word) : Word × Heap :=
  let (r, h') := h.malloc size
  (r.ptr, h')

theorem malloc_fst (h : Heap) (size : Word) : (malloc h size).1 = (h.malloc size).1.ptr := rfl

theorem malloc_snd (h : Heap) (size : Word) : (malloc h size).2 = (h.malloc size).2 := rfl

def step (h : Heap) : Call → Heap
  | .malloc size => (malloc h size).2
  | .free ptr => free h ptr

def run (h : Heap) (calls : List Call) : Heap := calls.foldl step h

theorem mergeChunk_none {p : Chunk} {l : Table} (h : mergeChunk p l = none) :
    scan p.merge l = none ∧ ∀ c ∈ l, c ≠ Chunk.empty := by
  unfold mergeChunk at h
  split at h
  · cases h
  · exact ⟨‹_›, insertChunk_none.mp h⟩

/-- `merge_chunk` grows one entry, or fills an empty slot when no entry touches the chunk. -/
theorem mergeChunk_some {p : Chunk} {l l' : Table} (h : mergeChunk p l = some l') :
    (∃ i c c' u, l[i]? = some c ∧ p.merge c = some (u, c') ∧ l' = l.set i c') ∨
    (scan p.merge l = none ∧ ∃ j, l[j]? = some Chunk.empty ∧ l' = l.set j p) := by
  unfold mergeChunk at h
  split at h
  · rename_i i u l'' hs
    cases h
    obtain ⟨c, c', h1, h2, rfl, -⟩ := scan_some hs
    exact .inl ⟨i, c, c', u, h1, h2, rfl⟩
  · exact .inr ⟨‹_›, insertChunk_some h⟩

section

variable {lo hi : Nat} (hlo : 0 < lo) (hhi : hi < 2 ^ 32)
include hlo hhi

theorem mergeChunk_regroup {p : Chunk} {l l' : Table} (hpk : Packed lo hi (p.span :: spans l))
    (h : mergeChunk p l = some l') :
    Regroup (p.span :: spans l) (spans l') ∧ l'.length = l.length := by
  have hl : Clean l := Heap.real_of_packed hlo hhi hpk (by simp +contextual)
  have hp : p.Real := Heap.real_of_packed_cons hlo hhi hpk
  rcases mergeChunk_some h with ⟨i, c, c', u, h1, h2, rfl⟩ | ⟨-, j, hj, rfl⟩
  · exact ⟨(Heap.regroup_merge hl hp h1 h2).1, by simp⟩
  · exact ⟨.perm (Heap.spans_insert hj hp).symm, by simp⟩

theorem givesBack : Heap.GivesBack lo hi fun chunk freed => some (mergeChunk chunk freed) :=
  fun _ _ hpk => ⟨_, rfl, fun _ h => mergeChunk_regroup hlo hhi hpk h⟩

theorem free_eq {h : Heap} (hinv : h.Inv lo hi) (ptr : Word) :
    ∃ r, h.free (fun chunk freed => some (mergeChunk chunk freed)) ptr = some (r, free h ptr) ∧
      (free h ptr).Inv lo hi := by
  obtain ⟨r, h', e, hinv'⟩ := Heap.free_inv hlo hhi (givesBack hlo hhi) hinv ptr
  have e' : free h ptr = h' := by simp only [free, e]
  exact ⟨r, by rw [e', e], e' ▸ hinv'⟩

theorem step_inv {h : Heap} (hinv : h.Inv lo hi) (c : Call) : (step h c).Inv lo hi := by
  cases c with
  | malloc size => exact Heap.malloc_inv hlo hhi hinv rfl
  | free ptr =>
    obtain ⟨_, -, hinv'⟩ := free_eq hlo hhi hinv ptr
    exact hinv'

theorem run_inv {h : Heap} (hinv : h.Inv lo hi) (calls : List Call) :
    (run h calls).Inv lo hi := by
  induction calls generalizing h with
  | nil => exact hinv
  | cons c calls ih => exact ih (step_inv hlo hhi hinv c)

end

end Kernel
end Amethyst
