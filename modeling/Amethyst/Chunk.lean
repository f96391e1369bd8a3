import Amethyst.Span
import Mathlib.Data.List.Perm.Basic

/-!
# Amethyst.Chunk

The chunk tables of both allocators (`installer/src/std/allocator.c`, `kernel/src/libc/allocator.c`)
and the loops over them. Every loop has one shape: the first entry on which the body succeeds is
replaced and the loop returns (`scan`). `insert_chunk`, `remove_chunk_by_size`,
`remove_chunk_by_address` and `alloc_init` are the same text in both files.

An entry `(0, 0)` is an empty slot. `spans l` are the address ranges of the other entries; each
operation is described by what it does to them.
-/

namespace Amethyst

abbrev Word := BitVec 32

/-- `_chunk_t`. -/
structure Chunk where
  start : Word
  size : Word
deriving DecidableEq, Repr

/-- `_chunk_list_t`. -/
abbrev Table := List Chunk

/-- `CHUNK_QTY`. -/
def chunkQty : Nat := 0x4000

theorem chunkQty_pos : 0 < chunkQty := by decide

/-! ## The loops -/

/-- `for (i = 0; ..; ++i)` over the entries: the first entry on which the body `f` succeeds is
replaced, and the loop returns with its index, the value and the table. -/
def scan {β γ : Type} (f : β → Option (γ × β)) : List β → Option (Nat × γ × List β)
  | [] => none
  | c :: rest =>
    match f c with
    | some (v, c') => some (0, v, c' :: rest)
    | none => (scan f rest).map fun (i, v, rest') => (i + 1, v, c :: rest')

namespace Chunk

def empty : Chunk := ⟨0, 0⟩

def isEmpty (c : Chunk) : Prop := c.start = 0 ∧ c.size = 0

instance (c : Chunk) : Decidable c.isEmpty := inferInstanceAs (Decidable (_ ∧ _))

/-- The body of both merge loops: the entry `c` grows by the chunk `p` when it ends where `p`
starts or starts where `p` ends. -/
def merge (p c : Chunk) : Option (Unit × Chunk) :=
  if c.start + c.size = p.start then some ((), ⟨c.start, c.size + p.size⟩)
  else if p.start + p.size = c.start then some ((), ⟨p.start, p.size + c.size⟩)
  else none

/-- The body of `remove_chunk_by_size`: the chunk cut from the front of `c`, and what is left. -/
def cut (size : Word) (c : Chunk) : Option (Chunk × Chunk) :=
  if size ≤ c.size then
    let left := c.size - size
    some (⟨c.start, size⟩, ⟨if left = 0 then 0 else c.start + size, left⟩)
  else none

end Chunk

/-- `insert_chunk`; `none` is the return value 0. -/
def insertChunk (p : Chunk) (list : Table) : Option Table :=
  (scan (fun c => if c.isEmpty then some ((), p) else none) list).map fun (_, _, list') => list'

def removeChunkBySize (list : Table) (size : Word) : Option (Chunk × Table) :=
  (scan (Chunk.cut size) list).map Prod.snd

def removeChunkByAddress (list : Table) (ptr : Word) : Option (Chunk × Table) :=
  (scan (fun c => if c.start = ptr then some (c, Chunk.empty) else none) list).map Prod.snd

/-! ## The scan -/

theorem scan_none {β γ : Type} {f : β → Option (γ × β)} {l : List β} :
    scan f l = none ↔ ∀ c ∈ l, f c = none := by
  induction l with
  | nil => simp [scan]
  | cons c rest ih =>
    simp only [scan, List.forall_mem_cons]
    cases hc : f c with
    | some r => simp
    | none => simp [ih]

/-- A scan that returns replaced the entry at its index, and failed on every entry before. -/
theorem scan_some {β γ : Type} {f : β → Option (γ × β)} {l l' : List β} {i : Nat} {v : γ}
    (h : scan f l = some (i, v, l')) :
    ∃ c c', l[i]? = some c ∧ f c = some (v, c') ∧ l' = l.set i c' ∧
      ∀ j d, j < i → l[j]? = some d → f d = none := by
  induction l generalizing i l' with
  | nil => simp [scan] at h
  | cons c rest ih =>
    simp only [scan] at h
    split at h
    · rename_i v' c' hc
      cases h
      exact ⟨c, c', rfl, hc, rfl, fun j d hj => absurd hj (Nat.not_lt_zero j)⟩
    · rename_i hc
      obtain ⟨⟨k, w, rest'⟩, hr, e⟩ := Option.map_eq_some_iff.mp h
      cases e
      obtain ⟨d, d', h1, h2, rfl, h3⟩ := ih hr
      refine ⟨d, d', h1, h2, rfl, ?_⟩
      intro j x hj hx
      cases j with
      | zero => cases hx; exact hc
      | succ j => exact h3 j x (by omega) hx

/-! ## Address ranges -/

namespace Chunk

/-- The bytes of a chunk, as a range of unbounded addresses. -/
def span (c : Chunk) : Span Nat := ⟨c.start.toNat, c.start.toNat + c.size.toNat⟩

/-- A chunk of positive size that neither contains address 0 nor reaches the last address. -/
structure Real (c : Chunk) : Prop where
  start_pos : 0 < c.start.toNat
  size_pos : 0 < c.size.toNat
  hi_lt : c.start.toNat + c.size.toNat < 2 ^ 32

theorem isEmpty_iff {c : Chunk} : c.isEmpty ↔ c = empty := by
  cases c
  simp [isEmpty, empty]

theorem Real.ne_empty {c : Chunk} (h : c.Real) : c ≠ empty := by
  rintro rfl
  exact absurd h.start_pos (by simp [empty])

theorem start_add_size {c : Chunk} (h : c = empty ∨ c.Real) :
    (c.start + c.size).toNat = c.start.toNat + c.size.toNat := by
  rcases h with rfl | h
  · simp [empty]
  · rw [BitVec.toNat_add, Nat.mod_eq_of_lt h.hi_lt]

/-- Growing joins two ranges that touch. An empty slot never grows: its "end" is address 0. -/
theorem merge_some {p c c' : Chunk} {u : Unit} (hp : p.Real) (hc : c = empty ∨ c.Real)
    (h : p.merge c = some (u, c')) :
    c.Real ∧ c'.Real ∧
      ((c.span.hi = p.span.lo ∧ c'.span = ⟨c.span.lo, p.span.hi⟩) ∨
        (p.span.hi = c.span.lo ∧ c'.span = ⟨p.span.lo, c.span.hi⟩)) := by
  have hp1 := hp.start_pos
  have hp2 := hp.size_pos
  have hp3 := hp.hi_lt
  unfold merge at h
  split at h
  · rename_i e
    cases h
    have e' : c.start.toNat + c.size.toNat = p.start.toNat := by rw [← start_add_size hc, e]
    have hcr : c.Real := by
      rcases hc with rfl | hc
      · simp [empty] at e'; omega
      · exact hc
    have hs : (c.size + p.size).toNat = c.size.toNat + p.size.toNat := by
      rw [BitVec.toNat_add, Nat.mod_eq_of_lt (by omega)]
    have h1 := hcr.start_pos
    refine ⟨hcr, ⟨h1, by simp only [hs]; omega, by simp only [hs]; omega⟩, .inl ⟨e', ?_⟩⟩
    simp only [span, hs, Span.mk.injEq, true_and]
    omega
  · split at h
    · rename_i e
      cases h
      have e' : p.start.toNat + p.size.toNat = c.start.toNat := by
        rw [← start_add_size (.inr hp), e]
      have hcr : c.Real := by
        rcases hc with rfl | hc
        · simp [empty] at e'; omega
        · exact hc
      have h1 := hcr.size_pos
      have h2 := hcr.hi_lt
      have hs : (p.size + c.size).toNat = p.size.toNat + c.size.toNat := by
        rw [BitVec.toNat_add, Nat.mod_eq_of_lt (by omega)]
      refine ⟨hcr, ⟨hp1, by simp only [hs]; omega, by simp only [hs]; omega⟩, .inr ⟨e', ?_⟩⟩
      simp only [span, hs, Span.mk.injEq, true_and]
      omega
    · cases h

theorem merge_none {p c : Chunk} (hp : p.Real) (hc : c.Real) (h : p.merge c = none) :
    ¬ p.span.Touch c.span := by
  unfold merge at h
  split at h
  · cases h
  · split at h
    · cases h
    · rename_i h1 h2
      rintro (e | e)
      · apply h2
        apply BitVec.eq_of_toNat_eq
        rw [start_add_size (.inr hp)]
        exact e
      · apply h1
        apply BitVec.eq_of_toNat_eq
        rw [start_add_size (.inr hc)]
        exact e

theorem merge_empty {p : Chunk} (hp : p.Real) : p.merge empty = none := by
  cases h : p.merge empty with
  | none => rfl
  | some r => exact absurd rfl (merge_some hp (.inl rfl) h).1.ne_empty

/-- A used entry neither ends nor starts at address 0. -/
theorem empty_merge {c : Chunk} (hc : c.Real) : empty.merge c = none := by
  have h := start_add_size (.inr hc)
  have hpos := hc.start_pos
  unfold merge
  split
  · rename_i e
    have h0 : empty.start.toNat = 0 := rfl
    rw [e, h0] at h
    omega
  · split
    · rename_i e
      rw [← e] at hpos
      exact absurd hpos (by decide)
    · rfl

theorem cut_fits {c p c' : Chunk} {size : Word} (h : c.cut size = some (p, c')) :
    size ≤ c.size ∧ p = ⟨c.start, size⟩ := by
  unfold cut at h
  split at h
  · cases h
    exact ⟨‹_›, rfl⟩
  · cases h

/-- A cut of a positive size takes the front `[start, start + size)` of a real chunk; what is left
is an empty slot if the sizes agree and the rest of the range otherwise. -/
theorem cut_some {c p c' : Chunk} {size : Word} (hc : c = empty ∨ c.Real) (hs : size ≠ 0)
    (h : c.cut size = some (p, c')) :
    c.Real ∧ p.Real ∧ p = ⟨c.start, size⟩ ∧
      ((c' = empty ∧ c.span = p.span) ∨
        (c'.Real ∧ c.span = ⟨p.span.lo, c'.span.hi⟩ ∧ p.span.hi = c'.span.lo)) := by
  have hs' : 0 < size.toNat := by
    apply Nat.pos_of_ne_zero
    intro e
    exact hs (BitVec.eq_of_toNat_eq (by simpa using e))
  unfold cut at h
  split at h
  · rename_i hle
    have hle' : size.toNat ≤ c.size.toNat := BitVec.le_def.mp hle
    have hcr : c.Real := by
      rcases hc with rfl | hc
      · simp [empty] at hle'; omega
      · exact hc
    have h1 := hcr.start_pos
    have h3 := hcr.hi_lt
    have hleft : (c.size - size).toNat = c.size.toNat - size.toNat := BitVec.toNat_sub_of_le hle
    simp only [Option.some.injEq, Prod.mk.injEq] at h
    obtain ⟨rfl, rfl⟩ := h
    refine ⟨hcr, ⟨h1, hs', by simp only; omega⟩, rfl, ?_⟩
    by_cases h0 : c.size - size = 0
    · left
      have h0' : c.size.toNat - size.toNat = 0 := by rw [← hleft, h0]; rfl
      refine ⟨by simp [h0, empty], ?_⟩
      simp only [span, Span.mk.injEq, true_and]
      omega
    · right
      have h0' : 0 < c.size.toNat - size.toNat := by
        rw [← hleft]
        apply Nat.pos_of_ne_zero
        intro e
        exact h0 (BitVec.eq_of_toNat_eq (by simpa using e))
      have hst : (c.start + size).toNat = c.start.toNat + size.toNat := by
        rw [BitVec.toNat_add, Nat.mod_eq_of_lt (by omega)]
      simp only [h0, if_false, span, hst, hleft, Span.mk.injEq, true_and, and_true]
      exact ⟨⟨by simp only [hst]; omega, by simp only [hleft]; omega,
        by simp only [hst, hleft]; omega⟩, by omega⟩
  · cases h

end Chunk

def spans (l : Table) : List (Span Nat) := (l.filter (· ≠ Chunk.empty)).map Chunk.span

def Clean (l : Table) : Prop := ∀ c ∈ l, c = Chunk.empty ∨ c.Real

theorem mem_spans {l : Table} {s : Span Nat} :
    s ∈ spans l ↔ ∃ c ∈ l, c ≠ Chunk.empty ∧ c.span = s := by
  simp [spans, and_assoc]

theorem spans_perm {l l' : Table} (h : l.Perm l') : (spans l).Perm (spans l') :=
  (h.filter _).map _

/-- A used entry put at `i` adds its range to those of the other slots. -/
theorem spans_set {l : Table} {i : Nat} (hi : i < l.length) {c : Chunk} (hc : c ≠ Chunk.empty) :
    (spans (l.set i c)).Perm (c.span :: spans (l.set i Chunk.empty)) := by
  have h1 := spans_perm (List.set_perm_cons_eraseIdx hi c)
  have h2 := spans_perm (List.set_perm_cons_eraseIdx hi Chunk.empty)
  refine h1.trans ?_
  have e1 : spans (c :: l.eraseIdx i) = c.span :: spans (l.eraseIdx i) := by simp [spans, hc]
  have e2 : spans (Chunk.empty :: l.eraseIdx i) = spans (l.eraseIdx i) := by simp [spans]
  rw [e1]
  rw [e2] at h2
  exact h2.symm.cons _

theorem spans_of_getElem? {l : Table} {i : Nat} {c : Chunk} (h : l[i]? = some c)
    (hc : c ≠ Chunk.empty) : (spans l).Perm (c.span :: spans (l.set i Chunk.empty)) := by
  obtain ⟨hi, rfl⟩ := List.getElem?_eq_some_iff.mp h
  have := spans_set hi hc
  rwa [List.set_getElem_self] at this

theorem spans_set_empty {l : Table} {i : Nat} (h : l[i]? = some Chunk.empty) :
    l.set i Chunk.empty = l := by
  obtain ⟨hi, e⟩ := List.getElem?_eq_some_iff.mp h
  rw [← e, List.set_getElem_self]

theorem Clean.set {l : Table} (h : Clean l) {c : Chunk} (hc : c = Chunk.empty ∨ c.Real) (i : Nat) :
    Clean (l.set i c) := by
  intro d hd
  rcases List.mem_or_eq_of_mem_set hd with hd | rfl
  · exact h d hd
  · exact hc

theorem spans_replicate (n : Nat) : spans (List.replicate n Chunk.empty) = [] := by
  simp [spans]

theorem spans_replicate_set {n : Nat} (hn : 0 < n) {c : Chunk} (hc : c ≠ Chunk.empty) :
    spans ((List.replicate n Chunk.empty).set 0 c) = [c.span] := by
  obtain ⟨k, rfl⟩ := Nat.exists_eq_succ_of_ne_zero (by omega : n ≠ 0)
  rw [List.replicate_succ, List.set_cons_zero]
  simp [spans, hc]

/-- In a table whose slots are all in use, the ranges are as many as the slots. -/
theorem length_spans_of_full {l : Table} (h : ∀ c ∈ l, c ≠ Chunk.empty) :
    (spans l).length = l.length := by
  rw [spans, List.length_map, List.filter_eq_self.mpr (by simpa using h)]

theorem length_spans_le (l : Table) : (spans l).length ≤ l.length := by
  rw [spans, List.length_map]
  exact List.length_filter_le _ _

end Amethyst
