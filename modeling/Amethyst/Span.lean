import Mathlib.Algebra.Group.Nat.Defs
import Mathlib.Data.List.Pairwise
import Mathlib.Data.List.Perm.Subperm
import Mathlib.Order.Defs.LinearOrder
import Mathlib.Tactic.Order

/-!
# Amethyst.Span

Half-open ranges `[lo, hi)` of a linear order, and lists of them.

* `Packed lo hi l`: the ranges of `l` are nonempty, lie inside `[lo, hi)` and are pairwise
  separate. `Tiles lo hi l`: moreover they cover `[lo, hi)`.
* `Regroup l l'`: `l'` is `l` up to order, cuts and joins. Both properties depend on a list only
  up to `Regroup` (`Regroup.packed_iff`, `Regroup.tiles_iff`).
* `Coalesced l`: no two ranges of `l` touch. In a tiling by two lists `L` and `F` with `F`
  coalesced, every window free of `L` lies in one range of `F` (`Tiles.window`), and `F` has at
  most one range more than `L` (`Tiles.length_le`).
-/

namespace Amethyst

universe u

/-- The half-open range `[lo, hi)`. -/
structure Span (α : Type u) where
  lo : α
  hi : α
deriving DecidableEq, Repr

variable {α : Type u}

def Span.Touch (s t : Span α) : Prop := s.hi = t.lo ∨ t.hi = s.lo

theorem Span.Touch.symm {s t : Span α} (h : s.Touch t) : t.Touch s := Or.symm h

instance : Std.Symm fun s t : Span α => ¬ s.Touch t := ⟨fun _ _ h h' => h h'.symm⟩

/-- No two ranges of `l` touch. -/
def Coalesced (l : List (Span α)) : Prop := l.Pairwise (fun s t => ¬ s.Touch t)

theorem coalesced_cons {s : Span α} {l : List (Span α)} :
    Coalesced (s :: l) ↔ (∀ t ∈ l, ¬ s.Touch t) ∧ Coalesced l := List.pairwise_cons

theorem Coalesced.perm {l l' : List (Span α)} (h : l.Perm l') (hl : Coalesced l) : Coalesced l' :=
  (h.pairwise_iff fun h h' => h (Span.Touch.symm h')).mp hl

variable [LinearOrder α]

namespace Span

def Covers (s : Span α) (x : α) : Prop := s.lo ≤ x ∧ x < s.hi

def Sep (s t : Span α) : Prop := s.hi ≤ t.lo ∨ t.hi ≤ s.lo

theorem Sep.symm {s t : Span α} (h : s.Sep t) : t.Sep s := Or.symm h

instance : Std.Symm fun s t : Span α => s.Sep t := ⟨fun _ _ h => h.symm⟩

theorem Sep.not_covers {s t : Span α} {x : α} (h : s.Sep t) (hs : s.Covers x) : ¬ t.Covers x := by
  rintro ⟨h1, h2⟩
  obtain ⟨h3, h4⟩ := hs
  rcases h with h | h <;> order

/-- Nonempty separate ranges end at different points. -/
theorem Sep.hi_ne {s t : Span α} (h : s.Sep t) (hs : s.lo < s.hi) (ht : t.lo < t.hi) :
    s.hi ≠ t.hi := by
  intro e
  rcases h with h | h <;> order

/-- If a range separate from `s` covers the end of `s`, it starts there. -/
theorem Sep.lo_of_covers {s t : Span α} (h : s.Sep t) (hs : s.lo < s.hi) (ht : t.Covers s.hi) :
    t.lo = s.hi := by
  obtain ⟨h1, h2⟩ := ht
  rcases h with h | h <;> order

/-- A range is separate from `[p, r)` exactly if it is from both halves `[p, q)` and `[q, r)`. -/
theorem sep_join {p q r : α} (h1 : p < q) (h2 : q < r) {s : Span α} (hs : s.lo < s.hi) :
    (Span.mk p r).Sep s ↔ (Span.mk p q).Sep s ∧ (Span.mk q r).Sep s := by
  simp only [Sep]
  constructor
  · rintro (h | h)
    · exact ⟨.inl (by order), .inl h⟩
    · exact ⟨.inr h, .inr (by order)⟩
  · rintro ⟨h | h, h' | h'⟩
    · exact .inl h'
    · exact absurd hs (by order)
    · exact .inl h'
    · exact .inr h

/-- What touches the back part `[q, r)` of a range touches the range. -/
theorem Touch.of_back {p q r : α} (h1 : p < q) (h2 : q < r) {s : Span α} (hs : s.lo < s.hi)
    (hsep : (Span.mk p r).Sep s) (h : (Span.mk q r).Touch s) : (Span.mk p r).Touch s := by
  rcases h with h | h
  · exact .inl h
  · rcases hsep with h' | h'
    · exact absurd hs (by order)
    · exact absurd h2 (by order)

theorem covers_join {p q r : α} (h1 : p < q) (h2 : q < r) {x : α} :
    (Span.mk p r).Covers x ↔ (Span.mk p q).Covers x ∨ (Span.mk q r).Covers x := by
  simp only [Covers]
  constructor
  · rintro ⟨h3, h4⟩
    rcases lt_or_ge x q with h | h
    · exact .inl ⟨h3, h⟩
    · exact .inr ⟨h, h4⟩
  · rintro (⟨h3, h4⟩ | ⟨h3, h4⟩)
    · exact ⟨h3, by order⟩
    · exact ⟨by order, h4⟩

end Span

open Amethyst.Span

/-! ## Lists of ranges -/

def Covered (l : List (Span α)) (x : α) : Prop := ∃ s ∈ l, s.Covers x

structure Packed (lo hi : α) (l : List (Span α)) : Prop where
  pos : ∀ s ∈ l, s.lo < s.hi
  inside : ∀ s ∈ l, lo ≤ s.lo ∧ s.hi ≤ hi
  sep : l.Pairwise Sep

structure Tiles (lo hi : α) (l : List (Span α)) : Prop extends Packed lo hi l where
  full : ∀ x, lo ≤ x → x < hi → Covered l x

theorem covered_perm {l l' : List (Span α)} (h : l.Perm l') (x : α) :
    Covered l x ↔ Covered l' x := by
  simp only [Covered, h.mem_iff]

theorem covered_cons {s : Span α} {l : List (Span α)} {x : α} :
    Covered (s :: l) x ↔ s.Covers x ∨ Covered l x := by
  simp [Covered]

theorem covered_append {l l' : List (Span α)} {x : α} :
    Covered (l ++ l') x ↔ Covered l x ∨ Covered l' x := by
  simp only [Covered, List.mem_append, or_and_right, exists_or]

theorem packed_cons {lo hi : α} {s : Span α} {l : List (Span α)} :
    Packed lo hi (s :: l) ↔
      s.lo < s.hi ∧ lo ≤ s.lo ∧ s.hi ≤ hi ∧ (∀ t ∈ l, s.Sep t) ∧ Packed lo hi l := by
  constructor
  · intro h
    obtain ⟨hs, hl⟩ := List.pairwise_cons.mp h.sep
    obtain ⟨h1, h2⟩ := h.inside s (by simp)
    exact ⟨h.pos s (by simp), h1, h2, hs, fun t ht => h.pos t (by simp [ht]),
      fun t ht => h.inside t (by simp [ht]), hl⟩
  · rintro ⟨h1, h2, h3, h4, h5⟩
    refine ⟨?_, ?_, List.pairwise_cons.mpr ⟨h4, h5.sep⟩⟩
    · intro t ht
      rcases List.mem_cons.mp ht with rfl | ht
      · exact h1
      · exact h5.pos t ht
    · intro t ht
      rcases List.mem_cons.mp ht with rfl | ht
      · exact ⟨h2, h3⟩
      · exact h5.inside t ht

theorem Packed.perm {lo hi : α} {l l' : List (Span α)} (h : l.Perm l') (hl : Packed lo hi l) :
    Packed lo hi l' :=
  ⟨fun s hs => hl.pos s (h.mem_iff.mpr hs), fun s hs => hl.inside s (h.mem_iff.mpr hs),
    (h.pairwise_iff fun h => Sep.symm h).mp hl.sep⟩

theorem Packed.sublist {lo hi : α} {l l' : List (Span α)} (h : l'.Sublist l)
    (hl : Packed lo hi l) : Packed lo hi l' :=
  ⟨fun s hs => hl.pos s (h.subset hs), fun s hs => hl.inside s (h.subset hs), hl.sep.sublist h⟩

/-- Two members at different places of a packed list are separate. -/
theorem Packed.sep_append {lo hi : α} {l l' : List (Span α)} (h : Packed lo hi (l ++ l'))
    {s t : Span α} (hs : s ∈ l) (ht : t ∈ l') : s.Sep t :=
  (List.pairwise_append.mp h.sep).2.2 s hs t ht

theorem Packed.sep_of_ne {lo hi : α} {l : List (Span α)} (h : Packed lo hi l) {s t : Span α}
    (hs : s ∈ l) (ht : t ∈ l) (hne : s ≠ t) : s.Sep t :=
  h.sep.forall hs ht hne

/-! ## Cutting and joining -/

/-- `l'` holds the same ranges as `l` up to order, cuts and joins. -/
inductive Regroup : List (Span α) → List (Span α) → Prop where
  | perm {l l' : List (Span α)} : l.Perm l' → Regroup l l'
  | join {p q r : α} (l : List (Span α)) :
      p < q → q < r → Regroup (⟨p, q⟩ :: ⟨q, r⟩ :: l) (⟨p, r⟩ :: l)
  | symm {l l' : List (Span α)} : Regroup l l' → Regroup l' l
  | trans {l l' l'' : List (Span α)} : Regroup l l' → Regroup l' l'' → Regroup l l''

theorem packed_join {lo hi p q r : α} (h1 : p < q) (h2 : q < r) (l : List (Span α)) :
    Packed lo hi (⟨p, q⟩ :: ⟨q, r⟩ :: l) ↔ Packed lo hi (⟨p, r⟩ :: l) := by
  simp only [packed_cons, List.forall_mem_cons]
  constructor
  · rintro ⟨-, hp, -, ⟨-, hpl⟩, -, -, hr, hql, hl⟩
    exact ⟨by order, hp, hr, fun t ht => (sep_join h1 h2 (hl.pos t ht)).mpr ⟨hpl t ht, hql t ht⟩, hl⟩
  · rintro ⟨-, hp, hr, hs, hl⟩
    have hs' := fun t ht => (sep_join h1 h2 (hl.pos t ht)).mp (hs t ht)
    exact ⟨h1, hp, by order, ⟨.inl le_rfl, fun t ht => (hs' t ht).1⟩, h2, by order, hr,
      fun t ht => (hs' t ht).2, hl⟩

namespace Regroup

theorem refl (l : List (Span α)) : Regroup l l := .perm (.refl l)

theorem covered_iff {l l' : List (Span α)} (h : Regroup l l') (x : α) :
    Covered l x ↔ Covered l' x := by
  induction h with
  | perm h => exact covered_perm h x
  | join l h1 h2 => simp only [covered_cons, covers_join h1 h2, or_assoc]
  | symm _ ih => exact ih.symm
  | trans _ _ ih1 ih2 => exact ih1.trans ih2

theorem packed_iff {lo hi : α} {l l' : List (Span α)} (h : Regroup l l') :
    Packed lo hi l ↔ Packed lo hi l' := by
  induction h with
  | perm h => exact ⟨fun hl => hl.perm h, fun hl => hl.perm h.symm⟩
  | join l h1 h2 => exact packed_join h1 h2 l
  | symm _ ih => exact ih.symm
  | trans _ _ ih1 ih2 => exact ih1.trans ih2

theorem tiles {lo hi : α} {l l' : List (Span α)} (h : Regroup l l') (hl : Tiles lo hi l) :
    Tiles lo hi l' :=
  ⟨h.packed_iff.mp hl.toPacked, fun x h1 h2 => (h.covered_iff x).mp (hl.full x h1 h2)⟩

theorem append_right {l l' : List (Span α)} (h : Regroup l l') (m : List (Span α)) :
    Regroup (l ++ m) (l' ++ m) := by
  induction h with
  | perm h => exact .perm (h.append_right m)
  | join l h1 h2 => exact .join (l ++ m) h1 h2
  | symm _ ih => exact .symm ih
  | trans _ _ ih1 ih2 => exact .trans ih1 ih2

theorem append_left {l l' : List (Span α)} (h : Regroup l l') (m : List (Span α)) :
    Regroup (m ++ l) (m ++ l') :=
  .trans (.perm List.perm_append_comm) (.trans (h.append_right m) (.perm List.perm_append_comm))

end Regroup

/-! ## Tilings by two lists -/

section Two

variable {lo hi : α} {L F : List (Span α)}

/-- In a tiling whose `F` part is coalesced, a window no range of `L` meets lies in one range
of `F`: the range of `F` covering its first point cannot end inside it. -/
theorem Tiles.window (h : Tiles lo hi (L ++ F)) (hF : Coalesced F) {a c : α} (hlo : lo ≤ a)
    (hac : a < c) (hhi : c ≤ hi) (hout : ∀ x, a ≤ x → x < c → ¬ Covered L x) :
    ∃ s ∈ F, s.lo ≤ a ∧ c ≤ s.hi := by
  have hin : ∀ x, a ≤ x → x < c → ∃ s ∈ F, s.Covers x := by
    intro x h1 h2
    rcases covered_append.mp (h.full x (by order) (by order)) with hx | hx
    · exact absurd hx (hout x h1 h2)
    · exact hx
  obtain ⟨s, hs, hsa⟩ := hin a le_rfl hac
  refine ⟨s, hs, hsa.1, ?_⟩
  by_contra hc
  have hend : s.hi < c := lt_of_not_ge hc
  obtain ⟨t, ht, hts⟩ := hin s.hi (le_of_lt hsa.2) hend
  have hpos : s.lo < s.hi := h.pos s (by simp [hs])
  have hne : s ≠ t := by
    rintro rfl
    exact lt_irrefl _ hts.2
  have hsep : s.Sep t := h.toPacked.sep_of_ne (by simp [hs]) (by simp [ht]) hne
  have hnt : ¬ s.Touch t := hF.forall hs ht hne
  exact hnt (.inl (hsep.lo_of_covers hpos hts).symm)

theorem Packed.not_covered (h : Packed lo hi (L ++ F)) {s : Span α} (hs : s ∈ F) {x : α}
    (hx : s.Covers x) : ¬ Covered L x := by
  rintro ⟨t, ht, htx⟩
  exact (h.sep_append ht hs).not_covers htx hx

/-- A coalesced tiling of a nonempty range by one list is that range alone. -/
theorem Tiles.eq_singleton (h : Tiles lo hi F) (hF : Coalesced F) (hlt : lo < hi) :
    F = [⟨lo, hi⟩] := by
  have h' : Tiles lo hi ([] ++ F) := h
  obtain ⟨s, hs, h1, h2⟩ := h'.window hF le_rfl hlt le_rfl (by simp [Covered])
  have hin := h.inside s hs
  have hs' : s = ⟨lo, hi⟩ := by
    obtain ⟨slo, shi⟩ := s
    exact congrArg₂ Span.mk (le_antisymm h1 hin.1) (le_antisymm hin.2 h2)
  obtain ⟨pre, post, rfl⟩ := List.append_of_mem hs
  have hp : Packed lo hi (s :: (pre ++ post)) := h.toPacked.perm List.perm_middle
  obtain ⟨-, -, -, hsep, hrest⟩ := packed_cons.mp hp
  have hnil : pre ++ post = [] := by
    apply List.eq_nil_iff_forall_not_mem.mpr
    intro t ht
    have hpos := hrest.pos t ht
    have hint := hrest.inside t ht
    rcases hsep t ht with h3 | h3 <;> order
  obtain ⟨rfl, rfl⟩ := List.append_eq_nil_iff.mp hnil
  simp [hs']

/-- In a tiling by `b`, `L` and a coalesced `F` that `b` does not touch, `F` has at most as many
ranges as `L`: every range of `b :: F` ends where a range of `L` starts, or at `hi`, and no two
end at the same point. -/
theorem Tiles.length_le {b : Span α} (h : Tiles lo hi (b :: L ++ F)) (hF : Coalesced F)
    (hb : ∀ s ∈ F, ¬ b.Touch s) : F.length ≤ L.length := by
  have hbF : Coalesced (b :: F) := coalesced_cons.mpr ⟨hb, hF⟩
  have hpk : Packed lo hi (b :: F) :=
    h.toPacked.sublist (List.Sublist.cons_cons b (List.sublist_append_right L F))
  have hnodup : ((b :: F).map Span.hi).Nodup := by
    rw [List.nodup_iff_pairwise_ne, List.pairwise_map]
    exact hpk.sep.imp_of_mem fun hs ht hsep => hsep.hi_ne (hpk.pos _ hs) (hpk.pos _ ht)
  have hsub : (b :: F).map Span.hi ⊆ hi :: L.map Span.lo := by
    intro x hx
    obtain ⟨s, hs, rfl⟩ := List.mem_map.mp hx
    have hmem : s ∈ b :: L ++ F := by
      rcases List.mem_cons.mp hs with rfl | hs <;> simp [*]
    obtain ⟨hin1, hin2⟩ := h.inside s hmem
    have hpos := h.pos s hmem
    rcases eq_or_lt_of_le hin2 with he | hlt
    · simp [he]
    obtain ⟨t, ht, hts⟩ := h.full s.hi (by order) hlt
    have hne : s ≠ t := by
      rintro rfl
      exact lt_irrefl _ hts.2
    have hlo := (h.toPacked.sep_of_ne hmem ht hne).lo_of_covers hpos hts
    have htL : t ∈ L := by
      have hnt : t ∉ b :: F := fun ht' =>
        hbF.forall hs ht' hne (.inl hlo.symm)
      simp only [List.cons_append, List.mem_cons, List.mem_append] at ht hnt
      tauto
    exact List.mem_cons_of_mem _ (List.mem_map.mpr ⟨t, htL, hlo⟩)
  have hlen := (List.subperm_of_subset hnodup hsub).length_le
  simpa using hlen

end Two

end Amethyst
