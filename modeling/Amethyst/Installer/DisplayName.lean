import Amethyst.Installer.DirLookup
import Mathlib.Data.List.DropRight

/-!
# Amethyst.Installer.DisplayName

Display names (`fat12_clusterfilename_to_filename`). The fields of a slot are padded with blanks at the
end. The code cuts them at the first blank, which is the same only for a field without a blank inside.

`displayName_iff`: the names of two slots are right, and tell them apart, exactly when every blank of
their fields is padding.
-/

namespace Amethyst
namespace Installer

/-- A field without its padding. -/
def trimmed (field : List Byte) : List Byte := field.rdropWhile (· = 0x20)

/-- Behind its first blank a field has nothing but blanks. -/
def Padded (field : List Byte) : Prop := ∀ c ∈ field.dropWhile (· ≠ 0x20), c = 0x20

section

variable (m : Mem 32) (slot : Word)

def nameField : List Byte := bytes m slot 8

def extensionField : List Byte := bytes m (slot + 8) 3

/-- The name, and behind a point the extension if there is one. -/
def properName : List Byte :=
  trimmed (nameField m slot) ++
    if ∀ c ∈ extensionField m slot, c = 0x20 then [] else 0x2E :: trimmed (extensionField m slot)

/-- Neither a NUL nor a point in the fields, and no blank at the start of the name. -/
structure PlainSlot : Prop where
  name : ∀ c ∈ nameField m slot, c ≠ 0 ∧ c ≠ 0x2E
  extension : ∀ c ∈ extensionField m slot, c ≠ 0 ∧ c ≠ 0x2E
  first : m slot ≠ 0x20

structure PaddedSlot : Prop where
  name : Padded (nameField m slot)
  extension : Padded (extensionField m slot)

/-- The string that is stored is the proper name. -/
structure ProperlyNamed : Prop where
  name : displayName m slot = properName m slot
  length : (displayName m slot).length ≤ 12

end

def SameFields (m : Mem 32) (a b : Word) : Prop :=
  nameField m a = nameField m b ∧ extensionField m a = extensionField m b

/-- The names of two slots are right, and neither another name nor a lookup by it takes one for the
other. -/
structure Identified (w : World) (a b : Word) : Prop where
  left : ProperlyNamed w.mem a
  right : ProperlyNamed w.mem b
  distinct : ¬ SameFields w.mem a b → displayName w.mem a ≠ displayName w.mem b
  lookup : ∀ pEntry dir w', fat12FindEntry pEntry dir (displayName w.mem a) w = .done b w' →
    w'.state.err = .no → SameFields w.mem a b

/-! ## Fields -/

section

variable {field : List Byte}

theorem trimmed_append (stem : List Byte) (k : Nat) :
    trimmed (stem ++ List.replicate k 0x20) = trimmed stem := by
  induction k with
  | zero => rw [List.replicate_zero, List.append_nil]
  | succ k ih =>
    rw [List.replicate_succ', ← List.append_assoc, trimmed, List.rdropWhile_concat_pos _ _ _ (by simp)]
    exact ih

theorem trimmed_of_notMem {stem : List Byte} (h : 0x20 ∉ stem) : trimmed stem = stem := by
  refine List.rdropWhile_eq_self_iff.mpr fun hne hlast => h ?_
  rw [← of_decide_eq_true hlast]
  exact List.getLast_mem hne

/-- Behind the stem a padded field has as many blanks as it takes. -/
theorem Padded.eq_append (h : Padded field) :
    field = trimmed field ++ List.replicate (field.length - (trimmed field).length) 0x20 ∧
      trimmed field = field.takeWhile (· ≠ 0x20) := by
  obtain ⟨k, hk⟩ : ∃ k, field.dropWhile (· ≠ 0x20) = List.replicate k 0x20 :=
    ⟨_, List.eq_replicate_of_mem h⟩
  have hsplit : field = field.takeWhile (· ≠ 0x20) ++ List.replicate k 0x20 := by
    rw [← hk, List.takeWhile_append_dropWhile]
  have hstem : 0x20 ∉ field.takeWhile (· ≠ 0x20) := by
    intro hm
    simpa using List.mem_takeWhile_imp hm
  have htrim : trimmed field = field.takeWhile (· ≠ 0x20) := by
    rw [hsplit, trimmed_append, ← hsplit, trimmed_of_notMem hstem]
  refine ⟨?_, htrim⟩
  have hlen := congrArg List.length hsplit
  rw [List.length_append, List.length_replicate] at hlen
  have hk' : field.length - (field.takeWhile (· ≠ 0x20)).length = k := by omega
  rw [htrim, hk']
  exact hsplit

/-- A blank that is not padding stays in the field. -/
theorem padded_of_notMem (h : 0x20 ∉ trimmed field) : Padded field := by
  intro c hc
  have hsplit : trimmed field ++ field.rtakeWhile (· = 0x20) = field :=
    List.rdropWhile_append_rtakeWhile
  have hstem : ∀ a ∈ trimmed field, decide (a ≠ 0x20) = true := by
    intro a ha
    exact decide_eq_true fun he => h (he ▸ ha)
  rw [← hsplit, List.dropWhile_append_of_pos hstem] at hc
  have hm : c ∈ field.rtakeWhile (· = 0x20) := (List.dropWhile_suffix _).subset hc
  simpa using List.mem_rtakeWhile_imp hm

theorem padded_of_blank (h : ∀ c ∈ field, c = 0x20) : Padded field :=
  fun c hc => h c ((List.dropWhile_suffix _).subset hc)

end

/-! ## Names -/

section

variable {m : Mem 32} {slot a b : Word}

theorem extensionField_eq : extensionField m slot = m (slot + 8) :: (extensionField m slot).tail := by
  have hbytes : extensionField m slot =
      [m (slot + 8 + BitVec.ofNat 32 0), m (slot + 8 + 1), m (slot + 8 + 2)] := rfl
  rw [hbytes, BitVec.ofNat_eq_ofNat, BitVec.add_zero]
  rfl

theorem displayName_eq (h : PlainSlot m slot) : displayName m slot =
    (nameField m slot).takeWhile (· ≠ 0x20) ++
      if m (slot + 8) = 0x20 then [] else 0x2E :: (extensionField m slot).takeWhile (· ≠ 0x20) := by
  have hname : ∀ c ∈ (nameField m slot).takeWhile (· ≠ 0x20), c ≠ 0 :=
    fun c hc => (h.name c ((List.takeWhile_prefix _).subset hc)).1
  have hext : ∀ c ∈ (extensionField m slot).takeWhile (· ≠ 0x20), c ≠ 0 :=
    fun c hc => (h.extension c ((List.takeWhile_prefix _).subset hc)).1
  have hfile : clusterfilename m slot = (nameField m slot).takeWhile (· ≠ 0x20) ++
      if m (slot + 8) = 0x20 then [] else 0x2E :: (extensionField m slot).takeWhile (· ≠ 0x20) := by
    have hfields : clusterfilename m slot = (nameField m slot).takeWhile (· ≠ 0x20) ++
      (if m (slot + 8) ≠ 0x20 then [0x2E] else []) ++
        (extensionField m slot).takeWhile (· ≠ 0x20) := rfl
    rw [hfields, List.append_assoc]
    congr 1
    by_cases hblank : m (slot + 8) = 0x20
    · rw [if_neg (not_not.mpr hblank), if_pos hblank, extensionField_eq,
        List.takeWhile_cons_of_neg (by simpa using hblank)]
      rfl
    · rw [if_pos hblank, if_neg hblank]
      rfl
  rw [displayName, hfile, stringOf, List.takeWhile_eq_self_iff]
  intro c hc
  rw [List.mem_append] at hc
  rw [decide_eq_true_eq]
  cases hc with
  | inl hc => exact hname c hc
  | inr hc =>
    split at hc
    · cases hc
    · cases List.mem_cons.mp hc with
      | inl he =>
        rw [he]
        decide
      | inr hc => exact hext c hc

theorem blank_notMem_displayName (h : PlainSlot m slot) : 0x20 ∉ displayName m slot := by
  have hcut : ∀ field : List Byte, (0x20 : Byte) ∉ field.takeWhile (· ≠ 0x20) := by
    intro field hm
    simpa using List.mem_takeWhile_imp hm
  rw [displayName_eq h, List.mem_append, not_or]
  refine ⟨hcut _, ?_⟩
  split
  · exact List.not_mem_nil
  · rw [List.mem_cons, not_or]
    exact ⟨by decide, hcut _⟩

/-- The stored name is the proper one exactly when every blank is padding. -/
theorem properlyNamed_iff (h : PlainSlot m slot) : ProperlyNamed m slot ↔ PaddedSlot m slot := by
  constructor
  · intro hn
    have hblank := blank_notMem_displayName h
    rw [hn.name, properName, List.mem_append, not_or] at hblank
    obtain ⟨hname, hext⟩ := hblank
    refine ⟨padded_of_notMem hname, ?_⟩
    split at hext
    · next hall => exact padded_of_blank hall
    · exact padded_of_notMem fun hm => hext (List.mem_cons_of_mem _ hm)
  · intro hp
    refine ⟨?_, ?_⟩
    · rw [displayName_eq h, properName, hp.name.eq_append.2]
      congr 1
      have hall : m (slot + 8) = 0x20 ↔ ∀ c ∈ extensionField m slot, c = 0x20 := by
        constructor
        · intro hfirst
          have hpad := hp.extension
          rw [Padded, extensionField_eq, List.dropWhile_cons_of_neg (by simpa using hfirst),
            ← extensionField_eq] at hpad
          exact hpad
        · intro hall
          refine hall _ ?_
          rw [extensionField_eq]
          exact List.mem_cons_self
      simp only [hall, hp.extension.eq_append.2]
    · exact Nat.le_trans (List.takeWhile_prefix _).length_le (length_clusterfilename_le slot)

theorem Padded.eq_of_trimmed {f g : List Byte} (hf : Padded f) (hg : Padded g)
    (hlen : f.length = g.length) (h : trimmed f = trimmed g) : f = g := by
  rw [hf.eq_append.1, hg.eq_append.1, hlen, h]

theorem point_notMem_trimmed {field : List Byte} (h : ∀ c ∈ field, c ≠ 0 ∧ c ≠ 0x2E) :
    0x2E ∉ trimmed field :=
  fun hm => (h _ ((List.rdropWhile_prefix _ _).subset hm)).2 rfl

/-- The name is what is in front of the point. -/
theorem properName_stem (h : PlainSlot m slot) :
    (properName m slot).takeWhile (· ≠ 0x2E) = trimmed (nameField m slot) := by
  have hstem : ∀ c ∈ trimmed (nameField m slot), decide (c ≠ 0x2E) = true := by
    intro c hc
    exact decide_eq_true fun he => point_notMem_trimmed h.name (he ▸ hc)
  rw [properName, List.takeWhile_append_of_pos hstem]
  split
  · rw [List.takeWhile_nil, List.append_nil]
  · rw [List.takeWhile_cons_of_neg (by simp), List.append_nil]

theorem trimmed_of_blank {field : List Byte} (h : ∀ c ∈ field, c = 0x20) : trimmed field = [] :=
  List.rdropWhile_eq_nil_iff.mpr fun c hc => by simpa using h c hc

/-- Slots of one name have the same fields. -/
theorem sameFields_of_name (ha : PlainSlot m a) (hb : PlainSlot m b) (hpa : PaddedSlot m a)
    (hpb : PaddedSlot m b) (h : displayName m a = displayName m b) : SameFields m a b := by
  rw [((properlyNamed_iff ha).mpr hpa).name, ((properlyNamed_iff hb).mpr hpb).name] at h
  have hname : trimmed (nameField m a) = trimmed (nameField m b) := by
    rw [← properName_stem ha, ← properName_stem hb, h]
  rw [properName, properName, hname, List.append_cancel_left_eq] at h
  have hext : trimmed (extensionField m a) = trimmed (extensionField m b) := by
    split at h
    · next h1 =>
      split at h
      · next h2 => rw [trimmed_of_blank h1, trimmed_of_blank h2]
      · cases h
    · split at h
      · cases h
      · exact (List.cons.inj h).2
  exact ⟨hpa.name.eq_of_trimmed hpb.name (by simp [nameField, bytes]) hname,
    hpa.extension.eq_of_trimmed hpb.extension (by simp [extensionField, bytes]) hext⟩

end

/-- A lookup that finds something finds a slot of the name. By induction on the slots. -/
theorem findEntryLoop_found {pEntry : Word} {name : List Byte} {it : Word} {w' : World} :
    ∀ {n : Nat} {dir : Word} {w : World}, findEntryLoop pEntry name n dir w = .done it w' →
      w'.state.err = .no → strcmp (displayName w.mem it) name = 0 := by
  intro n
  induction n with
  | zero =>
    intro dir w h
    cases h
  | succ n ih =>
    intro dir w h hno
    rw [findEntryLoop] at h
    by_cases hzero : w.mem dir = 0
    · rw [if_pos hzero] at h
      cases h
      cases hno
    rw [if_neg hzero, if_neg (signExtend_ne_deleted _)] at h
    by_cases hdir : dir = 0
    · simp only [fat12ClusterfilenameToFilename, if_pos hdir] at h
      rw [if_pos (by simp)] at h
      cases h
      cases hno
    · simp only [fat12ClusterfilenameToFilename, if_neg hdir] at h
      split at h
      · next herr =>
        cases h
        exact absurd hno herr
      split at h
      · next hname =>
        cases h
        exact hname
      · exact ih h hno

theorem fat12FindEntry_found {pEntry dir : Word} {name : List Byte} {it : Word} {w w' : World}
    (h : fat12FindEntry pEntry dir name w = .done it w') (hno : w'.state.err = .no) (hname : 0 ∉ name) :
    displayName w.mem it = name := by
  rw [fat12FindEntry] at h
  split at h
  · cases h
    cases hno
  · exact (strcmp_eq_zero (zero_notMem_stringOf _) hname).mp (findEntryLoop_found h hno)

/-- The names of two slots are right and tell them apart exactly when every blank of their fields is
padding. -/
theorem displayName_iff {w : World} {a b : Word} (ha : PlainSlot w.mem a) (hb : PlainSlot w.mem b) :
    Identified w a b ↔ PaddedSlot w.mem a ∧ PaddedSlot w.mem b := by
  constructor
  · intro h
    exact ⟨(properlyNamed_iff ha).mp h.left, (properlyNamed_iff hb).mp h.right⟩
  · intro ⟨hpa, hpb⟩
    refine ⟨(properlyNamed_iff ha).mpr hpa, (properlyNamed_iff hb).mpr hpb, fun hne he => ?_, ?_⟩
    · exact hne (sameFields_of_name ha hb hpa hpb he)
    · intro pEntry dir w' hfind hno
      have he := fat12FindEntry_found hfind hno (zero_notMem_stringOf _)
      exact sameFields_of_name ha hb hpa hpb he.symm

/-- A directory of two slots at `0x00100000` with these fields. -/
def twoNamesWorld (first second : List Byte) : World :=
  { World.init with
    mem := fun x => (slotBytes first 0x20 ++ slotBytes second 0x20).getD (x - 0x00100000).toNat 0 }

/-- `README` and `AMETHYST` -/
theorem displayName_iff_readme :
    Identified (twoNamesWorld [0x52, 0x45, 0x41, 0x44, 0x4D, 0x45, 0x20, 0x20, 0x4D, 0x44, 0x20] amethyst)
        0x00100000 0x00100020 ↔
      PaddedSlot (twoNamesWorld [0x52, 0x45, 0x41, 0x44, 0x4D, 0x45, 0x20, 0x20, 0x4D, 0x44, 0x20]
          amethyst).mem 0x00100000 ∧
        PaddedSlot (twoNamesWorld [0x52, 0x45, 0x41, 0x44, 0x4D, 0x45, 0x20, 0x20, 0x4D, 0x44, 0x20]
          amethyst).mem 0x00100020 :=
  displayName_iff ⟨by decide +kernel, by decide +kernel, by decide +kernel⟩
    ⟨by decide +kernel, by decide +kernel, by decide +kernel⟩

/-- `A B` and `A C` are both `A`. -/
theorem blank_inside_is_cut : ∃ w : World, PlainSlot w.mem 0x00100000 ∧ PlainSlot w.mem 0x00100020 ∧
    ¬ SameFields w.mem 0x00100000 0x00100020 ∧ displayName w.mem 0x00100000 = [0x41] ∧
    displayName w.mem 0x00100020 = [0x41] ∧ ¬ Identified w 0x00100000 0x00100020 := by
  refine ⟨twoNamesWorld ([0x41, 0x20, 0x42] ++ List.replicate 8 0x20)
    ([0x41, 0x20, 0x43] ++ List.replicate 8 0x20), ⟨by decide +kernel, by decide +kernel,
    by decide +kernel⟩, ⟨by decide +kernel, by decide +kernel, by decide +kernel⟩, ?_, ?_, ?_, ?_⟩
  · intro h
    exact absurd h.1 (by decide +kernel)
  · decide +kernel
  · decide +kernel
  · intro h
    exact absurd h.left.name (by decide +kernel)

end Installer
end Amethyst
