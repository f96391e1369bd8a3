import Mathlib.Data.List.Induction
import Mathlib.Tactic.Common

/-!
# Amethyst.Kernel.Layout

The keyboard (`kernel/src/libc/sys/layout.c`, `kernel/include/sys/layout.h`). The codes that a layout gives to
the press and the release of a shift key switch a bit of the status, and with it the layout.

`kbRun_spec`: the keys of a sequence of codes, by the shift key that was last pressed or released.
-/

namespace Amethyst
namespace Kernel

/-- `__layout` -/
abbrev KeyLayout := BitVec 8 → BitVec 8

/-- `__keyboard`; `plain` and `shifted` are `keys[0]` and `keys[1]`. -/
structure Keyboard where
  status : BitVec 8
  plain : KeyLayout
  shifted : KeyLayout

namespace Keyboard

/-- `__KBMODE_SHIFT` -/
def modeShift : BitVec 8 := 1

/-- `__KBP_SHI` -/
def pressShift : BitVec 8 := 1

/-- `__KBR_SHI` -/
def releaseShift : BitVec 8 := 2

/-- `kb->keys[mode]` -/
def keys (kb : Keyboard) (mode : BitVec 8) : KeyLayout := if mode = 0 then kb.plain else kb.shifted

end Keyboard

def kbUpdate (kb : Keyboard) (keycode : BitVec 8) : BitVec 8 × Keyboard :=
  let key := kb.keys 0 keycode
  let kb :=
    if key = Keyboard.pressShift then { kb with status := kb.status ||| Keyboard.modeShift }
    else if key = Keyboard.releaseShift then { kb with status := kb.status &&& ~~~Keyboard.modeShift }
    else kb
  let keymode := kb.status &&& Keyboard.modeShift
  (kb.keys keymode keycode, kb)

/-- The keys of some codes, one after the other. -/
def kbRun (kb : Keyboard) (codes : List (BitVec 8)) : List (BitVec 8) × Keyboard :=
  codes.foldl (fun s code => let r := kbUpdate s.2 code; (s.1 ++ [r.1], r.2)) ([], kb)

/-! ## The shift key -/

namespace Keyboard

variable {kb kb' : Keyboard} {code : BitVec 8} {codes : List (BitVec 8)}

/-- Whether a code presses the shift key or releases it, if it does either. -/
def shift (kb : Keyboard) (code : BitVec 8) : Option Bool :=
  if kb.plain code = pressShift then some true
  else if kb.plain code = releaseShift then some false
  else none

/-- Whether the shift key is held after some codes: the last one that is about it says so. -/
def held (kb : Keyboard) (codes : List (BitVec 8)) : Bool := (codes.reverse.findSome? kb.shift).getD (kb.status.getLsbD 0)

theorem held_concat : kb.held (codes ++ [code]) = (kb.shift code).getD (kb.held codes) := by
  rw [held, List.reverse_append, List.reverse_singleton, List.singleton_append, List.findSome?_cons]
  cases kb.shift code with
  | none => rfl
  | some b => rfl

/-- A status whose other bits are those of `old`. -/
def statusOf (old : BitVec 8) (held : Bool) : BitVec 8 := (old &&& ~~~modeShift) ||| if held then modeShift else 0

theorem statusOf_self : ∀ old : BitVec 8, statusOf old (old.getLsbD 0) = old := by decide

theorem statusOf_press (held : Bool) : ∀ old, statusOf old held ||| modeShift = statusOf old true := by
  cases held <;> decide

theorem statusOf_release (held : Bool) : ∀ old, statusOf old held &&& ~~~modeShift = statusOf old false := by
  cases held <;> decide

theorem statusOf_mode (held : Bool) :
    ∀ old, statusOf old held &&& modeShift = if held then modeShift else 0 := by
  cases held <;> decide

/-- The keyboard after some codes, and the layout that the last of them was looked up in. -/
structure After (kb : Keyboard) (codes : List (BitVec 8)) (kb' : Keyboard) : Prop where
  status : kb'.status = statusOf kb.status (kb.held codes)
  plain : kb'.plain = kb.plain
  shifted : kb'.shifted = kb.shifted

theorem After.keys (h : After kb codes kb') (code : BitVec 8) : kb'.keys (kb'.status &&& modeShift) code =
    if kb.held codes then kb.shifted code else kb.plain code := by
  rw [h.status, statusOf_mode, Keyboard.keys, h.plain, h.shifted]
  cases kb.held codes <;> rfl

/-- One code. -/
theorem After.update (h : After kb codes kb') (code : BitVec 8) : After kb (codes ++ [code]) (kbUpdate kb' code).2 := by
  have hplain : kb'.keys 0 code = kb.plain code := by rw [Keyboard.keys, if_pos rfl, h.plain]
  simp only [kbUpdate, hplain]
  by_cases hp : kb.plain code = pressShift
  · have hheld : kb.held (codes ++ [code]) = true := by rw [held_concat, shift, if_pos hp, Option.getD_some]
    rw [if_pos hp]
    exact ⟨by rw [hheld, h.status, statusOf_press], h.plain, h.shifted⟩
  · by_cases hr : kb.plain code = releaseShift
    · have hheld : kb.held (codes ++ [code]) = false := by
        rw [held_concat, shift, if_neg hp, if_pos hr, Option.getD_some]
      rw [if_neg hp, if_pos hr]
      exact ⟨by rw [hheld, h.status, statusOf_release], h.plain, h.shifted⟩
    · have hheld : kb.held (codes ++ [code]) = kb.held codes := by
        rw [held_concat, shift, if_neg hp, if_neg hr, Option.getD_none]
      rw [if_neg hp, if_neg hr]
      exact ⟨by rw [hheld, h.status], h.plain, h.shifted⟩

end Keyboard

/-- Each code is looked up in the layout of the shift key as it is held from this code on, whatever codes came
before and whatever the other bits of the status are; these stay. -/
theorem kbRun_spec (kb : Keyboard) (codes : List (BitVec 8)) :
    (kbRun kb codes).1 = codes.mapIdx (fun i code =>
      if kb.held (codes.take (i + 1)) then kb.shifted code else kb.plain code) ∧
      (kbRun kb codes).2.status = Keyboard.statusOf kb.status (kb.held codes) ∧
      (kbRun kb codes).2.plain = kb.plain ∧ (kbRun kb codes).2.shifted = kb.shifted := by
  have h : (kbRun kb codes).1 = codes.mapIdx (fun i code =>
      if kb.held (codes.take (i + 1)) then kb.shifted code else kb.plain code) ∧
      kb.After codes (kbRun kb codes).2 := by
    induction codes using List.reverseRecOn with
    | nil => exact ⟨rfl, (Keyboard.statusOf_self kb.status).symm, rfl, rfl⟩
    | append_singleton codes code ih =>
      obtain ⟨hkeys, hafter⟩ := ih
      have hrun : kbRun kb (codes ++ [code]) = ((kbRun kb codes).1 ++ [(kbUpdate (kbRun kb codes).2 code).1],
          (kbUpdate (kbRun kb codes).2 code).2) := by
        rw [kbRun, List.foldl_append]
        rfl
      have hnext := hafter.update code
      rw [hrun]
      refine ⟨?_, hnext⟩
      have hlast : (kbUpdate (kbRun kb codes).2 code).1 =
          if kb.held (codes ++ [code]) then kb.shifted code else kb.plain code := hnext.keys code
      have htake : ∀ i < codes.length, (codes ++ [code]).take (i + 1) = codes.take (i + 1) :=
        fun i hi => List.take_append_of_le_length hi
      have hall : (codes ++ [code]).take (codes.length + 1) = codes ++ [code] :=
        List.take_of_length_le (by simp)
      have hfirst : codes.mapIdx (fun i c => if kb.held (codes.take (i + 1)) then kb.shifted c else kb.plain c) =
          codes.mapIdx fun i c =>
            if kb.held ((codes ++ [code]).take (i + 1)) then kb.shifted c else kb.plain c := by
        refine List.mapIdx_eq_mapIdx_iff.mpr fun i hi => ?_
        rw [htake i hi]
      rw [List.mapIdx_concat, hall, ← hfirst, ← hkeys, hlast]
  exact ⟨h.1, h.2.status, h.2.plain, h.2.shifted⟩

end Kernel
end Amethyst
