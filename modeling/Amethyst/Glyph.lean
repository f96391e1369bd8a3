import Amethyst.Vga
import Mathlib.Data.Nat.ModEq

/-!
# Amethyst.Glyph

The glyphs that text output draws. `font_get_char` compares the character with the number of glyphs,
but lets that number itself through, and every negative one; a `char` from 0x80 on is negative.

`Program.step_glyphs_iff`: what a call draws is glyphs of the font exactly when each character that
it prints has one.
-/

namespace Amethyst

/-- The bytes of a glyph. -/
def Font.glyphSize (font : Font) : Nat := font.height.toNat * font.byteWidth.toNat

/-- The bytes of all glyphs. -/
def Font.dataSize (font : Font) : Nat := font.charCount.toNat * font.glyphSize

/-- A pointer to one of the glyphs. -/
def Font.Glyph (font : Font) (a : Word) : Prop :=
  ∃ g < font.charCount.toNat, a = font.data + BitVec.ofNat 32 (g * font.glyphSize)

/-- After as many glyphs, addresses of 32 bits are the same again. -/
def Font.period (font : Font) : Nat := 2 ^ 32 / Nat.gcd (2 ^ 32) font.glyphSize

/-- The characters whose glyph `font_get_char` finds: those it takes for the first one, and those that
wrap to a glyph. -/
def Font.HasGlyph (font : Font) (c : Word) : Prop :=
  0 < font.charCount.toNat ∧
    ((font.charCount.toNat : Int) < c.toInt ∨ c.toNat % font.period < font.charCount.toNat)

instance (font : Font) (c : Word) : Decidable (font.HasGlyph c) :=
  inferInstanceAs (Decidable (_ ∧ _))

/-- The bytes that `vga_draw_bitmap` reads. -/
def Draw.reads (d : Draw) : List Word :=
  (List.range d.h.toNat).flatMap fun yoff =>
    (List.range (widthByteCount d.w)).map fun byte =>
      d.bitmap + BitVec.ofNat 32 (yoff * widthByteCount d.w + byte)

/-- What is drawn is a glyph, and if its rows hold a character's width nothing else is read. -/
structure Draw.FromFont (font : Font) (d : Draw) : Prop where
  glyph : font.Glyph d.bitmap
  reads : widthByteCount d.w ≤ font.byteWidth.toNat →
    ∀ a ∈ d.reads, InRange font.data font.dataSize a

/-- The characters that a call prints. -/
def Print.chars : Print → List Word
  | .putchar c => [c]
  | .puts text => (text.takeWhile (· ≠ 0)).map (·.signExtend 32)
  | _ => []

/-- From `s` to `s'` only glyphs are drawn. -/
def Console.DrawsGlyphs (font : Font) (s s' : Console) : Prop :=
  ∃ ds, s'.draws = s.draws ++ ds ∧ ∀ d ∈ ds, d.FromFont font

/-! ## `font_get_char` -/

section

variable {font : Font} {c : Word}

theorem Font.period_dvd (font : Font) : font.period ∣ 2 ^ 32 := Nat.div_dvd_of_dvd (Nat.gcd_dvd_left _ _)

/-- The pointer to the glyph `c`, computed in 32 bits. -/
theorem glyphOffset_eq_iff (font : Font) (c : Word) (g : Nat) :
    font.byteWidth.setWidth 32 * font.height.setWidth 32 * c = BitVec.ofNat 32 (g * font.glyphSize) ↔
      c.toNat % font.period = g % font.period := by
  have hval : (font.byteWidth.setWidth 32 * font.height.setWidth 32 * c).toNat =
      font.glyphSize * c.toNat % 2 ^ 32 := by
    have hw := font.byteWidth.isLt
    have hh := font.height.isLt
    rw [BitVec.toNat_mul, BitVec.toNat_mul, BitVec.toNat_setWidth, BitVec.toNat_setWidth, Nat.mod_mul_mod,
      Nat.mod_eq_of_lt (a := font.byteWidth.toNat) (by omega),
      Nat.mod_eq_of_lt (a := font.height.toNat) (by omega), Font.glyphSize,
      Nat.mul_comm font.height.toNat]
  rw [← BitVec.toNat_inj, hval, BitVec.toNat_ofNat, Nat.mul_comm g]
  constructor
  · intro h
    exact Nat.ModEq.cancel_left_div_gcd (by decide) h
  · intro h
    have hmul := Nat.ModEq.mul_left' font.glyphSize (show c.toNat ≡ g [MOD font.period] from h)
    -- a period of glyphs is a multiple of the address space
    have hdvd : 2 ^ 32 ∣ font.glyphSize * font.period := by
      rw [Font.period, ← Nat.mul_div_assoc _ (Nat.gcd_dvd_left _ _), Nat.mul_comm,
        Nat.mul_div_assoc _ (Nat.gcd_dvd_right _ _)]
      exact Nat.dvd_mul_right _ _
    exact hmul.of_dvd hdvd

/-- `font_get_char` finds a glyph exactly for these characters. -/
theorem glyph_iff (font : Font) (c : Word) : font.Glyph (fontGetChar font c) ↔ font.HasGlyph c := by
  have hcount : (font.charCount.setWidth 32).toInt = font.charCount.toNat := by
    have := font.charCount.isLt
    rw [BitVec.toInt_eq_toNat_of_lt (by rw [BitVec.toNat_setWidth]; omega), BitVec.toNat_setWidth,
      Nat.mod_eq_of_lt (by omega)]
  have hslt : (font.charCount.setWidth 32).slt c = true ↔ (font.charCount.toNat : Int) < c.toInt := by
    rw [BitVec.slt_iff_toInt_lt, hcount]
  rw [fontGetChar]
  split
  · next hlt =>
    constructor
    · intro ⟨g, hg, _⟩
      exact ⟨Nat.zero_lt_of_lt hg, .inl (hslt.mp hlt)⟩
    · intro ⟨hpos, _⟩
      exact ⟨0, hpos, by simp⟩
  · next hle =>
    rw [Font.Glyph, Font.HasGlyph, or_iff_right (mt hslt.mpr hle)]
    simp only [BitVec.add_right_inj, glyphOffset_eq_iff]
    constructor
    · intro ⟨g, hg, he⟩
      have hmod : c.toNat % font.period < font.charCount.toNat :=
        he ▸ Nat.lt_of_le_of_lt (Nat.mod_le _ _) hg
      exact ⟨Nat.zero_lt_of_lt hg, hmod⟩
    · intro ⟨_, hmod⟩
      exact ⟨_, hmod, (Nat.mod_mod _ _).symm⟩

/-- For a `char` and glyphs of an ordinary size it is the plain bound on the character. -/
theorem hasGlyph_signExtend_iff (font : Font) (hsize : 0 < font.glyphSize)
    (hfit : (font.charCount.toNat + 128) * font.glyphSize ≤ 2 ^ 32) (c : BitVec 8) :
    font.HasGlyph (c.signExtend 32) ↔
      0 < font.charCount.toNat ∧ c.toNat < 128 ∧ c.toNat ≠ font.charCount.toNat := by
  have hperiod : font.charCount.toNat + 128 ≤ font.period := by
    rw [Font.period, Nat.le_div_iff_mul_le (Nat.gcd_pos_of_pos_left _ (by decide))]
    exact Nat.le_trans (Nat.mul_le_mul_left _ (Nat.gcd_le_right _ hsize)) hfit
  have hc := c.isLt
  have hint : (c.signExtend 32).toInt = c.toInt := BitVec.toInt_signExtend_of_le (by decide)
  rw [Font.HasGlyph, hint, BitVec.toNat_signExtend, BitVec.toInt_eq_toNat_cond, BitVec.msb_eq_decide]
  refine and_congr_right fun hpos => ?_
  by_cases hlow : c.toNat < 128
  · have hval : (c.setWidth 32).toNat + 0 = c.toNat := by
      rw [BitVec.toNat_setWidth]
      omega
    rw [if_pos (by omega), if_neg (by simpa using hlow), hval, Nat.mod_eq_of_lt (by omega)]
    omega
  · -- a negative character is as many glyphs in front of the end of the period
    obtain ⟨q, hq⟩ := font.period_dvd
    have hq0 : q ≠ 0 := by
      rintro rfl
      cases hq
    have hval : (c.setWidth 32).toNat + (2 ^ 32 - 2 ^ 8) =
        font.period - (256 - c.toNat) + font.period * (q - 1) := by
      have hmul : font.period * q = font.period * (q - 1) + font.period := by
        rw [← Nat.mul_succ]
        congr 1
        omega
      rw [BitVec.toNat_setWidth]
      omega
    rw [if_neg (by omega), if_pos (by simpa using hlow), hval, Nat.add_mul_mod_self_left,
      Nat.mod_eq_of_lt (by omega)]
    omega

/-- From a glyph on, only its bytes are read. -/
theorem Font.Glyph.reads {d : Draw} (hg : font.Glyph d.bitmap) (hh : d.h = font.height)
    (hw : widthByteCount d.w ≤ font.byteWidth.toNat) :
    ∀ a ∈ d.reads, InRange font.data font.dataSize a := by
  intro a ha
  simp only [Draw.reads, List.mem_flatMap, List.mem_map, List.mem_range] at ha
  obtain ⟨yoff, hy, byte, hbyte, rfl⟩ := ha
  obtain ⟨g, hlt, hb⟩ := hg
  rw [hh] at hy
  have hrow : yoff * widthByteCount d.w + byte < font.glyphSize :=
    calc
      yoff * widthByteCount d.w + byte < (yoff + 1) * widthByteCount d.w := by
        rw [Nat.succ_mul]
        omega
      _ ≤ font.glyphSize := Nat.mul_le_mul hy hw
  have hoff : g * font.glyphSize + (yoff * widthByteCount d.w + byte) < font.dataSize :=
    calc
      g * font.glyphSize + (yoff * widthByteCount d.w + byte) < (g + 1) * font.glyphSize := by
        rw [Nat.succ_mul]
        omega
      _ ≤ font.dataSize := Nat.mul_le_mul_right _ hlt
  rw [hb, add_add_ofNat, InRange, BitVec.add_comm, BitVec.add_sub_cancel, BitVec.toNat_ofNat]
  exact Nat.lt_of_le_of_lt (Nat.mod_le _ _) hoff

theorem Draw.fromFont_iff {d : Draw} (hb : d.bitmap = fontGetChar font c) (hh : d.h = font.height) :
    d.FromFont font ↔ font.HasGlyph c := by
  rw [← glyph_iff, ← hb]
  exact ⟨fun h => h.glyph, fun hg => ⟨hg, hg.reads hh⟩⟩

/-! ## Printing -/

variable {s : Console}

theorem Console.wrap_still (font : Font) (s : Console) :
    (s.wrap font).draws = s.draws ∧ (s.wrap font).font = s.font := by
  simp only [wrap]
  split
  · split <;> exact ⟨rfl, rfl⟩
  · split <;> exact ⟨rfl, rfl⟩

theorem Console.print_draws (font : Font) (c : Word) (s : Console) : ∃ ds,
    (s.print font c).draws = s.draws ++ ds ∧ (s.print font c).font = s.font ∧
      ((∀ d ∈ ds, d.FromFont font) ↔ (c ≠ 0x0A → c ≠ 0x0D → font.HasGlyph c)) := by
  obtain ⟨hdraws, hfont⟩ := wrap_still font s
  simp only [print]
  split
  · next hc => exact ⟨[], by simp [hdraws], hfont, by simp [hc]⟩
  · next hc =>
    split
    · next hc' => exact ⟨[], by simp [hdraws], hfont, by simp [hc']⟩
    · next hc' =>
      refine ⟨[(s.wrap font).glyph font c], by simp [hdraws], hfont, ?_⟩
      have hd : ((s.wrap font).glyph font c).FromFont font ↔ font.HasGlyph c :=
        Draw.fromFont_iff rfl rfl
      rw [List.forall_mem_singleton, hd]
      exact ⟨fun h _ _ => h, fun h => h hc hc'⟩

/-- By induction on the text. -/
theorem Program.putchars_draws (p : Program) (cs : List Word) (hs : s.font = some font) : ∃ ds,
    (p.putchars cs s).draws = s.draws ++ ds ∧
      ((∀ d ∈ ds, d.FromFont font) ↔ ∀ c ∈ cs, c ≠ 0x0A → c ≠ 0x0D → font.HasGlyph c) := by
  induction cs generalizing s with
  | nil => exact ⟨[], by simp [putchars], by simp⟩
  | cons c cs ih =>
    obtain ⟨ds, h1, hf, hiff⟩ := Console.print_draws font c s
    rw [← putchar_some (p := p) hs] at h1 hf
    obtain ⟨ds', h2, hiff'⟩ := ih (hf.trans hs)
    refine ⟨ds ++ ds', ?_, ?_⟩
    · rw [← List.append_assoc, ← h1]
      exact h2
    · rw [List.forall_mem_append, List.forall_mem_cons, hiff, hiff']

/-- A call draws glyphs of the font, and reads nothing else, exactly when each character that it
prints has one. -/
theorem Program.step_glyphs_iff (p : Program) (font : Font) (s : Console) (hs : s.font = some font)
    (call : Print) : Console.DrawsGlyphs font s (p.step s call) ↔
      ∀ c ∈ call.chars, c ≠ 0x0A → c ≠ 0x0D → font.HasGlyph c := by
  have hrun : ∃ ds, (p.step s call).draws = s.draws ++ ds ∧
      ((∀ d ∈ ds, d.FromFont font) ↔ ∀ c ∈ call.chars, c ≠ 0x0A → c ≠ 0x0D → font.HasGlyph c) := by
    cases call with
    | putchar c => exact p.putchars_draws [c] hs
    | puts text =>
      rw [step, puts_eq]
      exact p.putchars_draws _ hs
    | setFont _ => exact ⟨[], by simp [step], by simp [Print.chars]⟩
    | setFgColor _ => exact ⟨[], by simp [step], by simp [Print.chars]⟩
    | setBgColor _ => exact ⟨[], by simp [step], by simp [Print.chars]⟩
  obtain ⟨ds, hdraws, hiff⟩ := hrun
  rw [← hiff]
  constructor
  · rintro ⟨ds', hdraws', h⟩
    obtain rfl := List.append_cancel_left (hdraws.symm.trans hdraws')
    exact h
  · intro h
    exact ⟨ds, hdraws, h⟩

end

theorem Program.step_glyphs_iff_ascii :
    Console.DrawsGlyphs (font6x8 0x1000) { Console.init with font := some (font6x8 0x1000) }
        (kernel.step { Console.init with font := some (font6x8 0x1000) } (.puts [0x48, 0x69, 0x0A])) ↔
      ∀ c ∈ (Print.puts [0x48, 0x69, 0x0A]).chars, c ≠ 0x0A → c ≠ 0x0D →
        (font6x8 0x1000).HasGlyph c :=
  step_glyphs_iff kernel _ _ rfl _

/-- The byte 0xFF is drawn from in front of the font, the character 256 from behind it. -/
theorem Program.draws_outside_font :
    ¬ Console.DrawsGlyphs (font6x8 0x1000) { Console.init with font := some (font6x8 0x1000) }
        (kernel.step { Console.init with font := some (font6x8 0x1000) } (.puts [0xFF])) ∧
      ¬ Console.DrawsGlyphs (font6x8 0x1000) { Console.init with font := some (font6x8 0x1000) }
        (kernel.step { Console.init with font := some (font6x8 0x1000) } (.putchar 256)) := by
  have hdraw : ∀ c : Word, c ≠ 0x0A → c ≠ 0x0D → ¬ (font6x8 0x1000).HasGlyph c →
      ¬ Console.DrawsGlyphs (font6x8 0x1000) { Console.init with font := some (font6x8 0x1000) }
        (kernel.putchar c { Console.init with font := some (font6x8 0x1000) }) := by
    rintro c h1 h2 hno ⟨ds', hdraws', h⟩
    obtain ⟨ds, hdraws, -, hiff⟩ :=
      Console.print_draws (font6x8 0x1000) c { Console.init with font := some (font6x8 0x1000) }
    rw [← putchar_some (p := kernel) rfl] at hdraws
    obtain rfl := List.append_cancel_left (hdraws.symm.trans hdraws')
    exact hno (hiff.mp h h1 h2)
  exact ⟨hdraw 0xFFFFFFFF (by decide) (by decide) (by decide +kernel),
    hdraw 256 (by decide) (by decide) (by decide +kernel)⟩

end Amethyst
