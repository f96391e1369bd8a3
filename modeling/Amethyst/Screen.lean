import Amethyst.Glyph
import Amethyst.Terminal

/-!
# Amethyst.Screen

What text output leaves on the screen. `Screen` is the console with the memory that it draws in;
`Display` is what it is for, a terminal of coloured characters on a background.

`Screen.run_shows`: with one font, whatever is printed and cleared, the screen shows the display, and
no memory outside it has changed.
-/

namespace Amethyst

/-! ## The screen -/

/-- The calls that draw; `clear` is the kernel's and the installer's. -/
inductive Output where
  | print (call : Print)
  | clear
deriving DecidableEq, Repr

/-- The variables of `stdio.c`, and the memory. -/
structure Screen where
  console : Console
  mem : Mem 32

/-- The call of `vga_draw_bitmap`. `putchar` does not look at `_err` afterwards. -/
def Draw.perform (p : Program) (d : Draw) (m : Mem 32) : Mem 32 :=
  (p.vgaDrawBitmap d.x d.y d.w d.h d.bitmap d.bgColor d.fgColor .no m).2

def Draw.performAll (p : Program) (ds : List Draw) (m : Mem 32) : Mem 32 :=
  ds.foldl (fun m d => d.perform p m) m

/-- `clear` -/
def Screen.clear (s : Screen) : Screen :=
  { s with mem := vgaDrawRect 0 0 (BitVec.ofNat 16 vgaWidth) (BitVec.ofNat 16 vgaHeight) s.console.bgColor s.mem }

/-- The drawing that a call adds is done in memory. -/
def Screen.step (p : Program) (s : Screen) : Output → Screen
  | .print call =>
    let console := p.step s.console call
    ⟨console, Draw.performAll p (console.draws.drop s.console.draws.length) s.mem⟩
  | .clear => s.clear

def Screen.run (p : Program) (calls : List Output) (s : Screen) : Screen := calls.foldl (Screen.step p) s

/-! ## The display -/

structure Shown where
  char : Word
  bgColor : Color
  fgColor : Color
deriving DecidableEq, Repr

/-- The characters written, the colours for the next ones, and what is behind them once the screen has
been cleared. -/
structure Display where
  terminal : Terminal Shown
  bgColor : Color
  fgColor : Color
  back : Option Color

namespace Display

def init : Display := ⟨.home, 0x00, 0x0F, none⟩

section

variable (cols rows : Nat)

def type (c : Word) (d : Display) : Display :=
  if c = 0x0A then { d with terminal := d.terminal.newline cols rows }
  else if c = 0x0D then { d with terminal := d.terminal.lineStart cols rows }
  else { d with terminal := d.terminal.put cols rows ⟨c, d.bgColor, d.fgColor⟩ }

def typeAll (cs : List Word) (d : Display) : Display := cs.foldl (fun d c => d.type cols rows c) d

def step (d : Display) : Output → Display
  | .print (.setFgColor fgColor) => { d with fgColor }
  | .print (.setBgColor bgColor) => { d with bgColor }
  | .print call => d.typeAll cols rows call.chars
  | .clear => { d with terminal := d.terminal.wipe, back := some d.bgColor }

def run (calls : List Output) (d : Display) : Display := calls.foldl (Display.step cols rows) d

end

/-- The colour of a pixel: that of its character's glyph, or of what is behind the characters. The
glyphs are in `m`. -/
def pixel (font : Font) (m : Mem 32) (d : Display) (px py : BitVec 16) : Color :=
  let width := font.width.toNat
  let height := font.height.toNat
  match d.terminal.cells (px.toNat / width) (py.toNat / height) with
  | some shown => bitColor font.width (fontGetChar font shown.char) shown.bgColor shown.fgColor m
      (px.toNat % width) (py.toNat % height)
  | none => d.back.getD (m (pixelAddress px py))

end Display

/-- The screen `s` shows `d`. The memory was `m₀` at the start, and in `R` it is so still. -/
structure Shows (font : Font) (R : Word → Prop) (m₀ : Mem 32) (s : Screen) (d : Display) : Prop where
  current : s.console.font = some font
  curX : s.console.curX = d.terminal.col
  curY : s.console.curY = d.terminal.row
  bgColor : s.console.bgColor = d.bgColor
  fgColor : s.console.fgColor = d.fgColor
  pixel : ∀ px py, ¬ clipped px py → s.mem (pixelAddress px py) = d.pixel font m₀ px py
  apart : ∀ a, R a → ¬ InRange vgaAddress screenSize a
  frame : ∀ a, R a → s.mem a = m₀ a

/-- The memory that is not the screen's. -/
def OffScreen (a : Word) : Prop := ¬ InRange vgaAddress screenSize a

/-- The bytes of a glyph are in `R`. -/
def GlyphIn (font : Font) (R : Word → Prop) (c : Word) : Prop :=
  ∀ i < font.height.toNat * widthByteCount font.width, R (fontGetChar font c + BitVec.ofNat 32 i)

/-- Every character to be drawn has a bitmap, and it is in `R`. -/
def HasBitmaps (p : Program) (font : Font) (R : Word → Prop) (cs : List Word) : Prop :=
  ∀ c ∈ cs, c ≠ 0x0A → c ≠ 0x0D →
    p.HasBitmap (fontGetChar font c) (font.height.toNat * widthByteCount font.width) ∧ GlyphIn font R c

/-! ## One character -/

theorem Font.Fits.cols_pos {font : Font} (hf : font.Fits) : 0 < font.cols :=
  Nat.div_pos hf.width_le hf.width_pos

theorem Font.Fits.rows_pos {font : Font} (hf : font.Fits) : 0 < font.rows :=
  Nat.div_pos hf.height_le hf.height_pos

/-- The checks for an overflow are those of the terminal. -/
theorem Console.wrap_terminal {font : Font} (hf : font.Fits) {s : Console} {α : Type} {t : Terminal α}
    (hx : s.curX = t.col) (hy : s.curY = t.row) : s.wrap font =
      s.moveTo (t.wrap font.cols font.rows).col (t.wrap font.cols font.rows).row := by
  have hcol : ((t.col : Int) + 1) * font.width.toNat > vgaWidth ↔ ¬ t.col < font.cols := by
    rw [overflow_iff hf.width_pos, not_lt]
    rfl
  have hrow (y : Nat) : ((y : Int) + 1) * font.height.toNat > vgaHeight ↔ ¬ y < font.rows := by
    rw [overflow_iff hf.height_pos, not_lt]
    rfl
  have hnext : ((t.row : Int) + 1 + 1) * font.height.toNat > vgaHeight ↔ ¬ t.row + 1 < font.rows := by
    have h := hrow (t.row + 1)
    rwa [Nat.cast_succ] at h
  obtain ⟨curX, curY, bgColor, fgColor, font', err, draws⟩ := s
  simp only at hx hy
  subst hx hy
  by_cases hc : t.col < font.cols
  · by_cases hr : t.row < font.rows
    · simp [wrap, Terminal.wrap, hcol, hrow, hc, hr, moveTo]
    · simp [wrap, Terminal.wrap, hcol, hrow, hc, hr, moveTo]
  · by_cases hr : t.row + 1 < font.rows
    · simp [wrap, Terminal.wrap, hcol, hnext, hc, hr, moveTo]
    · simp [wrap, Terminal.wrap, hcol, hnext, hc, hr, moveTo]

/-- The pixels from a cell's edge on, in one direction. -/
theorem cell_iff {px x : BitVec 16} {size col : Nat} (limit : Nat) (hsize : 0 < size) (hx : x.toNat = col * size)
    (hend : x.toNat + size ≤ limit) (hpx : px.toNat < limit) (hlimit : limit ≤ 2 ^ 15) :
    (px - x).toNat < size ↔ px.toNat / size = col := by
  have hdiv : px.toNat / size = col ↔ col * size ≤ px.toNat ∧ px.toNat < col * size + size := by
    rw [Nat.div_eq_iff hsize]
    omega
  rw [hdiv, BitVec.toNat_sub]
  omega

theorem cell_offset {px x : BitVec 16} {size col : Nat} (hx : x.toNat = col * size)
    (h : px.toNat / size = col) : (px - x).toNat = px.toNat % size := by
  have hmod := Nat.div_add_mod px.toNat size
  rw [h, Nat.mul_comm, ← hx] at hmod
  have hlt := px.isLt
  rw [BitVec.toNat_sub]
  omega

section

variable {p : Program} {font : Font} {R : Word → Prop} {m₀ : Mem 32} {s : Screen} {d : Display}

/-- The bits of a glyph that is in memory still. -/
theorem bitColor_congr {bitmap : Word} {bgColor fgColor : Color} {m : Mem 32}
    (h : ∀ i < font.height.toNat * widthByteCount font.width,
      m (bitmap + BitVec.ofNat 32 i) = m₀ (bitmap + BitVec.ofNat 32 i))
    {dx dy : Nat} (hx : dx < font.width.toNat) (hy : dy < font.height.toNat) :
    bitColor font.width bitmap bgColor fgColor m dx dy = bitColor font.width bitmap bgColor fgColor m₀ dx dy := by
  have hbyte : dx / 8 < widthByteCount font.width := by
    have := le_widthByteCount font.width
    omega
  have hlt : dy * widthByteCount font.width + dx / 8 < font.height.toNat * widthByteCount font.width :=
    calc
      dy * widthByteCount font.width + dx / 8 < (dy + 1) * widthByteCount font.width := by
        rw [Nat.succ_mul]
        omega
      _ ≤ font.height.toNat * widthByteCount font.width := Nat.mul_le_mul_right _ hy
  simp only [bitColor, h _ hlt]

theorem Draw.perform_painted {d : Draw} (h : p.HasBitmap d.bitmap (d.h.toNat * widthByteCount d.w))
    (m : Mem 32) : Painted d.x d.y (within d.w d.h (bitColor d.w d.bitmap d.bgColor d.fgColor m)) m
      (d.perform p m) := by
  cases p with
  | kernel => exact drawBitmap_painted h.apart
  | installer =>
    simp only [perform, Program.vgaDrawBitmap, Installer.vgaDrawBitmap, if_neg (h.ne_null rfl)]
    exact drawBitmap_painted h.apart

/-- Nothing is drawn outside the screen, wherever the bitmap is. -/
theorem drawBitmap_frame {a : Word} (ha : ¬ InRange vgaAddress screenSize a) (x y w h : BitVec 16) (bitmap : Word)
    (bgColor fgColor : Color) (m : Mem 32) : drawBitmap x y w h bitmap bgColor fgColor m a = m a := by
  have hpixel : ∀ x y color m, vgaDrawPixel x y color m a = m a := by
    intro x y color m
    rw [vgaDrawPixel]
    split
    · rfl
    · next hin =>
      refine Function.update_of_ne ?_ _ _
      rintro rfl
      exact ha (pixelAddress_inRange hin)
  refine Loop.times_rule (I := fun _ (m' : Mem 32) => m' a = m a) rfl fun yoff _ m₁ h₁ => ?_
  refine Loop.times_rule (I := fun _ (m' : Mem 32) => m' a = m a) h₁ fun byte _ m₂ h₂ => ?_
  refine Loop.times_rule (I := fun _ (m' : Mem 32) => m' a = m a) h₂ fun bit _ m₃ h₃ => ?_
  simp only
  split
  · exact h₃
  · exact (hpixel _ _ _ _).trans h₃

theorem Draw.perform_frame {a : Word} (ha : ¬ InRange vgaAddress screenSize a) (p : Program) (d : Draw) (m : Mem 32) :
    d.perform p m a = m a := by
  cases p with
  | kernel => exact drawBitmap_frame ha ..
  | installer =>
    simp only [perform, Program.vgaDrawBitmap, Installer.vgaDrawBitmap]
    split
    · rfl
    · exact drawBitmap_frame ha ..

theorem Draw.performAll_frame {a : Word} (ha : ¬ InRange vgaAddress screenSize a) (p : Program) (ds : List Draw)
    (m : Mem 32) : Draw.performAll p ds m a = m a := by
  induction ds generalizing m with
  | nil => rfl
  | cons d ds ih => exact (ih _).trans (d.perform_frame ha p m)

theorem Screen.step_frame {a : Word} (ha : ¬ InRange vgaAddress screenSize a) (p : Program) (s : Screen)
    (call : Output) : (s.step p call).mem a = s.mem a := by
  cases call with
  | print call => exact Draw.performAll_frame ha ..
  | clear => exact (vgaDrawRect_painted _ _ _ _ _ _).frame a ha

theorem Screen.run_frame {a : Word} (ha : ¬ InRange vgaAddress screenSize a) (p : Program) (calls : List Output)
    (s : Screen) : (s.run p calls).mem a = s.mem a := by
  induction calls generalizing s with
  | nil => rfl
  | cons call calls ih => exact (ih _).trans (step_frame ha p s call)

/-- A glyph that is drawn in a cell is what the display has there then. -/
theorem Shows.draw (hf : font.Fits) (h : Shows font R m₀ s d) {col row : Nat} (hcol : col < font.cols)
    (hrow : row < font.rows) {c : Word} (hc : p.HasBitmap (fontGetChar font c)
      (font.height.toNat * widthByteCount font.width) ∧ GlyphIn font R c) (d' : Display) (hback : d'.back = d.back)
    (hcells : d'.terminal.cells = fun i j =>
      if i = col ∧ j = row then some ⟨c, d.bgColor, d.fgColor⟩ else d.terminal.cells i j) :
    let m := ((s.console.moveTo col row).glyph font c).perform p s.mem
    (∀ px py, ¬ clipped px py → m (pixelAddress px py) = d'.pixel font m₀ px py) ∧
      ∀ a, R a → m a = m₀ a := by
  intro m
  have hright : (col + 1) * font.width.toNat ≤ vgaWidth := (Nat.le_div_iff_mul_le hf.width_pos).mp hcol
  have hbottom : (row + 1) * font.height.toNat ≤ vgaHeight := (Nat.le_div_iff_mul_le hf.height_pos).mp hrow
  have hW : vgaWidth = 320 := rfl
  have hH : vgaHeight = 200 := rfl
  obtain ⟨_, hi, hx, hxe⟩ := toNat_ofInt_mul (i := col) (Int.natCast_nonneg _) (by exact_mod_cast hright)
    (show vgaWidth < 2 ^ 16 by decide)
  obtain ⟨_, hj, hy, hye⟩ := toNat_ofInt_mul (i := row) (Int.natCast_nonneg _) (by exact_mod_cast hbottom)
    (show vgaHeight < 2 ^ 16 by decide)
  rw [← Int.natCast_inj.mp hi] at hx hxe
  rw [← Int.natCast_inj.mp hj] at hy hye
  have hpaint : Painted _ _ _ s.mem m := Draw.perform_painted (p := p)
    (d := (s.console.moveTo col row).glyph font c) hc.1 s.mem
  refine ⟨fun px py hin => ?_, fun a ha => (hpaint.frame a (h.apart a ha)).trans (h.frame a ha)⟩
  obtain ⟨hpx, hpy⟩ := not_clipped.mp hin
  have hcx := cell_iff vgaWidth hf.width_pos hx (by rw [hx]; exact hxe) hpx (by decide)
  have hcy := cell_iff vgaHeight hf.height_pos hy (by rw [hy]; exact hye) hpy (by decide)
  rw [hpaint.pixel px py hin, within]
  simp only [Display.pixel, hcells]
  by_cases hcell : px.toNat / font.width.toNat = col ∧ py.toNat / font.height.toNat = row
  · rw [if_pos ⟨hcx.mpr hcell.1, hcy.mpr hcell.2⟩, if_pos hcell, Option.getD_some]
    have hdx := cell_offset hx hcell.1
    have hdy := cell_offset hy hcell.2
    have hglyph : ∀ i < font.height.toNat * widthByteCount font.width,
        s.mem (fontGetChar font c + BitVec.ofNat 32 i) = m₀ (fontGetChar font c + BitVec.ofNat 32 i) :=
      fun i hi => h.frame _ (hc.2 i hi)
    have hcolors : ((s.console.moveTo col row).glyph font c).bgColor = d.bgColor ∧
        ((s.console.moveTo col row).glyph font c).fgColor = d.fgColor := ⟨h.bgColor, h.fgColor⟩
    rw [hcolors.1, hcolors.2]
    exact (congrArg₂ _ hdx hdy).trans (bitColor_congr hglyph (Nat.mod_lt _ hf.width_pos) (Nat.mod_lt _ hf.height_pos))
  · rw [if_neg fun hc => hcell ⟨hcx.mp hc.1, hcy.mp hc.2⟩, if_neg hcell, Option.getD_none, h.pixel px py hin,
      Display.pixel, hback]

theorem Shows.putchar (hf : font.Fits) (h : Shows font R m₀ s d) {c : Word} (hc : HasBitmaps p font R [c]) :
    ∃ ds, (p.putchar c s.console).draws = s.console.draws ++ ds ∧
      Shows font R m₀ ⟨p.putchar c s.console, Draw.performAll p ds s.mem⟩ (d.type font.cols font.rows c) := by
  obtain ⟨hcol, hrow⟩ := @Terminal.wrap_lt _ _ _ d.terminal hf.cols_pos hf.rows_pos
  have hwrap := Console.wrap_terminal hf h.curX h.curY
  rw [Program.putchar_some h.current]
  by_cases hn : c = 0x0A
  · refine ⟨[], ?_, ?_⟩
    · rw [Console.print, if_pos hn, hwrap, List.append_nil]
      rfl
    · rw [Console.print, if_pos hn, hwrap, Display.type, if_pos hn]
      refine ⟨h.current, rfl, rfl, h.bgColor, h.fgColor, fun px py hin => ?_, h.apart, h.frame⟩
      rw [Draw.performAll, List.foldl_nil, h.pixel px py hin]
      simp only [Display.pixel, Terminal.newline, Terminal.wrap_cells]
  · by_cases hr : c = 0x0D
    · refine ⟨[], ?_, ?_⟩
      · rw [Console.print, if_neg hn, if_pos hr, hwrap, List.append_nil]
        rfl
      · rw [Console.print, if_neg hn, if_pos hr, hwrap, Display.type, if_neg hn, if_pos hr]
        refine ⟨h.current, rfl, rfl, h.bgColor, h.fgColor, fun px py hin => ?_, h.apart, h.frame⟩
        rw [Draw.performAll, List.foldl_nil, h.pixel px py hin]
        simp only [Display.pixel, Terminal.lineStart, Terminal.wrap_cells]
    · obtain ⟨hpixel, hframe⟩ := h.draw (p := p) hf hcol hrow (hc c List.mem_cons_self hn hr)
        (d.type font.cols font.rows c) (by rw [Display.type, if_neg hn, if_neg hr])
        (by rw [Display.type, if_neg hn, if_neg hr]; simp only [Terminal.put, Terminal.wrap_cells])
      refine ⟨[(s.console.wrap font).glyph font c], ?_, ?_⟩
      · rw [Console.print, if_neg hn, if_neg hr, hwrap]
        rfl
      · rw [hwrap, Console.print, if_neg hn, if_neg hr, hwrap]
        refine ⟨h.current, ?_, ?_, ?_, ?_, hpixel, h.apart, hframe⟩
        all_goals rw [Display.type, if_neg hn, if_neg hr]
        · simp [Terminal.put, Console.moveTo]
        · simp [Terminal.put, Console.moveTo]
        · exact h.bgColor
        · exact h.fgColor

/-- By induction on the text. -/
theorem Shows.putchars (hf : font.Fits) (h : Shows font R m₀ s d) {cs : List Word} (hc : HasBitmaps p font R cs) :
    ∃ ds, (p.putchars cs s.console).draws = s.console.draws ++ ds ∧
      Shows font R m₀ ⟨p.putchars cs s.console, Draw.performAll p ds s.mem⟩
        (d.typeAll font.cols font.rows cs) := by
  induction cs generalizing s d with
  | nil => exact ⟨[], by rw [List.append_nil]; rfl, h⟩
  | cons c cs ih =>
    have hc' : HasBitmaps p font R [c] := fun x hx => hc x (by simpa using .inl (List.mem_singleton.mp hx))
    obtain ⟨ds, hds, hfirst⟩ := h.putchar hf hc'
    obtain ⟨ds', hds', hrest⟩ := ih hfirst fun x hx => hc x (List.mem_cons_of_mem _ hx)
    refine ⟨ds ++ ds', ?_, ?_⟩
    · rw [← List.append_assoc, ← hds]
      exact hds'
    · rw [Draw.performAll, List.foldl_append]
      exact hrest

/-! ## Runs -/

theorem Shows.clear (h : Shows font R m₀ s d) :
    Shows font R m₀ s.clear { d with terminal := d.terminal.wipe, back := some d.bgColor } := by
  have hpaint := vgaDrawRect_painted 0 0 (BitVec.ofNat 16 vgaWidth) (BitVec.ofNat 16 vgaHeight)
    s.console.bgColor s.mem
  refine ⟨h.current, h.curX, h.curY, h.bgColor, h.fgColor, fun px py hin => ?_, h.apart,
    fun a ha => (hpaint.frame a (h.apart a ha)).trans (h.frame a ha)⟩
  obtain ⟨hpx, hpy⟩ := not_clipped.mp hin
  have hwithin : (px - 0).toNat < (BitVec.ofNat 16 vgaWidth).toNat ∧
      (py - 0).toNat < (BitVec.ofNat 16 vgaHeight).toNat := by simpa [vgaWidth, vgaHeight] using ⟨hpx, hpy⟩
  have hpixel := hpaint.pixel px py hin
  rw [within, if_pos hwithin, Option.getD_some, h.bgColor] at hpixel
  simp only [Screen.clear, Display.pixel, Terminal.wipe, Option.getD_some]
  rw [h.bgColor]
  exact hpixel

/-- Memory that is neither the screen's nor in `R` may change. -/
theorem Shows.other (h : Shows font R m₀ s d) {m : Mem 32}
    (hm : ∀ a, InRange vgaAddress screenSize a ∨ R a → m a = s.mem a) : Shows font R m₀ { s with mem := m } d where
  current := h.current
  curX := h.curX
  curY := h.curY
  bgColor := h.bgColor
  fgColor := h.fgColor
  pixel px py hin := (hm _ (.inl (pixelAddress_inRange hin))).trans (h.pixel px py hin)
  apart := h.apart
  frame a ha := (hm a (.inr ha)).trans (h.frame a ha)

/-- The characters of a call. -/
def Output.chars : Output → List Word
  | .print call => call.chars
  | .clear => []

/-- No call sets the font. -/
def Output.KeepsFont (call : Output) : Prop := ∀ font, call ≠ .print (.setFont font)

theorem Shows.step (hf : font.Fits) (h : Shows font R m₀ s d) (call : Output) (hkeep : call.KeepsFont)
    (hc : HasBitmaps p font R call.chars) :
    Shows font R m₀ (s.step p call) (d.step font.cols font.rows call) := by
  cases call with
  | clear => exact h.clear
  | print call =>
    cases call with
    | putchar c =>
      obtain ⟨ds, hds, hshows⟩ := h.putchar hf hc
      simp only [Screen.step, Program.step, hds, List.drop_left]
      exact hshows
    | puts text =>
      obtain ⟨ds, hds, hshows⟩ := h.putchars hf hc
      simp only [Output.chars, Print.chars] at hds hshows
      simp only [Screen.step, Program.step, Program.puts_eq, hds, List.drop_left]
      exact hshows
    | setFont font' => exact absurd rfl (hkeep font')
    | setFgColor fgColor =>
      simp only [Screen.step, Program.step, List.drop_length]
      exact ⟨h.current, h.curX, h.curY, h.bgColor, rfl, h.pixel, h.apart, h.frame⟩
    | setBgColor bgColor =>
      simp only [Screen.step, Program.step, List.drop_length]
      exact ⟨h.current, h.curX, h.curY, rfl, h.fgColor, h.pixel, h.apart, h.frame⟩

/-- By induction on the calls. -/
theorem Shows.run (hf : font.Fits) (calls : List Output) (h : Shows font R m₀ s d)
    (hkeep : ∀ call ∈ calls, call.KeepsFont) (hc : ∀ call ∈ calls, HasBitmaps p font R call.chars) :
    Shows font R m₀ (s.run p calls) (d.run font.cols font.rows calls) := by
  induction calls generalizing s d with
  | nil => exact h
  | cons call calls ih =>
    have hstep := h.step hf call (hkeep call List.mem_cons_self) (hc call List.mem_cons_self)
    exact ih hstep (fun c hm => hkeep c (List.mem_cons_of_mem _ hm)) fun c hm => hc c (List.mem_cons_of_mem _ hm)

theorem Display.run_append (cols rows : Nat) (calls calls' : List Output) (d : Display) :
    d.run cols rows (calls ++ calls') = (d.run cols rows calls).run cols rows calls' := List.foldl_append

/-- The cells that are written are in the font's grid. -/
theorem Display.type_within (hf : font.Fits) (h : d.terminal.Within font.cols font.rows) (c : Word) :
    (d.type font.cols font.rows c).terminal.Within font.cols font.rows := by
  rw [type]
  split
  · exact h.newline
  · split
    · exact h.lineStart
    · exact h.put hf.cols_pos hf.rows_pos _

theorem Display.typeAll_within (hf : font.Fits) (h : d.terminal.Within font.cols font.rows) (cs : List Word) :
    (d.typeAll font.cols font.rows cs).terminal.Within font.cols font.rows := by
  induction cs generalizing d with
  | nil => exact h
  | cons c cs ih => exact ih (type_within hf h c)

theorem Display.step_within (hf : font.Fits) (h : d.terminal.Within font.cols font.rows) (call : Output) :
    (d.step font.cols font.rows call).terminal.Within font.cols font.rows := by
  cases call with
  | clear => exact Terminal.wipe_within
  | print call =>
    cases call with
    | putchar c => exact typeAll_within hf h [c]
    | puts text => exact typeAll_within hf h _
    | setFont _ => exact h
    | setFgColor _ => exact h
    | setBgColor _ => exact h

theorem Display.run_within (hf : font.Fits) (calls : List Output)
    (h : d.terminal.Within font.cols font.rows) :
    (d.run font.cols font.rows calls).terminal.Within font.cols font.rows := by
  induction calls generalizing d with
  | nil => exact h
  | cons call calls ih => exact ih (step_within hf h call)

end

/-- After `set_font`, whatever is printed and cleared in whatever colours, each pixel of the screen has the
colour that the display gives it, and no other memory has changed. What the display has written is in the
grid of the font, so that the rest of the screen is only ever cleared. -/
theorem Screen.run_shows (p : Program) {font : Font} (hf : font.Fits) (m₀ : Mem 32) (calls : List Output)
    (hkeep : ∀ call ∈ calls, call.KeepsFont) (hc : ∀ call ∈ calls, HasBitmaps p font OffScreen call.chars) :
    let s := Screen.run p calls ⟨p.step .init (.setFont (some font)), m₀⟩
    let d := Display.run font.cols font.rows calls .init
    (∀ px py, ¬ clipped px py → s.mem (pixelAddress px py) = d.pixel font m₀ px py) ∧
      (∀ a, ¬ InRange vgaAddress screenSize a → s.mem a = m₀ a) ∧
      d.terminal.Within font.cols font.rows := by
  have hstart : Shows font OffScreen m₀ ⟨p.step .init (.setFont (some font)), m₀⟩ .init :=
    ⟨rfl, rfl, rfl, rfl, rfl, fun _ _ _ => rfl, fun _ ha => ha, fun _ _ => rfl⟩
  have h := Shows.run (p := p) hf calls hstart hkeep hc
  exact ⟨h.pixel, h.frame, Display.run_within hf calls Terminal.home_within⟩

theorem font6x8_getChar (fontdata6x8 : Word) {c : Word} (hc : c.toNat < 256) :
    fontGetChar (font6x8 fontdata6x8) c = fontdata6x8 + BitVec.ofNat 32 (8 * c.toNat) := by
  have hint : c.toInt = c.toNat := BitVec.toInt_eq_toNat_of_lt (by omega)
  have hcount : ((256 : BitVec 16).setWidth 32).toInt = 256 := by decide
  have hslt : ¬ ((256 : BitVec 16).setWidth 32).slt c = true := by
    rw [BitVec.slt_iff_toInt_lt, hcount, hint]
    omega
  have hmul : (1 : BitVec 16).setWidth 32 * (8 : BitVec 16).setWidth 32 * c = BitVec.ofNat 32 (8 * c.toNat) := by
    rw [BitVec.ofNat_mul, BitVec.ofNat_toNat, BitVec.setWidth_eq]
    rfl
  simp only [fontGetChar, font6x8, if_neg hslt, hmul]

/-- The glyphs of `font_6x8` below the screen's memory. -/
theorem font6x8_hasBitmap (p : Program) {fontdata6x8 c : Word} (h0 : 0 < fontdata6x8.toNat)
    (hend : fontdata6x8.toNat + 2048 ≤ 0xA0000) (hc : c.toNat < 256) :
    p.HasBitmap (fontGetChar (font6x8 fontdata6x8) c) 8 := by
  have haddr : ∀ i < 8, (fontGetChar (font6x8 fontdata6x8) c + BitVec.ofNat 32 i).toNat =
      fontdata6x8.toNat + 8 * c.toNat + i := by
    intro i hi
    rw [font6x8_getChar fontdata6x8 hc, add_add_ofNat, toNat_add_ofNat (by omega)]
    omega
  have hvga : vgaAddress.toNat = 0xA0000 := rfl
  have hsize : screenSize = 64000 := rfl
  refine ⟨fun i hi => ?_, fun _ hzero => ?_⟩
  · rw [inRange_iff (by rw [hvga, hsize]; decide), haddr i hi, hvga]
    omega
  · have hfirst := haddr 0 (by decide)
    rw [hzero] at hfirst
    simp at hfirst
    omega

/-- Two lines of text, and another one in red on a page that has been cleared. -/
theorem Screen.run_shows_two_pages :
    let m₀ : Mem 32 := fun _ => 0
    let calls := [.print (.puts [0x48, 0x69, 0x0A, 0x21]), .clear, .print (.setFgColor 0x28),
      .print (.putchar 0x41)]
    let font := font6x8 0x1000
    let s := Screen.run .kernel calls ⟨Program.kernel.step .init (.setFont (some font)), m₀⟩
    let d := Display.run font.cols font.rows calls .init
    (∀ px py, ¬ clipped px py → s.mem (pixelAddress px py) = d.pixel font m₀ px py) ∧
      (∀ a, ¬ InRange vgaAddress screenSize a → s.mem a = m₀ a) ∧
      d.terminal.Within font.cols font.rows := by
  refine run_shows .kernel (font6x8_fits 0x1000) _ _ ?_ ?_
  · simp [Output.KeepsFont]
  · intro call hcall c hc _ _
    have hchar : c.toNat < 256 := by
      simp only [List.mem_cons, List.not_mem_nil, or_false] at hcall
      rcases hcall with rfl | rfl | rfl | rfl
      · simp [Output.chars, Print.chars] at hc
        rcases hc with rfl | rfl | rfl | rfl <;> decide
      · cases hc
      · cases hc
      · obtain rfl : c = 0x41 := by simpa [Output.chars, Print.chars] using hc
        decide
    have hbitmap : Program.kernel.HasBitmap (fontGetChar (font6x8 0x1000) c) 8 :=
      font6x8_hasBitmap .kernel (by decide) (by decide) hchar
    exact ⟨hbitmap, hbitmap.apart⟩

end Amethyst
