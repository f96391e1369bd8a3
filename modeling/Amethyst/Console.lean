import Amethyst.Installer.Allocator
import Amethyst.Memory
import Mathlib.Tactic.Linarith

/-!
# Amethyst.Console

Text output to the 320 x 200 screen: `putchar`, `puts` and `set_font` of the two `stdio.c` (the
kernel's and the installer's), with the calls that they make of `vga_draw_bitmap`. The kernel's
`putchar` does nothing without a font, the installer's sets `_err`; the rest is the same text.

The cursor is in cells of the current font. `putchar` wraps it before it prints, so that between
calls it may be one past the last column or row. The variables are `int`; `Console.Bounded` keeps
them, and their products with a font's size, far from the ends of that type.

* `wrap_spec`: after the two checks the cell at the cursor is on the screen, whatever font was
  current before.
* `Program.run_inside`: so is all that any run draws.
* `Program.putchars_at`: where each character of a text goes. `Program.line_iff` says when a line
  takes the rows it needs and no more.
-/

namespace Amethyst

abbrev Color := BitVec 8

/-- `font_t` -/
structure Font where
  width : BitVec 16
  height : BitVec 16
  byteWidth : BitVec 16
  charCount : BitVec 16
  data : Word
deriving DecidableEq, Repr

/-- A size that the screen has room for. -/
structure Font.Fits (font : Font) : Prop where
  width_pos : 1 ≤ font.width.toNat
  width_le : font.width.toNat ≤ 320
  height_pos : 1 ≤ font.height.toNat
  height_le : font.height.toNat ≤ 200

/-- `font_get_char` -/
def fontGetChar (font : Font) (chr : Word) : Word :=
  if (font.charCount.setWidth 32).slt chr then font.data
  else font.data + font.byteWidth.setWidth 32 * font.height.setWidth 32 * chr

/-- `font_6x8`, the font of both programs. -/
def font6x8 (fontdata6x8 : Word) : Font := ⟨6, 8, 1, 256, fontdata6x8⟩

theorem font6x8_fits (fontdata6x8 : Word) : (font6x8 fontdata6x8).Fits :=
  ⟨by simp [font6x8], by simp [font6x8], by simp [font6x8], by simp [font6x8]⟩

/-! ## The screen -/

/-- `_VGA_WIDTH` -/
def vgaWidth : Nat := 320

/-- `_VGA_HEIGHT` -/
def vgaHeight : Nat := 200

/-- The pixels that `vga_draw_pixel` does not draw. -/
def clipped (x y : BitVec 16) : Prop := vgaWidth ≤ x.toNat ∨ vgaHeight ≤ y.toNat

/-- A call of `vga_draw_bitmap`, and `_pFont` at that time. -/
structure Draw where
  font : Font
  x : BitVec 16
  y : BitVec 16
  w : BitVec 16
  h : BitVec 16
  bitmap : Word
  bgColor : Color
  fgColor : Color
deriving DecidableEq, Repr

/-- The pixels that `vga_draw_bitmap` hands to `vga_draw_pixel`. -/
def Draw.pixels (d : Draw) : List (BitVec 16 × BitVec 16) :=
  let widthByteCount := d.w.toNat / 8 + if d.w.toNat % 8 ≠ 0 then 1 else 0
  (List.range d.h.toNat).flatMap fun yoff =>
    (List.range widthByteCount).flatMap fun byte =>
      (List.range 8).filterMap fun bit =>
        let xoff := byte * 8 + bit
        if d.w.toNat ≤ xoff then none
        else some (d.x + BitVec.ofNat 16 xoff, d.y + BitVec.ofNat 16 yoff)

/-- The bitmap is a cell of its font's grid, on the screen as a whole. -/
structure Draw.Inside (d : Draw) : Prop where
  w : d.w = d.font.width
  h : d.h = d.font.height
  column : d.font.width.toNat ∣ d.x.toNat
  row : d.font.height.toNat ∣ d.y.toNat
  right : d.x.toNat + d.w.toNat ≤ vgaWidth
  bottom : d.y.toNat + d.h.toNat ≤ vgaHeight
  unclipped : ∀ pixel ∈ d.pixels, ¬ clipped pixel.1 pixel.2

/-! ## `putchar` -/

/-- The variables of `stdio.c`, the installer's `_err`, and what has been drawn. -/
structure Console where
  curX : Int
  curY : Int
  bgColor : Color
  fgColor : Color
  font : Option Font
  err : Installer.Err
  draws : List Draw
deriving DecidableEq, Repr

namespace Console

def init : Console := ⟨0, 0, 0x00, 0x0F, none, .no, []⟩

/-- The checks for a horizontal and a vertical overflow. -/
def wrap (font : Font) (s : Console) : Console :=
  let s :=
    if (s.curX + 1) * font.width.toNat > vgaWidth then { s with curX := 0, curY := s.curY + 1 }
    else s
  if (s.curY + 1) * font.height.toNat > vgaHeight then { s with curY := 0 } else s

/-- The `vga_draw_bitmap` of a character at the cursor. -/
def glyph (font : Font) (c : Word) (s : Console) : Draw where
  font := font
  x := BitVec.ofInt 16 (s.curX * font.width.toNat)
  y := BitVec.ofInt 16 (s.curY * font.height.toNat)
  w := font.width
  h := font.height
  bitmap := fontGetChar font c
  bgColor := s.bgColor
  fgColor := s.fgColor

/-- `putchar`, from the checks on. -/
def print (font : Font) (c : Word) (s : Console) : Console :=
  let s := s.wrap font
  if c = 0x0A then { s with curX := 0, curY := s.curY + 1 }
  else if c = 0x0D then { s with curX := 0 }
  else { s with draws := s.draws ++ [s.glyph font c], curX := s.curX + 1 }

/-- `putchar`, with what is done when no font is set. -/
def putchar (noFont : Console → Console) (c : Word) (s : Console) : Console :=
  match s.font with
  | none => noFont s
  | some font => s.print font c

end Console

def Kernel.putchar : Word → Console → Console := Console.putchar id

def Installer.putchar : Word → Console → Console :=
  Console.putchar fun s => { s with err := .nofont }

inductive Program where
  | kernel
  | installer
deriving DecidableEq, Repr

/-- A call of `stdio.h`. A string is given by its bytes; it ends before the first NUL. -/
inductive Print where
  | putchar (c : Word)
  | puts (s : List (BitVec 8))
  | setFont (font : Option Font)
  | setFgColor (fgColor : Color)
  | setBgColor (bgColor : Color)
deriving DecidableEq, Repr

namespace Program

def putchar : Program → Word → Console → Console
  | kernel => Kernel.putchar
  | installer => Installer.putchar

def putchars (p : Program) (cs : List Word) (s : Console) : Console :=
  cs.foldl (fun s c => p.putchar c s) s

/-- `puts`. A `char` is signed. -/
def puts (p : Program) : List (BitVec 8) → Console → Console
  | [], s => s
  | c :: cs, s => if c = 0 then s else p.puts cs (p.putchar (c.signExtend 32) s)

def step (p : Program) (s : Console) : Print → Console
  | .putchar c => p.putchar c s
  | .puts text => p.puts text s
  | .setFont font => { s with font }
  | .setFgColor fgColor => { s with fgColor }
  | .setBgColor bgColor => { s with bgColor }

def run (p : Program) (calls : List Print) (s : Console) : Console := calls.foldl p.step s

end Program

/-! ## The cursor -/

structure Console.Bounded (s : Console) : Prop where
  curX_nonneg : 0 ≤ s.curX
  curX_le : s.curX ≤ vgaWidth
  curY_nonneg : 0 ≤ s.curY
  curY_le : s.curY ≤ vgaHeight

section

variable {font : Font} {s : Console}

/-- The cell at the cursor is on the screen. -/
structure Console.OnCell (font : Font) (s : Console) : Prop where
  curX_nonneg : 0 ≤ s.curX
  right : (s.curX + 1) * font.width.toNat ≤ vgaWidth
  curY_nonneg : 0 ≤ s.curY
  bottom : (s.curY + 1) * font.height.toNat ≤ vgaHeight

/-- A coordinate of a cell, in pixels. -/
theorem cell_le {i : Int} {size limit : Nat} (hi : 0 ≤ i) (hs : 1 ≤ size)
    (h : (i + 1) * size ≤ limit) : i + 1 ≤ limit := by
  have hs' : (1 : Int) ≤ size := by exact_mod_cast hs
  calc
    i + 1 = (i + 1) * 1 := (mul_one _).symm
    _ ≤ (i + 1) * size := mul_le_mul_of_nonneg_left hs' (by omega)
    _ ≤ limit := h

/-- What the checks leave: the old column or 0, and a row on the screen. -/
theorem Console.wrap_spec (hf : font.Fits) (hs : s.Bounded) : ∃ curX curY,
    s.wrap font = { s with curX, curY } ∧ (s.wrap font).OnCell font := by
  obtain ⟨hw, hw', hh, hh'⟩ := hf
  obtain ⟨hx, -, hy, -⟩ := hs
  simp only [wrap, gt_iff_lt]
  split
  · split
    · refine ⟨_, _, rfl, le_rfl, ?_, le_rfl, ?_⟩ <;> simp [vgaWidth, vgaHeight] <;> omega
    · refine ⟨_, _, rfl, le_rfl, ?_, ?_, ?_⟩
      · simp [vgaWidth]
        omega
      · show 0 ≤ s.curY + 1
        omega
      · exact not_lt.mp ‹_›
  · have hright := not_lt.mp ‹_›
    split
    · refine ⟨_, _, rfl, hx, hright, le_rfl, ?_⟩
      simp [vgaHeight]
      omega
    · exact ⟨_, _, rfl, hx, hright, hy, not_lt.mp ‹_›⟩

/-- An offset that fits in a `uint16_t`. -/
theorem toNat_ofInt_mul {i : Int} {size limit : Nat} (hi : 0 ≤ i) (h : (i + 1) * size ≤ limit)
    (hl : limit < 2 ^ 16) : ∃ k : Nat, i = k ∧ (BitVec.ofInt 16 (i * size)).toNat = k * size ∧
      k * size + size ≤ limit := by
  obtain ⟨k, rfl⟩ := Int.eq_ofNat_of_zero_le hi
  have hk : k * size + size ≤ limit := by
    rw [← Nat.succ_mul]
    exact_mod_cast h
  refine ⟨k, rfl, ?_, hk⟩
  have hcast : ((k : Int) * size) = ((k * size : Nat) : Int) := by push_cast; rfl
  rw [hcast, BitVec.ofInt_natCast, BitVec.toNat_ofNat, Nat.mod_eq_of_lt (by omega)]

theorem Draw.mem_pixels {d : Draw} {pixel : BitVec 16 × BitVec 16} (h : pixel ∈ d.pixels) :
    ∃ xoff < d.w.toNat, ∃ yoff < d.h.toNat,
      pixel = (d.x + BitVec.ofNat 16 xoff, d.y + BitVec.ofNat 16 yoff) := by
  simp only [pixels, List.mem_flatMap, List.mem_filterMap, List.mem_range] at h
  obtain ⟨yoff, hy, byte, -, bit, -, h⟩ := h
  split at h
  · cases h
  · cases h
    exact ⟨_, not_le.mp ‹_›, yoff, hy, rfl⟩

theorem Console.OnCell.inside (h : s.OnCell font) (c : Word) : (s.glyph font c).Inside := by
  obtain ⟨i, -, hx, hright⟩ := toNat_ofInt_mul h.curX_nonneg h.right (by decide)
  obtain ⟨j, -, hy, hbottom⟩ := toNat_ofInt_mul h.curY_nonneg h.bottom (by decide)
  have hx' : (s.glyph font c).x.toNat = i * font.width.toNat := hx
  have hy' : (s.glyph font c).y.toNat = j * font.height.toNat := hy
  have hr : (s.glyph font c).x.toNat + (s.glyph font c).w.toNat ≤ vgaWidth := by
    rw [hx']
    exact hright
  have hb : (s.glyph font c).y.toNat + (s.glyph font c).h.toNat ≤ vgaHeight := by
    rw [hy']
    exact hbottom
  refine ⟨rfl, rfl, hx' ▸ Nat.dvd_mul_left .., hy' ▸ Nat.dvd_mul_left .., hr, hb, ?_⟩
  intro pixel hp
  obtain ⟨xoff, hxo, yoff, hyo, rfl⟩ := Draw.mem_pixels hp
  have hW : vgaWidth = 320 := rfl
  have hH : vgaHeight = 200 := rfl
  simp only [clipped, BitVec.toNat_add, BitVec.toNat_ofNat]
  omega

theorem Console.print_bounded (hf : font.Fits) (hs : s.Bounded) (c : Word) :
    (s.print font c).Bounded := by
  obtain ⟨_, _, -, hx, hright, hy, hbottom⟩ := wrap_spec hf hs
  have hX := cell_le hx hf.width_pos hright
  have hY := cell_le hy hf.height_pos hbottom
  simp only [print]
  split
  · exact ⟨le_rfl, by simp, by simp; omega, hY⟩
  · split
    · exact ⟨le_rfl, by simp, hy, by simp; omega⟩
    · exact ⟨by simp; omega, hX, hy, by simp; omega⟩

end

/-! ## Runs -/

/-- What every call keeps: the font, if any, is one that fits, the cursor is bounded, and what has
been drawn is on the screen. -/
structure Console.Ready (s : Console) : Prop where
  font : ∀ font, s.font = some font → font.Fits
  bounded : s.Bounded
  draws : ∀ d ∈ s.draws, d.Inside

theorem Console.init_ready : init.Ready where
  font _ h := by cases h
  bounded := ⟨le_rfl, by simp [init], le_rfl, by simp [init]⟩
  draws _ h := by cases h

/-- A call that moves nothing and draws nothing. -/
theorem Console.Ready.still {s t : Console} (hs : s.Ready) (hx : t.curX = s.curX)
    (hy : t.curY = s.curY) (hd : t.draws = s.draws)
    (hf : ∀ font, t.font = some font → font.Fits) : t.Ready where
  font := hf
  bounded := by
    obtain ⟨h1, h2, h3, h4⟩ := hs.bounded
    exact ⟨hx ▸ h1, hx ▸ h2, hy ▸ h3, hy ▸ h4⟩
  draws := hd ▸ hs.draws

theorem Console.print_ready {font : Font} {s : Console} (hs : s.Ready) (hf : s.font = some font)
    (c : Word) : (s.print font c).Ready := by
  have hfits := hs.font font hf
  obtain ⟨curX, curY, hw, hcell⟩ := wrap_spec hfits hs.bounded
  have hfont : (s.print font c).font = s.font := by
    simp only [print, hw]
    split
    · rfl
    · split <;> rfl
  have hdraws : ∀ d ∈ (s.print font c).draws, d ∈ s.draws ∨ d = (s.wrap font).glyph font c := by
    intro d hd
    simp only [print, hw] at hd ⊢
    split at hd
    · exact .inl hd
    · split at hd
      · exact .inl hd
      · simpa using hd
  refine ⟨fun f h => hs.font f (hfont ▸ h), print_bounded hfits hs.bounded c, fun d hd => ?_⟩
  cases hdraws d hd with
  | inl h => exact hs.draws d h
  | inr h =>
    rw [h]
    exact hcell.inside c

namespace Program

variable {p : Program} {s : Console}

theorem putchar_some {font : Font} (h : s.font = some font) (c : Word) :
    p.putchar c s = s.print font c := by
  cases p <;> simp [putchar, Kernel.putchar, Installer.putchar, Console.putchar, h]

theorem putchar_none (h : s.font = none) (c : Word) : ∃ err, p.putchar c s = { s with err } := by
  cases p with
  | kernel =>
    have hs : Kernel.putchar c s = s := by simp [Kernel.putchar, Console.putchar, h]
    exact ⟨s.err, hs⟩
  | installer =>
    have hs : Installer.putchar c s = { s with err := .nofont } := by
      simp [Installer.putchar, Console.putchar, h]
    exact ⟨.nofont, hs⟩

theorem putchar_ready (hs : s.Ready) (c : Word) : (p.putchar c s).Ready := by
  cases hf : s.font with
  | none =>
    obtain ⟨err, h⟩ := @putchar_none p s hf c
    rw [h]
    exact hs.still rfl rfl rfl hs.font
  | some font =>
    rw [putchar_some hf]
    exact Console.print_ready hs hf c

theorem putchars_ready (hs : s.Ready) (cs : List Word) : (p.putchars cs s).Ready := by
  induction cs generalizing s with
  | nil => exact hs
  | cons c cs ih => exact ih (putchar_ready hs c)

/-- A string is printed character by character, up to its end. -/
theorem puts_eq (p : Program) (text : List (BitVec 8)) (s : Console) :
    p.puts text s = p.putchars ((text.takeWhile (· ≠ 0)).map (·.signExtend 32)) s := by
  induction text generalizing s with
  | nil => rfl
  | cons c text ih =>
    rw [puts]
    split
    · next h =>
      rw [List.takeWhile_cons_of_neg (by simpa using h)]
      rfl
    · next h =>
      rw [ih, List.takeWhile_cons_of_pos (by simpa using h)]
      rfl

theorem step_ready (hs : s.Ready) (call : Print)
    (h : ∀ font, call = .setFont (some font) → font.Fits) : (p.step s call).Ready := by
  cases call with
  | putchar c => exact putchar_ready hs c
  | puts text =>
    rw [step, puts_eq]
    exact putchars_ready hs _
  | setFont font =>
    have hf : ∀ f, font = some f → f.Fits := fun f hf => h f (hf ▸ rfl)
    exact hs.still rfl rfl rfl hf
  | setFgColor fgColor => exact hs.still rfl rfl rfl hs.font
  | setBgColor bgColor => exact hs.still rfl rfl rfl hs.font

/-- By induction on the calls. -/
theorem run_ready (hs : s.Ready) (calls : List Print)
    (h : ∀ font, Print.setFont (some font) ∈ calls → font.Fits) : (p.run calls s).Ready := by
  induction calls generalizing s with
  | nil => exact hs
  | cons call calls ih =>
    have hstep := @step_ready p s hs call fun font he => h font (he ▸ List.mem_cons_self ..)
    exact ih hstep fun font hm => h font (List.mem_cons_of_mem _ hm)

/-- Text output never leaves the screen. -/
theorem run_inside (p : Program) (calls : List Print)
    (h : ∀ font, Print.setFont (some font) ∈ calls → font.Fits) :
    (p.run calls Console.init).Bounded ∧ ∀ d ∈ (p.run calls Console.init).draws, d.Inside :=
  have hs := run_ready Console.init_ready calls h
  ⟨hs.bounded, hs.draws⟩

theorem run_inside_font6x8 :
    (kernel.run [.setFont (some (font6x8 0x1000)), .puts [0x48, 0x69], .putchar 0x0A, .setFont none,
        .putchar 0x21] Console.init).Bounded ∧
      ∀ d ∈ (kernel.run [.setFont (some (font6x8 0x1000)), .puts [0x48, 0x69], .putchar 0x0A,
        .setFont none, .putchar 0x21] Console.init).draws, d.Inside :=
  run_inside kernel _ fun font h => by
    obtain rfl : font = font6x8 0x1000 := by simpa using h
    exact font6x8_fits 0x1000

end Program

/-! ## Lines -/

/-- The columns of the screen, and the rows. -/
def Font.cols (font : Font) : Nat := vgaWidth / font.width.toNat

def Font.rows (font : Font) : Nat := vgaHeight / font.height.toNat

namespace Console

def moveTo (col row : Nat) (s : Console) : Console := { s with curX := col, curY := row }

/-- The rows that a line of `n` characters needs. -/
def lineRows (font : Font) (n : Nat) : Nat := max 1 ((n + (font.cols - 1)) / font.cols)

/-- What is asked of a text and a newline that are printed from column 0 of row `r` on. -/
structure LinePrinted (font : Font) (r : Nat) (cs : List Word) (s s' : Console) : Prop where
  draws : s'.draws = s.draws ++
    cs.mapIdx fun k c => (s.moveTo (k % font.cols) (r + k / font.cols)).glyph font c
  curX : s'.curX = 0
  curY : s'.curY = r + lineRows font cs.length

/-- The cursor after the `k`-th character from column 0 of row `r` on: at the end of a full row it
has not moved to the next one. -/
def At (font : Font) (r k : Nat) (s : Console) : Prop :=
  ∃ col row, s.curX = (col : Nat) ∧ s.curY = (r + row : Nat) ∧ k = row * font.cols + col ∧
    col ≤ font.cols ∧ (col = 0 → row = 0)

end Console

section

variable {font : Font} {r k : Nat} {s : Console}

theorem overflow_iff {i size limit : Nat} (h : 1 ≤ size) :
    ((i : Int) + 1) * size > limit ↔ limit / size ≤ i := by
  rw [← Nat.lt_succ_iff, Nat.div_lt_iff_lt_mul h]
  exact_mod_cast Iff.rfl

theorem Console.wrap_at (hf : font.Fits) (h : s.At font r k) (hr : r + k / font.cols < font.rows) :
    s.wrap font = s.moveTo (k % font.cols) (r + k / font.cols) := by
  obtain ⟨col, row, hx, hy, rfl, hle, h0⟩ := h
  have hpos : 0 < font.cols := Nat.div_pos hf.width_le hf.width_pos
  have hrow {y : Nat} (hy : y < font.rows) : ¬ ((y : Int) + 1) * font.height.toNat > vgaHeight :=
    fun hlt => absurd ((overflow_iff hf.height_pos).mp hlt) (not_le.mpr hy)
  have hcol : ((col : Int) + 1) * font.width.toNat > vgaWidth ↔ font.cols ≤ col :=
    overflow_iff hf.width_pos
  cases Nat.eq_or_lt_of_le hle with
  | inl heq =>
    have hk : row * font.cols + col = (row + 1) * font.cols := by rw [heq, Nat.succ_mul]
    rw [hk, Nat.mul_div_cancel _ hpos] at hr ⊢
    rw [Nat.mul_mod_left]
    have hy' : ((r + row : Nat) : Int) + 1 = ((r + (row + 1) : Nat) : Int) := by omega
    simp only [wrap, hx, hy, if_pos (hcol.mpr heq.ge), hy', if_neg (hrow hr)]
    rfl
  | inr hlt =>
    have hdiv : (row * font.cols + col) / font.cols = row := by
      rw [Nat.mul_comm, Nat.mul_add_div hpos, Nat.div_eq_of_lt hlt, Nat.add_zero]
    have hmod : (row * font.cols + col) % font.cols = col := by
      rw [Nat.mul_comm, Nat.mul_add_mod, Nat.mod_eq_of_lt hlt]
    rw [hdiv] at hr ⊢
    rw [hmod]
    have hright : ¬ ((col : Int) + 1) * font.width.toNat > vgaWidth :=
      fun h => absurd (hcol.mp h) (not_le.mpr hlt)
    have hs : s = s.moveTo col (r + row) := by rw [moveTo, ← hx, ← hy]
    simp only [wrap, hx, if_neg hright, hy, if_neg (hrow hr)]
    exact hs

/-- One character: it is drawn in its cell, and the cursor goes on. -/
theorem Program.putchar_at (p : Program) (hs : s.font = some font) (hf : font.Fits)
    (h : s.At font r k) (hr : r + k / font.cols < font.rows) {c : Word} (hc : c ≠ 0x0A ∧ c ≠ 0x0D) :
    ∃ curX curY, p.putchar c s = { s with
      curX, curY
      draws := s.draws ++ [(s.moveTo (k % font.cols) (r + k / font.cols)).glyph font c] } ∧
      (p.putchar c s).At font r (k + 1) := by
  have hpos : 0 < font.cols := Nat.div_pos hf.width_le hf.width_pos
  rw [putchar_some hs, Console.print, if_neg hc.1, if_neg hc.2, Console.wrap_at hf h hr]
  refine ⟨_, _, rfl, k % font.cols + 1, k / font.cols, by simp [Console.moveTo], rfl, ?_, ?_, ?_⟩
  · rw [← Nat.add_assoc, Nat.mul_comm, Nat.div_add_mod]
  · exact Nat.mod_lt k hpos
  · intro h0
    cases h0

/-- By induction on the text. -/
theorem Program.putchars_at (p : Program) {cs : List Word} (hs : s.font = some font) (hf : font.Fits)
    (h : s.At font r k) (hr : ∀ i < cs.length, r + (k + i) / font.cols < font.rows)
    (hc : ∀ c ∈ cs, c ≠ 0x0A ∧ c ≠ 0x0D) :
    ∃ curX curY, p.putchars cs s = { s with
      curX, curY
      draws := s.draws ++ cs.mapIdx fun i c =>
        (s.moveTo ((k + i) % font.cols) (r + (k + i) / font.cols)).glyph font c } ∧
      (p.putchars cs s).At font r (k + cs.length) := by
  induction cs generalizing k s with
  | nil => exact ⟨s.curX, s.curY, by simp [putchars], h⟩
  | cons c cs ih =>
    obtain ⟨hc, hcs⟩ := List.forall_mem_cons.mp hc
    obtain ⟨x, y, h1, hat⟩ := p.putchar_at hs hf h (hr 0 (Nat.succ_pos _)) hc
    have hr' : ∀ i < cs.length, r + (k + 1 + i) / font.cols < font.rows := by
      intro i hi
      rw [Nat.add_assoc, Nat.add_comm 1]
      exact hr (i + 1) (Nat.succ_lt_succ hi)
    obtain ⟨curX, curY, h2, hend⟩ := ih (by rw [h1]; exact hs) hat hr' hcs
    have hcons : p.putchars (c :: cs) s = p.putchars cs (p.putchar c s) := rfl
    rw [hcons]
    refine ⟨curX, curY, ?_, ?_⟩
    · rw [h2, h1]
      simp [Console.glyph, Console.moveTo, List.mapIdx_cons, Nat.add_comm, Nat.add_left_comm]
    · rw [List.length_cons, Nat.add_comm cs.length, ← Nat.add_assoc]
      exact hend

theorem Program.newline_at (p : Program) (hs : s.font = some font) (hf : font.Fits)
    (h : s.At font r k) (hr : r + k / font.cols < font.rows) :
    p.putchar 0x0A s = s.moveTo 0 (r + (k / font.cols + 1)) := by
  rw [putchar_some hs, Console.print, if_pos rfl, Console.wrap_at hf h hr]
  rfl

theorem Console.lineRows_eq (hpos : 0 < font.cols) (n : Nat) :
    lineRows font n = max 1 (n / font.cols + if n % font.cols = 0 then 0 else 1) := by
  rw [lineRows, ceil_div hpos]

theorem Console.div_le_lineRows (hpos : 0 < font.cols) (n : Nat) :
    n / font.cols ≤ lineRows font n := by
  rw [lineRows_eq hpos]
  omega

/-- The row after a line is one too far exactly when the line fills its last row. -/
theorem Console.div_succ_eq_lineRows_iff (hpos : 0 < font.cols) (n : Nat) :
    n / font.cols + 1 = lineRows font n ↔ n = 0 ∨ ¬ font.cols ∣ n := by
  rw [lineRows_eq hpos, Nat.dvd_iff_mod_eq_zero]
  have hdiv := Nat.div_add_mod n font.cols
  split
  · next h =>
    rw [h, Nat.add_zero] at hdiv
    have hz : n / font.cols = 0 ↔ n = 0 := by
      constructor
      · intro h0
        rw [← hdiv, h0, Nat.mul_zero]
      · intro h0
        rw [h0, Nat.zero_div]
    simp only [h, not_true, or_false, ← hz]
    omega
  · next h =>
    simp only [h, not_false_eq_true, or_true, iff_true]
    exact (max_eq_right (Nat.succ_le_succ (Nat.zero_le _))).symm

/-- A text and a newline, from column 0 of row `r` on. -/
theorem Program.line_at (p : Program) {cs : List Word} (hf : font.Fits) (hs : s.font = some font)
    (hx : s.curX = 0) (hy : s.curY = r) (hc : ∀ c ∈ cs, c ≠ 0x0A ∧ c ≠ 0x0D)
    (hr : r + cs.length / font.cols < font.rows) :
    p.putchar 0x0A (p.putchars cs s) = { s with
      curX := 0
      curY := (r + (cs.length / font.cols + 1) : Nat)
      draws := s.draws ++ cs.mapIdx fun k c =>
        (s.moveTo (k % font.cols) (r + k / font.cols)).glyph font c } := by
  have hstart : s.At font r 0 := ⟨0, 0, hx, hy, by simp, Nat.zero_le _, fun _ => rfl⟩
  have hrow : ∀ i < cs.length, r + (0 + i) / font.cols < font.rows := by
    intro i hi
    have : (0 + i) / font.cols ≤ cs.length / font.cols := Nat.div_le_div_right (by omega)
    omega
  obtain ⟨curX, curY, htext, hend⟩ := p.putchars_at hs hf hstart hrow hc
  rw [Nat.zero_add] at hend
  have hfont : (p.putchars cs s).font = some font := by rw [htext]; exact hs
  rw [p.newline_at hfont hf hend hr, htext]
  simp [Console.moveTo]

/-- A line takes the rows that it needs, and no more, unless it ends with a full row. -/
theorem Program.line_iff (p : Program) (font : Font) (hf : font.Fits) (s : Console)
    (hs : s.font = some font) (r : Nat) (hx : s.curX = 0) (hy : s.curY = r) (cs : List Word)
    (hc : ∀ c ∈ cs, c ≠ 0x0A ∧ c ≠ 0x0D)
    (hr : r + Console.lineRows font cs.length < font.rows) :
    Console.LinePrinted font r cs s (p.putchar 0x0A (p.putchars cs s)) ↔
      cs.length = 0 ∨ ¬ font.cols ∣ cs.length := by
  have hpos : 0 < font.cols := Nat.div_pos hf.width_le hf.width_pos
  have hle := Console.div_le_lineRows hpos cs.length
  rw [p.line_at hf hs hx hy hc (by omega), ← Console.div_succ_eq_lineRows_iff hpos]
  constructor
  · intro h
    have := h.curY
    simp only at this
    omega
  · intro h
    exact ⟨rfl, rfl, by rw [h]; exact Int.natCast_add ..⟩

end

theorem Program.line_iff_two_chars :
    Console.LinePrinted (font6x8 0x1000) 3 [0x48, 0x69]
        { Console.init with curY := 3, font := some (font6x8 0x1000) }
        (kernel.putchar 0x0A (kernel.putchars [0x48, 0x69]
          { Console.init with curY := 3, font := some (font6x8 0x1000) })) ↔
      [(0x48 : Word), 0x69].length = 0 ∨ ¬ (font6x8 0x1000).cols ∣ [(0x48 : Word), 0x69].length :=
  line_iff kernel _ (font6x8_fits 0x1000) _ rfl 3 rfl rfl _ (by simp) (by decide)

/-- 53 characters of the 6x8 font fill a row: the cursor is then two rows further, not one. -/
theorem Program.full_row_skips_row :
    0 + Console.lineRows (font6x8 0x1000) (List.replicate 53 (0x41 : Word)).length <
        (font6x8 0x1000).rows ∧
      ¬ Console.LinePrinted (font6x8 0x1000) 0 (List.replicate 53 0x41)
        { Console.init with font := some (font6x8 0x1000) }
        (kernel.putchar 0x0A (kernel.putchars (List.replicate 53 0x41)
          { Console.init with font := some (font6x8 0x1000) })) := by
  refine ⟨by decide, fun h => ?_⟩
  have hc : ∀ c ∈ List.replicate 53 (0x41 : Word), c ≠ 0x0A ∧ c ≠ 0x0D := by
    intro c hc
    rw [List.eq_of_mem_replicate hc]
    decide
  have hy := h.curY
  rw [Program.line_at kernel (font6x8_fits 0x1000) rfl rfl (r := 0) rfl hc (by decide)] at hy
  exact absurd hy (by decide)

end Amethyst
