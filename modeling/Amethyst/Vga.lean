import Amethyst.Console
import Amethyst.Loop

/-!
# Amethyst.Vga

The drawing functions (`kernel/src/kernel/vga.c`, `installer/src/driver/vga.c`; the installer's
`vga_draw_bitmap` also refuses `NULL`). The three loops of `vga_draw_bitmap` meet the pixels of the
rectangle from left to right and from top to bottom; `stage` is what is painted when they have come to
a column of a row.

`Program.vgaDrawBitmap_paints`: a bitmap is painted bit by bit, a rectangle in its colour, nothing
else is changed, wherever it lies and also where its coordinates wrap.
-/

namespace Amethyst

instance (x y : BitVec 16) : Decidable (clipped x y) := inferInstanceAs (Decidable (_ ∨ _))

/-- `_VGA_ADDRESS` -/
def vgaAddress : Word := 0xA0000

/-- The bytes of the screen. -/
def screenSize : Nat := vgaWidth * vgaHeight

/-- `_VGA_ADDRESS + y * _VGA_WIDTH + x` -/
def pixelAddress (x y : BitVec 16) : Word :=
  vgaAddress + y.setWidth 32 * BitVec.ofNat 32 vgaWidth + x.setWidth 32

def vgaDrawPixel (x y : BitVec 16) (color : Color) (m : Mem 32) : Mem 32 :=
  if clipped x y then m else Function.update m (pixelAddress x y) color

def widthByteCount (w : BitVec 16) : Nat := w.toNat / 8 + if w.toNat % 8 ≠ 0 then 1 else 0

section

variable (x y w h : BitVec 16) (bitmap : Word) (bgColor fgColor : Color)

/-- The bits of one byte of the bitmap. -/
def drawByte (scanByte : BitVec 8) (yoff byte : Nat) (m : Mem 32) : Mem 32 :=
  Loop.times (fun bit m =>
    let xoff := byte * 8 + bit
    if w.toNat ≤ xoff then m
    else
      let color := if scanByte &&& ((1 : BitVec 8) <<< (7 - bit)) ≠ 0 then fgColor else bgColor
      vgaDrawPixel (x + BitVec.ofNat 16 xoff) (y + BitVec.ofNat 16 yoff) color m) 8 m

def drawLine (yoff : Nat) (m : Mem 32) : Mem 32 :=
  Loop.times (fun byte m =>
    let scanByte := m (bitmap + BitVec.ofNat 32 (yoff * widthByteCount w + byte))
    drawByte x y w bgColor fgColor scanByte yoff byte m) (widthByteCount w) m

/-- `vga_draw_bitmap`, from the loops on. -/
def drawBitmap (m : Mem 32) : Mem 32 :=
  Loop.times (fun yoff m => drawLine x y w bitmap bgColor fgColor yoff m) h.toNat m

def vgaDrawRect (color : Color) (m : Mem 32) : Mem 32 :=
  Loop.times (fun yoff m =>
    Loop.times (fun xoff m =>
      vgaDrawPixel (x + BitVec.ofNat 16 xoff) (y + BitVec.ofNat 16 yoff) color m) w.toNat m) h.toNat m

def Kernel.vgaDrawBitmap (err : Installer.Err) (m : Mem 32) : Installer.Err × Mem 32 :=
  (err, drawBitmap x y w h bitmap bgColor fgColor m)

def Installer.vgaDrawBitmap (err : Installer.Err) (m : Mem 32) : Installer.Err × Mem 32 :=
  if bitmap = 0 then (.invarg, m) else (err, drawBitmap x y w h bitmap bgColor fgColor m)

/-- `vga_draw_bitmap`, with `_err` and the memory. -/
def Program.vgaDrawBitmap : Program → Installer.Err → Mem 32 → Installer.Err × Mem 32
  | .kernel => Kernel.vgaDrawBitmap x y w h bitmap bgColor fgColor
  | .installer => Installer.vgaDrawBitmap x y w h bitmap bgColor fgColor

end

/-! ## The screen in memory -/

theorem not_clipped {x y : BitVec 16} : ¬ clipped x y ↔ x.toNat < 320 ∧ y.toNat < 200 := by
  rw [clipped, not_or, not_le, not_le, vgaWidth, vgaHeight]

theorem pixelAddress_eq (x y : BitVec 16) :
    pixelAddress x y = vgaAddress + BitVec.ofNat 32 (y.toNat * vgaWidth + x.toNat) := by
  rw [pixelAddress, BitVec.add_assoc, BitVec.ofNat_add, BitVec.ofNat_mul, BitVec.ofNat_toNat,
    BitVec.ofNat_toNat]

theorem pixelAddress_inRange {x y : BitVec 16} (h : ¬ clipped x y) :
    InRange vgaAddress screenSize (pixelAddress x y) := by
  obtain ⟨hx, hy⟩ := not_clipped.mp h
  rw [pixelAddress_eq, inRange_add (by rw [vgaWidth]; omega), screenSize, vgaWidth, vgaHeight]
  omega

theorem pixelAddress_inj {x y x' y' : BitVec 16} (h : ¬ clipped x y) (h' : ¬ clipped x' y')
    (he : pixelAddress x y = pixelAddress x' y') : x = x' ∧ y = y' := by
  obtain ⟨hx, hy⟩ := not_clipped.mp h
  obtain ⟨hx', hy'⟩ := not_clipped.mp h'
  rw [pixelAddress_eq, pixelAddress_eq, vgaWidth] at he
  have hn := add_ofNat_inj (by omega) (by omega) he
  exact ⟨BitVec.eq_of_toNat_eq (by omega), BitVec.eq_of_toNat_eq (by omega)⟩

/-- `m'` is `m` but for the pixels that `paint` has a colour for. It counts them from the corner
`(x, y)`, modulo 2^16. -/
structure Painted (x y : BitVec 16) (paint : Nat → Nat → Option Color) (m m' : Mem 32) : Prop where
  pixel : ∀ px py, ¬ clipped px py →
    m' (pixelAddress px py) = (paint (px - x).toNat (py - y).toNat).getD (m (pixelAddress px py))
  frame : ∀ a, ¬ InRange vgaAddress screenSize a → m' a = m a

/-- A colour for each pixel of a rectangle. -/
def within (w h : BitVec 16) (color : Nat → Nat → Color) (dx dy : Nat) : Option Color :=
  if dx < w.toNat ∧ dy < h.toNat then some (color dx dy) else none

/-- The rectangle up to the column `cols` of the row `rows`. -/
def stage (w : BitVec 16) (color : Nat → Nat → Color) (rows cols dx dy : Nat) : Option Color :=
  if dx < w.toNat ∧ (dy < rows ∨ dy = rows ∧ dx < cols) then some (color dx dy) else none

section

variable {x y w : BitVec 16} {color : Nat → Nat → Color} {rows cols : Nat} {m m' : Mem 32}

/-- One more pixel. -/
theorem Painted.draw {paint : Nat → Nat → Option Color} (h : Painted x y paint m m') {xoff yoff : Nat}
    (hx : xoff < 2 ^ 16) (hy : yoff < 2 ^ 16) (c : Color) :
    Painted x y (fun dx dy => if dx = xoff ∧ dy = yoff then some c else paint dx dy) m
      (vgaDrawPixel (x + BitVec.ofNat 16 xoff) (y + BitVec.ofNat 16 yoff) c m') := by
  have hoff : ∀ px py : BitVec 16, (px - x).toNat = xoff ∧ (py - y).toNat = yoff ↔
      px = x + BitVec.ofNat 16 xoff ∧ py = y + BitVec.ofNat 16 yoff := by
    intro px py
    constructor
    · rintro ⟨rfl, rfl⟩
      exact ⟨(add_ofNat_sub x px).symm, (add_ofNat_sub y py).symm⟩
    · rintro ⟨rfl, rfl⟩
      exact ⟨sub_toNat_of_add hx, sub_toNat_of_add hy⟩
  refine ⟨fun px py hin => ?_, fun a ha => ?_⟩
  · simp only [hoff, vgaDrawPixel]
    by_cases hc : clipped (x + BitVec.ofNat 16 xoff) (y + BitVec.ofNat 16 yoff)
    · have hne : ¬ (px = x + BitVec.ofNat 16 xoff ∧ py = y + BitVec.ofNat 16 yoff) := by
        rintro ⟨rfl, rfl⟩
        exact hin hc
      rw [if_pos hc, if_neg hne, h.pixel px py hin]
    · rw [if_neg hc]
      by_cases he : px = x + BitVec.ofNat 16 xoff ∧ py = y + BitVec.ofNat 16 yoff
      · rw [if_pos he, he.1, he.2, Function.update_self, Option.getD_some]
      · rw [if_neg he, Function.update_of_ne fun ha => he (pixelAddress_inj hin hc ha), h.pixel px py hin]
  · rw [vgaDrawPixel]
    split
    · exact h.frame a ha
    · next hc =>
      have hne : a ≠ pixelAddress (x + BitVec.ofNat 16 xoff) (y + BitVec.ofNat 16 yoff) :=
        fun he => ha (he ▸ pixelAddress_inRange hc)
      rw [Function.update_of_ne hne, h.frame a ha]

theorem Painted.congr {paint paint' : Nat → Nat → Option Color} (h : Painted x y paint m m')
    (he : ∀ dx dy, paint' dx dy = paint dx dy) : Painted x y paint' m m' where
  pixel px py hin := by rw [he, h.pixel px py hin]
  frame := h.frame

theorem painted_start (x y w : BitVec 16) (color : Nat → Nat → Color) (m : Mem 32) :
    Painted x y (stage w color 0 0) m m where
  pixel px py _ := by simp [stage]
  frame _ _ := rfl

/-- The next column of a row is painted. -/
theorem Painted.column (h : Painted x y (stage w color rows cols) m m') (hc : cols < w.toNat)
    (hr : rows < 2 ^ 16) :
    Painted x y (stage w color rows (cols + 1)) m
      (vgaDrawPixel (x + BitVec.ofNat 16 cols) (y + BitVec.ofNat 16 rows) (color cols rows) m') := by
  refine (h.draw (Nat.lt_trans hc w.isLt) hr (color cols rows)).congr fun dx dy => ?_
  by_cases he : dx = cols ∧ dy = rows
  · obtain ⟨rfl, rfl⟩ := he
    simp [stage, hc]
  · have hiff : dy < rows ∨ dy = rows ∧ dx < cols + 1 ↔ dy < rows ∨ dy = rows ∧ dx < cols := by omega
    simp only [stage, if_neg he, hiff]

/-- The bits of the last byte that are not part of the row. -/
theorem Painted.skip (h : Painted x y (stage w color rows cols) m m') (hc : w.toNat ≤ cols) :
    Painted x y (stage w color rows (cols + 1)) m m' := by
  refine h.congr fun dx dy => ?_
  have hiff : dx < w.toNat ∧ (dy < rows ∨ dy = rows ∧ dx < cols + 1) ↔
      dx < w.toNat ∧ (dy < rows ∨ dy = rows ∧ dx < cols) := by omega
  simp only [stage, hiff]

theorem Painted.row (h : Painted x y (stage w color rows cols) m m') (hc : w.toNat ≤ cols) :
    Painted x y (stage w color (rows + 1) 0) m m' := by
  refine h.congr fun dx dy => ?_
  have hiff : dx < w.toNat ∧ (dy < rows + 1 ∨ dy = rows + 1 ∧ dx < 0) ↔
      dx < w.toNat ∧ (dy < rows ∨ dy = rows ∧ dx < cols) := by omega
  simp only [stage, hiff]

theorem Painted.rectangle {h : BitVec 16} (hp : Painted x y (stage w color h.toNat 0) m m') :
    Painted x y (within w h color) m m' := by
  refine hp.congr fun dx dy => ?_
  simp [within, stage]

end

/-! ## The loops -/

theorem le_widthByteCount (w : BitVec 16) : w.toNat ≤ widthByteCount w * 8 := by
  rw [widthByteCount]
  split
  · omega
  · omega

/-- `scanByte & (1 << (7 - bit))` -/
theorem scanBit : ∀ (scanByte : BitVec 8), ∀ bit < 8,
    scanByte &&& ((1 : BitVec 8) <<< (7 - bit)) ≠ 0 ↔ scanByte.getLsbD (7 - bit) = true := by decide +kernel

/-- The colour of a pixel by its bit: the leftmost one is the most significant. -/
def bitColor (w : BitVec 16) (bitmap : Word) (bgColor fgColor : Color) (m : Mem 32) (dx dy : Nat) :
    Color :=
  if (m (bitmap + BitVec.ofNat 32 (dy * widthByteCount w + dx / 8))).getLsbD (7 - dx % 8) then fgColor
  else bgColor

/-- A bitmap of `n` bytes: none of them is on the screen. The installer's is not at `NULL`. -/
structure Program.HasBitmap (p : Program) (bitmap : Word) (n : Nat) : Prop where
  apart : ∀ i < n, ¬ InRange vgaAddress screenSize (bitmap + BitVec.ofNat 32 i)
  ne_null : p = .installer → bitmap ≠ 0

section

variable {x y w : BitVec 16} {bitmap : Word} {bgColor fgColor : Color} {m m' : Mem 32}

theorem drawByte_painted {yoff byte : Nat} (hy : yoff < 2 ^ 16)
    (hp : Painted x y (stage w (bitColor w bitmap bgColor fgColor m) yoff (byte * 8)) m m') :
    Painted x y (stage w (bitColor w bitmap bgColor fgColor m) yoff ((byte + 1) * 8)) m
      (drawByte x y w bgColor fgColor (m (bitmap + BitVec.ofNat 32 (yoff * widthByteCount w + byte)))
        yoff byte m') := by
  have hend : (byte + 1) * 8 = byte * 8 + 8 := Nat.succ_mul byte 8
  rw [hend, drawByte]
  refine Loop.times_rule (I := fun bit => Painted x y
    (stage w (bitColor w bitmap bgColor fgColor m) yoff (byte * 8 + bit)) m) hp fun bit hbit m' hp => ?_
  by_cases hle : w.toNat ≤ byte * 8 + bit
  · simp only [if_pos hle]
    exact hp.skip hle
  · have hpixel := hp.column (not_le.mp hle) hy
    have hdiv : (byte * 8 + bit) / 8 = byte := by omega
    have hmod : (byte * 8 + bit) % 8 = bit := by omega
    rw [bitColor, hdiv, hmod] at hpixel
    simp only [if_neg hle, scanBit _ bit hbit]
    exact hpixel

/-- A line of the bitmap, read off memory that has been painted already. -/
theorem drawLine_painted {yoff : Nat} (hy : yoff < 2 ^ 16)
    (hb : ∀ i < widthByteCount w, ¬ InRange vgaAddress screenSize
      (bitmap + BitVec.ofNat 32 (yoff * widthByteCount w + i)))
    (hp : Painted x y (stage w (bitColor w bitmap bgColor fgColor m) yoff 0) m m') :
    Painted x y (stage w (bitColor w bitmap bgColor fgColor m) (yoff + 1) 0) m
      (drawLine x y w bitmap bgColor fgColor yoff m') := by
  refine Painted.row ?_ (le_widthByteCount w)
  rw [← Nat.zero_mul 8] at hp
  refine Loop.times_rule (I := fun byte => Painted x y
    (stage w (bitColor w bitmap bgColor fgColor m) yoff (byte * 8)) m) hp fun byte hbyte m' hp => ?_
  simp only [hp.frame _ (hb byte hbyte)]
  exact drawByte_painted hy hp

theorem drawBitmap_painted {h : BitVec 16}
    (hb : ∀ i < h.toNat * widthByteCount w, ¬ InRange vgaAddress screenSize
      (bitmap + BitVec.ofNat 32 i)) :
    Painted x y (within w h (bitColor w bitmap bgColor fgColor m)) m
      (drawBitmap x y w h bitmap bgColor fgColor m) := by
  refine Painted.rectangle (Loop.times_rule (I := fun yoff => Painted x y
    (stage w (bitColor w bitmap bgColor fgColor m) yoff 0) m) (painted_start x y w _ m)
      fun yoff hy m' hp => ?_)
  refine drawLine_painted (Nat.lt_trans hy h.isLt) (fun i hi => hb _ ?_) hp
  calc
    yoff * widthByteCount w + i < (yoff + 1) * widthByteCount w := by
      rw [Nat.succ_mul]
      omega
    _ ≤ h.toNat * widthByteCount w := Nat.mul_le_mul_right _ hy

theorem vgaDrawRect_painted (x y w h : BitVec 16) (color : Color) (m : Mem 32) :
    Painted x y (within w h fun _ _ => color) m (vgaDrawRect x y w h color m) := by
  refine Painted.rectangle (Loop.times_rule (I := fun yoff => Painted x y
    (stage w (fun _ _ => color) yoff 0) m) (painted_start x y w _ m) fun yoff hy m' hp => ?_)
  refine Painted.row ?_ le_rfl
  exact Loop.times_rule (I := fun xoff => Painted x y (stage w (fun _ _ => color) yoff xoff) m) hp
    fun xoff hx m' hp => hp.column hx (Nat.lt_trans hy h.isLt)

end

/-- A bitmap is painted bit by bit, a rectangle in its colour, and nothing else is changed. -/
theorem Program.vgaDrawBitmap_paints (p : Program) (x y w h : BitVec 16) (bitmap : Word)
    (bgColor fgColor color : Color) (err : Installer.Err) (m : Mem 32)
    (hb : p.HasBitmap bitmap (h.toNat * widthByteCount w)) :
    Painted x y (within w h (bitColor w bitmap bgColor fgColor m)) m
        (p.vgaDrawBitmap x y w h bitmap bgColor fgColor err m).2 ∧
      Painted x y (within w h fun _ _ => color) m (vgaDrawRect x y w h color m) := by
  refine ⟨?_, vgaDrawRect_painted x y w h color m⟩
  have hpaint : Painted x y (within w h (bitColor w bitmap bgColor fgColor m)) m
      (drawBitmap x y w h bitmap bgColor fgColor m) := drawBitmap_painted hb.apart
  cases p with
  | kernel => exact hpaint
  | installer =>
    simp only [vgaDrawBitmap, Installer.vgaDrawBitmap, if_neg (hb.ne_null rfl)]
    exact hpaint

/-- A bitmap of 3 rows of 12 bits at the left and the upper edge, with a part on each side. -/
theorem Program.vgaDrawBitmap_paints_wrapped :
    Painted 0xFFFE 0xFFFF (within 12 3 (bitColor 12 0x1000 0x00 0x0F fun a => a.setWidth 8))
        (fun a => a.setWidth 8)
        (installer.vgaDrawBitmap 0xFFFE 0xFFFF 12 3 0x1000 0x00 0x0F .no fun a => a.setWidth 8).2 ∧
      Painted 0xFFFE 0xFFFF (within 12 3 fun _ _ => 0x0F) (fun a => a.setWidth 8)
        (vgaDrawRect 0xFFFE 0xFFFF 12 3 0x0F fun a => a.setWidth 8) :=
  vgaDrawBitmap_paints installer _ _ _ _ _ _ _ _ _ _ ⟨by decide, by decide⟩

end Amethyst
