import DosKernel.Drivers.Paper
import DosKernel.Lib.Runs
import DosKernel.Lib.Stores

/-! The picture that a terminal draws in the memory of the card. `tty_flush_text_buffer` draws all
of the text buffer; the code calls it only to clear the screen, draws single characters, and scrolls
by moving the lines of the picture. The framebuffer fits the address space, and its memory is counted
from `fb->addr` on. -/

namespace DosKernel.Console

open Lib

/-- `enum FramebufferType`, of which the terminals know two. -/
inductive FramebufferType
  | rgb
  | text
  deriving DecidableEq

/-- `framebuffer_t` without its addresses. -/
structure Video where
  type : FramebufferType
  pitch : ℤ
  width : ℤ
  height : ℤ
  bpp : ℤ

/-! ### The code -/

def upTo (n : ℤ) : List ℤ := (List.range n.toNat).map Int.ofNat

/-- `char_width` of `tty_init`. -/
def Video.charWidth (fb : Video) : ℤ :=
  match fb.type with
  | .rgb => 9
  | .text => 1

/-- `char_height` of `tty_init`. -/
def Video.charHeight (fb : Video) : ℤ :=
  match fb.type with
  | .rgb => 16
  | .text => 1

/-- `text_buffer_width` of `tty_init`. -/
def Video.columns (fb : Video) : ℤ := fb.width / fb.charWidth

/-- `text_buffer_height` of `tty_init`. -/
def Video.rows (fb : Video) : ℤ := fb.height / fb.charHeight

def vgacolorToRgb (vgacolor : ℕ) : ℕ :=
  match vgacolor with
  | 0 => 0x000000
  | 1 => 0x0000AA
  | 2 => 0x00AA00
  | 3 => 0x00AAAA
  | 4 => 0xAA0000
  | 5 => 0xAA00AA
  | 6 => 0xAA5500
  | 7 => 0xAAAAAA
  | 8 => 0x555555
  | 9 => 0x5555FF
  | 10 => 0x55FF55
  | 11 => 0x55FFFF
  | 12 => 0xFF5555
  | 13 => 0xFF55FF
  | 14 => 0xFFFF55
  | 15 => 0xFFFFFF
  | _ => 0

/-- `framebuffer_rgb_draw_pixel`: its stores to `fb->addr`. -/
def framebufferRgbDrawPixel (fb : Video) (x y : ℤ) (color : ℕ) : List (ℤ × UInt8) :=
  let place := y * fb.pitch + x * fb.bpp / 8
  [(place + 0, UInt8.ofNat (color >>> 0)),
   (place + 1, UInt8.ofNat (color >>> 8)),
   (place + 2, UInt8.ofNat (color >>> 16))]

/-- `framebuffer_text_draw_char`: the two bytes of `c | (color << 8)`. -/
def framebufferTextDrawChar (fb : Video) (x y : ℤ) (c color : UInt8) : List (ℤ × UInt8) :=
  let place := 2 * (y * fb.width + x)
  [(place + 0, UInt8.ofNat ((cellValue color c).toNat >>> 0)),
   (place + 1, UInt8.ofNat ((cellValue color c).toNat >>> 8))]

/-- The color of a point of a character. The font is indexed with a signed character. -/
def pointColor (fb : Video) (ascii : ℤ → ℤ → UInt8) (c color : UInt8) (i j : ℤ) : ℕ :=
  let colorOn := vgacolorToRgb (color.toNat % 16)
  let colorOff := vgacolorToRgb (color.toNat / 16 % 16)
  let bit := if j = fb.charWidth - 1 then 0 else fb.charWidth - j - 1
  if (ascii c.toInt8.toInt i).toNat.testBit bit.toNat then colorOn else colorOff

def ttyDrawCharFramebuffer (fb : Video) (ascii : ℤ → ℤ → UInt8) (x y : ℤ) (c color : UInt8) :
    List (ℤ × UInt8) :=
  match fb.type with
  | .rgb => (upTo fb.charHeight).flatMap fun i => (upTo fb.charWidth).flatMap fun j =>
      framebufferRgbDrawPixel fb (x * fb.charWidth + j) (y * fb.charHeight + i)
        (pointColor fb ascii c color i j)
  | .text => framebufferTextDrawChar fb x y c color

def ttyFlushTextBuffer (fb : Video) (ascii : ℤ → ℤ → UInt8) (s : Screen) : List (ℤ × UInt8) :=
  (upTo s.width).flatMap fun i => (upTo s.height).flatMap fun j =>
    let c := s.textBuffer (j * s.width + i)
    ttyDrawCharFramebuffer fb ascii i j c.toUInt8 (c >>> 8).toUInt8

/-- `framebuffer_rgb_scroll` and `framebuffer_text_scroll`, which are the same. -/
def framebufferScroll (fb : Video) (h : ℤ) (video : ℤ → UInt8) : ℤ → UInt8 := fun a =>
  let kept := fb.pitch * (fb.height - h)
  if 0 ≤ a ∧ a < kept then video (a + fb.pitch * h)
  else if kept ≤ a ∧ a < kept + fb.pitch * h then 0
  else video a

structure Picture where
  screen : Screen
  video : ℤ → UInt8

namespace Picture
variable (fb : Video) (ascii : ℤ → ℤ → UInt8)

/-- `tty_gotoxy`. -/
def gotoxy (d : Picture) (x y : ℤ) : Picture := { d with screen := (ttyGotoxy d.screen x y).2 }

/-- `tty_handle_scroll`. -/
def handleScroll (d : Picture) : Picture where
  screen := ttyHandleScroll d.screen
  video :=
    match fb.type with
    | .rgb => framebufferScroll fb fb.charHeight d.video
    | .text => framebufferScroll fb 1 d.video

/-- `tty_write_char_at`. -/
def writeCharAt (d : Picture) (x y : ℤ) (c color : UInt8) : Picture where
  screen := ttyWriteCharAt d.screen x y c color
  video := stores d.video (ttyDrawCharFramebuffer fb ascii x y c color)

def place (d : Picture) (x y : ℤ) : Picture :=
  { d with screen := { d.screen with posX := x, posY := y } }

def writeTab : (l : ℕ) → Picture → Picture
  | 0, d => d
  | l + 1, d =>
    if d.screen.posX < d.screen.width then
      writeTab l ((d.writeCharAt fb ascii d.screen.posX d.screen.posY 32 d.screen.color).place
        (d.screen.posX + 1) d.screen.posY)
    else d

/-- `case '\b'`. -/
def writeBackspace (d : Picture) : Picture :=
  if d.screen.posX = 0 ∧ d.screen.posY = 0 then d
  else
    let d' :=
      if d.screen.posX - 1 = -1 then d.place (d.screen.width - 1) (d.screen.posY - 1)
      else d.place (d.screen.posX - 1) d.screen.posY
    d'.writeCharAt fb ascii d'.screen.posX d'.screen.posY 32 d'.screen.color

/-- `case '\n'`. -/
def writeNewline (d : Picture) : Picture :=
  if d.screen.posY + 1 = d.screen.height then d.handleScroll fb
  else d.gotoxy 0 (d.screen.posY + 1)

/-- The characters without a `case` of their own. -/
def writeGlyph (d : Picture) (c : UInt8) : Picture :=
  let d' :=
    if d.screen.posY * d.screen.width + d.screen.posX = d.screen.width * d.screen.height then
      d.handleScroll fb
    else d
  let t := d'.writeCharAt fb ascii d'.screen.posX d'.screen.posY c d'.screen.color
  if t.screen.posX + 1 = t.screen.width then t.place 0 (t.screen.posY + 1)
  else t.place (t.screen.posX + 1) t.screen.posY

/-- `tty_write_char`. -/
def writeChar (d : Picture) (c : UInt8) : Picture :=
  if c = 8 then d.writeBackspace fb ascii
  else if c = 9 then writeTab fb ascii (8 - d.screen.posX.tmod 8).toNat d
  else if c = 13 then d.gotoxy 0 d.screen.posY
  else if c = 10 then d.writeNewline fb
  else d.writeGlyph fb ascii c

/-- `tty_setcolor`. -/
def setcolor (d : Picture) (c : UInt8) : Picture := { d with screen := { d.screen with color := c } }

/-- `tty_clear`. -/
def clear (d : Picture) : Picture :=
  let s := d.screen
  let text : ℤ → UInt16 := fun i =>
    if 0 ≤ i ∧ i < s.width * s.height then (s.color.toUInt16 <<< 8) ||| 32 else s.textBuffer i
  let s' := { s with textBuffer := text }
  gotoxy ⟨s', stores d.video (ttyFlushTextBuffer fb ascii s')⟩ 0 0

end Picture

/-- The calls that draw on a terminal. -/
inductive TtyCall
  | writeChar (c : UInt8)
  | setcolor (c : UInt8)
  | clear
  deriving DecidableEq

def pictureStep (fb : Video) (ascii : ℤ → ℤ → UInt8) (d : Picture) : TtyCall → Option Picture
  | .writeChar c => some (d.writeChar fb ascii c)
  | .setcolor c => some (d.setcolor c)
  | .clear => some (d.clear fb ascii)

/-- A tab stays in its row, and a drawn character is one of ASCII. -/
def PictureAllowed (fb : Video) (d : Picture) : TtyCall → Prop
  | .writeChar c =>
    (c = 9 → d.screen.posY < d.screen.height ∧ tabStop d.screen.posX < d.screen.width) ∧
      (fb.type = .rgb → c < 128)
  | _ => True

instance (fb : Video) (d : Picture) (call : TtyCall) : Decidable (PictureAllowed fb d call) := by
  cases call <;> unfold PictureAllowed <;> infer_instance

/-! ### The picture is made of tiles -/

/-- The bytes of a point in memory. -/
def Video.depth (fb : Video) : ℤ := fb.bpp / 8

def Video.used (fb : Video) : ℤ :=
  match fb.type with
  | .rgb => 3
  | .text => 2

/-- The depth of a point and the lines of the memory are as the drawing assumes. -/
structure Video.Fits (fb : Video) : Prop where
  rgb : fb.type = .rgb → (fb.bpp = 24 ∨ fb.bpp = 32) ∧ fb.width * fb.depth ≤ fb.pitch
  text : fb.type = .text → fb.bpp = 16 ∧ fb.pitch = 2 * fb.width
  columns : 1 ≤ fb.columns
  rows : 1 ≤ fb.rows

/-- Byte `b` of point `(i, j)` of the character in column `x` and row `y`. -/
def Video.spot (fb : Video) (x y i j b : ℤ) : ℤ :=
  (y * fb.charHeight + i) * fb.pitch + ((x * fb.charWidth + j) * fb.depth + b)

def Video.look (fb : Video) (ascii : ℤ → ℤ → UInt8) (c color : UInt8) (i j b : ℤ) : UInt8 :=
  match fb.type with
  | .rgb => UInt8.ofNat (pointColor fb ascii c color i j >>> (8 * b.toNat))
  | .text => UInt8.ofNat ((cellValue color c).toNat >>> (8 * b.toNat))

/-- The place of a byte in a character. -/
structure Video.InTile (fb : Video) (i j b : ℤ) : Prop where
  line : 0 ≤ i ∧ i < fb.charHeight
  point : 0 ≤ j ∧ j < fb.charWidth
  byte : 0 ≤ b ∧ b < fb.used

theorem mem_upTo {n k : ℤ} : k ∈ upTo n ↔ 0 ≤ k ∧ k < n := by
  simp only [upTo, List.mem_map, List.mem_range]
  constructor
  · rintro ⟨m, hm, rfl⟩
    exact ⟨Int.natCast_nonneg m, by simp only [Int.ofNat_eq_natCast]; omega⟩
  · rintro ⟨h0, hk⟩
    exact ⟨k.toNat, by omega, Int.toNat_of_nonneg h0⟩

section Tiles
variable {fb : Video} {ascii : ℤ → ℤ → UInt8} {x y x' y' i j b i' j' b' : ℤ} {c color : UInt8}

theorem Video.Fits.bpp_eq (h : fb.Fits) : fb.bpp = 8 * fb.depth := by
  rw [Video.depth]
  cases htype : fb.type with
  | rgb =>
    obtain ⟨hbpp, -⟩ := h.rgb htype
    omega
  | text =>
    obtain ⟨hbpp, -⟩ := h.text htype
    omega

theorem Video.Fits.used_le (h : fb.Fits) : fb.used ≤ fb.depth := by
  rw [Video.depth, Video.used]
  cases htype : fb.type with
  | rgb =>
    obtain ⟨hbpp, -⟩ := h.rgb htype
    dsimp only
    omega
  | text =>
    obtain ⟨hbpp, -⟩ := h.text htype
    dsimp only
    omega

theorem Video.Fits.width_le (h : fb.Fits) : fb.width * fb.depth ≤ fb.pitch := by
  cases htype : fb.type with
  | rgb => exact (h.rgb htype).2
  | text =>
    obtain ⟨hbpp, hpitch⟩ := h.text htype
    rw [Video.depth, hbpp, hpitch]
    omega

theorem Video.charWidth_pos (fb : Video) : 0 < fb.charWidth := by
  rw [Video.charWidth]
  cases fb.type <;> decide

theorem Video.charHeight_pos (fb : Video) : 0 < fb.charHeight := by
  rw [Video.charHeight]
  cases fb.type <;> decide

theorem mem_draw (h : fb.Fits) {s : ℤ × UInt8} :
    s ∈ ttyDrawCharFramebuffer fb ascii x y c color ↔
      ∃ i j b, fb.InTile i j b ∧ s = (fb.spot x y i j b, fb.look ascii c color i j b) := by
  rw [ttyDrawCharFramebuffer]
  cases htype : fb.type with
  | rgb =>
    have hplace : ∀ i j : ℤ, (y * fb.charHeight + i) * fb.pitch + (x * fb.charWidth + j) * fb.bpp / 8 =
        (y * fb.charHeight + i) * fb.pitch + (x * fb.charWidth + j) * fb.depth := by
      intro i j
      rw [h.bpp_eq, show (x * fb.charWidth + j) * (8 * fb.depth) = 8 * ((x * fb.charWidth + j) * fb.depth)
        by ring, Int.mul_ediv_cancel_left _ (by decide)]
    simp only [List.mem_flatMap, mem_upTo, framebufferRgbDrawPixel, hplace, List.mem_cons,
      List.not_mem_nil, or_false, Video.spot, Video.look, htype]
    constructor
    · rintro ⟨i, hi, j, hj, hs⟩
      rcases hs with rfl | rfl | rfl
      · exact ⟨i, j, 0, ⟨hi, hj, by simp [Video.used, htype]⟩, by rw [add_assoc]; rfl⟩
      · exact ⟨i, j, 1, ⟨hi, hj, by simp [Video.used, htype]⟩, by rw [add_assoc]; rfl⟩
      · exact ⟨i, j, 2, ⟨hi, hj, by simp [Video.used, htype]⟩, by rw [add_assoc]; rfl⟩
    · rintro ⟨i, j, b, ⟨hi, hj, hb⟩, rfl⟩
      simp only [Video.used, htype] at hb
      refine ⟨i, hi, j, hj, ?_⟩
      obtain rfl | rfl | rfl : b = 0 ∨ b = 1 ∨ b = 2 := by omega
      · exact .inl (by rw [add_assoc]; rfl)
      · exact .inr (.inl (by rw [add_assoc]; rfl))
      · exact .inr (.inr (by rw [add_assoc]; rfl))
  | text =>
    obtain ⟨hbpp, hpitch⟩ := h.text htype
    have hspot : ∀ b : ℤ, fb.spot x y 0 0 b = 2 * (y * fb.width + x) + b := by
      intro b
      simp only [Video.spot, Video.charHeight, Video.charWidth, Video.depth, htype, hbpp, hpitch]
      ring
    simp only [framebufferTextDrawChar, List.mem_cons, List.not_mem_nil, or_false, Video.look, htype]
    constructor
    · have hzero : (0 : ℤ) ≤ 0 ∧ (0 : ℤ) < fb.charHeight := ⟨le_rfl, fb.charHeight_pos⟩
      have hzero' : (0 : ℤ) ≤ 0 ∧ (0 : ℤ) < fb.charWidth := ⟨le_rfl, fb.charWidth_pos⟩
      rintro (rfl | rfl)
      · exact ⟨0, 0, 0, ⟨hzero, hzero', by simp [Video.used, htype]⟩, by rw [hspot]; rfl⟩
      · exact ⟨0, 0, 1, ⟨hzero, hzero', by simp [Video.used, htype]⟩, by rw [hspot]; rfl⟩
    · rintro ⟨i, j, b, ⟨hi, hj, hb⟩, rfl⟩
      simp only [Video.charHeight, Video.charWidth, Video.used, htype] at hi hj hb
      obtain rfl : i = 0 := by omega
      obtain rfl : j = 0 := by omega
      obtain rfl | rfl : b = 0 ∨ b = 1 := by omega
      · exact .inl (by rw [hspot]; rfl)
      · exact .inr (by rw [hspot]; rfl)

theorem Video.point_lt (hx : 0 ≤ x) (hx' : x < fb.columns) (hj : 0 ≤ j ∧ j < fb.charWidth) :
    0 ≤ x * fb.charWidth + j ∧ x * fb.charWidth + j < fb.width := by
  have hcell : 0 ≤ x * fb.charWidth + j ∧ x * fb.charWidth + j < fb.charWidth * fb.columns :=
    index_inBounds hj.1 hj.2 hx hx'
  have hle : fb.charWidth * fb.columns ≤ fb.width := Int.mul_ediv_self_le fb.charWidth_pos.ne'
  omega

theorem Video.line_lt {rows : ℤ} (hy : 0 ≤ y) (hy' : y < rows) (hi : 0 ≤ i ∧ i < fb.charHeight) :
    0 ≤ y * fb.charHeight + i ∧ y * fb.charHeight + i < fb.charHeight * rows :=
  index_inBounds hi.1 hi.2 hy hy'

theorem Video.rows_le (fb : Video) : fb.charHeight * fb.rows ≤ fb.height :=
  Int.mul_ediv_self_le fb.charHeight_pos.ne'

theorem Video.lt_rows (fb : Video) : fb.height < fb.charHeight * fb.rows + fb.charHeight := by
  have hmod := Int.emod_lt_of_pos fb.height fb.charHeight_pos
  have hdiv := Int.mul_ediv_add_emod fb.height fb.charHeight
  rw [Video.rows]
  omega

theorem Video.Fits.byte_lt (h : fb.Fits) (hx : 0 ≤ x) (hx' : x < fb.columns) (ht : fb.InTile i j b) :
    0 ≤ (x * fb.charWidth + j) * fb.depth + b ∧
      (x * fb.charWidth + j) * fb.depth + b < fb.pitch := by
  obtain ⟨h0, hlt⟩ := fb.point_lt hx hx' ht.point
  have hused := h.used_le
  have hbyte : 0 ≤ (x * fb.charWidth + j) * fb.depth + b ∧
      (x * fb.charWidth + j) * fb.depth + b < fb.depth * fb.width :=
    index_inBounds ht.byte.1 (ht.byte.2.trans_le hused) h0 hlt
  have hwidth := h.width_le
  rw [mul_comm] at hwidth
  omega

/-- Different bytes of the picture have different places. -/
theorem Video.Fits.spot_inj (h : fb.Fits) (hx : 0 ≤ x) (hx' : x < fb.columns) (hz : 0 ≤ x')
    (hz' : x' < fb.columns) (ht : fb.InTile i j b) (ht' : fb.InTile i' j' b')
    (heq : fb.spot x y i j b = fb.spot x' y' i' j' b') :
    x = x' ∧ y = y' ∧ i = i' ∧ j = j' ∧ b = b' := by
  obtain ⟨h0, hlt⟩ := h.byte_lt hx hx' ht
  obtain ⟨h0', hlt'⟩ := h.byte_lt hz hz' ht'
  have hused := h.used_le
  obtain ⟨hline, hbyte⟩ := (index_inj h0 hlt h0' hlt').mp heq
  obtain ⟨hpoint, rfl⟩ := (index_inj ht.byte.1 (ht.byte.2.trans_le hused) ht'.byte.1
    (ht'.byte.2.trans_le hused)).mp hbyte
  obtain ⟨rfl, rfl⟩ := (index_inj ht.line.1 ht.line.2 ht'.line.1 ht'.line.2).mp hline
  obtain ⟨rfl, rfl⟩ := (index_inj ht.point.1 ht.point.2 ht'.point.1 ht'.point.2).mp hpoint
  exact ⟨rfl, rfl, rfl, rfl, rfl⟩

/-! ### The drawn text buffer -/

theorem toNat_signed (c : UInt8) :
    c.toInt8.toInt16.toUInt16.toNat = if c < 128 then c.toNat else 65280 + c.toNat := by
  have hsign : c.toInt8.toInt16.toUInt16.toNat = (c.toBitVec.signExtend 16).toNat := rfl
  have hlt := c.toNat_lt
  have hiff : c < 128 ↔ c.toNat < 128 := UInt8.lt_iff_toNat_lt
  rw [hsign, BitVec.toNat_signExtend, BitVec.msb_eq_decide, BitVec.toNat_setWidth]
  simp only [UInt8.toNat_toBitVec, hiff, decide_eq_true_eq]
  split_ifs <;> omega

/-- Behind a negative character the color is lost. -/
theorem toNat_cellValue (c color : UInt8) :
    (cellValue color c).toNat = if c < 128 then color.toNat * 256 + c.toNat else 65280 + c.toNat := by
  have hlt := c.toNat_lt
  have hcolor := color.toNat_lt
  have hshift : (color.toUInt16 <<< 8).toNat = color.toNat <<< 8 := by
    rw [UInt16.toNat_shiftLeft, UInt8.toNat_toUInt16, Nat.shiftLeft_eq, Nat.shiftLeft_eq]
    exact Nat.mod_eq_of_lt (show color.toNat * 2 ^ 8 < 65536 by omega)
  rw [cellValue, UInt16.toNat_or, hshift, toNat_signed]
  split_ifs with h
  · rw [← Nat.shiftLeft_add_eq_or_of_lt hlt, Nat.shiftLeft_eq]
  · have hones : ∀ n < 256, n ||| 255 = 255 := by decide +kernel
    have hhigh : 65280 + c.toNat = 255 <<< 8 ||| c.toNat := by
      rw [← Nat.shiftLeft_add_eq_or_of_lt hlt]
      rfl
    rw [hhigh, ← Nat.or_assoc, ← Nat.shiftLeft_or_distrib, hones _ hcolor]

theorem low_cellValue (c color : UInt8) : (cellValue color c).toUInt8 = c := by
  apply UInt8.toNat_inj.mp
  have hlt := c.toNat_lt
  rw [UInt16.toNat_toUInt8, toNat_cellValue]
  split_ifs <;> omega

theorem high_cellValue (c color : UInt8) :
    (cellValue color c >>> 8).toUInt8 = if c < 128 then color else 255 := by
  apply UInt8.toNat_inj.mp
  have hlt := c.toNat_lt
  have hcolor := color.toNat_lt
  rw [UInt16.toNat_toUInt8, UInt16.toNat_shiftRight, toNat_cellValue, Nat.shiftRight_eq_div_pow]
  split_ifs
  · simp
    omega
  · simp
    omega
/-- Drawing what stands in the text buffer is drawing what was written to it. -/
theorem look_cellValue (hc : fb.type = .rgb → c < 128) :
    fb.look ascii (cellValue color c).toUInt8 (cellValue color c >>> 8).toUInt8 i j b =
      fb.look ascii c color i j b := by
  rw [low_cellValue, high_cellValue]
  simp only [Video.look]
  cases htype : fb.type with
  | rgb => rw [if_pos (hc htype)]
  | text =>
    have hcell : (cellValue (if c < 128 then color else 255) c).toNat = (cellValue color c).toNat := by
      rw [toNat_cellValue, toNat_cellValue]
      split_ifs <;> rfl
    dsimp only
    rw [hcell]

theorem look_zero : fb.look ascii 0 0 i j b = 0 := by
  rw [Video.look]
  cases fb.type with
  | rgb => simp [pointColor, vgacolorToRgb]
  | text =>
    dsimp only
    rw [toNat_cellValue, if_pos (by decide)]
    simp

end Tiles

/-- Every byte of the picture is the one that drawing the text buffer would store. -/
def Rendered (fb : Video) (ascii : ℤ → ℤ → UInt8) (text : ℤ → UInt16) (video : ℤ → UInt8) : Prop :=
  ∀ x y i j b, 0 ≤ x → x < fb.columns → 0 ≤ y → y < fb.rows → fb.InTile i j b →
    video (fb.spot x y i j b) = fb.look ascii (text (y * fb.columns + x)).toUInt8
      (text (y * fb.columns + x) >>> 8).toUInt8 i j b

/-- The lines below the last row are black. -/
def Black (fb : Video) (video : ℤ → UInt8) : Prop :=
  ∀ line off, fb.charHeight * fb.rows ≤ line → line < fb.height → 0 ≤ off → off < fb.pitch →
    video (line * fb.pitch + off) = 0

section Drawing
variable {fb : Video} {ascii : ℤ → ℤ → UInt8} {s : Screen} {text : ℤ → UInt16} {video : ℤ → UInt8}
  {x y : ℤ} {c color : UInt8}

/-- The stores of `tty_flush_text_buffer`. -/
theorem mem_flush (h : fb.Fits) (hw : s.width = fb.columns) (hh : s.height = fb.rows)
    {e : ℤ × UInt8} : e ∈ ttyFlushTextBuffer fb ascii s ↔
      ∃ x y i j b, (0 ≤ x ∧ x < fb.columns) ∧ (0 ≤ y ∧ y < fb.rows) ∧ fb.InTile i j b ∧
        e = (fb.spot x y i j b, fb.look ascii (s.textBuffer (y * fb.columns + x)).toUInt8
          (s.textBuffer (y * fb.columns + x) >>> 8).toUInt8 i j b) := by
  simp only [ttyFlushTextBuffer, List.mem_flatMap, mem_upTo, mem_draw h, hw, hh]
  constructor
  · rintro ⟨x, hx, y, hy, i, j, b, ht, rfl⟩
    exact ⟨x, y, i, j, b, hx, hy, ht, rfl⟩
  · rintro ⟨x, y, i, j, b, hx, hy, ht, rfl⟩
    exact ⟨x, hx, y, hy, i, j, b, ht, rfl⟩

/-- A drawn text buffer need not be drawn again. -/
theorem Rendered.flush (h : fb.Fits) (hw : s.width = fb.columns) (hh : s.height = fb.rows)
    (hr : Rendered fb ascii s.textBuffer video) :
    stores video (ttyFlushTextBuffer fb ascii s) = video := by
  apply stores_same
  intro e he
  obtain ⟨x, y, i, j, b, ⟨hx, hx'⟩, ⟨hy, hy'⟩, ht, rfl⟩ := (mem_flush h hw hh).mp he
  exact hr x y i j b hx hx' hy hy' ht

/-- Drawing the text buffer draws it. -/
theorem Rendered.of_flush (h : fb.Fits) (hw : s.width = fb.columns) (hh : s.height = fb.rows) :
    Rendered fb ascii s.textBuffer (stores video (ttyFlushTextBuffer fb ascii s)) := by
  intro x y i j b hx hx' hy hy' ht
  apply stores_of_mem
  · exact (mem_flush h hw hh).mpr ⟨x, y, i, j, b, ⟨hx, hx'⟩, ⟨hy, hy'⟩, ht, rfl⟩
  · intro e he heq
    obtain ⟨x', y', i', j', b', ⟨hz, hz'⟩, -, ht', rfl⟩ := (mem_flush h hw hh).mp he
    obtain ⟨rfl, rfl, rfl, rfl, rfl⟩ := h.spot_inj hz hz' hx hx' ht' ht heq
    rfl

/-- The lines below the last row are not drawn on. -/
theorem Black.stores (h : fb.Fits) (hb : Black fb video) {l : List (ℤ × UInt8)}
    (hl : ∀ e ∈ l, ∃ x y i j b, (0 ≤ x ∧ x < fb.columns) ∧ (0 ≤ y ∧ y < fb.rows) ∧
      fb.InTile i j b ∧ e.1 = fb.spot x y i j b) : Black fb (Lib.stores video l) := by
  intro line off hline hline' hoff hoff'
  rw [stores_of_notMem]
  · exact hb line off hline hline' hoff hoff'
  · intro e he heq
    obtain ⟨x, y, i, j, b, ⟨hx, hx'⟩, ⟨hy, hy'⟩, ht, hspot⟩ := hl e he
    obtain ⟨h0, hlt⟩ := h.byte_lt hx hx' ht
    obtain ⟨heq', -⟩ := (index_inj h0 hlt hoff hoff').mp (hspot.symm.trans heq)
    obtain ⟨-, hlast⟩ := Video.line_lt hy hy' ht.line
    omega

theorem Rendered.write (h : fb.Fits) (hr : Rendered fb ascii text video) (hx : 0 ≤ x)
    (hx' : x < fb.columns) (hc : fb.type = .rgb → c < 128) :
    Rendered fb ascii (Function.update text (y * fb.columns + x) (cellValue color c))
      (Lib.stores video (ttyDrawCharFramebuffer fb ascii x y c color)) := by
  intro x' y' i j b hz hz' hy hy' ht
  have hold := hr x' y' i j b hz hz' hy hy' ht
  by_cases hcell : x' = x ∧ y' = y
  · obtain ⟨rfl, rfl⟩ := hcell
    rw [Function.update_self, look_cellValue hc]
    apply stores_of_mem
    · exact (mem_draw h).mpr ⟨i, j, b, ht, rfl⟩
    · intro e he heq
      obtain ⟨i', j', b', ht', rfl⟩ := (mem_draw h).mp he
      obtain ⟨-, -, rfl, rfl, rfl⟩ := h.spot_inj hx hx' hx hx' ht' ht heq
      rfl
  · have hindex : y' * fb.columns + x' ≠ y * fb.columns + x := by
      intro heq
      obtain ⟨rfl, rfl⟩ := (index_inj hz hz' hx hx').mp heq
      exact hcell ⟨rfl, rfl⟩
    rw [Function.update_of_ne hindex, stores_of_notMem, hold]
    intro e he heq
    obtain ⟨i', j', b', ht', rfl⟩ := (mem_draw h).mp he
    obtain ⟨rfl, rfl, -⟩ := h.spot_inj hx hx' hz hz' ht' ht heq
    exact hcell ⟨rfl, rfl⟩

/-- A byte of a line after the lines have moved. -/
theorem framebufferScroll_line {n line off : ℤ} (h0 : 0 ≤ line) (hn : 0 ≤ n) (hoff : 0 ≤ off)
    (hoff' : off < fb.pitch) : framebufferScroll fb n video (line * fb.pitch + off) =
      if line < fb.height - n then video ((line + n) * fb.pitch + off)
      else if line < fb.height then 0 else video (line * fb.pitch + off) := by
  have hpitch : 0 ≤ fb.pitch := by omega
  have hlow : 0 ≤ line * fb.pitch + off := by positivity
  have hiff : ∀ m : ℤ, line * fb.pitch + off < fb.pitch * m ↔ line < m := by
    intro m
    constructor
    · intro hlt
      by_contra hge
      have hmul : fb.pitch * m ≤ fb.pitch * line := mul_le_mul_of_nonneg_left (by omega) hpitch
      rw [mul_comm fb.pitch line] at hmul
      omega
    · intro hlt
      have hmul : fb.pitch * (line + 1) ≤ fb.pitch * m := mul_le_mul_of_nonneg_left hlt hpitch
      have hsucc : fb.pitch * (line + 1) = line * fb.pitch + fb.pitch := by ring
      omega
  have hkept := hiff (fb.height - n)
  have hall := hiff fb.height
  have hsum : fb.pitch * (fb.height - n) + fb.pitch * n = fb.pitch * fb.height := by ring
  rw [framebufferScroll, hsum]
  split_ifs with h1 h2 h3 h4 h5 h6
  · congr 1
    ring
  all_goals first | rfl | omega

theorem Rendered.scroll (h : fb.Fits) (hw : s.width = fb.columns) (hh : s.height = fb.rows)
    (hr : Rendered fb ascii s.textBuffer video) (hb : Black fb video) :
    Rendered fb ascii (ttyHandleScroll s).textBuffer (framebufferScroll fb fb.charHeight video) := by
  intro x y i j b hx hx' hy hy' ht
  have hheight := fb.charHeight_pos
  have hrows := fb.rows_le
  have hlast := fb.lt_rows
  have hi := ht.line
  obtain ⟨h0, hlt⟩ := h.byte_lt hx hx' ht
  obtain ⟨hline, hline'⟩ := Video.line_lt hy hy' hi
  have hcell := ttyHandleScroll_cell hx (hw ▸ hx') hy (hh ▸ hy')
  rw [hw, hh] at hcell
  rw [hcell, Video.spot, framebufferScroll_line hline hheight.le h0 hlt]
  by_cases hup : y < fb.rows - 1
  · -- the row below moves up
    obtain ⟨-, hmoved⟩ := Video.line_lt hy hup hi
    have hmul : fb.charHeight * (fb.rows - 1) = fb.charHeight * fb.rows - fb.charHeight := by ring
    rw [if_pos (by omega), if_pos hup,
      ← hr x (y + 1) i j b hx hx' (by omega) (by omega) ht, Video.spot]
    congr 1
    ring
  · -- the last row is black
    have hblank : fb.look ascii (0 : UInt16).toUInt8 ((0 : UInt16) >>> 8).toUInt8 i j b = 0 := look_zero
    rw [if_neg hup, hblank]
    obtain rfl : y = fb.rows - 1 := by omega
    have hmul : (fb.rows - 1) * fb.charHeight + fb.charHeight = fb.charHeight * fb.rows := by ring
    split_ifs
    · exact hb _ _ (by omega) (by omega) h0 hlt
    · rfl
    · omega

theorem Black.scroll (h : fb.Fits) :
    Black fb (framebufferScroll fb fb.charHeight video) := by
  intro line off hline hline' hoff hoff'
  have hheight := fb.charHeight_pos
  have hlast := fb.lt_rows
  have hrows : 0 ≤ fb.charHeight * fb.rows := mul_nonneg hheight.le (by have := h.rows; omega)
  rw [framebufferScroll_line (by omega) hheight.le hoff hoff', if_neg (by omega), if_pos hline']

end Drawing

/-! ### Calls -/

/-- The text buffer of a picture has the size of the framebuffer, and it is drawn. -/
structure Shown (fb : Video) (ascii : ℤ → ℤ → UInt8) (d : Picture) : Prop where
  width : d.screen.width = fb.columns
  height : d.screen.height = fb.rows
  rendered : Rendered fb ascii d.screen.textBuffer d.video
  black : Black fb d.video

namespace Shown
variable {fb : Video} {ascii : ℤ → ℤ → UInt8} {d : Picture} {x y : ℤ} {c color : UInt8}

theorem place (h : Shown fb ascii d) (x y : ℤ) : Shown fb ascii (d.place x y) :=
  ⟨h.width, h.height, h.rendered, h.black⟩

theorem gotoxy (h : Shown fb ascii d) (x y : ℤ) : Shown fb ascii (d.gotoxy x y) where
  width := (ttyGotoxy_width d.screen x y).trans h.width
  height := (ttyGotoxy_height d.screen x y).trans h.height
  rendered := by
    rw [Picture.gotoxy, ttyGotoxy_textBuffer]
    exact h.rendered
  black := h.black

theorem writeCharAt (hfb : fb.Fits) (h : Shown fb ascii d) (hx : 0 ≤ x) (hx' : x < d.screen.width)
    (hy : 0 ≤ y) (hy' : y < d.screen.height) (hc : fb.type = .rgb → c < 128) :
    Shown fb ascii (d.writeCharAt fb ascii x y c color) where
  width := h.width
  height := h.height
  rendered := by
    have hwrite : Rendered fb ascii
        (Function.update d.screen.textBuffer (y * fb.columns + x) (cellValue color c))
        (Lib.stores d.video (ttyDrawCharFramebuffer fb ascii x y c color)) :=
      h.rendered.write hfb hx (h.width ▸ hx') hc
    rw [← h.width] at hwrite
    exact hwrite
  black := h.black.stores hfb fun e he => by
    obtain ⟨i, j, b, ht, rfl⟩ := (mem_draw hfb).mp he
    exact ⟨x, y, i, j, b, ⟨hx, h.width ▸ hx'⟩, ⟨hy, h.height ▸ hy'⟩, ht, rfl⟩

theorem handleScroll (hfb : fb.Fits) (h : Shown fb ascii d) : Shown fb ascii (d.handleScroll fb) := by
  have hmoves := Moves.handleScroll (s := d.screen) (h.width ▸ hfb.columns) (h.height ▸ hfb.rows)
  have hvideo : (d.handleScroll fb).video = framebufferScroll fb fb.charHeight d.video := by
    unfold Picture.handleScroll Video.charHeight
    cases fb.type <;> rfl
  refine ⟨hmoves.width.trans h.width, hmoves.height.trans h.height, ?_, ?_⟩
  · rw [hvideo]
    exact h.rendered.scroll hfb h.width h.height h.black
  · rw [hvideo]
    exact Black.scroll hfb

theorem writeTab (hfb : fb.Fits) (l : ℕ) (h : Shown fb ascii d) (hx : 0 ≤ d.screen.posX)
    (hy : 0 ≤ d.screen.posY) (hy' : d.screen.posY < d.screen.height) :
    Shown fb ascii (d.writeTab fb ascii l) := by
  induction l generalizing d with
  | zero => exact h
  | succ l ih =>
    rw [Picture.writeTab]
    split_ifs with hlt
    · have hcell : Shown fb ascii
          (d.writeCharAt fb ascii d.screen.posX d.screen.posY 32 d.screen.color) :=
        h.writeCharAt hfb hx hlt hy hy' fun _ => by decide
      exact ih (hcell.place _ _) (show 0 ≤ d.screen.posX + 1 by omega) hy hy'
    · exact h

theorem writeBackspace (hfb : fb.Fits) (h : Shown fb ascii d)
    (hon : OnScreen d.screen.width d.screen.height d.screen.posX d.screen.posY) :
    Shown fb ascii (d.writeBackspace fb ascii) := by
  have hw : 1 ≤ d.screen.width := h.width ▸ hfb.columns
  have hh : 1 ≤ d.screen.height := h.height ▸ hfb.rows
  rw [OnScreen] at hon
  simp only [Picture.writeBackspace]
  split_ifs with hcorner hleft
  · exact h
  · exact (h.place (d.screen.width - 1) (d.screen.posY - 1)).writeCharAt hfb
      (show 0 ≤ d.screen.width - 1 by omega) (show d.screen.width - 1 < d.screen.width by omega)
      (show 0 ≤ d.screen.posY - 1 by omega) (show d.screen.posY - 1 < d.screen.height by omega)
      fun _ => by decide
  · exact (h.place (d.screen.posX - 1) d.screen.posY).writeCharAt hfb
      (show 0 ≤ d.screen.posX - 1 by omega) (show d.screen.posX - 1 < d.screen.width by omega)
      (show 0 ≤ d.screen.posY by omega) (show d.screen.posY < d.screen.height by omega)
      fun _ => by decide

theorem writeNewline (hfb : fb.Fits) (h : Shown fb ascii d) :
    Shown fb ascii (d.writeNewline fb) := by
  rw [Picture.writeNewline]
  split_ifs
  · exact h.handleScroll hfb
  · exact h.gotoxy _ _

theorem advance (hfb : fb.Fits) (h : Shown fb ascii d) (hx : 0 ≤ d.screen.posX)
    (hx' : d.screen.posX < d.screen.width) (hy : 0 ≤ d.screen.posY)
    (hy' : d.screen.posY < d.screen.height) (hc : fb.type = .rgb → c < 128) :
    Shown fb ascii
      (let t := d.writeCharAt fb ascii d.screen.posX d.screen.posY c d.screen.color
      if t.screen.posX + 1 = t.screen.width then t.place 0 (t.screen.posY + 1)
      else t.place (t.screen.posX + 1) t.screen.posY) := by
  have hcell : Shown fb ascii
      (d.writeCharAt fb ascii d.screen.posX d.screen.posY c d.screen.color) :=
    h.writeCharAt hfb hx hx' hy hy' hc
  dsimp only
  split_ifs
  · exact hcell.place _ _
  · exact hcell.place _ _

theorem writeGlyph (hfb : fb.Fits) (h : Shown fb ascii d)
    (hon : OnScreen d.screen.width d.screen.height d.screen.posX d.screen.posY)
    (hc : fb.type = .rgb → c < 128) : Shown fb ascii (d.writeGlyph fb ascii c) := by
  have hw : 1 ≤ d.screen.width := h.width ▸ hfb.columns
  have hh : 1 ≤ d.screen.height := h.height ▸ hfb.rows
  rw [Picture.writeGlyph]
  by_cases hend : d.screen.posY * d.screen.width + d.screen.posX = d.screen.width * d.screen.height
  · rw [if_pos hend]
    have hmoves := Moves.handleScroll hw hh
    have hx : (d.handleScroll fb).screen.posX = 0 := hmoves.posX
    have hy : (d.handleScroll fb).screen.posY = d.screen.height - 1 := hmoves.posY
    have hwidth : (d.handleScroll fb).screen.width = d.screen.width := hmoves.width
    have hheight : (d.handleScroll fb).screen.height = d.screen.height := hmoves.height
    exact (h.handleScroll hfb).advance hfb (by omega) (by omega) (by omega) (by omega) hc
  · rw [if_neg hend]
    have hrow := mt hon.end_iff.mpr hend
    rw [OnScreen] at hon
    exact h.advance hfb (by omega) (by omega) (by omega) (by omega) hc

theorem writeChar (hfb : fb.Fits) (h : Shown fb ascii d)
    (hon : OnScreen d.screen.width d.screen.height d.screen.posX d.screen.posY)
    (hfit : c = 9 → d.screen.posY < d.screen.height ∧ tabStop d.screen.posX < d.screen.width)
    (hc : fb.type = .rgb → c < 128) : Shown fb ascii (d.writeChar fb ascii c) := by
  rw [Picture.writeChar]
  split_ifs with hback htab
  · exact h.writeBackspace hfb hon
  · obtain ⟨hrow, -⟩ := hfit htab
    rw [OnScreen] at hon
    exact h.writeTab hfb _ (by omega) (by omega) hrow
  · exact h.gotoxy _ _
  · exact h.writeNewline hfb
  · exact h.writeGlyph hfb hon hc

theorem setcolor (h : Shown fb ascii d) (c : UInt8) : Shown fb ascii (d.setcolor c) :=
  ⟨h.width, h.height, h.rendered, h.black⟩

/-- `tty_clear` draws everything. -/
theorem clear (hfb : fb.Fits) (hw : d.screen.width = fb.columns) (hh : d.screen.height = fb.rows)
    (hb : Black fb d.video) : Shown fb ascii (d.clear fb ascii) := by
  apply gotoxy
  refine ⟨hw, hh, Rendered.of_flush hfb hw hh, hb.stores hfb fun e he => ?_⟩
  obtain ⟨x, y, i, j, b, hx, hy, ht, rfl⟩ := (mem_flush hfb (by exact hw) (by exact hh)).mp he
  exact ⟨x, y, i, j, b, hx, hy, ht, rfl⟩

end Shown

section Calls
variable {fb : Video} {ascii : ℤ → ℤ → UInt8} {d : Picture}

/-- Drawing does not change what the terminal does. -/
theorem writeTab_screen (l : ℕ) (d : Picture) :
    (d.writeTab fb ascii l).screen = writeTab l d.screen := by
  induction l generalizing d with
  | zero => rfl
  | succ l ih =>
    rw [Picture.writeTab, writeTab]
    split_ifs
    · exact ih _
    · rfl

theorem writeChar_screen (d : Picture) (c : UInt8) :
    (d.writeChar fb ascii c).screen = ttyWriteChar d.screen c := by
  rw [Picture.writeChar, ttyWriteChar]
  split_ifs
  · simp only [Picture.writeBackspace, writeBackspace]
    split_ifs <;> rfl
  · exact writeTab_screen _ d
  · rfl
  · rw [Picture.writeNewline, writeNewline]
    split_ifs <;> rfl
  · simp only [Picture.writeGlyph, writeGlyph]
    split_ifs <;> first | rfl | contradiction

/-- What holds of the picture between two calls. -/
structure Standing (fb : Video) (ascii : ℤ → ℤ → UInt8) (d : Picture) : Prop
    extends Shown fb ascii d where
  onScreen : OnScreen d.screen.width d.screen.height d.screen.posX d.screen.posY

theorem Standing.clear (hfb : fb.Fits) (hw : d.screen.width = fb.columns)
    (hh : d.screen.height = fb.rows) (hb : Black fb d.video) :
    Standing fb ascii (d.clear fb ascii) where
  toShown := Shown.clear hfb hw hh hb
  onScreen := by
    have hcolumns := hfb.columns
    have hrows := hfb.rows
    have hzero : (d.clear fb ascii).screen.posX = 0 ∧ (d.clear fb ascii).screen.posY = 0 := by
      simp only [Picture.clear, Picture.gotoxy, ttyGotoxy, lt_irrefl, if_false]
      rw [if_neg (by omega)]
      exact ⟨rfl, rfl⟩
    have hshown : Shown fb ascii (d.clear fb ascii) := Shown.clear hfb hw hh hb
    rw [hshown.width, hshown.height, hzero.1, hzero.2]
    exact .inl ⟨le_rfl, by omega, le_rfl, by omega⟩

theorem Standing.step (hfb : fb.Fits) (h : Standing fb ascii d) {call : TtyCall} {d' : Picture}
    (hc : PictureAllowed fb d call) (hs : pictureStep fb ascii d call = some d') :
    Standing fb ascii d' := by
  cases call with
  | writeChar c =>
    obtain rfl := Option.some.inj hs
    obtain ⟨hfit, hascii⟩ := hc
    have hmoves := Moves.writeChar c (h.width ▸ hfb.columns) (h.height ▸ hfb.rows) h.onScreen hfit
    refine ⟨h.toShown.writeChar hfb h.onScreen hfit hascii, ?_⟩
    rw [writeChar_screen, hmoves.width, hmoves.height, hmoves.posX, hmoves.posY]
    exact OnScreen.caret (p := (d.screen.posX, d.screen.posY)) (h.width ▸ hfb.columns)
      (h.height ▸ hfb.rows) h.onScreen c hfit
  | setcolor c =>
    obtain rfl := Option.some.inj hs
    exact ⟨h.toShown.setcolor c, h.onScreen⟩
  | clear =>
    obtain rfl := Option.some.inj hs
    exact .clear hfb h.width h.height h.black

end Calls

/-- After `tty_clear` and any calls that write ASCII characters with tabs that fit, set the color or
clear the screen again, drawing all of the text buffer would not change a byte of the memory of the
card, on a text framebuffer as on one of points: the scrolled lines are the lines of the scrolled
text. -/
theorem redraw_changes_nothing {fb : Video} (hfb : fb.Fits) (ascii : ℤ → ℤ → UInt8)
    {d d' : Picture} (hw : d.screen.width = fb.columns) (hh : d.screen.height = fb.rows)
    (hb : Black fb d.video) {calls : List TtyCall}
    (hrun : Run (pictureStep fb ascii) (PictureAllowed fb) (d.clear fb ascii) calls d') :
    stores d'.video (ttyFlushTextBuffer fb ascii d'.screen) = d'.video := by
  have hstanding : Standing fb ascii d' :=
    hrun.invariant (fun _ _ _ hI hc hs => Standing.step hfb hI hc hs) (.clear hfb hw hh hb)
  exact hstanding.rendered.flush hfb hstanding.width hstanding.height

/-- A framebuffer of 18 by 32 points. -/
def videoExample : Video := ⟨.rgb, 72, 18, 32, 32⟩

/-- Two columns and two rows, in which a line scrolls away. -/
theorem redraw_changes_nothing_small : ∃ d',
    Run (pictureStep videoExample fun _ _ => 0x7e) (PictureAllowed videoExample)
      (Picture.clear videoExample (fun _ _ => 0x7e) ⟨⟨fun _ => 0, 2, 2, 0, 0, 7, []⟩, fun _ => 0⟩)
      [.writeChar 65, .writeChar 10, .setcolor 4, .writeChar 66, .writeChar 10] d' ∧
    stores d'.video (ttyFlushTextBuffer videoExample (fun _ _ => 0x7e) d'.screen) = d'.video := by
  have hfits : videoExample.Fits :=
    ⟨fun _ => by decide, fun h => (by cases h), by decide, by decide⟩
  have hblack : Black videoExample fun _ => 0 := fun _ _ _ _ _ _ => rfl
  have hruns : ∃ d', Run (pictureStep videoExample fun _ _ => 0x7e) (PictureAllowed videoExample)
      (Picture.clear videoExample (fun _ _ => 0x7e) ⟨⟨fun _ => 0, 2, 2, 0, 0, 7, []⟩, fun _ => 0⟩)
      [.writeChar 65, .writeChar 10, .setcolor 4, .writeChar 66, .writeChar 10] d' :=
    ⟨_, .cons (by decide) rfl (.cons (by decide) rfl (.cons (by decide) rfl
      (.cons (by decide) rfl (.cons (by decide) rfl (.nil _)))))⟩
  obtain ⟨d', hrun⟩ := hruns
  exact ⟨d', hrun, redraw_changes_nothing hfits _ rfl rfl hblack hrun⟩

end DosKernel.Console
