import Mathlib.Tactic

/-! The output side of a terminal. `tty_write` collects the bytes in the output buffer
and `tty_flush` hands them to `tty_write_char`, which moves the cursor over the text
buffer. The text buffer fits the address space, so that none of the `int`s overflows.
Drawing on the framebuffer is left out. -/

namespace DosKernel.Console

def einval : ℤ := 22

/-- What happens to the text buffer: a cell is written, or a character is done and
leaves the cursor at a position. -/
inductive Event
  | cell (index : ℤ)
  | cursor (x y : ℤ)
  deriving DecidableEq

/-- The screen side of `tty_t`, with a log of what happened to it. -/
structure Screen where
  textBuffer : ℤ → UInt16
  width : ℤ
  height : ℤ
  posX : ℤ
  posY : ℤ
  color : UInt8
  log : List Event

/-! ### The code -/

/-- `(color << 8) | c`, where `c` is a signed character. -/
def cellValue (color c : UInt8) : UInt16 := (color.toUInt16 <<< 8) ||| c.toInt8.toInt16.toUInt16

def ttyGotoxy (s : Screen) (x y : ℤ) : ℤ × Screen :=
  let x' := if x < 0 then x + s.width else x
  let y' := if y < 0 then y + s.height else y
  if s.width ≤ x' ∨ s.height ≤ y' then (-einval, s)
  else (0, { s with posX := x', posY := y' })

/-- `tty_handle_scroll`: every row moves up, and the last one is cleared. -/
def ttyHandleScroll (s : Screen) : Screen :=
  let kept := s.width * (s.height - 1)
  let moved : ℤ → UInt16 := fun i =>
    if 0 ≤ i ∧ i < kept then s.textBuffer (i + s.width)
    else if kept ≤ i ∧ i < kept + s.width then 0
    else s.textBuffer i
  (ttyGotoxy { s with textBuffer := moved } 0 (s.height - 1)).2

def ttyWriteCharAt (s : Screen) (x y : ℤ) (c color : UInt8) : Screen :=
  let index := y * s.width + x
  { s with
    textBuffer := Function.update s.textBuffer index (cellValue color c)
    log := s.log ++ [.cell index] }

def writeTab : (l : ℕ) → Screen → Screen
  | 0, s => s
  | l + 1, s =>
    if s.posX < s.width then
      writeTab l { ttyWriteCharAt s s.posX s.posY 32 s.color with posX := s.posX + 1 }
    else s

/-- `case '\b'`. -/
def writeBackspace (s : Screen) : Screen :=
  if s.posX = 0 ∧ s.posY = 0 then s
  else
    let s' :=
      if s.posX - 1 = -1 then { s with posX := s.width - 1, posY := s.posY - 1 }
      else { s with posX := s.posX - 1 }
    ttyWriteCharAt s' s'.posX s'.posY 32 s'.color

/-- `case '\n'`. -/
def writeNewline (s : Screen) : Screen :=
  if s.posY + 1 = s.height then ttyHandleScroll s else (ttyGotoxy s 0 (s.posY + 1)).2

/-- The characters without a `case` of their own. -/
def writeGlyph (s : Screen) (c : UInt8) : Screen :=
  let s' := if s.posY * s.width + s.posX = s.width * s.height then ttyHandleScroll s else s
  let t := ttyWriteCharAt s' s'.posX s'.posY c s'.color
  if t.posX + 1 = t.width then { t with posX := 0, posY := t.posY + 1 }
  else { t with posX := t.posX + 1 }

/-- `tty_write_char`; its argument `color` is not used. -/
def ttyWriteChar (s : Screen) (c : UInt8) : Screen :=
  if c = 8 then writeBackspace s
  else if c = 9 then writeTab (8 - s.posX.tmod 8).toNat s
  else if c = 13 then (ttyGotoxy s 0 s.posY).2
  else if c = 10 then writeNewline s
  else writeGlyph s c

/-- `tty_write_char`, and the cursor it leaves goes into the log. -/
def Screen.put (s : Screen) (c : UInt8) : Screen :=
  let t := ttyWriteChar s c
  { t with log := t.log ++ [.cursor t.posX t.posY] }

/-- The output buffer of `tty_t` and the screen behind it. -/
structure Output where
  outBuffer : ℕ → UInt8
  outBufferSize : ℕ
  outBufferStart : ℕ
  outBufferEnd : ℕ
  screen : Screen

/-- The loop of `tty_flush`. -/
def flushFrom (o : Output) : (fuel i : ℕ) → Screen → Screen
  | 0, _, s => s
  | fuel + 1, i, s =>
    if i = o.outBufferEnd then s
    else
      let i' := if i = o.outBufferSize then 0 else i
      flushFrom o fuel (i' + 1) (s.put (o.outBuffer i'))

def ttyFlush (o : Output) : Output :=
  { o with
    outBufferStart := 0
    outBufferEnd := 0
    screen := flushFrom o (2 * o.outBufferSize + 2) o.outBufferStart o.screen }

/-- The loop of `tty_write`. -/
def writeBytes : Output → List UInt8 → Output
  | o, [] => o
  | o, c :: buf =>
    let o' := if o.outBufferEnd = o.outBufferSize then ttyFlush o else o
    writeBytes { o' with
      outBuffer := Function.update o'.outBuffer o'.outBufferEnd c
      outBufferEnd := o'.outBufferEnd + 1 } buf

/-- `tty_write`: the number of bytes and the output afterwards. -/
def ttyWrite (o : Output) (buf : List UInt8) : ℤ × Output :=
  (buf.length, ttyFlush (writeBytes o buf))

/-- The output side of a terminal after `tty_init`, with a framebuffer that holds
`width` times `height` characters. The two buffers come from `malloc`. -/
def outputInit (outBuffer : ℕ → UInt8) (textBuffer : ℤ → UInt16) (width height : ℤ) : Output where
  outBuffer := outBuffer
  outBufferSize := 1024
  outBufferStart := 0
  outBufferEnd := 0
  screen := ⟨textBuffer, width, height, 0, 0, 7, []⟩

/-- The output after one `tty_write` after the other. -/
def writeAll (o : Output) (bufs : List (List UInt8)) : Output :=
  bufs.foldl (fun o buf => (ttyWrite o buf).2) o

/-! ### The output buffer -/

def Output.waiting (o : Output) : List UInt8 := (List.range o.outBufferEnd).map o.outBuffer

/-- The output buffer as it is between two bytes of `tty_write`. -/
structure Output.Collecting (o : Output) : Prop where
  start : o.outBufferStart = 0
  end_le : o.outBufferEnd ≤ o.outBufferSize
  pos : 0 < o.outBufferSize

theorem flushFrom_eq (o : Output) {fuel i : ℕ} (hend : o.outBufferEnd ≤ o.outBufferSize)
    (hi : i ≤ o.outBufferEnd) (hfuel : o.outBufferEnd - i < fuel) (s : Screen) :
    flushFrom o fuel i s =
      ((List.range' i (o.outBufferEnd - i)).map o.outBuffer).foldl Screen.put s := by
  induction fuel generalizing i s with
  | zero => omega
  | succ fuel ih =>
    rw [flushFrom]
    split_ifs with hdone hwrap
    · simp [hdone]
    · omega
    · rw [ih (by omega) (by omega), show o.outBufferEnd - i = o.outBufferEnd - (i + 1) + 1 by omega,
        List.range'_succ, List.map_cons, List.foldl_cons]

/-- `tty_flush` writes the waiting bytes in their order. -/
theorem Output.Collecting.flush_screen {o : Output} (h : o.Collecting) :
    (ttyFlush o).screen = o.waiting.foldl Screen.put o.screen := by
  have hend := h.end_le
  simp only [ttyFlush, h.start]
  rw [flushFrom_eq o hend (Nat.zero_le _) (by omega), Nat.sub_zero, Output.waiting,
    List.range_eq_range']

theorem Output.Collecting.flush {o : Output} (h : o.Collecting) : (ttyFlush o).Collecting :=
  ⟨rfl, Nat.zero_le _, h.pos⟩

/-- One byte joins those that wait. -/
def Output.collect (o : Output) (c : UInt8) : Output :=
  { o with
    outBuffer := Function.update o.outBuffer o.outBufferEnd c
    outBufferEnd := o.outBufferEnd + 1 }

theorem Output.collect_waiting (o : Output) (c : UInt8) :
    (o.collect c).waiting = o.waiting ++ [c] := by
  simp only [Output.waiting, Output.collect, List.range_succ, List.map_append, List.map_singleton,
    Function.update_self]
  congr 1
  apply List.map_congr_left
  intro i hi
  rw [Function.update_of_ne (List.mem_range.mp hi).ne]

/-- What the screen will show when the waiting bytes are written. -/
def Output.shown (o : Output) : Screen := o.waiting.foldl Screen.put o.screen

theorem Output.collect_shown (o : Output) (c : UInt8) : (o.collect c).shown = o.shown.put c := by
  rw [Output.shown, Output.collect_waiting, List.foldl_append]
  rfl

theorem Output.Collecting.flush_shown {o : Output} (h : o.Collecting) :
    (ttyFlush o).shown = o.shown := by
  rw [Output.shown, h.flush_screen]
  rfl

theorem Output.Collecting.writeBytes {o : Output} (h : o.Collecting) (buf : List UInt8) :
    (writeBytes o buf).Collecting ∧ (writeBytes o buf).shown = buf.foldl Screen.put o.shown := by
  induction buf generalizing o with
  | nil => exact ⟨h, rfl⟩
  | cons c buf ih =>
    rw [Console.writeBytes, List.foldl_cons]
    have hend := h.end_le
    have hpos := h.pos
    split_ifs with hfull
    · have hroom : ((ttyFlush o).collect c).Collecting := ⟨rfl, hpos, hpos⟩
      rw [← h.flush_shown, ← Output.collect_shown]
      exact ih hroom
    · have hroom : (o.collect c).Collecting :=
        ⟨h.start, by simp only [Output.collect]; omega, hpos⟩
      rw [← Output.collect_shown]
      exact ih hroom

theorem Output.Collecting.ttyWrite {o : Output} (h : o.Collecting) (buf : List UInt8) :
    (ttyWrite o buf).2.Collecting ∧ (ttyWrite o buf).2.shown = buf.foldl Screen.put o.shown := by
  obtain ⟨hcollecting, hshown⟩ := h.writeBytes buf
  exact ⟨hcollecting.flush, by rw [← hshown]; exact hcollecting.flush_shown⟩

theorem Output.Collecting.writeAll {o : Output} (h : o.Collecting) (bufs : List (List UInt8)) :
    (writeAll o bufs).shown = bufs.flatten.foldl Screen.put o.shown := by
  induction bufs generalizing o with
  | nil => rfl
  | cons buf bufs ih =>
    rw [List.flatten_cons, List.foldl_append, ← (h.ttyWrite buf).2]
    exact ih (h.ttyWrite buf).1

/-- Nothing waits after a `tty_write`. -/
theorem writeAll_shown (o : Output) (h : o.waiting = []) (bufs : List (List UInt8)) :
    (writeAll o bufs).shown = (writeAll o bufs).screen := by
  induction bufs generalizing o with
  | nil => rw [Output.shown, writeAll, List.foldl_nil, h, List.foldl_nil]
  | cons buf bufs ih => exact ih (ttyWrite o buf).2 rfl

/-! ### The cursor -/

/-- A cell of the screen, or the position behind the last one. -/
def OnScreen (width height x y : ℤ) : Prop :=
  (0 ≤ x ∧ x < width ∧ 0 ≤ y ∧ y < height) ∨ (x = 0 ∧ y = height)

instance (width height x y : ℤ) : Decidable (OnScreen width height x y) :=
  inferInstanceAs (Decidable (_ ∨ _))

/-- A cell of the text buffer is written, or the cursor is left on the screen. -/
def Event.InBounds (width height : ℤ) : Event → Prop
  | .cell index => 0 ≤ index ∧ index < width * height
  | .cursor x y => OnScreen width height x y

instance (width height : ℤ) (e : Event) : Decidable (e.InBounds width height) :=
  match e with
  | .cell _ => inferInstanceAs (Decidable (_ ∧ _))
  | .cursor _ _ => inferInstanceAs (Decidable (OnScreen _ _ _ _))

/-- The next column that is a multiple of eight. -/
def tabStop (x : ℤ) : ℤ := (x / 8 + 1) * 8

/-- Where a character takes the cursor on a screen of the given size. -/
def caret (width height : ℤ) (p : ℤ × ℤ) (c : UInt8) : ℤ × ℤ :=
  if c = 8 then
    if p = (0, 0) then p else if p.1 = 0 then (width - 1, p.2 - 1) else (p.1 - 1, p.2)
  else if c = 9 then (tabStop p.1, p.2)
  else if c = 13 then (0, p.2)
  else if c = 10 then (0, if p.2 + 1 < height then p.2 + 1 else p.2)
  else
    let y := if p.2 = height then height - 1 else p.2
    if p.1 + 1 = width then (0, y + 1) else (p.1 + 1, y)

/-- Every tab stands in a row of the screen and its tab stop is a column of it. -/
def TabsFit (width height : ℤ) : ℤ × ℤ → List UInt8 → Prop
  | _, [] => True
  | p, c :: cs => (c = 9 → p.2 < height ∧ tabStop p.1 < width) ∧
    TabsFit width height (caret width height p c) cs

theorem index_inBounds {width height x y : ℤ} (hx : 0 ≤ x) (hx' : x < width) (hy : 0 ≤ y)
    (hy' : y < height) : (Event.cell (y * width + x)).InBounds width height := by
  have hlow : 0 ≤ y * width := mul_nonneg hy (by omega)
  have hhigh : (y + 1) * width ≤ height * width := by gcongr <;> omega
  have hmul : (y + 1) * width = y * width + width := by ring
  rw [mul_comm height] at hhigh
  exact ⟨by omega, by omega⟩

section Caret
variable {width height : ℤ} {p : ℤ × ℤ}

/-- The cursor stays on the screen, unless a tab does not fit. -/
theorem OnScreen.caret (hw : 1 ≤ width) (hh : 1 ≤ height) (h : OnScreen width height p.1 p.2)
    (c : UInt8) (hfit : c = 9 → p.2 < height ∧ tabStop p.1 < width) :
    OnScreen width height (caret width height p c).1 (caret width height p c).2 := by
  obtain ⟨x, y⟩ := p
  rw [Console.caret]
  simp only [OnScreen, tabStop, Prod.mk.injEq] at h hfit ⊢
  by_cases htab : c = 9
  · obtain ⟨hrow, hstop⟩ := hfit htab
    rw [if_neg (by simp [htab]), if_pos htab]
    dsimp only
    omega
  · rw [if_neg htab]
    clear hfit
    split_ifs <;> dsimp only <;> omega

end Caret

/-- From `s` to `t` the cursor goes to a position, and all that happens is in bounds. -/
structure Moves (s t : Screen) (x y : ℤ) : Prop where
  width : t.width = s.width
  height : t.height = s.height
  posX : t.posX = x
  posY : t.posY = y
  log : ∃ es, t.log = s.log ++ es ∧ ∀ e ∈ es, e.InBounds s.width s.height

section Moving
variable {s t u : Screen} {x y x' y' : ℤ}

theorem Moves.refl (s : Screen) : Moves s s s.posX s.posY :=
  ⟨rfl, rfl, rfl, rfl, [], by simp, by simp⟩

theorem Moves.trans (h : Moves s t x y) (h' : Moves t u x' y') : Moves s u x' y' := by
  obtain ⟨es, hes, hin⟩ := h.log
  obtain ⟨es', hes', hin'⟩ := h'.log
  refine ⟨h'.width.trans h.width, h'.height.trans h.height, h'.posX, h'.posY, es ++ es', ?_, ?_⟩
  · rw [hes', hes, List.append_assoc]
  · rw [h.width, h.height] at hin'
    intro e he
    rcases List.mem_append.mp he with he | he
    · exact hin e he
    · exact hin' e he

theorem Moves.set (s : Screen) (text : ℤ → UInt16) (x y : ℤ) :
    Moves s { s with textBuffer := text, posX := x, posY := y } x y :=
  ⟨rfl, rfl, rfl, rfl, [], by simp, by simp⟩

theorem Moves.gotoxy (s : Screen) (hx : 0 ≤ x) (hx' : x < s.width) (hy : 0 ≤ y)
    (hy' : y < s.height) : Moves s (ttyGotoxy s x y).2 x y := by
  rw [ttyGotoxy, if_neg (by omega), if_neg (by omega), if_neg (by omega)]
  exact Moves.set s s.textBuffer x y

theorem gotoxy_refused (s : Screen) (hx : 0 ≤ x) (hy : 0 ≤ y) (hy' : s.height ≤ y) :
    (ttyGotoxy s x y).2 = s := by
  simp only [ttyGotoxy]
  rw [if_neg (not_lt.mpr hx), if_neg (not_lt.mpr hy), if_pos (Or.inr hy')]

theorem Moves.handleScroll (hw : 1 ≤ s.width) (hh : 1 ≤ s.height) :
    Moves s (ttyHandleScroll s) 0 (s.height - 1) := by
  rw [ttyHandleScroll]
  have hset := Moves.set s (fun i =>
    if 0 ≤ i ∧ i < s.width * (s.height - 1) then s.textBuffer (i + s.width)
    else if s.width * (s.height - 1) ≤ i ∧ i < s.width * (s.height - 1) + s.width then 0
    else s.textBuffer i) s.posX s.posY
  exact hset.trans (Moves.gotoxy _ le_rfl hw (by omega) (by dsimp only; omega))

theorem Moves.writeCharAt (s : Screen) (c color : UInt8) (hx : 0 ≤ s.posX) (hx' : s.posX < s.width)
    (hy : 0 ≤ s.posY) (hy' : s.posY < s.height) :
    Moves s (ttyWriteCharAt s s.posX s.posY c color) s.posX s.posY := by
  refine ⟨rfl, rfl, rfl, rfl, _, rfl, ?_⟩
  simpa using index_inBounds hx hx' hy hy'

/-- A tab that stays inside its row. -/
theorem Moves.writeTab (l : ℕ) (hx : 0 ≤ s.posX) (hx' : s.posX + l ≤ s.width) (hy : 0 ≤ s.posY)
    (hy' : s.posY < s.height) : Moves s (writeTab l s) (s.posX + l) s.posY := by
  induction l generalizing s with
  | zero =>
    rw [Nat.cast_zero, add_zero]
    exact Moves.refl s
  | succ l ih =>
    push_cast at hx' ⊢
    rw [Console.writeTab, if_pos (by omega)]
    have hcell := Moves.writeCharAt s 32 s.color hx (by omega) hy hy'
    have hright := hcell.trans (Moves.set _ (ttyWriteCharAt s s.posX s.posY 32 s.color).textBuffer
      (s.posX + 1) s.posY)
    have hrest := ih (s := { ttyWriteCharAt s s.posX s.posY 32 s.color with posX := s.posX + 1 })
      (by dsimp only; omega) (by simp only [ttyWriteCharAt]; omega) hy hy'
    have hall := hright.trans hrest
    rwa [show s.posX + 1 + (l : ℤ) = s.posX + (l + 1) by ring] at hall

theorem Moves.writeBackspace (hw : 1 ≤ s.width) (hh : 1 ≤ s.height)
    (h : OnScreen s.width s.height s.posX s.posY) :
    Moves s (writeBackspace s) (caret s.width s.height (s.posX, s.posY) 8).1
      (caret s.width s.height (s.posX, s.posY) 8).2 := by
  rw [OnScreen] at h
  simp only [Console.writeBackspace, caret, if_true, Prod.mk.injEq]
  by_cases horigin : s.posX = 0 ∧ s.posY = 0
  · rw [if_pos horigin, if_pos horigin]
    exact Moves.refl s
  rw [if_neg horigin, if_neg horigin]
  by_cases hleft : s.posX = 0
  · rw [if_pos hleft, if_pos (by omega)]
    have hset := Moves.set s s.textBuffer (s.width - 1) (s.posY - 1)
    exact hset.trans (Moves.writeCharAt _ 32 _ (by dsimp only; omega) (by dsimp only; omega)
      (by dsimp only; omega) (by dsimp only; omega))
  · rw [if_neg hleft, if_neg (by omega)]
    have hset := Moves.set s s.textBuffer (s.posX - 1) s.posY
    exact hset.trans (Moves.writeCharAt _ 32 _ (by dsimp only; omega) (by dsimp only; omega)
      (by dsimp only; omega) (by dsimp only; omega))

theorem Moves.carriageReturn (hw : 1 ≤ s.width) (hh : 1 ≤ s.height)
    (h : OnScreen s.width s.height s.posX s.posY) :
    Moves s (ttyGotoxy s 0 s.posY).2 0 s.posY := by
  rcases h with ⟨-, -, hy, hy'⟩ | ⟨hx, hy⟩
  · exact Moves.gotoxy s le_rfl (by omega) hy hy'
  · -- `tty_gotoxy` refuses the position, which is the one it has
    have hkept := Moves.refl s
    rw [gotoxy_refused s le_rfl (by omega) hy.ge]
    rwa [hx] at hkept

theorem Moves.writeNewline (hw : 1 ≤ s.width) (hh : 1 ≤ s.height)
    (h : OnScreen s.width s.height s.posX s.posY) :
    Moves s (writeNewline s) 0 (if s.posY + 1 < s.height then s.posY + 1 else s.posY) := by
  rw [Console.writeNewline]
  by_cases hlast : s.posY + 1 = s.height
  · rw [if_pos hlast, if_neg (by omega), show s.posY = s.height - 1 by omega]
    exact Moves.handleScroll hw hh
  rw [if_neg hlast]
  rcases h with ⟨-, -, hy, hy'⟩ | ⟨hx, hy⟩
  · rw [if_pos (by omega)]
    exact Moves.gotoxy s le_rfl (by omega) (by omega) (by omega)
  · have hkept := Moves.refl s
    rw [if_neg (by omega), gotoxy_refused s le_rfl (by omega) (by omega)]
    rwa [hx] at hkept

/-- The cursor after a glyph in a cell. -/
theorem Moves.advance {width : ℤ} (c color : UInt8) (hwidth : s.width = width)
    (hposX : s.posX = x) (hposY : s.posY = y) (hx : 0 ≤ x) (hx' : x < width) (hy : 0 ≤ y)
    (hy' : y < s.height) :
    Moves s (if s.posX + 1 = s.width then
        { ttyWriteCharAt s s.posX s.posY c color with posX := 0, posY := s.posY + 1 }
      else { ttyWriteCharAt s s.posX s.posY c color with posX := s.posX + 1 })
      (if x + 1 = width then 0 else x + 1) (if x + 1 = width then y + 1 else y) := by
  subst hwidth
  subst hposX
  subst hposY
  have hcell := Moves.writeCharAt s c color hx hx' hy hy'
  split_ifs
  · exact hcell.trans (Moves.set _ (ttyWriteCharAt s s.posX s.posY c color).textBuffer 0 _)
  · exact hcell.trans (Moves.set _ (ttyWriteCharAt s s.posX s.posY c color).textBuffer _ s.posY)

/-- Only the position behind the last cell is the end of the screen. -/
theorem OnScreen.end_iff {width height : ℤ} (h : OnScreen width height x y) :
    y * width + x = width * height ↔ y = height := by
  rcases h with ⟨hx, hx', hy, hy'⟩ | ⟨rfl, rfl⟩
  · have hcell := index_inBounds hx hx' hy hy'
    exact ⟨fun h => absurd h hcell.2.ne, fun h => absurd h hy'.ne⟩
  · exact ⟨fun _ => rfl, fun _ => by ring⟩

theorem Moves.writeGlyph (c : UInt8) (hw : 1 ≤ s.width) (hh : 1 ≤ s.height)
    (h : OnScreen s.width s.height s.posX s.posY) :
    Moves s (writeGlyph s c) (if s.posX + 1 = s.width then 0 else s.posX + 1)
      (if s.posX + 1 = s.width then (if s.posY = s.height then s.height - 1 else s.posY) + 1
        else if s.posY = s.height then s.height - 1 else s.posY) := by
  rw [Console.writeGlyph]
  by_cases hend : s.posY = s.height
  · obtain ⟨hx, -⟩ : s.posX = 0 ∧ s.posY = s.height := by
      rw [OnScreen] at h
      omega
    have hscroll := Moves.handleScroll hw hh
    have hnext := Moves.advance c (ttyHandleScroll s).color hscroll.width hscroll.posX hscroll.posY
      le_rfl (by omega) (by omega) (by rw [hscroll.height]; omega)
    rw [if_pos (h.end_iff.mpr hend), if_pos hend, hx]
    exact hscroll.trans hnext
  · rw [if_neg (fun h' => hend (h.end_iff.mp h')), if_neg hend]
    obtain ⟨hx, hx', hy, hy'⟩ : 0 ≤ s.posX ∧ s.posX < s.width ∧ 0 ≤ s.posY ∧ s.posY < s.height := by
      rw [OnScreen] at h
      omega
    exact Moves.advance c s.color rfl rfl rfl hx hx' hy hy'

/-- A character whose tab fits takes the cursor where it belongs. -/
theorem Moves.writeChar (c : UInt8) (hw : 1 ≤ s.width) (hh : 1 ≤ s.height)
    (h : OnScreen s.width s.height s.posX s.posY)
    (hfit : c = 9 → s.posY < s.height ∧ tabStop s.posX < s.width) :
    Moves s (ttyWriteChar s c) (caret s.width s.height (s.posX, s.posY) c).1
      (caret s.width s.height (s.posX, s.posY) c).2 := by
  rw [ttyWriteChar]
  by_cases hback : c = 8
  · rw [if_pos hback, hback]
    exact Moves.writeBackspace hw hh h
  by_cases htab : c = 9
  · obtain ⟨hrow, hstop⟩ := hfit htab
    rw [if_neg hback, if_pos htab]
    simp only [caret, if_neg hback, if_pos htab]
    rw [OnScreen] at h
    have hl : s.posX + ((8 - s.posX.tmod 8).toNat : ℤ) = tabStop s.posX := by
      rw [Int.tmod_eq_emod_of_nonneg (by omega), tabStop]
      omega
    rw [← hl]
    exact Moves.writeTab _ (by omega) (by omega) (by omega) hrow
  by_cases hreturn : c = 13
  · rw [if_neg hback, if_neg htab, if_pos hreturn]
    simp only [caret, if_neg hback, if_neg htab, if_pos hreturn]
    exact Moves.carriageReturn hw hh h
  by_cases hnewline : c = 10
  · rw [if_neg hback, if_neg htab, if_neg hreturn, if_pos hnewline]
    simp only [caret, if_neg hback, if_neg htab, if_neg hreturn, if_pos hnewline]
    exact Moves.writeNewline hw hh h
  · rw [if_neg hback, if_neg htab, if_neg hreturn, if_neg hnewline]
    have hglyph := Moves.writeGlyph c hw hh h
    simp only [caret, if_neg hback, if_neg htab, if_neg hreturn, if_neg hnewline]
    split_ifs at hglyph ⊢ <;> exact hglyph

theorem Moves.put (c : UInt8) (hw : 1 ≤ s.width) (hh : 1 ≤ s.height)
    (h : OnScreen s.width s.height s.posX s.posY)
    (hfit : c = 9 → s.posY < s.height ∧ tabStop s.posX < s.width) :
    Moves s (s.put c) (caret s.width s.height (s.posX, s.posY) c).1
      (caret s.width s.height (s.posX, s.posY) c).2 := by
  have hmove := Moves.writeChar c hw hh h hfit
  have hcursor := OnScreen.caret hw hh (p := (s.posX, s.posY)) h c hfit
  refine hmove.trans ⟨rfl, rfl, hmove.posX, hmove.posY, [.cursor _ _], rfl, ?_⟩
  rw [hmove.posX, hmove.posY, hmove.width, hmove.height]
  exact List.forall_mem_singleton.mpr hcursor

end Moving

/-! ### The log only grows -/

theorem ttyGotoxy_log (s : Screen) (x y : ℤ) : (ttyGotoxy s x y).2.log = s.log := by
  rw [ttyGotoxy]
  split_ifs <;> rfl

theorem ttyHandleScroll_log (s : Screen) : (ttyHandleScroll s).log = s.log := by
  rw [ttyHandleScroll, ttyGotoxy_log]

theorem ttyWriteCharAt_log (s : Screen) (x y : ℤ) (c color : UInt8) :
    s.log <+: (ttyWriteCharAt s x y c color).log := List.prefix_append _ _

theorem writeTab_log (l : ℕ) (s : Screen) : s.log <+: (writeTab l s).log := by
  induction l generalizing s with
  | zero => exact List.prefix_rfl
  | succ l ih =>
    rw [writeTab]
    split_ifs
    · exact (ttyWriteCharAt_log s s.posX s.posY 32 s.color).trans
        (ih { ttyWriteCharAt s s.posX s.posY 32 s.color with posX := s.posX + 1 })
    · exact List.prefix_rfl

theorem writeBackspace_log (s : Screen) : s.log <+: (writeBackspace s).log := by
  rw [writeBackspace]
  split_ifs
  · exact List.prefix_rfl
  · exact List.prefix_append _ _
  · exact List.prefix_append _ _

theorem writeGlyph_log (s : Screen) (c : UInt8) : s.log <+: (writeGlyph s c).log := by
  have hlog : ∀ t : Screen, t.log = s.log →
      s.log <+: (ttyWriteCharAt t t.posX t.posY c t.color).log := fun t ht => by
    rw [← ht]
    exact ttyWriteCharAt_log t _ _ _ _
  simp only [writeGlyph]
  split_ifs
  · exact hlog _ (ttyHandleScroll_log s)
  · exact hlog _ (ttyHandleScroll_log s)
  · exact hlog _ rfl
  · exact hlog _ rfl

theorem put_log (s : Screen) (c : UInt8) : s.log <+: (s.put c).log := by
  refine List.IsPrefix.trans ?_ (List.prefix_append _ _)
  simp only [ttyWriteChar, writeNewline]
  split_ifs
  · exact writeBackspace_log s
  · exact writeTab_log _ s
  · rw [ttyGotoxy_log]
  · rw [ttyHandleScroll_log]
  · rw [ttyGotoxy_log]
  · exact writeGlyph_log s c

theorem foldl_put_log (cs : List UInt8) (s : Screen) : s.log <+: (cs.foldl Screen.put s).log := by
  induction cs generalizing s with
  | nil => exact List.prefix_rfl
  | cons c cs ih => exact (put_log s c).trans (ih _)

/-! ### A tab that does not fit -/

theorem writeTab_posX (l : ℕ) {s : Screen} (h : s.posX ≤ s.width) :
    (writeTab l s).posX = min (s.posX + l) s.width := by
  induction l generalizing s with
  | zero => simp [writeTab, h]
  | succ l ih =>
    rw [writeTab]
    split_ifs with hx
    · have hrest := ih (s := { ttyWriteCharAt s s.posX s.posY 32 s.color with posX := s.posX + 1 }) hx
      rw [hrest, show s.posX + (l + 1 : ℕ) = s.posX + 1 + l by push_cast; ring]
      rfl
    · push_cast
      omega

/-- A tab that reaches the right edge leaves the cursor there, and one behind the last
row is written behind the text buffer. -/
theorem put_tab_outside {s : Screen} (hw : 1 ≤ s.width) (h : OnScreen s.width s.height s.posX s.posY)
    (hfit : ¬ (s.posY < s.height ∧ tabStop s.posX < s.width)) :
    ∃ e ∈ (s.put 9).log, ¬ e.InBounds s.width s.height := by
  have hput : s.put 9 = { writeTab (8 - s.posX.tmod 8).toNat s with
      log := (writeTab (8 - s.posX.tmod 8).toNat s).log ++
        [.cursor (writeTab (8 - s.posX.tmod 8).toNat s).posX
          (writeTab (8 - s.posX.tmod 8).toNat s).posY] } := rfl
  rw [hput]
  rcases h with ⟨hx, hx', hy, hy'⟩ | ⟨hx, hy⟩
  · refine ⟨_, List.mem_append_right _ (List.mem_singleton_self _), ?_⟩
    have hedge : (writeTab (8 - s.posX.tmod 8).toNat s).posX = s.width := by
      rw [writeTab_posX _ hx'.le, Int.tmod_eq_emod_of_nonneg hx]
      rw [tabStop] at hfit
      omega
    rw [Event.InBounds, hedge, OnScreen]
    omega
  · refine ⟨.cell (s.posY * s.width + s.posX), List.mem_append_left _ ?_, ?_⟩
    · rw [hx, show (8 - (0 : ℤ).tmod 8).toNat = 7 + 1 from rfl, writeTab, if_pos (by omega), ← hx]
      exact (writeTab_log 7 _).subset (List.mem_append_right _ (List.mem_singleton_self _))
    · rw [Event.InBounds, hx, hy, mul_comm]
      omega

/-! ### Whole writes -/

/-- What the bytes do is in bounds when every tab among them fits, and only then. -/
theorem foldl_put_inBounds_iff (cs : List UInt8) {s : Screen} (hw : 1 ≤ s.width) (hh : 1 ≤ s.height)
    (h : OnScreen s.width s.height s.posX s.posY)
    (hlog : ∀ e ∈ s.log, e.InBounds s.width s.height) :
    (∀ e ∈ (cs.foldl Screen.put s).log, e.InBounds s.width s.height) ↔
      TabsFit s.width s.height (s.posX, s.posY) cs := by
  induction cs generalizing s with
  | nil => exact ⟨fun _ => trivial, fun _ => hlog⟩
  | cons c cs ih =>
    rw [List.foldl_cons, TabsFit]
    by_cases hfit : c = 9 → s.posY < s.height ∧ tabStop s.posX < s.width
    · have hmove := Moves.put c hw hh h hfit
      obtain ⟨es, hes, hin⟩ := hmove.log
      have hnext := ih (s := s.put c) (by rw [hmove.width]; exact hw) (by rw [hmove.height]; exact hh)
      rw [hmove.width, hmove.height, hmove.posX, hmove.posY, hes] at hnext
      rw [hnext (OnScreen.caret hw hh (p := (s.posX, s.posY)) h c hfit)]
      · exact ⟨fun hrest => ⟨hfit, hrest⟩, fun hrest => hrest.2⟩
      · intro e he
        rcases List.mem_append.mp he with he | he
        · exact hlog e he
        · exact hin e he
    · -- the first tab that does not fit has left its mark in the log
      refine ⟨fun hin => absurd (fun hc => ?_) hfit, fun hrest => absurd hrest.1 hfit⟩
      subst hc
      by_contra hout
      obtain ⟨e, he, hbad⟩ := put_tab_outside hw h hout
      exact hbad (hin e ((foldl_put_log cs _).subset he))

/-- The cells that `tty_write` writes lie in the text buffer and every character leaves
the cursor on the screen or behind its last cell, exactly when every tab of the text
stands in a row of the screen and its tab stop is a column of it. -/
theorem screen_inBounds_iff (outBuffer : ℕ → UInt8) (textBuffer : ℤ → UInt16) (width height : ℤ)
    (hw : 1 ≤ width) (hh : 1 ≤ height) (bufs : List (List UInt8)) :
    (∀ e ∈ (writeAll (outputInit outBuffer textBuffer width height) bufs).screen.log,
      e.InBounds width height) ↔ TabsFit width height (0, 0) bufs.flatten := by
  have hcollecting : (outputInit outBuffer textBuffer width height).Collecting :=
    ⟨rfl, Nat.zero_le _, Nat.succ_pos _⟩
  rw [← writeAll_shown _ rfl, hcollecting.writeAll]
  exact foldl_put_inBounds_iff bufs.flatten (s := ⟨textBuffer, width, height, 0, 0, 7, []⟩) hw hh
    (Or.inl ⟨le_rfl, hw, le_rfl, hh⟩) (by simp)

/-- A text with a tab in a screen of 80 columns. -/
theorem screen_inBounds_tab :
    TabsFit 80 25 (0, 0) [65, 9, 66] ∧
    ∀ e ∈ (writeAll (outputInit (fun _ => 0) (fun _ => 0) 80 25) [[65, 9], [66]]).screen.log,
      e.InBounds 80 25 := by
  have hfit : TabsFit 80 25 (0, 0) [65, 9, 66] := ⟨by decide, by decide, by decide, trivial⟩
  exact ⟨hfit, (screen_inBounds_iff (fun _ => 0) (fun _ => 0) 80 25 (by decide) (by decide)
    [[65, 9], [66]]).mpr hfit⟩

/-- A tab in a screen of eight columns leaves the cursor at column eight. -/
theorem screen_left_by_tab :
    ¬ ∀ (width height : ℤ), 1 ≤ width → 1 ≤ height → ∀ bufs : List (List UInt8),
      ∀ e ∈ (writeAll (outputInit (fun _ => 0) (fun _ => 0) width height) bufs).screen.log,
        e.InBounds width height := by
  intro h
  have hcursor := h 8 25 (by decide) (by decide) [[9]] (.cursor 8 0) (by decide)
  exact absurd hcursor (by decide)

end DosKernel.Console
