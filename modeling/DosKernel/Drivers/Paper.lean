import DosKernel.Drivers.Screen

/-! A terminal as a sheet of paper without a lower end. The pen writes on the sheet, and the
screen is the window of the rows from `top` on. The code keeps these rows only and moves them up;
the sheet keeps all of them, and scrolling moves the window down. -/

namespace DosKernel.Console

/-- The sheet, the place of the pen on it and the first row of the window. -/
structure Paper where
  cell : ℤ → ℤ → UInt16
  row : ℤ
  col : ℤ
  top : ℤ
  color : UInt8

namespace Paper

/-- A cell is marked where the pen is. -/
def mark (p : Paper) (c : UInt8) : Paper :=
  { p with
    cell := fun y x => if y = p.row ∧ x = p.col then cellValue p.color c else p.cell y x }

/-- The pen moves within its row. -/
def moveTo (p : Paper) (col : ℤ) : Paper := { p with col := col }

/-- The pen goes to the first column of the next row. -/
def newRow (p : Paper) : Paper := { p with row := p.row + 1, col := 0 }

/-- The window is moved by one row when the pen is behind it. -/
def follow (height : ℤ) (p : Paper) : Paper :=
  if p.row = p.top + height then { p with top := p.top + 1 } else p

def blanks : (n : ℕ) → Paper → Paper
  | 0, p => p
  | n + 1, p => blanks n ((p.mark 32).moveTo (p.col + 1))

/-- A backspace does not leave the window. -/
def backspace (width : ℤ) (p : Paper) : Paper :=
  if p.col = 0 ∧ p.row = p.top then p
  else if p.col = 0 then { p with row := p.row - 1, col := width - 1 }.mark 32
  else (p.moveTo (p.col - 1)).mark 32

/-- A new line is lost when the pen has just been taken behind the window by a full row. -/
def newline (height : ℤ) (p : Paper) : Paper :=
  if p.row = p.top + height then p else p.newRow.follow height

/-- A glyph, behind which a full row ends. -/
def glyph (width height : ℤ) (p : Paper) (c : UInt8) : Paper :=
  let q := (p.follow height).mark c
  if q.col + 1 = width then q.newRow else q.moveTo (q.col + 1)

def put (width height : ℤ) (p : Paper) (c : UInt8) : Paper :=
  if c = 8 then p.backspace width
  else if c = 9 then blanks (tabStop p.col - p.col).toNat p
  else if c = 13 then p.moveTo 0
  else if c = 10 then p.newline height
  else p.glyph width height c

/-- The sheet that shows a screen of the given size, with the pen in its corner. -/
def ofScreen (text : ℤ → UInt16) (width height : ℤ) : Paper where
  cell := fun y x => if y < height then text (y * width + x) else 0
  row := 0
  col := 0
  top := 0
  color := 7

end Paper

/-! ### The window -/

/-- The screen is the window of the sheet; below it the sheet is empty. -/
structure Window (s : Screen) (p : Paper) : Prop where
  col_nonneg : 0 ≤ p.col
  col_lt : p.col < s.width
  top_le : p.top ≤ p.row
  row_le : p.row ≤ p.top + s.height
  behind : p.row = p.top + s.height → p.col = 0
  posX : s.posX = p.col
  posY : s.posY = p.row - p.top
  color : s.color = p.color
  cells : ∀ x y, 0 ≤ x → x < s.width → 0 ≤ y → y < s.height →
    s.textBuffer (y * s.width + x) = p.cell (p.top + y) x
  empty : ∀ x y, p.top + s.height ≤ y → p.cell y x = 0

theorem index_inj {width x y x' y' : ℤ} (hx : 0 ≤ x) (hx' : x < width) (hz : 0 ≤ x')
    (hz' : x' < width) : y * width + x = y' * width + x' ↔ y = y' ∧ x = x' := by
  constructor
  · intro h
    have hdiv := congrArg (· / width) h
    have hmod := congrArg (· % width) h
    simp only [mul_comm _ width, Int.mul_add_emod_self_left, Int.emod_eq_of_lt hx hx',
      Int.emod_eq_of_lt hz hz'] at hmod
    have hne : width ≠ 0 := by omega
    simp only [mul_comm _ width, Int.mul_add_ediv_left _ _ hne, Int.ediv_eq_zero_of_lt hx hx',
      Int.ediv_eq_zero_of_lt hz hz', add_zero] at hdiv
    exact ⟨hdiv, hmod⟩
  · rintro ⟨rfl, rfl⟩
    rfl

theorem ttyGotoxy_textBuffer (s : Screen) (x y : ℤ) :
    (ttyGotoxy s x y).2.textBuffer = s.textBuffer := by
  rw [ttyGotoxy]
  split_ifs <;> rfl

theorem ttyGotoxy_width (s : Screen) (x y : ℤ) : (ttyGotoxy s x y).2.width = s.width := by
  rw [ttyGotoxy]
  split_ifs <;> rfl

theorem ttyGotoxy_height (s : Screen) (x y : ℤ) : (ttyGotoxy s x y).2.height = s.height := by
  rw [ttyGotoxy]
  split_ifs <;> rfl

theorem ttyGotoxy_color (s : Screen) (x y : ℤ) : (ttyGotoxy s x y).2.color = s.color := by
  rw [ttyGotoxy]
  split_ifs <;> rfl

/-- The cells after `tty_handle_scroll`: the row below, and an empty last row. -/
theorem ttyHandleScroll_cell {s : Screen} {x y : ℤ} (hx : 0 ≤ x) (hx' : x < s.width) (hy : 0 ≤ y)
    (hy' : y < s.height) : (ttyHandleScroll s).textBuffer (y * s.width + x) =
      if y < s.height - 1 then s.textBuffer ((y + 1) * s.width + x) else 0 := by
  have hcell : 0 ≤ y * s.width + x ∧ y * s.width + x < s.width * s.height :=
    index_inBounds hx hx' hy hy'
  have hall : s.width * (s.height - 1) + s.width = s.width * s.height := by ring
  rw [ttyHandleScroll, ttyGotoxy_textBuffer]
  dsimp only
  rcases lt_or_ge y (s.height - 1) with hup | hlast
  · have hkept : 0 ≤ y * s.width + x ∧ y * s.width + x < s.width * (s.height - 1) :=
      index_inBounds hx hx' hy hup
    rw [if_pos hkept, if_pos hup]
    congr 1
    ring
  · obtain rfl : y = s.height - 1 := by omega
    rw [mul_comm] at hcell ⊢
    rw [if_neg (by omega), if_pos (by omega), if_neg (lt_irrefl _)]

section Steps
variable {s : Screen} {p : Paper}

theorem Window.onScreen (h : Window s p) : OnScreen s.width s.height s.posX s.posY := by
  have hcol := h.col_nonneg
  have hlt := h.col_lt
  have htop := h.top_le
  have hrow := h.row_le
  have hbehind := h.behind
  rw [OnScreen, h.posX, h.posY]
  omega

/-- The pen is in the window exactly if the cursor is in a cell of the screen. -/
theorem Window.posY_iff (h : Window s p) : s.posY = s.height ↔ p.row = p.top + s.height := by
  rw [h.posY]
  omega

/-- The cursor and the pen go to a place in the window. -/
theorem Window.move (h : Window s p) {x y row col : ℤ} (hcol : 0 ≤ col) (hlt : col < s.width)
    (htop : p.top ≤ row) (hrow : row ≤ p.top + s.height) (hbehind : row = p.top + s.height → col = 0)
    (hx : x = col) (hy : y = row - p.top) :
    Window { s with posX := x, posY := y } { p with row := row, col := col } where
  col_nonneg := hcol
  col_lt := hlt
  top_le := htop
  row_le := hrow
  behind := hbehind
  posX := hx
  posY := hy
  color := h.color
  cells := h.cells
  empty := h.empty

/-- A cell of the screen is a cell of the sheet. -/
theorem Window.mark (h : Window s p) (hrow : p.row < p.top + s.height) (c : UInt8) :
    Window (ttyWriteCharAt s s.posX s.posY c s.color) (p.mark c) where
  col_nonneg := h.col_nonneg
  col_lt := h.col_lt
  top_le := h.top_le
  row_le := h.row_le
  behind := h.behind
  posX := h.posX
  posY := h.posY
  color := h.color
  cells := by
    intro x y hx hx' hy hy'
    change x < s.width at hx'
    have hindex : y * s.width + x = (p.row - p.top) * s.width + p.col ↔ y = p.row - p.top ∧ x = p.col :=
      index_inj hx hx' h.col_nonneg h.col_lt
    have hrow : p.top + y = p.row ↔ y = p.row - p.top := by omega
    have hold := h.cells x y hx hx' hy hy'
    simp only [ttyWriteCharAt, Paper.mark, h.posX, h.posY, h.color, Function.update_apply, hrow]
    by_cases hpen : y = p.row - p.top ∧ x = p.col
    · rw [if_pos (hindex.mpr hpen), if_pos hpen]
    · rw [if_neg (fun h' => hpen (hindex.mp h')), if_neg hpen, hold]
  empty := by
    intro x y hy
    have hne : ¬ (y = p.row ∧ x = p.col) := by
      have hbelow : p.top + s.height ≤ y := hy
      omega
    simp only [Paper.mark, if_neg hne]
    exact h.empty x y hy

/-- When the screen scrolls, the window goes down by one row. -/
theorem Window.scroll (h : Window s p) (hw : 1 ≤ s.width) (hh : 1 ≤ s.height) :
    Window (ttyHandleScroll s) { p with row := p.top + s.height, col := 0, top := p.top + 1 } := by
  have hmoves := Moves.handleScroll hw hh
  have hcolor : (ttyHandleScroll s).color = s.color := by
    rw [ttyHandleScroll, ttyGotoxy_color]
  refine ⟨le_rfl, ?_, ?_, ?_, fun _ => rfl, ?_, ?_, hcolor.trans h.color, ?_, ?_⟩
  · rw [hmoves.width]
    exact hw
  · dsimp only
    omega
  · rw [hmoves.height]
    dsimp only
    omega
  · rw [hmoves.posX]
  · rw [hmoves.posY]
    dsimp only
    ring
  · intro x y hx hx' hy hy'
    rw [hmoves.width] at hx' ⊢
    rw [hmoves.height] at hy'
    rw [ttyHandleScroll_cell hx hx' hy hy']
    dsimp only
    split_ifs with hlast
    · rw [h.cells x (y + 1) hx hx' (by omega) (by omega)]
      ring_nf
    · exact (h.empty x _ (by omega)).symm
  · intro x y hy
    rw [hmoves.height] at hy
    exact h.empty x y (by dsimp only at hy; omega)

theorem Window.follow (h : Window s p) (hw : 1 ≤ s.width) (hh : 1 ≤ s.height)
    (hend : p.row = p.top + s.height) : Window (ttyHandleScroll s) (p.follow s.height) := by
  have hscroll := h.scroll hw hh
  rw [← hend, ← h.behind hend] at hscroll
  rw [Paper.follow, if_pos hend]
  exact hscroll

/-- `tty_gotoxy` to a cell of the screen. -/
theorem Window.gotoxy (h : Window s p) {x y row col : ℤ} (hcol : 0 ≤ col) (hlt : col < s.width)
    (htop : p.top ≤ row) (hrow : row < p.top + s.height) (hx : x = col) (hy : y = row - p.top) :
    Window (ttyGotoxy s x y).2 { p with row := row, col := col } := by
  rw [ttyGotoxy, if_neg (by omega), if_neg (by omega), if_neg (by omega)]
  exact h.move hcol hlt htop hrow.le (fun heq => absurd heq hrow.ne) hx hy

theorem Window.writeTab (l : ℕ) (h : Window s p) (hrow : p.row < p.top + s.height)
    (hfit : p.col + l < s.width) : Window (Console.writeTab l s) (p.blanks l) := by
  induction l generalizing s p with
  | zero => exact h
  | succ l ih =>
    push_cast at hfit
    have hcol := h.col_nonneg
    have hnext : Window { ttyWriteCharAt s s.posX s.posY 32 s.color with posX := s.posX + 1 }
        ((p.mark 32).moveTo (p.col + 1)) :=
      (h.mark hrow 32).move (by omega) (show p.col + 1 < s.width by omega) h.top_le h.row_le
        (fun heq => absurd heq hrow.ne) (by rw [h.posX]) h.posY
    rw [Console.writeTab, if_pos (by rw [h.posX]; exact h.col_lt), Paper.blanks]
    exact ih hnext hrow (show p.col + 1 + (l : ℤ) < s.width by omega)

theorem Window.writeBackspace (h : Window s p) :
    Window (Console.writeBackspace s) (p.backspace s.width) := by
  have hcol := h.col_nonneg
  have hlt := h.col_lt
  have htop := h.top_le
  have hrow := h.row_le
  have hbehind := h.behind
  have hx := h.posX
  have hy := h.posY
  simp only [Console.writeBackspace, Paper.backspace]
  by_cases hcorner : p.col = 0 ∧ p.row = p.top
  · rw [if_pos hcorner, if_pos (by omega)]
    exact h
  rw [if_neg hcorner, if_neg (by omega)]
  by_cases hleft : p.col = 0
  · rw [if_pos hleft, if_pos (by omega)]
    have hback : Window { s with posX := s.width - 1, posY := s.posY - 1 }
        { p with row := p.row - 1, col := s.width - 1 } :=
      h.move (by omega) (by omega) (by omega) (by omega) (fun _ => by omega) rfl (by omega)
    exact hback.mark (show p.row - 1 < p.top + s.height by omega) 32
  · rw [if_neg hleft, if_neg (by omega)]
    have hback : Window { s with posX := s.posX - 1 } (p.moveTo (p.col - 1)) :=
      h.move (by omega) (by omega) htop hrow (fun _ => by omega) (by omega) hy
    exact hback.mark (show p.row < p.top + s.height by omega) 32

theorem Window.carriageReturn (h : Window s p) (hw : 1 ≤ s.width) :
    Window (ttyGotoxy s 0 s.posY).2 (p.moveTo 0) := by
  have htop := h.top_le
  have hy := h.posY
  by_cases hend : p.row = p.top + s.height
  · -- `tty_gotoxy` refuses the position, which is the one it has
    rw [gotoxy_refused s le_rfl (by omega) (by omega), Paper.moveTo, ← h.behind hend]
    exact h
  · have hrow := h.row_le
    exact h.gotoxy le_rfl (by omega) htop (by omega) rfl hy

theorem Window.writeNewline (h : Window s p) (hw : 1 ≤ s.width) (hh : 1 ≤ s.height) :
    Window (Console.writeNewline s) (p.newline s.height) := by
  have htop := h.top_le
  have hrow := h.row_le
  have hy := h.posY
  rw [Console.writeNewline, Paper.newline]
  by_cases hend : p.row = p.top + s.height
  · rw [if_pos hend, if_neg (by omega), gotoxy_refused s le_rfl (by omega) (by omega)]
    exact h
  rw [if_neg hend]
  by_cases hlast : p.row + 1 = p.top + s.height
  · have hnew : p.newRow.row = p.newRow.top + s.height := hlast
    rw [if_pos (by omega), Paper.follow, if_pos hnew, hnew]
    exact h.scroll hw hh
  · have hnew : ¬ p.newRow.row = p.newRow.top + s.height := hlast
    rw [if_neg (by omega), Paper.follow, if_neg hnew]
    exact h.gotoxy le_rfl (by omega) (by omega) (by omega) rfl (by omega)

theorem Window.advance {width : ℤ} (h : Window s p) (hwidth : s.width = width)
    (hrow : p.row < p.top + s.height) (c : UInt8) :
    Window (if s.posX + 1 = s.width then
        { ttyWriteCharAt s s.posX s.posY c s.color with posX := 0, posY := s.posY + 1 }
      else { ttyWriteCharAt s s.posX s.posY c s.color with posX := s.posX + 1 })
      (if p.col + 1 = width then (p.mark c).newRow else (p.mark c).moveTo (p.col + 1)) := by
  subst hwidth
  have hcol := h.col_nonneg
  have hlt := h.col_lt
  have htop := h.top_le
  have hx := h.posX
  have hy := h.posY
  have hmark := h.mark hrow c
  by_cases hfull : p.col + 1 = s.width
  · rw [if_pos (by omega), if_pos hfull]
    exact hmark.move le_rfl (show 0 < s.width by omega) (show p.top ≤ p.row + 1 by omega)
      (show p.row + 1 ≤ p.top + s.height by omega) (fun _ => rfl) rfl
      (show s.posY + 1 = p.row + 1 - p.top by omega)
  · rw [if_neg (by omega), if_neg hfull]
    exact hmark.move (by omega) (show p.col + 1 < s.width by omega) h.top_le h.row_le
      (fun heq => absurd heq hrow.ne) (by omega) hy

theorem Window.writeGlyph (h : Window s p) (hw : 1 ≤ s.width) (hh : 1 ≤ s.height) (c : UInt8) :
    Window (Console.writeGlyph s c) (p.glyph s.width s.height c) := by
  rw [Console.writeGlyph, Paper.glyph]
  by_cases hend : p.row = p.top + s.height
  · have hfollow := h.follow hw hh hend
    have hmoves := Moves.handleScroll hw hh
    rw [if_pos (h.onScreen.end_iff.mpr (h.posY_iff.mpr hend))]
    have hrow : (p.follow s.height).row < (p.follow s.height).top + (ttyHandleScroll s).height := by
      rw [Paper.follow, if_pos hend, hmoves.height]
      dsimp only
      omega
    exact hfollow.advance hmoves.width hrow c
  · have hrow := h.row_le
    have hkept : p.follow s.height = p := if_neg hend
    rw [if_neg (fun heq => hend (h.posY_iff.mp (h.onScreen.end_iff.mp heq))), hkept]
    exact h.advance rfl (by omega) c

/-- One character on the screen and on the sheet. -/
theorem Window.put (h : Window s p) (hw : 1 ≤ s.width) (hh : 1 ≤ s.height) {c : UInt8}
    (hfit : c = 9 → s.posY < s.height ∧ tabStop s.posX < s.width) :
    Window (s.put c) (p.put s.width s.height c) := by
  have hlog : ∀ {t : Screen} {q : Paper} (es : List Event), Window t q → Window { t with log := es } q :=
    fun _ ht => ⟨ht.col_nonneg, ht.col_lt, ht.top_le, ht.row_le, ht.behind, ht.posX, ht.posY, ht.color,
      ht.cells, ht.empty⟩
  apply hlog
  rw [ttyWriteChar, Paper.put]
  split_ifs with hback htab hreturn hnewline
  · exact h.writeBackspace
  · obtain ⟨hrow, hstop⟩ := hfit htab
    have hcol := h.col_nonneg
    rw [h.posY] at hrow
    rw [h.posX] at hstop ⊢
    have hl : 8 - p.col.tmod 8 = tabStop p.col - p.col := by
      rw [Int.tmod_eq_emod_of_nonneg hcol, tabStop]
      omega
    rw [hl]
    rw [tabStop] at hstop ⊢
    exact h.writeTab _ (by omega) (by omega)
  · exact h.carriageReturn hw
  · exact h.writeNewline hw hh
  · exact h.writeGlyph hw hh c

theorem Window.foldl_put (cs : List UInt8) (h : Window s p) (hw : 1 ≤ s.width) (hh : 1 ≤ s.height)
    (hfit : TabsFit s.width s.height (s.posX, s.posY) cs) :
    Window (cs.foldl Screen.put s) (cs.foldl (Paper.put s.width s.height) p) := by
  induction cs generalizing s p with
  | nil => exact h
  | cons c cs ih =>
    obtain ⟨hc, hrest⟩ := hfit
    have hmoves := Moves.put c hw hh h.onScreen hc
    have hnext := ih (h.put hw hh hc)
    rw [hmoves.width, hmoves.height, hmoves.posX, hmoves.posY] at hnext
    exact hnext hw hh hrest

end Steps

theorem Window.ofScreen (text : ℤ → UInt16) {width height : ℤ} (hw : 1 ≤ width) (hh : 1 ≤ height)
    (log : List Event) :
    Window ⟨text, width, height, 0, 0, 7, log⟩ (Paper.ofScreen text width height) where
  col_nonneg := le_rfl
  col_lt := hw
  top_le := le_rfl
  row_le := show (0 : ℤ) ≤ 0 + height by omega
  behind := fun _ => rfl
  posX := rfl
  posY := rfl
  color := rfl
  cells := by
    intro x y _ _ _ hy
    change y < height at hy
    simp only [Paper.ofScreen, zero_add, if_pos hy]
  empty := by
    intro x y hy
    change 0 + height ≤ y at hy
    simp only [Paper.ofScreen]
    rw [if_neg (by omega)]

/-- After any `tty_write` calls whose tabs fit, the screen shows the rows of the sheet from the
first row of the window on, and the cursor is where the pen is: what scrolls is never changed by
it, and the bottom row is empty when it comes into the window. -/
theorem screen_shows_paper (outBuffer : ℕ → UInt8) (textBuffer : ℤ → UInt16) {width height : ℤ}
    (hw : 1 ≤ width) (hh : 1 ≤ height) (bufs : List (List UInt8))
    (hfit : TabsFit width height (0, 0) bufs.flatten) :
    Window (writeAll (outputInit outBuffer textBuffer width height) bufs).screen
      (bufs.flatten.foldl (Paper.put width height) (.ofScreen textBuffer width height)) := by
  have hcollecting : (outputInit outBuffer textBuffer width height).Collecting :=
    ⟨rfl, Nat.zero_le _, Nat.succ_pos _⟩
  rw [← writeAll_shown _ rfl, hcollecting.writeAll]
  exact (Window.ofScreen textBuffer hw hh []).foldl_put bufs.flatten hw hh hfit

/-- Three rows in a window of two: the first one has left it. -/
theorem screen_shows_paper_three :
    Window (writeAll (outputInit (fun _ => 0) (fun _ => 0) 80 2) [[65, 10, 66], [10, 67]]).screen
      ([65, 10, 66, 10, 67].foldl (Paper.put 80 2) (.ofScreen (fun _ => 0) 80 2)) ∧
    ([65, 10, 66, 10, 67].foldl (Paper.put 80 2) (.ofScreen (fun _ => 0) 80 2)).top = 1 :=
  ⟨screen_shows_paper (fun _ => 0) (fun _ => 0) (by decide) (by decide) [[65, 10, 66], [10, 67]]
    ⟨by decide, by decide, by decide, by decide, by decide, trivial⟩, by decide⟩

end DosKernel.Console
