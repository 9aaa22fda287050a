import DosKernel.Libc.Printf

/-! The formats that `vsprintf` renders as the C standard says: literal characters, single
characters, strings, and integers of the three sizes, of which the unsigned ones may be padded with
zeros. -/

namespace DosKernel.Libc

open CString Vsprintf

/-- `l`, `h` or nothing. -/
inductive LengthModifier
  | none
  | long
  | short

namespace LengthModifier

def chars : LengthModifier → List UInt8
  | none => []
  | long => ['l'.toUInt8]
  | short => ['h'.toUInt8]

def unsigned : LengthModifier → UInt32 → ℕ
  | none, v => v.toNat
  | long, v => v.toNat
  | short, v => v.toUInt16.toNat

def signed : LengthModifier → UInt32 → ℤ
  | none, v => v.toInt32.toInt
  | long, v => v.toInt32.toInt
  | short, v => v.toUInt16.toInt16.toInt

end LengthModifier

theorem LengthModifier.signed_natAbs_lt (length : LengthModifier) (v : UInt32) :
    (length.signed v).natAbs < word32 := by
  have hword : word32 = 4294967296 := rfl
  have hint : v.toInt32.toInt.natAbs < word32 := by
    have hle := v.toInt32.le_toInt
    have hlt := v.toInt32.toInt_lt
    omega
  cases length with
  | none => exact hint
  | long => exact hint
  | short =>
    have hle := v.toUInt16.toInt16.le_toInt
    have hlt := v.toUInt16.toInt16.toInt_lt
    change v.toUInt16.toInt16.toInt.natAbs < word32
    omega

/-- `u` or `x`. -/
inductive UnsignedFormat
  | u
  | x

namespace UnsignedFormat

def char : UnsignedFormat → UInt8
  | u => 'u'.toUInt8
  | x => 'x'.toUInt8

def base : UnsignedFormat → ℕ
  | u => 10
  | x => 16

/-- As `lutoa` and the digits ask for. -/
theorem base_bounds (number : UnsignedFormat) :
    2 ≤ (number.base : ℤ) ∧ (number.base : ℤ) ≤ 36 ∧ 2 ≤ number.base ∧ number.base ≤ 36 := by
  cases number <;> decide

end UnsignedFormat

/-- A part of a format, with its argument. -/
inductive Piece
  | literal (c : UInt8) (hc : c ≠ 0 ∧ c ≠ '%'.toUInt8)
  | percent
  | char (value : UInt32) (hvalue : value.toUInt8 ≠ 0)
  | string (memory : CString) (hlength : memory.strlen < 1024)
  | signed (length : LengthModifier) (value : UInt32)
  | unsigned (number : UnsignedFormat) (length : LengthModifier) (value : UInt32)
  | zeroPadded (digits : List (Fin 10)) (hwidth : widthFrom digits 0 < 1024)
      (number : UnsignedFormat) (length : LengthModifier) (value : UInt32)

namespace Piece

/-- How a part is spelled. -/
def format : Piece → List UInt8
  | literal c _ => [c]
  | percent => ['%'.toUInt8, '%'.toUInt8]
  | char _ _ => ['%'.toUInt8, 'c'.toUInt8]
  | string _ _ => ['%'.toUInt8, 's'.toUInt8]
  | signed length _ => '%'.toUInt8 :: (length.chars ++ ['d'.toUInt8])
  | unsigned number length _ => '%'.toUInt8 :: (length.chars ++ [number.char])
  | zeroPadded digits _ number length _ =>
    '%'.toUInt8 :: ('0'.toUInt8 :: widthChars digits ++ length.chars ++ [number.char])

def args : Piece → List VaArg
  | literal _ _ => []
  | percent => []
  | char value _ => [.word value]
  | string memory _ => [.pointer memory]
  | signed _ value => [.word value]
  | unsigned _ _ value => [.word value]
  | zeroPadded _ _ _ _ value => [.word value]

/-- What the C standard has a part rendered as. -/
def output : Piece → List UInt8
  | literal c _ => [c]
  | percent => ['%'.toUInt8]
  | char value _ => [value.toUInt8]
  | string memory _ => memory.text
  | signed length value => signedNumeral (length.signed value)
  | unsigned number length value => numeral number.base (length.unsigned value)
  | zeroPadded digits _ number length value =>
    List.replicate (widthFrom digits 0 - (numeral number.base (length.unsigned value)).length)
      '0'.toUInt8 ++ numeral number.base (length.unsigned value)

end Piece

/-! ### Numbers -/

section Numbers
variable {s : Vsprintf} {dest : CString} {text l : List UInt8}

def LengthModifier.modifier : LengthModifier → ℤ
  | none => 0
  | long => 1
  | short => -1

theorem flags_length (length : LengthModifier) (h : s.modifier = 0) :
    Flags length.chars s { s with modifier := length.modifier } := by
  cases length with
  | none =>
    have hsame : { s with modifier := LengthModifier.none.modifier } = s := by
      rw [LengthModifier.modifier, ← h]
    rw [hsame]
    exact .nil s
  | long =>
    have hflag := flag_l s
    rw [h] at hflag
    exact .cons (by decide) hflag (.inl (show (1 : ℤ) ≠ 0 by decide)) (.nil _)
  | short =>
    have hflag := flag_h s
    rw [h] at hflag
    exact .cons (by decide) hflag (.inl (show (-1 : ℤ) ≠ 0 by decide)) (.nil _)

theorem readUnsigned_eq {base : ℤ} (hbase : 2 ≤ base) (hle : base ≤ 36) {length : LengthModifier}
    (h : s.modifier = length.modifier) {v : UInt32} {args : List VaArg}
    (hargs : s.args = .word v :: args) : ∃ buf, s.readUnsigned base = { s with buf := buf, args := args } ∧
      IsString buf (numeral base.natAbs (length.unsigned v)) := by
  unfold readUnsigned readNumber
  rw [h, hargs]
  cases length with
  | none => exact ⟨_, rfl, lutoa_isString v.toNat_lt hbase hle _⟩
  | long => exact ⟨_, rfl, lutoa_isString v.toNat_lt hbase hle _⟩
  | short => exact ⟨_, rfl, lutoa_isString (v.toUInt16.toNat_lt.trans (by decide)) hbase hle _⟩

theorem readSigned_eq {length : LengthModifier} (h : s.modifier = length.modifier) {v : UInt32}
    {args : List VaArg} (hargs : s.args = .word v :: args) :
    ∃ buf, s.readSigned 10 = { s with buf := buf, args := args } ∧
      IsString buf (signedNumeral (length.signed v)) := by
  unfold readSigned readNumber
  have hstring := fun buf => ltoa_isString (length.signed_natAbs_lt v) buf
  rw [h, hargs]
  cases length with
  | none => exact ⟨_, rfl, hstring _⟩
  | long => exact ⟨_, rfl, hstring _⟩
  | short => exact ⟨_, rfl, hstring _⟩

/-- As much as is asked for of the string in the buffer is put behind the text. -/
theorem append_take {n : ℕ} (hstored : Stored dest s.dest text) (hstr : s.str = text.length)
    (hbuf : IsString s.buf l) (hl : NonZero l) (hle : n ≤ l.length) (hn : n < word32) :
    Appended dest text (l.take n) s.args s (s.append n) := by
  obtain ⟨hdest, hnext⟩ := hstored.append hstr (strncpy_take hbuf hl hle hn)
    (by rw [List.length_take, min_eq_left hle])
  exact ⟨hnext, rfl, hdest, rfl, rfl⟩

/-- The string in the buffer is put behind the text. -/
theorem append_buf (hstored : Stored dest s.dest text) (hstr : s.str = text.length)
    (hbuf : IsString s.buf l) (hl : NonZero l) (hlen : l.length < word32) :
    Appended dest text l s.args s (s.append l.length) := by
  have happended := append_take hstored hstr hbuf hl le_rfl hlen
  rwa [List.take_length] at happended

/-- A number is put behind the text, behind as many characters as its width asks for. -/
theorem appendNumber_appended (hstored : Stored dest s.dest text) (hstr : s.str = text.length)
    (hbuf : IsString s.buf l) (hl : NonZero l) (hlen : l.length < 1024) (hwidth : s.width < 1024)
    (hchar : s.padding = true → s.paddingChar ≠ 0) :
    Appended dest text
      ((if s.padding = true then List.replicate (s.width - l.length) s.paddingChar else []) ++ l) s.args s
      (s.appendNumber id) := by
  have hword : word32 = 4294967296 := rfl
  have hstrlen := hbuf.strlen_eq hl (by omega)
  unfold appendNumber
  dsimp only [id]
  rw [hstrlen]
  by_cases hpad : s.padding = true ∧ l.length < s.width
  · have hpadded : NonZero (List.replicate (s.width - l.length) s.paddingChar ++ l) :=
      NonZero.append (fun c hc => List.eq_of_mem_replicate hc ▸ hchar hpad.1) hl
    have hlong : (List.replicate (s.width - l.length) s.paddingChar ++ l).length < word32 := by
      rw [List.length_append, List.length_replicate]
      omega
    have hstring := padLeft_isString (s := { s with bufLen := l.length }) s.paddingChar hbuf rfl
    rw [if_pos hpad, if_pos hpad.1, hstring.strlen_eq hpadded hlong]
    exact (append_buf (s := padLeft s.paddingChar { s with bufLen := l.length }) hstored hstr hstring
      hpadded hlong).congr rfl rfl
  · have hnone : (if s.padding = true then List.replicate (s.width - l.length) s.paddingChar else []) =
        [] := by
      split_ifs with hpadding
      · rw [Nat.sub_eq_zero_of_le (Nat.not_lt.mp fun hlt => hpad ⟨hpadding, hlt⟩)]
        rfl
      · rfl
    rw [if_neg hpad, hnone, List.nil_append, hstrlen]
    exact (append_buf (s := { s with bufLen := l.length }) hstored hstr hbuf hl (by omega)).congr rfl rfl

end Numbers

/-! ### Strings -/

section Strings
variable {s : Vsprintf} {dest memory : CString} {text l : List UInt8} {args : List VaArg}

/-- What the conversion of a string puts behind the text: with spaces in front of it, the string is
cut off behind as many characters as it has. -/
def fieldText (leftAlign : Bool) (width : ℕ) (l : List UInt8) : List UInt8 :=
  if l.length < width then
    if leftAlign then l ++ List.replicate (width - l.length) ' '.toUInt8
    else (List.replicate (width - l.length) ' '.toUInt8 ++ l).take l.length
  else l

theorem replicate_space_nonZero (n : ℕ) : NonZero (List.replicate n ' '.toUInt8) := by
  intro c hc
  rw [List.eq_of_mem_replicate hc]
  decide

theorem readString_eq (hprecision : s.precisionToggle = false)
    (hargs : s.args = .pointer memory :: args) (hmemory : memory.strlen < word32) :
    ∃ buf, s.readString = { s with buf := buf, bufLen := memory.text.length, args := args } ∧
      IsString buf memory.text := by
  have hl := memory.text_nonZero
  have hlen : memory.text.length < word32 := by rwa [text_length]
  have hself : IsString memory memory.text := text_isString hmemory
  have hcopy := (strcpy_isString s.buf hself (fun i hi => hself.ne_zero hl hi) hlen).1
  refine ⟨s.buf.strcpy memory, ?_, hcopy⟩
  unfold readString
  rw [hprecision, hargs, ← hcopy.strlen_eq hl hlen]
  rfl

theorem appendString_appended (hstored : Stored dest s.dest text) (hstr : s.str = text.length)
    (hbuf : IsString s.buf l) (hl : NonZero l) (hbufLen : s.bufLen = l.length)
    (hlen : l.length < 1024) (hwidth : s.width < 1024) :
    Appended dest text (fieldText s.leftAlign s.width l) s.args s s.appendString := by
  have hword : word32 = 4294967296 := rfl
  unfold appendString fieldText
  dsimp only
  rw [hbufLen]
  by_cases hlt : l.length < s.width
  · rw [if_pos hlt, if_pos hlt]
    by_cases hleft : s.leftAlign = true
    · have hlong : (l ++ List.replicate (s.width - l.length) ' '.toUInt8).length = s.width := by
        rw [List.length_append, List.length_replicate]
        omega
      rw [if_pos hleft, if_pos hleft]
      have happended := append_buf (s := s.padRight) hstored hstr (padRight_isString hbuf hbufLen hlt)
        (hl.append (replicate_space_nonZero _)) (by omega)
      rw [hlong] at happended
      exact happended.congr rfl rfl
    · rw [if_neg hleft, if_neg hleft]
      have happended := append_take (s := s.padLeft ' '.toUInt8) (n := l.length) hstored hstr
        (padLeft_isString _ hbuf hbufLen) ((replicate_space_nonZero _).append hl) (by simp) (by omega)
      rw [← hbufLen] at happended ⊢
      exact happended.congr rfl rfl
  · rw [if_neg hlt, if_neg hlt, hbufLen]
    exact append_buf hstored hstr hbuf hl (by omega)

end Strings

/-! ### Formats -/

section Formats
variable (float : FloatToAscii) {format dest : CString} {text : List UInt8} {args : List VaArg}
  {s : Vsprintf} {i : ℕ}

theorem unsigned_appended (number : UnsignedFormat) (length : LengthModifier) {value : UInt32}
    (hmodifier : s.modifier = length.modifier) (hargs : s.args = .word value :: args)
    (hstored : Stored dest s.dest text) (hstr : s.str = text.length) (hwidth : s.width < 1024)
    (hchar : s.padding = true → s.paddingChar ≠ 0) :
    Appended dest text
      ((if s.padding = true then
          List.replicate (s.width - (numeral number.base (length.unsigned value)).length) s.paddingChar
        else []) ++ numeral number.base (length.unsigned value)) args s (convert float number.char s) := by
  have hvalue : length.unsigned value < word32 := by
    cases length with
    | none => exact value.toNat_lt
    | long => exact value.toNat_lt
    | short => exact value.toUInt16.toNat_lt.trans (by decide)
  obtain ⟨hbase, hle, hbase', hle'⟩ := number.base_bounds
  obtain ⟨buf, hread, hbuf⟩ := readUnsigned_eq hbase hle hmodifier hargs
  rw [Int.natAbs_natCast] at hbuf
  have hconvert : convert float number.char s = (s.readUnsigned number.base).appendNumber id := by
    cases number <;> rfl
  rw [hconvert, hread]
  have happended := appendNumber_appended (s := { s with buf := buf, args := args }) hstored hstr hbuf
    (numeral_nonZero hbase' hle' _) ((numeral_length_le hbase' hvalue).trans_lt (by omega)) hwidth hchar
  exact happended.congr rfl rfl

theorem signed_appended (length : LengthModifier) {value : UInt32}
    (hmodifier : s.modifier = length.modifier) (hargs : s.args = .word value :: args)
    (hstored : Stored dest s.dest text) (hstr : s.str = text.length) (hwidth : s.width < 1024)
    (hpadding : s.padding = false) :
    Appended dest text (signedNumeral (length.signed value)) args s (convert float 'd'.toUInt8 s) := by
  obtain ⟨buf, hread, hbuf⟩ := readSigned_eq hmodifier hargs
  have hconvert : convert float 'd'.toUInt8 s = (s.readSigned 10).appendNumber id := rfl
  have hplain : ¬ s.padding = true := by
    rw [hpadding]
    decide
  rw [hconvert, hread]
  have happended := appendNumber_appended (s := { s with buf := buf, args := args }) hstored hstr hbuf
    (signedNumeral_nonZero _) ((signedNumeral_length_le (length.signed_natAbs_lt value)).trans_lt (by omega))
    hwidth fun htrue => absurd htrue hplain
  rw [if_neg hplain] at happended
  exact happended.congr rfl rfl

theorem string_appended {memory : CString} (hprecision : s.precisionToggle = false)
    (hargs : s.args = .pointer memory :: args) (hmemory : memory.strlen < 1024)
    (hstored : Stored dest s.dest text) (hstr : s.str = text.length) (hwidth : s.width < 1024) :
    Appended dest text (fieldText s.leftAlign s.width memory.text) args s
      (convert float 's'.toUInt8 s) := by
  obtain ⟨buf, hread, hbuf⟩ := readString_eq hprecision hargs (hmemory.trans (by decide))
  have hconvert : convert float 's'.toUInt8 s = s.readString.appendString := rfl
  rw [hconvert, hread]
  have happended := appendString_appended
    (s := { s with buf := buf, bufLen := memory.text.length, args := args }) hstored hstr hbuf
    memory.text_nonZero rfl (by rwa [text_length]) hwidth
  exact happended.congr rfl rfl

theorem char_appended {value : UInt32} (h : Ready dest text (.word value :: args) s)
    (hzero : dest (text ++ [value.toUInt8]).length = 0) :
    Appended dest text [value.toUInt8] args s (convert float 'c'.toUInt8 s) := by
  have hconvert : convert float 'c'.toUInt8 s = { s.putChar value.toUInt8 with args := args } := by
    change { s.putChar (vaWord s.args).toUInt8 with args := s.args.tail } = _
    rw [h.args]
    rfl
  obtain ⟨hnext, hret, hdest, -, hleft⟩ := h.putChar hzero
  rw [hconvert]
  exact ⟨hnext, hret, hdest, rfl, hleft⟩

/-- What the loop does with a part of the format. -/
theorem piece_reaches (p : Piece) (h : Ready dest text (p.args ++ args) s)
    (hformat : ∀ j < p.format.length, format (i + j) = p.format.getD j 0)
    (hzero : dest (text ++ p.output).length = 0) :
    ∃ t, Reaches float format i s (i + p.format.length) t ∧ Ready dest (text ++ p.output) args t := by
  cases p with
  | literal c hc =>
    have hchar : format i = c := hformat 0 (Nat.succ_pos 0)
    refine ⟨_, ⟨1, fun fuel => run_literal float (hchar ▸ hc.1) (hchar ▸ hc.2) h.not_begun⟩, ?_⟩
    rw [hchar]
    exact h.literal hzero
  | percent =>
    obtain ⟨t, hreaches, hready, -⟩ := h.conversion float (.nil s) rfl hformat rfl rfl (h.putChar hzero)
    exact ⟨t, hreaches, hready⟩
  | char value hvalue =>
    obtain ⟨t, hreaches, hready, -⟩ :=
      h.conversion float (.nil s) rfl hformat rfl rfl (char_appended float h hzero)
    exact ⟨t, hreaches, hready⟩
  | string memory hlength =>
    have hshort : ¬ memory.text.length < s.width := by
      rw [h.width]
      exact Nat.not_lt_zero _
    have happended := string_appended float h.precisionToggle h.args hlength h.stored h.str
      (h.width ▸ Nat.succ_pos _)
    rw [fieldText, if_neg hshort] at happended
    obtain ⟨t, hreaches, hready, -⟩ := h.conversion float (.nil s) rfl hformat rfl rfl happended
    exact ⟨t, hreaches, hready⟩
  | signed length value =>
    have hflags := flags_length length h.modifier
    have happended := signed_appended float length (s := { s with modifier := length.modifier }) rfl
      h.args h.stored h.str (h.width ▸ Nat.succ_pos _) h.padding
    obtain ⟨t, hreaches, hready, -⟩ := h.conversion float hflags rfl hformat rfl rfl happended
    exact ⟨t, hreaches, hready⟩
  | unsigned number length value =>
    have hflags := flags_length length h.modifier
    have hplain : ¬ s.padding = true := by
      rw [h.padding]
      decide
    have happended := unsigned_appended float number length
      (s := { s with modifier := length.modifier }) rfl h.args h.stored h.str (h.width ▸ Nat.succ_pos _)
      fun htrue => absurd htrue hplain
    rw [if_neg hplain] at happended
    have hend : flag number.char { s with modifier := length.modifier } = none := by
      cases number <;> rfl
    obtain ⟨t, hreaches, hready, -⟩ := h.conversion float hflags hend hformat rfl rfl happended
    exact ⟨t, hreaches, hready⟩
  | zeroPadded digits hwidth number length value =>
    have hzeros := flags_zeroDigits digits h.padding h.currMod h.precisionToggle
    rw [h.width] at hzeros
    have hflags := hzeros.append (flags_length length h.modifier)
    have hend : flag number.char { s with
        currMod := '0'.toUInt8
        padding := true
        paddingChar := '0'.toUInt8
        width := widthFrom digits 0
        modifier := length.modifier } = none := by
      cases number <;> rfl
    have happended := unsigned_appended float number length (s := { s with
        currMod := '0'.toUInt8
        padding := true
        paddingChar := '0'.toUInt8
        width := widthFrom digits 0
        modifier := length.modifier }) rfl h.args h.stored h.str hwidth
      fun _ => (by decide : '0'.toUInt8 ≠ 0)
    rw [if_pos rfl] at happended
    obtain ⟨t, hreaches, hready, -⟩ := h.conversion float hflags hend hformat rfl rfl happended
    exact ⟨t, hreaches, hready⟩

theorem pieces_reach (pieces : List Piece) (h : Ready dest text (pieces.flatMap Piece.args) s)
    (hformat : IsString (fun j => format (i + j)) (pieces.flatMap Piece.format))
    (hzero : ∀ k ≤ (text ++ pieces.flatMap Piece.output).length, dest k = 0) :
    ∃ t, Reaches float format i s (i + (pieces.flatMap Piece.format).length) t ∧
      Ready dest (text ++ pieces.flatMap Piece.output) [] t := by
  induction pieces generalizing i s text with
  | nil =>
    refine ⟨s, .refl, ?_⟩
    rw [List.flatMap_nil, List.append_nil]
    exact h
  | cons p pieces ih =>
    rw [List.flatMap_cons] at h hformat
    rw [List.flatMap_cons, ← List.append_assoc] at hzero
    obtain ⟨hfirst, hrest⟩ := isString_append.mp hformat
    obtain ⟨t, hreaches, hready⟩ := piece_reaches float p h hfirst
      (hzero _ (List.prefix_append _ _).length_le)
    have hnext : IsString (fun j => format (i + p.format.length + j)) (pieces.flatMap Piece.format) := by
      simpa only [Nat.add_assoc] using hrest
    obtain ⟨t', hreaches', hready'⟩ := ih hready hnext hzero
    refine ⟨t', ?_, ?_⟩
    · rw [List.flatMap_cons, List.length_append, ← Nat.add_assoc]
      exact hreaches.trans hreaches'
    · rwa [List.flatMap_cons, ← List.append_assoc]

theorem ready_start (hzero : dest 0 = 0) (args : List VaArg) :
    Ready dest [] args { dest := dest, args := args } where
  modifier := rfl
  currMod := rfl
  padding := rfl
  width := rfl
  precisionToggle := rfl
  str := rfl
  ret := rfl
  stored := by
    refine ⟨fun i hi => ?_, fun i _ => rfl⟩
    rw [Nat.le_zero.mp hi]
    exact hzero
  args := rfl

/-- A format of such parts is rendered as the C standard says, and its length is returned. -/
theorem vsprintf_pieces (pieces : List Piece) {size : ℕ}
    (hformat : IsString format (pieces.flatMap Piece.format))
    (hsize : (pieces.flatMap Piece.output).length < size) (hzero : ∀ i < size, dest i = 0) :
    ∃ fuel str, vsprintf float fuel dest format (pieces.flatMap Piece.args) =
        some (str, (pieces.flatMap Piece.output).length) ∧
      Stored dest str (pieces.flatMap Piece.output) := by
  have hstart := ready_start (hzero 0 (by omega)) (pieces.flatMap Piece.args)
  obtain ⟨t, hreaches, hready⟩ := pieces_reach float pieces hstart (i := 0)
    (by simpa only [Nat.zero_add] using hformat) fun k hk => hzero k (hk.trans_lt hsize)
  rw [List.nil_append] at hready
  obtain ⟨fuel, hrun⟩ := hreaches.ends (by rw [Nat.zero_add]; exact hformat.end_eq)
  refine ⟨fuel, t.dest, ?_, hready.stored⟩
  rw [vsprintf, hrun, Option.map_some, hready.ret]

end Formats

/-- `%04x:%d`. -/
theorem vsprintf_pieces_padded : ∃ fuel str, vsprintf ⟨fun _ buf _ => buf, fun _ buf _ => buf⟩ fuel
      (fun _ => 0) (fun i => [37, 48, 52, 120, 58, 37, 100].getD i 0) [.word 10, .word 7] =
        some (str, 6) ∧ Stored (fun _ => 0) str [48, 48, 48, 97, 58, 55] := by
  have hformat : IsString (fun i => [37, 48, 52, 120, 58, 37, 100].getD i 0)
      (List.flatMap Piece.format [.zeroPadded [4] (by decide) .x .none 10, .literal 58 (by decide),
        .signed .none 7]) := by
    intro i _
    rfl
  exact vsprintf_pieces _ _ hformat (show _ < 7 by decide) (fun _ _ => rfl)

end DosKernel.Libc
