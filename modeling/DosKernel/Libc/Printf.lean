import DosKernel.Libc.Numbers
import Mathlib.Data.List.TakeWhile

/-! Formatted output. One loop copies the characters of the format and reads the conversions in it;
between the characters of a conversion its flags are kept in local variables, and texts are appended
to the string that the destination holds. -/

namespace DosKernel.Libc

open CString

/-- An argument: a word, the memory that a pointer points to, or a `double`. -/
inductive VaArg
  | word (value : UInt32)
  | pointer (memory : CString)
  | double (bits : UInt64)

/-- `va_arg` of an integer type. -/
def vaWord : List VaArg → UInt32
  | .word value :: _ => value
  | _ => 0

/-- `va_arg` of a pointer to characters. -/
def vaPointer : List VaArg → CString
  | .pointer memory :: _ => memory
  | _ => fun _ => 0

/-- `va_arg` of a `double`. -/
def vaDouble : List VaArg → UInt64
  | .double bits :: _ => bits
  | _ => 0

/-- `ftoa` and `lftoa`, for the bits of a `double` and a precision. -/
structure FloatToAscii where
  ftoa : UInt64 → CString → ℕ → CString
  lftoa : UInt64 → CString → ℕ → CString

/-- The local variables of `vsprintf`, with the memory of the destination; `str` counts from its
begin. -/
structure Vsprintf where
  buf : CString := fun _ => 0
  modifier : ℤ := 0
  currMod : UInt8 := 0
  padding : Bool := false
  paddingChar : UInt8 := 0
  width : ℕ := 0
  bufLen : ℕ := 0
  precisionToggle : Bool := false
  precision : ℕ := 0
  leftAlign : Bool := false
  ret : ℕ := 0
  dest : CString
  str : ℕ := 0
  args : List VaArg

/-! ### The code -/

/-- `memmove` to a higher address: the bytes are copied from the last to the first. -/
def memmove (s : CString) (dest source : ℕ) : (n : ℕ) → CString
  | 0 => s
  | n + 1 => memmove (Function.update s (dest + n) (s (source + n))) dest source n

def memset (s : CString) (c : UInt8) (n : ℕ) : CString := fun i => if i < n then c else s i

def toupper (c : UInt8) : UInt8 :=
  if 'a'.toUInt8 ≤ c ∧ c ≤ 'z'.toUInt8 then 'A'.toUInt8 + c - 'a'.toUInt8 else c

def strupr (s : CString) : CString := fun i => if i < s.strlen then toupper (s i) else s i

namespace Vsprintf

/-- `*str = c; str++`. -/
def putChar (c : UInt8) (s : Vsprintf) : Vsprintf :=
  { s with dest := Function.update s.dest s.str c, str := s.str + 1 }

/-- `strncat(str, buf, n); str += n`. -/
def append (n : ℕ) (s : Vsprintf) : Vsprintf :=
  { s with dest := s.dest.within s.str fun d => d.strncat s.buf n, str := s.str + n }

/-- The characters of a conversion behind which the loop goes on. -/
def flag (c : UInt8) (s : Vsprintf) : Option Vsprintf :=
  if c = '-'.toUInt8 then some { s with currMod := c, leftAlign := true }
  else if c = ' '.toUInt8 then some { s with currMod := c, padding := true, paddingChar := ' '.toUInt8 }
  else if c = '0'.toUInt8 ∧ s.padding = false ∧ s.currMod = 0 then
    some { s with currMod := c, padding := true, paddingChar := '0'.toUInt8 }
  else if '0'.toUInt8 ≤ c ∧ c ≤ '9'.toUInt8 then
    if s.precisionToggle then some { s with precision := s.precision * 10 + (c - '0'.toUInt8).toNat }
    else some { s with
      currMod := if s.currMod = 0 then ' '.toUInt8 else s.currMod
      width := s.width * 10 + (c - '0'.toUInt8).toNat }
  else if c = '.'.toUInt8 then some { s with currMod := c, precisionToggle := true }
  else if c = '*'.toUInt8 then some { s with currMod := c }
  else if c = 'l'.toUInt8 then some { s with modifier := s.modifier + 1 }
  else if c = 'h'.toUInt8 then some { s with modifier := s.modifier - 1 }
  else none

/-- An integer argument as text in `buf`, by the function for the modifier. -/
def readNumber (long int short : UInt32 → CString → CString) (s : Vsprintf) : Vsprintf :=
  if s.modifier = 1 then { s with buf := long (vaWord s.args) s.buf, args := s.args.tail }
  else if s.modifier = 0 then { s with buf := int (vaWord s.args) s.buf, args := s.args.tail }
  else if s.modifier = -1 then { s with buf := short (vaWord s.args) s.buf, args := s.args.tail }
  else s

def readUnsigned (base : ℤ) : Vsprintf → Vsprintf :=
  readNumber (fun v buf => lutoa v.toNat buf base) (fun v buf => utoa v buf base)
    fun v buf => hutoa v.toUInt16 buf base

def readSigned (base : ℤ) : Vsprintf → Vsprintf :=
  readNumber (fun v buf => ltoa v.toInt32.toInt buf base) (fun v buf => itoa v.toInt32 buf base)
    fun v buf => htoa v.toUInt16.toInt16 buf base

/-- A `double` as text in `buf`. -/
def readDouble (float : FloatToAscii) (s : Vsprintf) : Vsprintf :=
  let precision := if s.precisionToggle then s.precision else 6
  if s.modifier = 1 then
    { s with buf := float.lftoa (vaDouble s.args) s.buf precision, args := s.args.tail }
  else if s.modifier = 0 then
    { s with buf := float.ftoa (vaDouble s.args) s.buf precision, args := s.args.tail }
  else s

/-- The string in `buf` behind as many `c` as it is shorter than the width. -/
def padLeft (c : UInt8) (s : Vsprintf) : Vsprintf :=
  { s with buf := memset (memmove s.buf (s.width - s.bufLen) 0 (s.bufLen + 1)) c (s.width - s.bufLen) }

/-- The string in `buf` with spaces behind it up to the width. -/
def padRight (s : Vsprintf) : Vsprintf :=
  { s with
    buf := fun i =>
      if s.bufLen ≤ i ∧ i < s.width then ' '.toUInt8 else if i = s.width then 0 else s.buf i,
    bufLen := s.width }

/-- The end of the conversions of numbers. -/
def appendNumber (last : CString → CString) (s : Vsprintf) : Vsprintf :=
  let s := { s with bufLen := s.buf.strlen }
  let s := if s.padding = true ∧ s.bufLen < s.width then s.padLeft s.paddingChar else s
  let s := { s with buf := last s.buf }
  s.append s.buf.strlen

/-- The string argument in `buf`: as many characters as the precision says, or the whole string. -/
def readString (s : Vsprintf) : Vsprintf :=
  if s.precisionToggle then
    let s := if s.currMod = '*'.toUInt8 then
      { s with bufLen := (vaWord s.args).toNat, args := s.args.tail } else { s with bufLen := s.precision }
    let buf := s.buf.strncpy (vaPointer s.args) s.bufLen
    { s with
      buf := fun i => if i < s.bufLen ∧ buf i = 0 then ' '.toUInt8 else buf i,
      args := s.args.tail }
  else
    let buf := s.buf.strcpy (vaPointer s.args)
    { s with buf := buf, bufLen := buf.strlen, args := s.args.tail }

/-- The end of the conversion of strings. -/
def appendString (s : Vsprintf) : Vsprintf :=
  let s := if s.bufLen < s.width then if s.leftAlign then s.padRight else s.padLeft ' '.toUInt8 else s
  s.append s.bufLen

/-- The character that ends a conversion. -/
def convert (float : FloatToAscii) (c : UInt8) (s : Vsprintf) : Vsprintf :=
  if c = '%'.toUInt8 then s.putChar '%'.toUInt8
  else if c = 'c'.toUInt8 then { s.putChar (vaWord s.args).toUInt8 with args := s.args.tail }
  else if c = 's'.toUInt8 then s.readString.appendString
  else if c = 'u'.toUInt8 then (s.readUnsigned 10).appendNumber id
  else if c = 'i'.toUInt8 ∨ c = 'd'.toUInt8 then (s.readSigned 10).appendNumber id
  else if c = 'o'.toUInt8 then (s.readSigned 8).appendNumber id
  else if c = 'b'.toUInt8 then (s.readUnsigned 2).appendNumber id
  else if c = 'p'.toUInt8 then
    let s := { s with modifier := 1, padding := true, width := 8, paddingChar := '0'.toUInt8 }
    (s.readUnsigned 16).appendNumber id
  else if c = 'x'.toUInt8 then (s.readUnsigned 16).appendNumber id
  else if c = 'X'.toUInt8 then (s.readSigned 16).appendNumber strupr
  else if c = 'f'.toUInt8 then (s.readDouble float).appendNumber id
  else s

/-- What is set back behind a conversion. -/
def reset (s : Vsprintf) : Vsprintf :=
  { s with currMod := 0, modifier := 0, padding := false, width := 0, precisionToggle := false,
           precision := 0 }

/-- `ret += str - old_str`. -/
def count (oldStr : ℕ) (s : Vsprintf) : Vsprintf := { s with ret := s.ret + (s.str - oldStr) }

def Begun (s : Vsprintf) : Prop := s.modifier ≠ 0 ∨ s.padding = true ∨ s.currMod ≠ 0

instance (s : Vsprintf) : Decidable s.Begun := by
  unfold Begun
  infer_instance

theorem not_begun {s : Vsprintf} (hmodifier : s.modifier = 0) (hcurr : s.currMod = 0)
    (hpadding : s.padding = false) : ¬ s.Begun := by
  rintro (hne | htrue | hne)
  · exact hne hmodifier
  · exact absurd (hpadding.symm.trans htrue) (by decide)
  · exact hne hcurr

def run (float : FloatToAscii) (format : CString) : (fuel i : ℕ) → Vsprintf → Option Vsprintf
  | 0, _, _ => none
  | fuel + 1, i, s =>
    if format i = 0 then some s
    else if s.Begun ∨ format i = '%'.toUInt8 then
      match flag (format (i + 1)) s with
      | some s => run float format fuel (i + 1) s
      | none => run float format fuel (i + 2) ((convert float (format (i + 1)) s).reset.count s.str)
    else run float format fuel (i + 1) ((s.putChar (format i)).count s.str)

end Vsprintf

/-- `vsprintf`, with the memory of the destination that it leaves and the length that it returns. -/
def vsprintf (float : FloatToAscii) (fuel : ℕ) (str format : CString) (args : List VaArg) :
    Option (CString × ℕ) :=
  (Vsprintf.run float format fuel 0 { dest := str, args := args }).map fun s => (s.dest, s.ret)

/-! ### The scratch buffer -/

section Buffers
variable {s : Vsprintf} {text l : List UInt8} {n : ℕ}

theorem memmove_eq {dest source : ℕ} (hle : source ≤ dest) (n : ℕ) (s : CString) :
    memmove s dest source n =
      fun i => if dest ≤ i ∧ i < dest + n then s (source + (i - dest)) else s i := by
  induction n generalizing s with
  | zero =>
    funext i
    rw [memmove, if_neg (by omega)]
  | succ n ih =>
    rw [memmove, ih]
    funext i
    by_cases hlast : i = dest + n
    · subst hlast
      rw [if_neg (by omega), if_pos (by omega), Function.update_self, Nat.add_sub_cancel_left]
    · by_cases hin : dest ≤ i ∧ i < dest + n
      · rw [if_pos hin, if_pos (by omega), Function.update_of_ne (by omega)]
      · rw [if_neg hin, if_neg (by omega), Function.update_of_ne hlast]

/-- The spaces or zeros stand in front of the string. -/
theorem padLeft_isString (c : UInt8) (h : IsString s.buf l) (hlen : s.bufLen = l.length) :
    IsString (s.padLeft c).buf (List.replicate (s.width - l.length) c ++ l) := by
  apply isString_append.mpr
  rw [List.length_replicate]
  unfold Vsprintf.padLeft memset
  dsimp only
  rw [hlen, memmove_eq (Nat.zero_le _)]
  constructor
  · intro i hi
    rw [if_pos hi, List.getD_eq_getElem _ _ (by simpa using hi), List.getElem_replicate]
  · intro i hi
    dsimp only
    rw [if_neg (by omega), if_pos (by omega), Nat.add_sub_cancel_left, Nat.zero_add, h i hi]

theorem padRight_isString (h : IsString s.buf l) (hlen : s.bufLen = l.length)
    (hlt : l.length < s.width) :
    IsString s.padRight.buf (l ++ List.replicate (s.width - l.length) ' '.toUInt8) := by
  apply isString_append.mpr
  unfold Vsprintf.padRight
  dsimp only
  rw [hlen]
  constructor
  · intro i hi
    rw [if_neg (by omega), if_neg (by omega), h i hi.le]
  · intro i hi
    rw [List.length_replicate] at hi
    dsimp only
    rcases hi.lt_or_eq with hin | rfl
    · rw [if_pos (by omega), List.getD_eq_getElem _ _ (by simpa using hin), List.getElem_replicate]
    · rw [if_neg (by omega), if_pos (by omega), List.getD_eq_default _ _ (by simp)]

/-- As much of a string as is asked for is copied. -/
theorem strncpy_take {source : CString} (h : IsString source l) (hl : NonZero l) (hle : n ≤ l.length)
    (hn : n < word32) (d : CString) : IsString (d.strncpy source n) (l.take n) := by
  have hchars : source.chars n = l.take n := by
    apply List.ext_getElem
    · rw [chars_length, List.length_take, min_eq_left hle]
    · intro i hi hi'
      rw [chars_length] at hi
      rw [chars_getElem, h i (by omega), List.getElem_take, List.getD_eq_getElem _ _ (by omega)]
  have hall : ∀ c ∈ l.take n, decide (c ≠ 0) = true := fun c hc =>
    decide_eq_true (hl c (List.mem_of_mem_take hc))
  have hstring : IsString (d.strncpy source n) ((source.chars n).takeWhile (· ≠ 0)) :=
    strncpy_takeWhile d hn
  rwa [hchars, List.takeWhile_eq_self_iff.mpr hall] at hstring

/-! ### The destination -/

/-- The destination holds a text and is otherwise as it was. -/
structure Stored (dest str : CString) (text : List UInt8) : Prop where
  string : IsString str text
  kept : ∀ i, text.length < i → str i = dest i

variable {dest str : CString}

theorem Stored.putChar (h : Stored dest str text) (hzero : dest (text.length + 1) = 0) (c : UInt8) :
    Stored dest (Function.update str text.length c) (text ++ [c]) := by
  constructor
  · apply isString_append.mpr
    constructor
    · intro i hi
      rw [Function.update_of_ne (by omega), h.string i hi.le]
    · intro i hi
      dsimp only
      rcases hi.lt_or_eq with hlt | rfl
      · rw [Nat.lt_one_iff.mp hlt, Nat.add_zero, Function.update_self]
        rfl
      · rw [Function.update_of_ne (by simp), List.length_singleton, h.kept _ (Nat.lt_succ_self _), hzero]
        rfl
  · intro i hi
    rw [List.length_append, List.length_singleton] at hi
    rw [Function.update_of_ne (by omega), h.kept i (by omega)]

/-- Characters of the buffer behind the text. -/
theorem Stored.append (h : Stored dest s.dest text) (hstr : s.str = text.length)
    (hbuf : ∀ d : CString, IsString (d.strncpy s.buf n) l) (hlen : l.length = n) :
    Stored dest (s.append n).dest (text ++ l) ∧ (s.append n).str = (text ++ l).length := by
  refine ⟨⟨?_, ?_⟩, by simp [Vsprintf.append, hstr, hlen]⟩
  · unfold Vsprintf.append
    rw [hstr]
    exact h.string.concat hbuf
  · intro i hi
    rw [List.length_append] at hi
    obtain ⟨j, rfl⟩ := Nat.exists_eq_add_of_le (show text.length ≤ i by omega)
    unfold Vsprintf.append
    dsimp only
    rw [hstr, within_add, strncat_of_end (by simpa using h.string.end_eq), strncpy, if_neg (by omega),
      if_neg (by omega), h.kept _ (by omega)]

end Buffers

/-! ### Conversions in the loop -/

namespace Vsprintf

/-- The characters of a conversion in front of its last one. -/
inductive Flags : List UInt8 → Vsprintf → Vsprintf → Prop
  | nil (s : Vsprintf) : Flags [] s s
  | cons {c : UInt8} {flags : List UInt8} {s s' s'' : Vsprintf} (hc : c ≠ 0)
      (hflag : s.flag c = some s') (hbegun : s'.Begun) (hrest : Flags flags s' s'') :
      Flags (c :: flags) s s''

theorem Flags.append {l l' : List UInt8} {s s' s'' : Vsprintf} (h : Flags l s s')
    (h' : Flags l' s' s'') : Flags (l ++ l') s s'' := by
  induction h with
  | nil s => exact h'
  | cons hc hflag hbegun hrest ih => exact .cons hc hflag hbegun (ih h')

theorem run_conversion (float : FloatToAscii) {format : CString} {flags : List UInt8} {c : UInt8}
    {s s' : Vsprintf} {i fuel : ℕ} (hflags : Flags flags s s') (hend : s'.flag c = none)
    (hi : format i ≠ 0) (hstart : s.Begun ∨ format i = '%'.toUInt8)
    (hformat : ∀ j ≤ flags.length, format (i + 1 + j) = (flags ++ [c]).getD j 0) :
    run float format (fuel + flags.length + 1) i s =
      run float format fuel (i + flags.length + 2) ((convert float c s').reset.count s'.str) := by
  induction hflags generalizing i with
  | nil s =>
    have hlast : format (i + 1) = c := hformat 0 le_rfl
    rw [List.length_nil, Nat.add_zero, run, if_neg hi, if_pos hstart, hlast, hend]
  | @cons b flags s s' s'' hb hflag hbegun hrest ih =>
    have hfirst : format (i + 1) = b := hformat 0 (Nat.zero_le _)
    have hnext : ∀ j ≤ flags.length, format (i + 1 + 1 + j) = (flags ++ [c]).getD j 0 := by
      intro j hj
      have hchar := hformat (j + 1) (Nat.succ_le_succ hj)
      rwa [List.cons_append, List.getD_cons_succ, Nat.add_comm j, ← Nat.add_assoc] at hchar
    rw [List.length_cons, run, if_neg hi, if_pos hstart, hfirst, hflag]
    dsimp only
    rw [← Nat.add_assoc fuel, ih hend (hfirst ▸ hb) (.inl hbegun) hnext]
    congr 1
    omega

/-- The loop reads a character that is none of a conversion. -/
theorem run_literal (float : FloatToAscii) {format : CString} {s : Vsprintf} {i fuel : ℕ}
    (hi : format i ≠ 0) (hliteral : format i ≠ '%'.toUInt8) (hbegun : ¬ s.Begun) :
    run float format (fuel + 1) i s =
      run float format fuel (i + 1) ((s.putChar (format i)).count s.str) := by
  rw [run, if_neg hi, if_neg (not_or.mpr ⟨hbegun, hliteral⟩)]

/-- The loop comes from one place in the format to another one. -/
def Reaches (float : FloatToAscii) (format : CString) (i : ℕ) (s : Vsprintf) (i' : ℕ) (s' : Vsprintf) :
    Prop :=
  ∃ k, ∀ fuel, run float format (fuel + k) i s = run float format fuel i' s'

section Reaches
variable {float : FloatToAscii} {format : CString} {i i' i'' : ℕ} {s s' s'' : Vsprintf}

theorem Reaches.refl : Reaches float format i s i s := ⟨0, fun _ => rfl⟩

theorem Reaches.trans (h : Reaches float format i s i' s') (h' : Reaches float format i' s' i'' s'') :
    Reaches float format i s i'' s'' := by
  obtain ⟨k, hk⟩ := h
  obtain ⟨k', hk'⟩ := h'
  refine ⟨k' + k, fun fuel => ?_⟩
  rw [← Nat.add_assoc, hk, hk']

theorem Reaches.ends (h : Reaches float format i s i' s') (hend : format i' = 0) :
    ∃ fuel, run float format fuel i s = some s' := by
  obtain ⟨k, hk⟩ := h
  refine ⟨1 + k, ?_⟩
  rw [hk, run, if_pos hend]

end Reaches

/-- More fuel does not change what the loop leaves. -/
theorem run_mono {float : FloatToAscii} {format : CString} {fuel i : ℕ} {s t : Vsprintf}
    (h : run float format fuel i s = some t) (k : ℕ) : run float format (fuel + k) i s = some t := by
  induction fuel generalizing i s with
  | zero => exact nomatch h
  | succ fuel ih =>
    rw [Nat.add_right_comm, run]
    rw [run] at h
    split_ifs at h ⊢
    · exact h
    · split at h
      · exact ih h
      · exact ih h
    · exact ih h

/-! ### Between conversions -/

/-- The state between two conversions, with the text so far and the arguments to come. -/
structure Ready (dest : CString) (text : List UInt8) (args : List VaArg) (s : Vsprintf) : Prop where
  modifier : s.modifier = 0
  currMod : s.currMod = 0
  padding : s.padding = false
  width : s.width = 0
  precisionToggle : s.precisionToggle = false
  str : s.str = text.length
  ret : s.ret = text.length
  stored : Stored dest s.dest text
  args : s.args = args

/-- A conversion has put a text behind the one so far. -/
structure Appended (dest : CString) (text l : List UInt8) (args : List VaArg) (s t : Vsprintf) : Prop where
  str : t.str = (text ++ l).length
  ret : t.ret = s.ret
  stored : Stored dest t.dest (text ++ l)
  args : t.args = args
  leftAlign : t.leftAlign = s.leftAlign

section Ready
variable {dest : CString} {text l : List UInt8} {args : List VaArg} {s t : Vsprintf}

theorem Ready.not_begun (h : Ready dest text args s) : ¬ s.Begun :=
  Vsprintf.not_begun h.modifier h.currMod h.padding

/-- Between the states of a conversion only the result differs. -/
theorem Appended.congr {s' : Vsprintf} (h : Appended dest text l args s t) (hret : s.ret = s'.ret)
    (hleft : s.leftAlign = s'.leftAlign) : Appended dest text l args s' t where
  str := h.str
  ret := h.ret.trans hret
  stored := h.stored
  args := h.args
  leftAlign := h.leftAlign.trans hleft

/-- What is set back makes the loop ready again. -/
theorem Appended.ready (h : Appended dest text l args s t) (hstr : s.str = text.length)
    (hret : s.ret = text.length) : Ready dest (text ++ l) args (t.reset.count s.str) where
  modifier := rfl
  currMod := rfl
  padding := rfl
  width := rfl
  precisionToggle := rfl
  str := h.str
  ret := by
    have hlen := h.str
    rw [List.length_append] at hlen ⊢
    change t.ret + (t.str - s.str) = text.length + l.length
    rw [h.ret, hret, hstr, hlen, Nat.add_sub_cancel_left]
  stored := h.stored
  args := h.args

theorem Ready.putChar (h : Ready dest text args s) {c : UInt8}
    (hzero : dest (text ++ [c]).length = 0) :
    Appended dest text [c] args s (s.putChar c) where
  str := by
    rw [List.length_append, ← h.str]
    rfl
  ret := rfl
  stored := by
    rw [List.length_append, List.length_singleton] at hzero
    have hstored := h.stored.putChar hzero c
    rwa [← h.str] at hstored
  args := h.args
  leftAlign := rfl

theorem Ready.literal (h : Ready dest text args s) {c : UInt8}
    (hzero : dest (text ++ [c]).length = 0) :
    Ready dest (text ++ [c]) args ((s.putChar c).count s.str) where
  modifier := h.modifier
  currMod := h.currMod
  padding := h.padding
  width := h.width
  precisionToggle := h.precisionToggle
  str := (h.putChar hzero).str
  ret := by
    change s.ret + (s.str + 1 - s.str) = (text ++ [c]).length
    rw [h.ret, List.length_append, Nat.add_sub_cancel_left]
    rfl
  stored := (h.putChar hzero).stored
  args := h.args

/-- A conversion between two others. -/
theorem Ready.conversion (float : FloatToAscii) {format : CString} {flags : List UInt8} {c : UInt8}
    {i : ℕ} {args' : List VaArg} {s' : Vsprintf} (h : Ready dest text args s) (hflags : Flags flags s s')
    (hend : s'.flag c = none)
    (hformat : ∀ j < ('%'.toUInt8 :: (flags ++ [c])).length,
      format (i + j) = ('%'.toUInt8 :: (flags ++ [c])).getD j 0)
    (hstr : s'.str = s.str) (hret : s'.ret = s.ret)
    (happended : Appended dest text l args' s' (convert float c s')) :
    ∃ t, Reaches float format i s (i + ('%'.toUInt8 :: (flags ++ [c])).length) t ∧
      Ready dest (text ++ l) args' t ∧ t.leftAlign = s'.leftAlign := by
  have hlength : ('%'.toUInt8 :: (flags ++ [c])).length = flags.length + 2 := by simp
  rw [hlength] at hformat ⊢
  have hpercent : format i = '%'.toUInt8 := hformat 0 (Nat.succ_pos _)
  have hi : format i ≠ 0 := by
    rw [hpercent]
    decide
  have hbehind : ∀ j ≤ flags.length, format (i + 1 + j) = (flags ++ [c]).getD j 0 := by
    intro j hj
    have hchar := hformat (j + 1) (by omega)
    rwa [List.getD_cons_succ, Nat.add_comm j, ← Nat.add_assoc] at hchar
  refine ⟨_, ⟨flags.length + 1, fun fuel => ?_⟩, happended.ready (hstr.trans h.str) (hret.trans h.ret),
    happended.leftAlign⟩
  exact run_conversion float hflags hend hi (.inr hpercent) hbehind

end Ready

/-! ### Widths -/

/-- The characters of decimal digits. -/
def widthChars (digits : List (Fin 10)) : List UInt8 := digits.map fun d => digitChar d.val

def widthFrom (digits : List (Fin 10)) (width : ℕ) : ℕ :=
  digits.foldl (fun w d => w * 10 + d.val) width

theorem flag_l (s : Vsprintf) : flag 'l'.toUInt8 s = some { s with modifier := s.modifier + 1 } := by
  rw [flag, if_neg (by decide), if_neg (by decide), if_neg fun h => absurd h.1 (by decide),
    if_neg (by decide), if_neg (by decide), if_neg (by decide), if_pos rfl]

theorem flag_h (s : Vsprintf) : flag 'h'.toUInt8 s = some { s with modifier := s.modifier - 1 } := by
  rw [flag, if_neg (by decide), if_neg (by decide), if_neg fun h => absurd h.1 (by decide),
    if_neg (by decide), if_neg (by decide), if_neg (by decide), if_neg (by decide), if_pos rfl]

/-- A digit behind another character of the conversion. -/
theorem flag_digit (d : Fin 10) {s : Vsprintf} (hprecision : s.precisionToggle = false)
    (hzero : d = 0 → s.currMod ≠ 0) : s.flag (digitChar d) = some { s with
      currMod := if s.currMod = 0 then ' '.toUInt8 else s.currMod
      width := s.width * 10 + d } := by
  have hchars : ∀ d : Fin 10, digitChar d ≠ '-'.toUInt8 ∧ digitChar d ≠ ' '.toUInt8 ∧
      (digitChar d = '0'.toUInt8 → d = 0) ∧ ('0'.toUInt8 ≤ digitChar d ∧ digitChar d ≤ '9'.toUInt8) ∧
      (digitChar d - '0'.toUInt8).toNat = d := by decide
  obtain ⟨hminus, hspace, hfirst, hdigit, hvalue⟩ := hchars d
  rw [flag, if_neg hminus, if_neg hspace, if_neg (fun h => hzero (hfirst h.1) h.2.2), if_pos hdigit,
    hprecision, hvalue]
  rfl

theorem digitChar_digit_ne_zero (d : Fin 10) : digitChar d ≠ 0 := digitChar_ne_zero (by omega)

/-- Digits behind another character of the conversion. -/
theorem flags_digits (digits : List (Fin 10)) {s : Vsprintf} (hprecision : s.precisionToggle = false)
    (hcurr : s.currMod ≠ 0) :
    Flags (widthChars digits) s { s with width := widthFrom digits s.width } := by
  induction digits generalizing s with
  | nil => exact .nil s
  | cons d digits ih =>
    have hflag := flag_digit d hprecision fun _ => hcurr
    rw [if_neg hcurr] at hflag
    have hrest := ih (s := { s with width := s.width * 10 + d }) hprecision hcurr
    exact .cons (digitChar_digit_ne_zero d) hflag (.inr (.inr hcurr)) hrest

/-- `0` in front of a width. -/
theorem flags_zeroDigits (digits : List (Fin 10)) {s : Vsprintf} (hpadding : s.padding = false)
    (hcurr : s.currMod = 0) (hprecision : s.precisionToggle = false) :
    Flags ('0'.toUInt8 :: widthChars digits) s { s with
      currMod := '0'.toUInt8
      padding := true
      paddingChar := '0'.toUInt8
      width := widthFrom digits s.width } := by
  have hflag : s.flag '0'.toUInt8 = some { s with
      currMod := '0'.toUInt8
      padding := true
      paddingChar := '0'.toUInt8 } := by
    rw [flag, if_neg (by decide), if_neg (by decide), if_pos ⟨rfl, hpadding, hcurr⟩]
  apply Flags.cons (by decide) hflag (.inr (.inl rfl))
  exact flags_digits digits (s := { s with
    currMod := '0'.toUInt8
    padding := true
    paddingChar := '0'.toUInt8 }) hprecision (show '0'.toUInt8 ≠ 0 by decide)

end Vsprintf

end DosKernel.Libc
