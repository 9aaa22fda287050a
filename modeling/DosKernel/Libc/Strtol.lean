import DosKernel.Libc.Numbers
import Mathlib.Data.List.TakeWhile

/-! Text as integers. `strtol` steps over spaces, a sign and the prefix of a base and then reads digits
up to the end of the string; another character makes the result 0 and leaves the end pointer as it
was. -/

namespace DosKernel.Libc

open CString

/-! ### The code -/

def isspace (c : UInt8) : Bool := c = ' '.toUInt8 ∨ c = '\t'.toUInt8 ∨ (9 ≤ c ∧ c ≤ 13)

def isdigit (c : UInt8) : Bool := '0'.toUInt8 ≤ c ∧ c ≤ '9'.toUInt8

def digitOf (c : UInt8) : Option ℕ :=
  if '0'.toUInt8 ≤ c ∧ c ≤ '9'.toUInt8 then some (c - '0'.toUInt8).toNat
  else if 'a'.toUInt8 ≤ c ∧ c ≤ 'z'.toUInt8 then some ((c - 'a'.toUInt8).toNat + 10)
  else if 'A'.toUInt8 ≤ c ∧ c ≤ 'Z'.toUInt8 then some ((c - 'A'.toUInt8).toNat + 10)
  else none

/-- The loop over spaces, which comes past every address once at most. -/
def skipSpaces (str : CString) : (fuel i : ℕ) → ℕ
  | 0, i => i
  | fuel + 1, i => if isspace (str i) then skipSpaces str fuel (i + 1) else i

def readSign (str : CString) (i : ℕ) : ℤ × ℕ :=
  if str i = '-'.toUInt8 then (-1, i + 1) else if str i = '+'.toUInt8 then (1, i + 1) else (1, i)

/-- `x` or `X`. -/
def isHexMark (c : UInt8) : Bool := c = 'x'.toUInt8 ∨ c = 'X'.toUInt8

/-- The base of the digits, and the place behind its prefix. -/
def readBase (str : CString) (base : ℤ) (i : ℕ) : ℤ × ℕ :=
  if base = 0 then
    if str i = '0'.toUInt8 then if isHexMark (str (i + 1)) then (16, i + 2) else (8, i + 1) else (10, i)
  else if base = 16 ∧ str i = '0'.toUInt8 ∧ isHexMark (str (i + 1)) then (16, i + 2)
  else (base, i)

/-- The loop over the digits: the value and the place behind them, or `none` at a character that
makes the function return 0. -/
def readDigits (str : CString) (base : ℤ) : (fuel i : ℕ) → (value : Int32) → Option (Int32 × ℕ)
  | 0, _, _ => none
  | fuel + 1, i, value =>
    if str i = 0 then some (value, i)
    else
      match digitOf (str i) with
      | none => none
      | some d =>
        if base ≤ d then none
        else readDigits str base fuel (i + 1) (value * Int32.ofInt base + Int32.ofInt d)

/-- `strtol`, with what it stores in `*endptr`. -/
def strtol (str : CString) (base : ℤ) : Int32 × Option ℕ :=
  if base < 0 ∨ base = 1 ∨ 36 < base then (0, some 0)
  else
    let i := skipSpaces str word32 0
    let sign := readSign str i
    let prefixed := readBase str base sign.2
    if str prefixed.2 = 0 then (0, none)
    else
      match readDigits str prefixed.1 word32 prefixed.2 0 with
      | none => (0, none)
      | some (value, last) => (value * Int32.ofInt sign.1, some last)

/-! ### Numbers in text -/

def IsDigits (base : ℤ) (l : List UInt8) : Prop := ∀ c ∈ l, ∃ d, digitOf c = some d ∧ (d : ℤ) < base

def valueOf (base : ℤ) (l : List UInt8) : ℤ := l.foldl (fun v c => v * base + ((digitOf c).getD 0 : ℕ)) 0

inductive SignText : List UInt8 → ℤ → Prop
  | none : SignText [] 1
  | plus : SignText ['+'.toUInt8] 1
  | minus : SignText ['-'.toUInt8] (-1)

inductive PrefixText (base : ℤ) : List UInt8 → List UInt8 → ℤ → Prop
  | given (digits : List UInt8) (h : base ≠ 0) : PrefixText base [] digits base
  | hex (digits : List UInt8) {c : UInt8} (hc : isHexMark c = true) (h : base = 0 ∨ base = 16) :
      PrefixText base ['0'.toUInt8, c] digits 16
  | octal (digits : List UInt8) (h : base = 0) : PrefixText base [] ('0'.toUInt8 :: digits) 8
  | decimal {digits : List UInt8} (h : base = 0) (hfirst : digits.head? ≠ some '0'.toUInt8) :
      PrefixText base [] digits 10

/-- A text of the form `[whitespace][sign][prefix]digits`, with its sign, its digits and their base. -/
structure NumberText (base : ℤ) (l : List UInt8) (sign : ℤ) (digits : List UInt8) (b : ℤ) : Prop where
  split : ∃ spaces signText prefixText, l = spaces ++ (signText ++ (prefixText ++ digits)) ∧
    (∀ c ∈ spaces, isspace c = true) ∧ SignText signText sign ∧ PrefixText base prefixText digits b
  nonempty : digits ≠ []
  digits : IsDigits b digits

/-! ### Digits -/

section Digits
variable {str : CString} {i fuel : ℕ} {base : ℤ} {l : List UInt8} {c : UInt8}

theorem ofInt_add (v d : ℤ) : Int32.ofInt v + Int32.ofInt d = Int32.ofInt (v + d) := by
  apply Int32.toBitVec_inj.mp
  rw [Int32.toBitVec_add, Int32.toBitVec_ofInt, Int32.toBitVec_ofInt, Int32.toBitVec_ofInt,
    BitVec.ofInt_add]

theorem ofInt_mul (v b : ℤ) : Int32.ofInt v * Int32.ofInt b = Int32.ofInt (v * b) := by
  apply Int32.toBitVec_inj.mp
  rw [Int32.toBitVec_mul, Int32.toBitVec_ofInt, Int32.toBitVec_ofInt, Int32.toBitVec_ofInt,
    BitVec.ofInt_mul]

/-- Digits up to the end are read as their number. -/
theorem readDigits_eq (h : Rest str i l) (hl : NonZero l) (hdigits : IsDigits base l)
    (hfuel : l.length < fuel) (v : ℤ) : readDigits str base fuel i (Int32.ofInt v) =
      some (Int32.ofInt (l.foldl (fun v c => v * base + ((digitOf c).getD 0 : ℕ)) v), i + l.length) := by
  induction l generalizing i fuel v with
  | nil =>
    cases fuel with
    | zero => exact absurd hfuel (Nat.not_lt_zero _)
    | succ fuel => rw [readDigits, if_pos h.ends]; rfl
  | cons c l ih =>
    cases fuel with
    | zero => exact absurd hfuel (Nat.not_lt_zero _)
    | succ fuel =>
      obtain ⟨d, hd, hlt⟩ := hdigits c List.mem_cons_self
      have hrest := ih h.tail (fun c hc => hl c (List.mem_cons_of_mem _ hc))
        (fun c hc => hdigits c (List.mem_cons_of_mem _ hc)) (Nat.lt_of_succ_lt_succ hfuel) (v * base + d)
      rw [readDigits, h.head, if_neg (hl c List.mem_cons_self), hd]
      dsimp only
      rw [if_neg (not_le.mpr hlt), ofInt_mul, ofInt_add, hrest, List.foldl_cons, hd, Option.getD_some,
        List.length_cons, Nat.add_assoc, Nat.add_comm 1]

/-- Only digits are read up to the end. -/
theorem readDigits_isDigits {value value' : Int32} {last : ℕ} (h : Rest str i l) (hl : NonZero l)
    (hread : readDigits str base fuel i value = some (value', last)) :
    IsDigits base l ∧ last = i + l.length := by
  induction l generalizing i fuel value with
  | nil =>
    cases fuel with
    | zero => exact nomatch hread
    | succ fuel =>
      rw [readDigits, if_pos h.ends] at hread
      obtain ⟨-, rfl⟩ := Prod.mk.inj (Option.some.inj hread)
      exact ⟨fun c hc => absurd hc List.not_mem_nil, rfl⟩
  | cons c l ih =>
    cases fuel with
    | zero => exact nomatch hread
    | succ fuel =>
      rw [readDigits, h.head, if_neg (hl c List.mem_cons_self)] at hread
      cases hdigit : digitOf c with
      | none => rw [hdigit] at hread; exact nomatch hread
      | some d =>
        rw [hdigit] at hread
        dsimp only at hread
        split_ifs at hread with hbase
        obtain ⟨hrest, hlast⟩ := ih h.tail (fun c hc => hl c (List.mem_cons_of_mem _ hc)) hread
        refine ⟨fun c' hc' => ?_, ?_⟩
        · rcases List.mem_cons.mp hc' with rfl | hc'
          · exact ⟨d, hdigit, not_le.mp hbase⟩
          · exact hrest c' hc'
        · rw [hlast, List.length_cons, Nat.add_assoc, Nat.add_comm 1]

end Digits

/-! ### In front of the digits -/

section Front
variable {str : CString} {i fuel : ℕ} {base b sign : ℤ} {l digits pre : List UInt8} {c : UInt8}

/-- A digit is neither a space nor a sign. -/
theorem digitOf_front {d : ℕ} (h : digitOf c = some d) :
    isspace c = false ∧ c ≠ '-'.toUInt8 ∧ c ≠ '+'.toUInt8 ∧ c ≠ 0 := by
  have hall : ∀ k < 256, digitOf (UInt8.ofNat k) ≠ none → isspace (UInt8.ofNat k) = false ∧
      UInt8.ofNat k ≠ '-'.toUInt8 ∧ UInt8.ofNat k ≠ '+'.toUInt8 ∧ UInt8.ofNat k ≠ 0 := by decide +kernel
  have hc := hall c.toNat c.toNat_lt
  rw [UInt8.ofNat_toNat] at hc
  exact hc (by rw [h]; exact Option.some_ne_none d)

theorem digitOf_zero : digitOf '0'.toUInt8 = some 0 := rfl

theorem digitOf_hexMark (h : isHexMark c = true) : digitOf c = some 33 := by
  rcases of_decide_eq_true h with rfl | rfl <;> rfl

/-- No mark stands behind the first digit of a base up to 16. -/
theorem IsDigits.not_hexMark (h : IsDigits b l) (hb : b ≤ 16) : isHexMark (l.headD 0) = false := by
  by_contra hmark
  rw [Bool.not_eq_false] at hmark
  cases l with
  | nil => exact absurd hmark (by decide)
  | cons c l =>
    obtain ⟨d, hd, hlt⟩ := h c List.mem_cons_self
    rw [digitOf_hexMark (c := c) hmark] at hd
    rw [← Option.some.inj hd] at hlt
    norm_num at hlt
    omega

theorem skipSpaces_eq (h : Rest str i l) (hfuel : l.length < fuel) :
    skipSpaces str fuel i = i + (l.takeWhile isspace).length := by
  induction l generalizing i fuel with
  | nil =>
    cases fuel with
    | zero => exact absurd hfuel (Nat.not_lt_zero _)
    | succ fuel =>
      rw [skipSpaces, h.ends]
      rfl
  | cons c l ih =>
    cases fuel with
    | zero => exact absurd hfuel (Nat.not_lt_zero _)
    | succ fuel =>
      rw [skipSpaces, h.head, List.takeWhile_cons]
      split_ifs with hspace
      · rw [ih h.tail (Nat.lt_of_succ_lt_succ hfuel), List.length_cons, Nat.add_assoc, Nat.add_comm 1]
      · rfl

theorem readSign_eq {signText : List UInt8} (h : Rest str i (signText ++ l))
    (hsign : SignText signText sign) (hfirst : l.headD 0 ≠ '-'.toUInt8 ∧ l.headD 0 ≠ '+'.toUInt8) :
    readSign str i = (sign, i + signText.length) := by
  unfold readSign
  cases hsign with
  | none =>
    have hhead : str i = l.headD 0 := Rest.headD h
    rw [hhead, if_neg hfirst.1, if_neg hfirst.2]
    rfl
  | plus =>
    have hhead : str i = '+'.toUInt8 := Rest.head h
    rw [hhead, if_neg (by decide), if_pos rfl]
    rfl
  | minus =>
    have hhead : str i = '-'.toUInt8 := Rest.head h
    rw [hhead, if_pos rfl]
    rfl

/-- In front of the digits, or of what stands behind the 0 of an octal number. -/
theorem readBase_eq (h : Rest str i (pre ++ digits)) (hpre : PrefixText base pre digits b)
    (hdigits : IsDigits b digits) : ∃ j rest, readBase str base i = (b, j) ∧ Rest str j rest ∧
      (digits = rest ∧ j = i + pre.length ∨
        (base = 0 ∧ b = 8) ∧ digits = '0'.toUInt8 :: rest ∧ j = i + pre.length + 1) := by
  unfold readBase
  cases hpre with
  | given digits hbase =>
    refine ⟨i, digits, ?_, h, .inl ⟨rfl, rfl⟩⟩
    rw [if_neg hbase, if_neg]
    rintro ⟨rfl, hzero, hmark⟩
    cases digits with
    | nil => exact absurd ((Rest.ends h).symm.trans hzero) (by decide)
    | cons c digits =>
      have hrest : IsDigits 16 digits := fun c hc => hdigits c (List.mem_cons_of_mem _ hc)
      have hnext : str (i + 1) = digits.headD 0 := (Rest.tail h).headD
      rw [hnext, hrest.not_hexMark le_rfl] at hmark
      exact Bool.false_ne_true hmark
  | hex digits hc hbase =>
    have hfirst : str i = '0'.toUInt8 := Rest.head h
    have hnext := (Rest.tail h).head
    refine ⟨i + 2, digits, ?_, (Rest.tail h).tail, .inl ⟨rfl, rfl⟩⟩
    rcases hbase with rfl | rfl
    · rw [if_pos rfl, hfirst, if_pos rfl, hnext, if_pos hc]
    · rw [if_neg (by decide), hfirst, hnext, if_pos ⟨rfl, rfl, hc⟩]
  | octal digits hbase =>
    have hrest : IsDigits 8 digits := fun c hc => hdigits c (List.mem_cons_of_mem _ hc)
    have hfirst : str i = '0'.toUInt8 := Rest.head h
    have hnext : str (i + 1) = digits.headD 0 := (Rest.tail h).headD
    refine ⟨i + 1, digits, ?_, Rest.tail h, .inr ⟨⟨hbase, rfl⟩, rfl, rfl⟩⟩
    rw [if_pos hbase, if_pos hfirst, hnext, hrest.not_hexMark (by decide)]
    rfl
  | decimal hbase hfirst =>
    refine ⟨i, digits, ?_, h, .inl ⟨rfl, rfl⟩⟩
    have hhead : str i = digits.headD 0 := Rest.headD h
    have hzero : digits.headD 0 ≠ '0'.toUInt8 := by
      cases digits with
      | nil => decide
      | cons c digits => exact fun hc => hfirst (congrArg some hc)
    rw [if_pos hbase, hhead, if_neg hzero]

theorem readSign_spec (h : Rest str i l) : ∃ signText rest, l = signText ++ rest ∧
    SignText signText (readSign str i).1 ∧ (readSign str i).2 = i + signText.length := by
  unfold readSign
  split_ifs with hminus hplus
  · cases l with
    | nil => exact absurd (h.ends.symm.trans hminus) (by decide)
    | cons c l => exact ⟨['-'.toUInt8], l, by rw [← h.head, hminus]; rfl, .minus, rfl⟩
  · cases l with
    | nil => exact absurd (h.ends.symm.trans hplus) (by decide)
    | cons c l => exact ⟨['+'.toUInt8], l, by rw [← h.head, hplus]; rfl, .plus, rfl⟩
  · exact ⟨[], l, rfl, .none, rfl⟩

/-- What `strtol` takes for the prefix of a base. -/
theorem readBase_spec (base : ℤ) (h : Rest str i l) : ∃ pre digits rest, l = pre ++ digits ∧
    PrefixText base pre digits (readBase str base i).1 ∧ Rest str (readBase str base i).2 rest ∧
      (digits = rest ∧ ¬ (base = 0 ∧ (readBase str base i).1 = 8) ∨
        (base = 0 ∧ (readBase str base i).1 = 8) ∧ digits = '0'.toUInt8 :: rest) := by
  have hhex : str i = '0'.toUInt8 → isHexMark (str (i + 1)) = true →
      ∃ c digits, l = '0'.toUInt8 :: c :: digits ∧ isHexMark c = true ∧ Rest str (i + 2) digits := by
    intro hzero hmark
    match l, h with
    | [], h => exact absurd (h.ends.symm.trans hzero) (by decide)
    | [_], h => rw [h.tail.ends] at hmark; exact absurd hmark (by decide)
    | c :: c' :: digits, h =>
      rw [h.tail.head] at hmark
      exact ⟨c', digits, by rw [← h.head, hzero], hmark, h.tail.tail⟩
  unfold readBase
  split_ifs with hbase hzero hmark hgiven
  · obtain ⟨c, digits, rfl, hc, hrest⟩ := hhex hzero hmark
    exact ⟨['0'.toUInt8, c], digits, digits, rfl, .hex digits hc (.inl hbase), hrest,
      .inl ⟨rfl, fun h => absurd (show (16 : ℤ) = 8 from h.2) (by decide)⟩⟩
  · cases l with
    | nil => exact absurd (h.ends.symm.trans hzero) (by decide)
    | cons c l =>
      obtain rfl : c = '0'.toUInt8 := h.head.symm.trans hzero
      exact ⟨[], '0'.toUInt8 :: l, l, rfl, .octal l hbase, h.tail, .inr ⟨⟨hbase, rfl⟩, rfl⟩⟩
  · refine ⟨[], l, l, rfl, .decimal hbase fun hfirst => hzero ?_, h,
      .inl ⟨rfl, fun h => absurd (show (10 : ℤ) = 8 from h.2) (by decide)⟩⟩
    rw [h.headD, List.headD_eq_head?_getD, hfirst]
    rfl
  · obtain ⟨hsixteen, hzero, hmark⟩ := hgiven
    obtain ⟨c, digits, rfl, hc, hrest⟩ := hhex hzero hmark
    exact ⟨['0'.toUInt8, c], digits, digits, rfl, .hex digits hc (.inr hsixteen), hrest,
      .inl ⟨rfl, fun h => hbase h.1⟩⟩
  · exact ⟨[], l, l, rfl, .given l hbase, h, .inl ⟨rfl, fun h => hbase h.1⟩⟩

theorem PrefixText.first (h : PrefixText base pre digits b) (hne : digits ≠ []) (hdigits : IsDigits b digits) :
    ∃ d, digitOf ((pre ++ digits).headD 0) = some d := by
  have hfirst : ∃ d, digitOf (digits.headD 0) = some d := by
    cases digits with
    | nil => exact absurd rfl hne
    | cons c digits =>
      obtain ⟨d, hd, -⟩ := hdigits c List.mem_cons_self
      exact ⟨d, hd⟩
  cases h with
  | given digits hbase => exact hfirst
  | hex digits hc hbase => exact ⟨0, digitOf_zero⟩
  | octal digits hbase => exact ⟨0, digitOf_zero⟩
  | decimal hbase hzero => exact hfirst

/-- What is stepped over ends where the first other character stands. -/
theorem takeWhile_front {p : UInt8 → Bool} {front : List UInt8} (hfront : ∀ c ∈ front, p c = true)
    (hfirst : ∀ c ∈ l.head?, p c = false) : (front ++ l).takeWhile p = front := by
  have hnone : l.takeWhile p = [] := by
    cases l with
    | nil => rfl
    | cons c l => exact List.takeWhile_cons_of_neg (by rw [hfirst c rfl]; decide)
  rw [List.takeWhile_append_of_pos hfront, hnone, List.append_nil]

end Front

/-! ### Whole strings -/

section Whole
variable {str : CString} {base b sign : ℤ} {l digits : List UInt8}

/-- The bases that `strtol` accepts. -/
def IsBase (base : ℤ) : Prop := base = 0 ∨ 2 ≤ base ∧ base ≤ 36

/-- The single digit 0 in base 0, which `strtol` takes for the prefix of an octal number. -/
def LoneZero (base b : ℤ) (digits : List UInt8) : Prop := base = 0 ∧ b = 8 ∧ digits.length = 1

theorem strtol_eq (hbase : IsBase base) (h : IsString str l) (hl : NonZero l) (hlen : l.length < word32)
    (hnumber : NumberText base l sign digits b) (hzero : ¬ LoneZero base b digits) :
    strtol str base = (Int32.ofInt (sign * valueOf b digits), some l.length) := by
  obtain ⟨⟨spaces, signText, pre, rfl, hspaces, hsign, hpre⟩, hne, hdigits⟩ := hnumber
  have hstart := h.rest
  obtain ⟨d, hfirst⟩ := hpre.first hne hdigits
  obtain ⟨hspace, hminus, hplus, -⟩ := digitOf_front hfirst
  have hspace' : ∀ c ∈ (signText ++ (pre ++ digits)).head?, isspace c = false := by
    intro c hc
    cases hsign with
    | none =>
      have hhead : (pre ++ digits).headD 0 = c := by
        rw [List.headD_eq_head?_getD, show (pre ++ digits).head? = some c from hc]
        rfl
      rwa [hhead] at hspace
    | plus => rw [← Option.some.inj hc]; rfl
    | minus => rw [← Option.some.inj hc]; rfl
  have hskip := skipSpaces_eq hstart hlen
  rw [takeWhile_front hspaces hspace', Nat.zero_add] at hskip
  have hrest := hstart.append
  rw [Nat.zero_add] at hrest
  have hread := readSign_eq hrest hsign ⟨hminus, hplus⟩
  obtain ⟨j, rest, hreadBase, hj, hcases⟩ := readBase_eq hrest.append hpre hdigits
  have hvalid : ¬ (base < 0 ∨ base = 1 ∨ 36 < base) := by
    unfold IsBase at hbase
    omega
  obtain ⟨hrestne, hrestdigits, hvalue, hlast⟩ : rest ≠ [] ∧ IsDigits b rest ∧
      valueOf b rest = valueOf b digits ∧
      j + rest.length = (spaces ++ (signText ++ (pre ++ digits))).length := by
    simp only [List.length_append]
    rcases hcases with ⟨rfl, rfl⟩ | ⟨⟨hbase, hb⟩, rfl, rfl⟩
    · exact ⟨hne, hdigits, rfl, by omega⟩
    · refine ⟨fun hnil => hzero ⟨hbase, hb, by rw [hnil]; rfl⟩,
        fun c hc => hdigits c (List.mem_cons_of_mem _ hc), ?_, by rw [List.length_cons]; omega⟩
      rw [valueOf, valueOf, List.foldl_cons, digitOf_zero]
      simp
  have hchars : NonZero rest := by
    intro c hc
    obtain ⟨d, hd, -⟩ := hrestdigits c hc
    exact (digitOf_front hd).2.2.2
  have hread' := readDigits_eq hj hchars hrestdigits (show rest.length < word32 by omega) 0
  rw [hlast, show Int32.ofInt 0 = 0 from rfl] at hread'
  have hend : str j ≠ 0 := by
    cases rest with
    | nil => exact absurd rfl hrestne
    | cons c rest => rw [hj.head]; exact hchars c List.mem_cons_self
  unfold strtol
  dsimp only
  rw [if_neg hvalid, hskip, hread]
  dsimp only
  rw [hreadBase]
  dsimp only
  rw [if_neg hend, hread']
  dsimp only
  rw [ofInt_mul, mul_comm, ← hvalue]
  rfl

/-- Where `strtol` stores the end, the string is a number as a whole. -/
theorem number_of_stored (hbase : IsBase base) (h : IsString str l) (hl : NonZero l)
    (hlen : l.length < word32) {last : ℕ} (hstored : (strtol str base).2 = some last) :
    ∃ sign digits b, NumberText base l sign digits b ∧ ¬ LoneZero base b digits := by
  have hvalid : ¬ (base < 0 ∨ base = 1 ∨ 36 < base) := by
    unfold IsBase at hbase
    omega
  have hstart := h.rest
  have hskip := skipSpaces_eq hstart hlen
  have hsplit := List.takeWhile_append_dropWhile (p := isspace) (l := l)
  rw [← hsplit] at hstart
  have hrest := hstart.append
  obtain ⟨signText, l', hsignsplit, hsign, hsignend⟩ := readSign_spec hrest
  rw [hsignsplit] at hrest
  obtain ⟨pre, digits, rest, hbasesplit, hpre, hj, hcases⟩ := readBase_spec base hrest.append
  have hspaces : ∀ c ∈ l.takeWhile isspace, isspace c = true :=
    fun c hc => List.all_eq_true.mp (List.all_takeWhile (l := l)) c hc
  have hchars : NonZero rest := by
    have hall : NonZero digits := by
      intro c hc
      apply hl c
      rw [← hsplit, hsignsplit, hbasesplit]
      simp [hc]
    rcases hcases with ⟨rfl, -⟩ | ⟨-, rfl⟩
    · exact hall
    · exact fun c hc => hall c (List.mem_cons_of_mem _ hc)
  unfold strtol at hstored
  dsimp only at hstored
  rw [if_neg hvalid, hskip, hsignend] at hstored
  split_ifs at hstored with hend
  cases hread : readDigits str (readBase str base (0 + (l.takeWhile isspace).length + signText.length)).1
      word32 (readBase str base (0 + (l.takeWhile isspace).length + signText.length)).2 0 with
  | none =>
    rw [hread] at hstored
    exact nomatch hstored
  | some r =>
    obtain ⟨hdigits, -⟩ := readDigits_isDigits hj hchars hread
    have hne : rest ≠ [] := by
      rintro rfl
      exact hend hj.ends
    refine ⟨_, digits, _, ⟨⟨_, signText, pre, ?_, hspaces, hsign, hpre⟩, ?_, ?_⟩, ?_⟩
    · rw [← hbasesplit, ← hsignsplit, hsplit]
    · rcases hcases with ⟨rfl, -⟩ | ⟨-, rfl⟩
      · exact hne
      · exact List.cons_ne_nil _ _
    · rcases hcases with ⟨rfl, -⟩ | ⟨⟨-, hb⟩, rfl⟩
      · exact hdigits
      · rw [hb] at hdigits ⊢
        intro c hc
        rcases List.mem_cons.mp hc with rfl | hc
        · exact ⟨0, digitOf_zero, by decide⟩
        · exact hdigits c hc
    · rintro ⟨hbase, hb, hlone⟩
      rcases hcases with ⟨-, hother⟩ | ⟨-, rfl⟩
      · exact hother ⟨hbase, hb⟩
      · rw [List.length_cons, Nat.succ_inj] at hlone
        exact hne (List.eq_nil_of_length_eq_zero hlone)

end Whole

/-! ### The longest number -/

section Values
variable {base b sign : ℤ} {l digits : List UInt8}

theorem valueOf_append_singleton (b : ℤ) (l : List UInt8) (c : UInt8) :
    valueOf b (l ++ [c]) = valueOf b l * b + ((digitOf c).getD 0 : ℕ) := by
  rw [valueOf, List.foldl_append]
  rfl

theorem IsDigits.valueOf_lt (hb : 0 ≤ b) (h : IsDigits b l) :
    0 ≤ valueOf b l ∧ valueOf b l < b ^ l.length := by
  induction l using List.reverseRecOn with
  | nil => exact ⟨le_rfl, by simp [valueOf]⟩
  | append_singleton l c ih =>
    obtain ⟨hge, hlt⟩ := ih fun c hc => h c (List.mem_append_left _ hc)
    obtain ⟨d, hd, hdigit⟩ := h c (List.mem_append_right _ List.mem_cons_self)
    rw [valueOf_append_singleton, hd, Option.getD_some, List.length_append, List.length_singleton, pow_succ]
    constructor
    · positivity
    · calc valueOf b l * b + d < valueOf b l * b + b := by omega
        _ = (valueOf b l + 1) * b := by ring
        _ ≤ b ^ l.length * b := mul_le_mul_of_nonneg_right hlt hb

/-- The value of a text of five characters or less fits in 32 bits. -/
theorem NumberText.fits (hbase : IsBase base) (h : NumberText base l sign digits b)
    (hlen : l.length ≤ 5) : -2 ^ 31 ≤ sign * valueOf b digits ∧ sign * valueOf b digits < 2 ^ 31 := by
  obtain ⟨⟨spaces, signText, pre, rfl, -, hsign, hpre⟩, -, hdigits⟩ := h
  have hb : 0 ≤ b ∧ b ≤ 36 := by
    unfold IsBase at hbase
    cases hpre with
    | given digits hne => omega
    | hex digits hc hbase => decide
    | octal digits hbase => decide
    | decimal hbase hfirst => decide
  obtain ⟨hge, hlt⟩ := hdigits.valueOf_lt hb.1
  have hshort : digits.length ≤ 5 := by
    simp only [List.length_append] at hlen
    omega
  have hmax : b ^ digits.length ≤ 36 ^ 5 :=
    (pow_le_pow_left₀ hb.1 hb.2 _).trans (pow_le_pow_right₀ (by decide) hshort)
  norm_num at hmax ⊢
  cases hsign with
  | none => omega
  | plus => omega
  | minus => omega

end Values

/-- The first `k` characters are the longest text of a number at the begin. -/
structure LongestNumber (base : ℤ) (l : List UInt8) (k : ℕ) (sign : ℤ) (digits : List UInt8) (b : ℤ) :
    Prop where
  le : k ≤ l.length
  number : NumberText base (l.take k) sign digits b
  longest : ∀ k' sign' digits' b', k < k' → k' ≤ l.length →
    ¬ NumberText base (l.take k') sign' digits' b'

/-- The result is the value and the end of the longest number, or 0 and the begin of the string if
there is none. -/
def TakesNumber (base : ℤ) (l : List UInt8) (r : Int32 × Option ℕ) : Prop :=
  (∃ k sign digits b, LongestNumber base l k sign digits b ∧ r.1.toInt = sign * valueOf b digits ∧
    r.2 = some k) ∨ (∀ k sign digits b, ¬ NumberText base (l.take k) sign digits b) ∧ r = (0, some 0)

/-- `strtol` takes the longest number exactly of the strings that are numbers as a whole, but for the
digit 0 in base 0. -/
theorem strtol_takes_number_iff {str : CString} {base : ℤ} {l : List UInt8} (hbase : IsBase base)
    (h : IsString str l) (hl : NonZero l) (hlen : l.length < word32)
    (hfits : ∀ k sign digits b, LongestNumber base l k sign digits b →
      -2 ^ 31 ≤ sign * valueOf b digits ∧ sign * valueOf b digits < 2 ^ 31) :
    TakesNumber base l (strtol str base) ↔
      ∃ sign digits b, NumberText base l sign digits b ∧ ¬ LoneZero base b digits := by
  constructor
  · rintro (⟨k, -, -, -, -, -, hstored⟩ | ⟨-, hnone⟩)
    · exact number_of_stored hbase h hl hlen hstored
    · exact number_of_stored hbase h hl hlen (by rw [hnone])
  · rintro ⟨sign, digits, b, hnumber, hzero⟩
    have hlongest : LongestNumber base l l.length sign digits b :=
      ⟨le_rfl, by rwa [List.take_length], fun k' _ _ _ hk hk' => absurd hk (Nat.not_lt.mpr hk')⟩
    obtain ⟨hmin, hmax⟩ := hfits _ _ _ _ hlongest
    rw [strtol_eq hbase h hl hlen hnumber hzero]
    exact .inl ⟨l.length, sign, digits, b, hlongest, Int32.toInt_ofInt_of_le hmin hmax, rfl⟩

theorem strtol_takes_number_iff_negative :
    TakesNumber 10 [45, 55] (strtol (fun i => [45, 55].getD i 0) 10) := by
  have hnonZero : ∀ c ∈ [(45 : UInt8), 55], c ≠ 0 := by simp
  have hdigits : IsDigits 10 [55] := fun c hc => ⟨7, by rw [List.mem_singleton.mp hc]; rfl, by decide⟩
  have hnumber : NumberText 10 [45, 55] (-1) [55] 10 :=
    ⟨⟨[], [45], [], rfl, by simp, .minus, .given _ (by decide)⟩, by simp, hdigits⟩
  have hbase : IsBase 10 := .inr (by decide)
  exact (strtol_takes_number_iff hbase (fun _ _ => rfl) hnonZero (by decide) fun k _ _ _ hlongest =>
    hlongest.number.fits hbase (by rw [List.length_take]; exact (min_le_right _ _).trans (by decide))).mpr
      ⟨-1, [55], 10, hnumber, fun h => absurd h.1 (by decide)⟩

/-- `12` with a space behind it. -/
theorem strtol_stops_at_space :
    ¬ TakesNumber 10 [49, 50, 32] (strtol (fun i => [49, 50, 32].getD i 0) 10) := by
  have hresult : strtol (fun i => [49, 50, 32].getD i 0) 10 = (0, none) := by decide
  rw [hresult]
  rintro (⟨k, sign, digits, b, -, -, hstored⟩ | ⟨-, hstored⟩)
  · exact nomatch hstored
  · exact nomatch hstored

/-! ### Round trips -/

section Numerals
variable {base n : ℕ}

theorem numeral_eq (hbase : 2 ≤ base) (n : ℕ) : numeral base n =
    (if n / base = 0 then [] else numeral base (n / base)) ++ [digitChar (n % base)] := by
  rw [numeral, digitChars_eq hbase, List.reverse_cons]
  split_ifs
  · rfl
  · rfl

theorem digitOf_digitChar {d : ℕ} (h : d < 36) : digitOf (digitChar d) = some d := by
  have hall : ∀ d < 36, digitOf (digitChar d) = some d := by decide
  exact hall d h

theorem numeral_digits (hbase : 2 ≤ base) (hle : base ≤ 36) (n : ℕ) :
    IsDigits base (numeral base n) ∧ valueOf base (numeral base n) = n ∧
      ((numeral base n).headD 0 = '0'.toUInt8 → n = 0) := by
  induction n using Nat.strong_induction_on with
  | h n ih =>
    have hmod : n % base < base := Nat.mod_lt _ (by omega)
    have hdigit := digitOf_digitChar (hmod.trans_le hle)
    have hlast : ∃ d, digitOf (digitChar (n % base)) = some d ∧ (d : ℤ) < base :=
      ⟨_, hdigit, by exact_mod_cast hmod⟩
    rw [numeral_eq hbase, valueOf_append_singleton, hdigit, Option.getD_some]
    split_ifs with hdiv
    · have hn : n % base = n := Nat.mod_eq_of_lt (by
        by_contra hge
        have := Nat.div_pos (Nat.not_lt.mp hge) (by omega)
        omega)
      refine ⟨?_, ?_, ?_⟩
      · rintro c hc
        rwa [List.mem_singleton.mp hc]
      · rw [hn, valueOf, List.foldl_nil, zero_mul, zero_add]
      · intro hfirst
        have hfirst : digitChar (n % base) = '0'.toUInt8 := hfirst
        rw [hfirst, digitOf_zero, hn] at hdigit
        exact (Option.some.inj hdigit).symm
    · obtain ⟨hdigits, hvalue, hfirst⟩ := ih (n / base) (Nat.div_lt_self (by
        by_contra hzero
        rw [Nat.eq_zero_of_not_pos hzero, Nat.zero_div] at hdiv
        exact hdiv rfl) hbase)
      refine ⟨?_, ?_, ?_⟩
      · intro c hc
        rcases List.mem_append.mp hc with hc | hc
        · exact hdigits c hc
        · rwa [List.mem_singleton.mp hc]
      · rw [hvalue]
        exact_mod_cast Nat.div_add_mod' n base
      · intro hzero
        have hne : numeral base (n / base) ≠ [] := by
          rw [numeral_eq hbase]
          exact List.append_ne_nil_of_right_ne_nil _ (List.cons_ne_nil _ _)
        cases hnumeral : numeral base (n / base) with
        | nil => exact absurd hnumeral hne
        | cons c l =>
          rw [hnumeral] at hzero hfirst
          exact absurd (hfirst hzero) hdiv

/-- A numeral with a sign is read as what it stands for. -/
theorem strtol_numeral {s : CString} {base sign : ℤ} {signText : List UInt8} (hbase : 2 ≤ base)
    (hle : base ≤ 36) (hn : n < word32) (hsign : SignText signText sign)
    (h : IsString s (signText ++ numeral base.natAbs n)) : (strtol s base).1 = Int32.ofInt (sign * n) := by
  have hword : word32 = 4294967296 := rfl
  obtain ⟨hdigits, hvalue, -⟩ := numeral_digits (show 2 ≤ base.natAbs by omega) (by omega) n
  rw [Int.natAbs_of_nonneg (by omega)] at hdigits hvalue
  have hlength := numeral_length_le (show 2 ≤ base.natAbs by omega) hn
  have hne : numeral base.natAbs n ≠ [] := by
    rw [numeral_eq (by omega)]
    exact List.append_ne_nil_of_right_ne_nil _ (List.cons_ne_nil _ _)
  have hnumeral := numeral_nonZero (show 2 ≤ base.natAbs by omega) (by omega) n
  have hchars : NonZero (signText ++ numeral base.natAbs n) ∧
      (signText ++ numeral base.natAbs n).length < word32 := by
    cases hsign with
    | none => exact ⟨hnumeral, by rw [List.nil_append]; omega⟩
    | plus => exact ⟨List.forall_mem_cons.mpr ⟨by decide, hnumeral⟩, by simp; omega⟩
    | minus => exact ⟨List.forall_mem_cons.mpr ⟨by decide, hnumeral⟩, by simp; omega⟩
  have hnumber : NumberText base (signText ++ numeral base.natAbs n) sign (numeral base.natAbs n) base :=
    ⟨⟨[], signText, [], rfl, by simp, hsign, .given _ (by omega)⟩, hne, hdigits⟩
  have hzero : ¬ LoneZero base base (numeral base.natAbs n) := fun h => by
    rw [h.1] at hbase
    exact absurd hbase (by decide)
  rw [strtol_eq (.inr ⟨hbase, hle⟩) h hchars.1 hchars.2 hnumber hzero, hvalue]

end Numerals

/-- What `lutoa` and `ltoa` write is read back by `strtol`, and only 0 begins with a zero. -/
theorem number_text_round_trip {base : ℤ} (hbase : 2 ≤ base) (hle : base ≤ 36) (str : CString) :
    (∀ v : UInt32, (strtol (lutoa v.toNat str base) base).1 = v.toInt32 ∧
      (lutoa v.toNat str base 0 = '0'.toUInt8 → v = 0)) ∧
    ∀ v : Int32, (strtol (ltoa v.toInt str 10) 10).1 = v := by
  refine ⟨fun v => ⟨?_, fun hzero => ?_⟩, fun v => ?_⟩
  · rw [strtol_numeral hbase hle v.toNat_lt .none (lutoa_isString v.toNat_lt hbase hle str), one_mul,
      Int32.ofInt_eq_ofNat, ← UInt32.toInt32_ofNat', UInt32.ofNat_toNat]
  · have hstring := lutoa_isString v.toNat_lt hbase hle str
    obtain ⟨-, -, hfirst⟩ := numeral_digits (show 2 ≤ base.natAbs by omega) (by omega) v.toNat
    rw [hstring.rest.headD] at hzero
    exact UInt32.toNat_inj.mp (hfirst hzero)
  · have hlt : v.toInt.natAbs < word32 := by
      have hword : word32 = 4294967296 := rfl
      have hge := v.le_toInt
      have hlt := v.toInt_lt
      omega
    have hstring := ltoa_isString hlt str
    unfold signedNumeral at hstring
    split_ifs at hstring with hneg
    · have hvalue := strtol_numeral (show (2 : ℤ) ≤ 10 by decide) (by decide) hlt .minus hstring
      rw [hvalue, show (-1 : ℤ) * v.toInt.natAbs = v.toInt by omega, Int32.ofInt_toInt]
    · have hvalue := strtol_numeral (show (2 : ℤ) ≤ 10 by decide) (by decide) hlt .none hstring
      rw [hvalue, show (1 : ℤ) * v.toInt.natAbs = v.toInt by omega, Int32.ofInt_toInt]

/-- In base 16, and for the least signed number. -/
theorem number_text_round_trip_extremes :
    (strtol (lutoa (UInt32.toNat 4294967295) (fun _ => 0) 16) 16).1 = -1 ∧
      (strtol (ltoa (Int32.toInt (-2147483648)) (fun _ => 0) 10) 10).1 = -2147483648 :=
  ⟨((number_text_round_trip (by decide) (by decide) fun _ => 0).1 4294967295).1,
    (number_text_round_trip (show (2 : ℤ) ≤ 16 by decide) (by decide) fun _ => 0).2 (-2147483648)⟩

end DosKernel.Libc
