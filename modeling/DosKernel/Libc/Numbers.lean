import DosKernel.Libc.Strings
import Mathlib.Data.Nat.Digits.Defs
import Mathlib.Tactic

/-! Integers as text. The digits are written from the last to the first and then turned round. -/

namespace DosKernel.Libc

open CString

/-! ### The code -/

/-- `numbase`. The remainders of a negative number are negative, so the digits stand in it in both
directions. -/
def numbase : List UInt8 :=
  "zyxwvutsrqponmlkjihgfedcba9876543210123456789abcdefghijklmnopqrstuvwxyz".toList.map Char.toUInt8

/-- The loop over the digits, of which a `long int` has 32 at most: the characters, and the place
behind them. -/
def writeDigits (base : ℤ) : (fuel : ℕ) → (value : ℤ) → CString → (ptr : ℕ) → CString × ℕ
  | 0, _, str, ptr => (str, ptr)
  | fuel + 1, value, str, ptr =>
    let str := Function.update str ptr (numbase.getD (35 + value.tmod base).toNat 0)
    if value.tdiv base = 0 then (str, ptr + 1)
    else writeDigits base fuel (value.tdiv base) str (ptr + 1)

def swapEnds : (fuel low ptr : ℕ) → CString → CString
  | 0, _, _, str => str
  | fuel + 1, low, ptr, str =>
    if low < ptr then
      swapEnds fuel (low + 1) (ptr - 1)
        (Function.update (Function.update str low (str ptr)) ptr (str low))
    else str

/-- What `ltoa` and `lutoa` do from `low` on. -/
def digitsToAscii (value : ℤ) (str : CString) (base : ℤ) (low : ℕ) : CString :=
  let r := writeDigits base 32 value str low
  swapEnds 32 low (r.2 - 1) (Function.update r.1 r.2 0)

def ltoa (value : ℤ) (str : CString) (base : ℤ) : CString :=
  if base < 2 ∨ 36 < base then Function.update str 0 0
  else if value < 0 then
    if base = 10 then digitsToAscii value (Function.update str 0 45) base 1
    else digitsToAscii ((-value).bmod word32) str base 0
  else digitsToAscii value str base 0

def itoa (value : Int32) (str : CString) (base : ℤ) : CString := ltoa value.toInt str base

def htoa (value : Int16) (str : CString) (base : ℤ) : CString := ltoa value.toInt str base

def lutoa (value : ℕ) (str : CString) (base : ℤ) : CString :=
  if base < 2 ∨ 36 < base then Function.update str 0 0 else digitsToAscii value str base 0

def utoa (value : UInt32) (str : CString) (base : ℤ) : CString := lutoa value.toNat str base

def hutoa (value : UInt16) (str : CString) (base : ℤ) : CString := lutoa value.toNat str base

/-! ### Numerals -/

/-- A digit: `0` to `9`, then `a` to `z`. -/
def digitChar (d : ℕ) : UInt8 := UInt8.ofNat (if d < 10 then 48 + d else 87 + d)

def digitChars (base n : ℕ) : List UInt8 :=
  if n = 0 then [digitChar 0] else (Nat.digits base n).map digitChar

def numeral (base n : ℕ) : List UInt8 := (digitChars base n).reverse

def signedNumeral (value : ℤ) : List UInt8 :=
  if value < 0 then 45 :: numeral 10 value.natAbs else numeral 10 value.natAbs

section Digits
variable {base n d fuel : ℕ}

theorem digitChars_eq (hbase : 2 ≤ base) (n : ℕ) : digitChars base n =
    digitChar (n % base) :: if n / base = 0 then [] else digitChars base (n / base) := by
  unfold digitChars
  by_cases hn : n = 0
  · simp [hn]
  · rw [if_neg hn, Nat.digits_eq_cons_digits_div (by omega) hn, List.map_cons]
    split_ifs with hdiv
    · rw [hdiv, Nat.digits_zero, List.map_nil]
    · rfl

theorem digitChars_length_pos (hbase : 2 ≤ base) (n : ℕ) : 0 < (digitChars base n).length := by
  rw [digitChars_eq hbase, List.length_cons]
  exact Nat.succ_pos _

theorem digitChars_length_le (hbase : 2 ≤ base) (hfuel : 0 < fuel) (hn : n < base ^ fuel) :
    (digitChars base n).length ≤ fuel := by
  induction fuel generalizing n with
  | zero => exact absurd hfuel (lt_irrefl 0)
  | succ fuel ih =>
    rw [digitChars_eq hbase, List.length_cons]
    split_ifs with hdiv
    · simp
    · have hlt : n / base < base ^ fuel := Nat.div_lt_of_lt_mul (by rwa [← pow_succ'])
      cases fuel with
      | zero => exact absurd (Nat.lt_one_iff.mp hlt) hdiv
      | succ fuel => exact Nat.succ_le_succ (ih (Nat.succ_pos fuel) hlt)

theorem digitChar_ne_zero (h : d < 36) : digitChar d ≠ 0 := by
  have hall : ∀ k < 36, digitChar k ≠ 0 := by decide
  exact hall d h

theorem numeral_nonZero (hbase : 2 ≤ base) (hle : base ≤ 36) (n : ℕ) : NonZero (numeral base n) := by
  intro c hc
  rw [numeral, List.mem_reverse] at hc
  unfold digitChars at hc
  split_ifs at hc with hn
  · rw [List.mem_singleton.mp hc]
    decide
  · obtain ⟨d, hd, rfl⟩ := List.mem_map.mp hc
    exact digitChar_ne_zero ((Nat.digits_lt_base (by omega) hd).trans_le hle)

theorem numbase_tmod {base : ℤ} (hbase : 2 ≤ base) (hle : base ≤ 36) (value : ℤ) :
    numbase.getD (35 + value.tmod base).toNat 0 = digitChar (value.natAbs % base.natAbs) := by
  have hboth : ∀ k < 36, numbase.getD (35 + k) 0 = digitChar k ∧ numbase.getD (35 - k) 0 = digitChar k := by
    decide
  have hnatAbs := Int.natAbs_tmod value base
  have hlt : value.natAbs % base.natAbs < 36 :=
    (Nat.mod_lt _ (by omega)).trans_le (by omega)
  generalize value.tmod base = t at hnatAbs ⊢
  generalize value.natAbs % base.natAbs = r at hnatAbs hlt ⊢
  rcases Int.natAbs_eq t with hpos | hneg
  · have hindex : (35 + t).toNat = 35 + r := by omega
    rw [hindex]
    exact (hboth r hlt).1
  · have hindex : (35 + t).toNat = 35 - r := by omega
    rw [hindex]
    exact (hboth r hlt).2

end Digits

/-! ### The loops -/

/-- The memory with some characters at a place. -/
def put (s : CString) (k : ℕ) (l : List UInt8) : CString := fun i =>
  if k ≤ i ∧ i < k + l.length then l.getD (i - k) 0 else s i

theorem put_cons (s : CString) (k : ℕ) (c : UInt8) (l : List UInt8) :
    put (Function.update s k c) (k + 1) l = put s k (c :: l) := by
  funext i
  unfold put
  rw [List.length_cons]
  by_cases hi : i = k
  · subst hi
    rw [if_neg (by omega), if_pos (by omega), Function.update_self, Nat.sub_self, List.getD_cons_zero]
  · rw [Function.update_of_ne hi]
    by_cases hin : k + 1 ≤ i ∧ i < k + 1 + l.length
    · rw [if_pos hin, if_pos (by omega), show i - k = i - (k + 1) + 1 by omega, List.getD_cons_succ]
    · rw [if_neg hin, if_neg (by omega)]

theorem put_nil (s : CString) (k : ℕ) : put s k [] = s := by
  funext i
  rw [put, if_neg (by simp)]

/-- The loop writes the digits from the last to the first. -/
theorem writeDigits_eq {base value : ℤ} {fuel : ℕ} (hbase : 2 ≤ base) (hle : base ≤ 36)
    (hfuel : 0 < fuel) (hvalue : value.natAbs < base.natAbs ^ fuel) (str : CString) (ptr : ℕ) :
    writeDigits base fuel value str ptr =
      (put str ptr (digitChars base.natAbs value.natAbs),
        ptr + (digitChars base.natAbs value.natAbs).length) := by
  have hnatAbs : 2 ≤ base.natAbs := by omega
  induction fuel generalizing value str ptr with
  | zero => exact absurd hfuel (lt_irrefl 0)
  | succ fuel ih =>
    have hdiv : (value.tdiv base).natAbs = value.natAbs / base.natAbs := Int.natAbs_tdiv value base
    have hstop : value.tdiv base = 0 ↔ value.natAbs / base.natAbs = 0 := by
      rw [← hdiv, Int.natAbs_eq_zero]
    have hlt : value.natAbs / base.natAbs < base.natAbs ^ fuel :=
      Nat.div_lt_of_lt_mul (by rwa [← pow_succ'])
    rw [writeDigits, numbase_tmod hbase hle, digitChars_eq hnatAbs, ← put_cons, List.length_cons]
    by_cases hend : value.natAbs / base.natAbs = 0
    · rw [if_pos (hstop.mpr hend), if_pos hend, put_nil]
      rfl
    · have hpos : 0 < fuel := by
        by_contra hzero
        rw [Nat.eq_zero_of_not_pos hzero] at hlt
        exact hend (Nat.lt_one_iff.mp hlt)
      rw [if_neg (fun h => hend (hstop.mp h)), if_neg hend, ih hpos (by rwa [hdiv]), hdiv,
        Nat.add_assoc, Nat.add_comm 1]

/-- Swapping from both ends turns the characters round. -/
theorem swapEnds_eq {fuel low ptr : ℕ} (hfuel : ptr < low + 2 * fuel) (str : CString) :
    swapEnds fuel low ptr str = fun i => if low ≤ i ∧ i ≤ ptr then str (low + ptr - i) else str i := by
  induction fuel generalizing low ptr str with
  | zero =>
    funext i
    rw [swapEnds, if_neg (by omega)]
  | succ fuel ih =>
    rw [swapEnds]
    split_ifs with hlt
    · rw [ih (by omega)]
      funext i
      by_cases hfirst : i = low
      · subst hfirst
        rw [if_neg (by omega), if_pos (by omega), Function.update_of_ne (by omega),
          Function.update_self, Nat.add_sub_cancel_left]
      · by_cases hlast : i = ptr
        · subst hlast
          rw [if_neg (by omega), if_pos (by omega), Function.update_self, Nat.add_sub_cancel]
        · by_cases hin : low ≤ i ∧ i ≤ ptr
          · rw [if_pos (by omega), if_pos hin, Function.update_of_ne (by omega),
              Function.update_of_ne (by omega), show low + 1 + (ptr - 1) - i = low + ptr - i by omega]
          · rw [if_neg (by omega), if_neg hin, Function.update_of_ne hlast, Function.update_of_ne hfirst]
    · funext i
      by_cases hin : low ≤ i ∧ i ≤ ptr
      · rw [if_pos hin, show low + ptr - i = i by omega]
      · rw [if_neg hin]

/-- From `low` on the string is the numeral. -/
theorem digitsToAscii_isString {base value : ℤ} (hbase : 2 ≤ base) (hle : base ≤ 36)
    (hvalue : value.natAbs < word32) (str : CString) (low : ℕ) :
    (∀ i < low, digitsToAscii value str base low i = str i) ∧
      IsString (fun i => digitsToAscii value str base low (low + i)) (numeral base.natAbs value.natAbs) := by
  have hnatAbs : 2 ≤ base.natAbs := by omega
  have hpow : value.natAbs < base.natAbs ^ 32 :=
    hvalue.trans_le (Nat.pow_le_pow_left hnatAbs 32)
  have hpos := digitChars_length_pos hnatAbs value.natAbs
  have hlen := digitChars_length_le hnatAbs (by omega) hpow
  have hresult : digitsToAscii value str base low = fun i =>
      if low ≤ i ∧ i ≤ low + (digitChars base.natAbs value.natAbs).length - 1 then
        Function.update (put str low (digitChars base.natAbs value.natAbs))
          (low + (digitChars base.natAbs value.natAbs).length) 0
          (low + (low + (digitChars base.natAbs value.natAbs).length - 1) - i)
      else Function.update (put str low (digitChars base.natAbs value.natAbs))
          (low + (digitChars base.natAbs value.natAbs).length) 0 i := by
    unfold digitsToAscii
    rw [writeDigits_eq hbase hle (by omega) hpow]
    exact swapEnds_eq (by dsimp only; omega) _
  rw [hresult]
  constructor
  · intro i hi
    dsimp only
    rw [if_neg (by omega), Function.update_of_ne (by omega), put, if_neg (by omega)]
  · intro i hi
    unfold numeral at hi ⊢
    rw [List.length_reverse] at hi
    dsimp only
    rcases hi.lt_or_eq with hlt | rfl
    · rw [if_pos (by omega), Function.update_of_ne (by omega), put, if_pos (by omega),
        List.getD_eq_getElem _ _ (by omega), List.getD_eq_getElem _ _ (by simpa using hlt),
        List.getElem_reverse]
      congr 1
      omega
    · rw [if_neg (by omega), Function.update_self, List.getD_eq_default _ _ (by simp)]

/-! ### The functions -/

section Functions
variable {base : ℤ}

theorem lutoa_isString {value : ℕ} (hvalue : value < word32) (hbase : 2 ≤ base) (hle : base ≤ 36)
    (str : CString) : IsString (lutoa value str base) (numeral base.natAbs value) := by
  have hstring := (digitsToAscii_isString hbase hle (show (value : ℤ).natAbs < word32 from hvalue) str 0).2
  rw [Int.natAbs_natCast] at hstring
  rw [lutoa, if_neg (by omega)]
  intro i hi
  have hchar := hstring i hi
  dsimp only at hchar
  rwa [Nat.zero_add] at hchar

theorem ltoa_isString {value : ℤ} (hvalue : value.natAbs < word32) (str : CString) :
    IsString (ltoa value str 10) (signedNumeral value) := by
  unfold ltoa signedNumeral
  rw [if_neg (by omega)]
  by_cases hneg : value < 0
  · obtain ⟨hkept, hstring⟩ := digitsToAscii_isString (show (2 : ℤ) ≤ 10 by omega) (by omega) hvalue
      (Function.update str 0 45) 1
    rw [if_pos hneg, if_pos rfl, if_pos hneg]
    apply (isString_append (l := [45])).mpr
    refine ⟨fun i hi => ?_, hstring⟩
    rw [hkept i hi, Nat.lt_one_iff.mp hi]
    rfl
  · have hstring := (digitsToAscii_isString (show (2 : ℤ) ≤ 10 by omega) (by omega) hvalue str 0).2
    rw [if_neg hneg, if_neg hneg]
    intro i hi
    have hchar := hstring i hi
    dsimp only at hchar
    rwa [Nat.zero_add] at hchar

theorem numeral_length_le {base n : ℕ} (hbase : 2 ≤ base) (hn : n < word32) :
    (numeral base n).length ≤ 32 := by
  rw [numeral, List.length_reverse]
  exact digitChars_length_le hbase (by omega) (hn.trans_le (Nat.pow_le_pow_left hbase 32))

theorem signedNumeral_nonZero (value : ℤ) : NonZero (signedNumeral value) := by
  have hnumeral := numeral_nonZero (show 2 ≤ 10 by omega) (by omega) value.natAbs
  unfold signedNumeral
  split_ifs
  · exact List.forall_mem_cons.mpr ⟨by decide, hnumeral⟩
  · exact hnumeral

theorem signedNumeral_length_le {value : ℤ} (hvalue : value.natAbs < word32) :
    (signedNumeral value).length ≤ 33 := by
  have hle := numeral_length_le (show 2 ≤ 10 by omega) hvalue
  unfold signedNumeral
  split_ifs
  · exact Nat.succ_le_succ hle
  · exact Nat.le_succ_of_le hle

end Functions

end DosKernel.Libc
