import DosKernel.Frames.Bitmap
import Mathlib.Data.List.GetD

/-! The string functions of the C library. A string is the memory from an address on, and its
characters are those before the first 0; `strncpy` writes a 0 behind the bytes it was asked for. -/

namespace DosKernel

/-- What a `char *` points to. -/
abbrev CString := ℕ → UInt8

namespace CString

/-- The loop of `strlen`, which comes past every address once at most. -/
def strlenFrom (s : CString) : (fuel len : ℕ) → ℕ
  | 0, len => len
  | fuel + 1, len => if s len = 0 then len else strlenFrom s fuel (len + 1)

def strlen (s : CString) : ℕ := strlenFrom s word32 0

/-- `strncpy`. It writes one byte more than `n`. -/
def strncpy (destination source : CString) (n : ℕ) : CString := fun i =>
  if i < n then if i < strlen source then source i else 0
  else if i = n then 0
  else destination i

/-- The memory at `s` after a function has worked at `s + k`. -/
def within (s : CString) (k : ℕ) (f : CString → CString) : CString := fun i =>
  if i < k then s i else f (fun j => s (k + j)) (i - k)

def strncat (destination source : CString) (n : ℕ) : CString :=
  destination.within destination.strlen fun d => strncpy d source n

def strcpy (destination source : CString) : CString := fun i =>
  if i < strlen source then source i else if i = strlen source then 0 else destination i

def dot : CString := fun i => if i = 0 then 46 else 0

/-- The characters up to the 0. -/
def IsString (s : CString) (l : List UInt8) : Prop := ∀ i ≤ l.length, s i = l.getD i 0

def chars (s : CString) (n : ℕ) : List UInt8 := (List.range n).map s

def text (s : CString) : List UInt8 := s.chars s.strlen

/-- No character ends a string. -/
def NonZero (l : List UInt8) : Prop := ∀ c ∈ l, c ≠ 0

instance (l : List UInt8) : Decidable (NonZero l) := List.decidableBAll (fun c => c ≠ 0) l

variable {s source : CString} {l l' : List UInt8} {n k i fuel len : ℕ}

theorem strlenFrom_ge (hfuel : n ≤ len + fuel) (h : ∀ i < n, s i ≠ 0) :
    n ≤ strlenFrom s fuel len := by
  induction fuel generalizing len with
  | zero => exact hfuel
  | succ fuel ih =>
    rw [strlenFrom]
    split_ifs with hzero
    · by_contra hlt
      exact h len (Nat.lt_of_not_le hlt) hzero
    · exact ih (by omega)

theorem strlen_ge (hn : n ≤ word32) (h : ∀ i < n, s i ≠ 0) : n ≤ s.strlen :=
  strlenFrom_ge (by rwa [Nat.zero_add]) h

theorem strlenFrom_le (hend : s n = 0) (hle : len ≤ n) (hfuel : n < len + fuel) :
    strlenFrom s fuel len ≤ n := by
  induction fuel generalizing len with
  | zero => omega
  | succ fuel ih =>
    rw [strlenFrom]
    split_ifs with hzero
    · exact hle
    · have hne : len ≠ n := fun heq => hzero (heq ▸ hend)
      exact ih (by omega) (by omega)

theorem strlen_eq (hn : n < word32) (h : ∀ i < n, s i ≠ 0) (hend : s n = 0) : s.strlen = n :=
  le_antisymm (strlenFrom_le hend (Nat.zero_le n) (by rwa [Nat.zero_add])) (strlen_ge hn.le h)

theorem strlen_zero (h : s 0 = 0) : s.strlen = 0 := if_pos h

/-- A source without a 0 is copied as it is. -/
theorem strncpy_of_full (destination : CString) (hn : n ≤ word32) (h : ∀ i < n, source i ≠ 0) :
    (∀ i < n, strncpy destination source n i = source i) ∧ strncpy destination source n n = 0 := by
  refine ⟨fun i hi => ?_, ?_⟩
  · rw [strncpy, if_pos hi, if_pos (hi.trans_le (strlen_ge hn h))]
  · rw [strncpy, if_neg (lt_irrefl n), if_pos rfl]

@[simp] theorem within_lt (f : CString → CString) (h : i < k) : s.within k f i = s i := if_pos h

@[simp] theorem within_add (s : CString) (k : ℕ) (f : CString → CString) (i : ℕ) :
    s.within k f (k + i) = f (fun j => s (k + j)) i := by
  rw [within, if_neg (Nat.not_lt.mpr (Nat.le_add_right k i)), Nat.add_sub_cancel_left]

theorem strncat_of_end (h : s 0 = 0) (source : CString) (n : ℕ) :
    strncat s source n = strncpy s source n := by
  funext i
  have hadd := within_add s 0 (fun d => strncpy d source n) i
  simp only [Nat.zero_add] at hadd
  rw [strncat, strlen_zero h, hadd]

/-! ### Strings -/

theorem isString_append : IsString s (l ++ l') ↔
    (∀ i < l.length, s i = l.getD i 0) ∧ IsString (fun i => s (l.length + i)) l' := by
  constructor
  · refine fun h => ⟨fun i hi => ?_, fun i hi => ?_⟩
    · rw [h i (by simp; omega), List.getD_append _ _ _ _ hi]
    · dsimp only
      rw [h (l.length + i) (by simpa using hi), List.getD_append_right _ _ _ _ (by omega),
        Nat.add_sub_cancel_left]
  · rintro ⟨hfirst, hrest⟩ i hi
    rcases Nat.lt_or_ge i l.length with hlt | hge
    · rw [hfirst i hlt, List.getD_append _ _ _ _ hlt]
    · obtain ⟨j, rfl⟩ := Nat.exists_eq_add_of_le hge
      rw [List.getD_append_right _ _ _ _ hge, Nat.add_sub_cancel_left]
      exact hrest j (by simpa using hi)

/-- A longer string goes on where the other one ends. -/
theorem IsString.eq_nil_of_append (h : IsString s l) (happend : IsString s (l ++ l'))
    (hzero : ∀ c ∈ l', c ≠ 0) : l' = [] := by
  cases l' with
  | nil => rfl
  | cons c l' =>
    have hend := h l.length le_rfl
    have hnext := (isString_append.mp happend).2 0 (Nat.zero_le _)
    simp only [Nat.add_zero, List.getD_cons_zero] at hnext
    rw [hnext, List.getD_eq_default _ _ le_rfl] at hend
    exact absurd hend (hzero c List.mem_cons_self)

theorem IsString.end_eq (h : IsString s l) : s l.length = 0 := by
  rw [h _ le_rfl, List.getD_eq_default _ _ le_rfl]

theorem IsString.ne_zero (h : IsString s l) (hl : NonZero l) (hi : i < l.length) : s i ≠ 0 := by
  rw [h i hi.le, List.getD_eq_getElem _ _ hi]
  exact hl _ (List.getElem_mem hi)

theorem IsString.strlen_eq (h : IsString s l) (hl : NonZero l) (hlen : l.length < word32) :
    s.strlen = l.length := CString.strlen_eq hlen (fun _ hi => h.ne_zero hl hi) h.end_eq

/-- The characters up to the first 0 are not those of another string. -/
theorem IsString.unique (h : IsString s l) (h' : IsString s l') (hl : NonZero l) (hl' : NonZero l') :
    l = l' := by
  have hlength : l.length = l'.length := by
    rcases Nat.lt_trichotomy l.length l'.length with hlt | heq | hgt
    · exact absurd h.end_eq (h'.ne_zero hl' hlt)
    · exact heq
    · exact absurd h'.end_eq (h.ne_zero hl hgt)
  apply List.ext_getElem hlength
  intro i hi hi'
  have hchar := (h i hi.le).symm.trans (h' i hi'.le)
  rwa [List.getD_eq_getElem _ _ hi, List.getD_eq_getElem _ _ hi'] at hchar

theorem strncpy_isString (destination : CString) (h : IsString source l) (hl : NonZero l)
    (hle : l.length ≤ n) (hn : n < word32) : IsString (strncpy destination source n) l := by
  have hstrlen := h.strlen_eq hl (hle.trans_lt hn)
  intro i hi
  rw [strncpy, hstrlen]
  rcases hi.lt_or_eq with hlt | rfl
  · rw [if_pos (hlt.trans_le hle), if_pos hlt, h i hi]
  · rw [if_neg (lt_irrefl l.length), List.getD_eq_default _ _ le_rfl]
    split_ifs
    · rfl
    · rfl
    · omega

theorem dot_isString : IsString dot [46] := show ∀ i ≤ 1, dot i = [46].getD i 0 by decide

theorem IsString.concat (h : IsString s l) (hsource : ∀ d, IsString (strncpy d source n) l') :
    IsString (s.within l.length fun s => strncat s source n) (l ++ l') := by
  have hend : s l.length = 0 := by
    rw [h _ le_rfl, List.getD_eq_default _ _ le_rfl]
  apply isString_append.mpr
  constructor
  · intro i hi
    rw [within_lt _ hi, h i hi.le]
  · intro i hi
    dsimp only
    rw [within_add, strncat_of_end (by simpa using hend)]
    exact hsource _ i hi

/-- A string is copied together with the 0 at its end. -/
theorem strcpy_isString (s : CString) (h : IsString source l) (hl : ∀ i < l.length, source i ≠ 0)
    (hlen : l.length < word32) :
    IsString (s.strcpy source) l ∧ ∀ i, l.length < i → s.strcpy source i = s i := by
  have hend : source l.length = 0 := by
    rw [h _ le_rfl, List.getD_eq_default _ _ le_rfl]
  have hstrlen := strlen_eq hlen hl hend
  refine ⟨fun i hi => ?_, fun i hi => ?_⟩
  · rw [strcpy, hstrlen]
    rcases hi.lt_or_eq with hlt | rfl
    · rw [if_pos hlt, h i hi]
    · rw [if_neg (lt_irrefl _), if_pos rfl, List.getD_eq_default _ _ le_rfl]
  · rw [strcpy, hstrlen, if_neg (by omega), if_neg (by omega)]

/-! ### A string from a place on -/

def Rest (s : CString) (i : ℕ) (l : List UInt8) : Prop := IsString (fun j => s (i + j)) l

section Rest
variable {c : UInt8}

theorem IsString.rest (h : IsString s l) : Rest s 0 l := by
  intro j hj
  dsimp only
  rw [Nat.zero_add]
  exact h j hj

theorem Rest.head (h : Rest s i (c :: l)) : s i = c := h 0 (Nat.zero_le _)

theorem Rest.tail (h : Rest s i (c :: l)) : Rest s (i + 1) l := by
  intro j hj
  have hchar : s (i + (j + 1)) = l.getD j 0 := h (j + 1) (Nat.succ_le_succ hj)
  dsimp only
  rw [← hchar, Nat.add_assoc, Nat.add_comm 1]

theorem Rest.ends (h : Rest s i []) : s i = 0 := h 0 le_rfl

theorem Rest.headD (h : Rest s i l) : s i = l.headD 0 := by
  cases l with
  | nil => exact h.ends
  | cons c l => exact h.head

theorem Rest.append (h : Rest s i (l ++ l')) : Rest s (i + l.length) l' := by
  intro j hj
  have hchar := (isString_append.mp h).2 j hj
  dsimp only at hchar ⊢
  rw [← hchar, Nat.add_assoc]

end Rest

/-! ### The text of a string -/

@[simp] theorem chars_length (s : CString) (n : ℕ) : (s.chars n).length = n := by simp [chars]

@[simp] theorem text_length (s : CString) : s.text.length = s.strlen := chars_length _ _

theorem chars_getElem (s : CString) (h : i < (s.chars n).length) : (s.chars n)[i] = s i := by
  simp [chars]

theorem text_getElem (s : CString) (h : i < s.text.length) : s.text[i] = s i := chars_getElem s h

theorem chars_add (s : CString) (n k : ℕ) : s.chars (n + k) = s.chars n ++ chars (fun i => s (n + i)) k := by
  unfold chars
  rw [List.range_add, List.map_append, List.map_map]
  rfl

theorem IsString.text_eq (h : IsString s l) (hl : NonZero l) (hlen : l.length < word32) :
    s.text = l := by
  have hstrlen := h.strlen_eq hl hlen
  apply List.ext_getElem
  · rw [text_length, hstrlen]
  · intro i hi hi'
    rw [text_getElem, h i hi'.le, List.getD_eq_getElem _ _ hi']

theorem strlenFrom_spec (s : CString) (fuel len : ℕ) : len ≤ strlenFrom s fuel len ∧
    strlenFrom s fuel len ≤ len + fuel ∧ (∀ i, len ≤ i → i < strlenFrom s fuel len → s i ≠ 0) ∧
      (strlenFrom s fuel len < len + fuel → s (strlenFrom s fuel len) = 0) := by
  induction fuel generalizing len with
  | zero => exact ⟨le_rfl, le_rfl, fun i hi hi' => absurd hi' (Nat.not_lt.mpr hi),
      fun h => absurd h (lt_irrefl _)⟩
  | succ fuel ih =>
    rw [strlenFrom]
    split_ifs with hzero
    · exact ⟨le_rfl, by omega, fun i hi hi' => absurd hi' (Nat.not_lt.mpr hi), fun _ => hzero⟩
    · obtain ⟨hge, hle, hne, hend⟩ := ih (len + 1)
      refine ⟨by omega, by omega, fun i hi hi' => ?_, fun h => hend (by omega)⟩
      rcases hi.lt_or_eq with hlt | rfl
      · exact hne i hlt hi'
      · exact hzero

theorem ne_zero_of_lt_strlen (h : i < s.strlen) : s i ≠ 0 :=
  (strlenFrom_spec s word32 0).2.2.1 i (Nat.zero_le i) h

theorem strlen_end (h : s.strlen < word32) : s s.strlen = 0 :=
  (strlenFrom_spec s word32 0).2.2.2 (by rwa [Nat.zero_add])

theorem text_nonZero (s : CString) : NonZero s.text := by
  intro c hc
  obtain ⟨i, hi, rfl⟩ := List.mem_map.mp hc
  exact ne_zero_of_lt_strlen (List.mem_range.mp hi)

/-- The characters before a 0, of the first `n`. -/
theorem takeWhile_chars (hn : n < word32) :
    (source.chars n).takeWhile (· ≠ 0) = source.chars (min n source.strlen) := by
  obtain ⟨k, hk⟩ := Nat.exists_eq_add_of_le (Nat.min_le_left n source.strlen)
  have hfront : ∀ c ∈ source.chars (min n source.strlen), decide (c ≠ 0) = true := by
    intro c hc
    obtain ⟨i, hi, rfl⟩ := List.mem_map.mp hc
    have hlt := List.mem_range.mp hi
    exact decide_eq_true (ne_zero_of_lt_strlen (by omega))
  have hback : (chars (fun i => source (min n source.strlen + i)) k).takeWhile (· ≠ 0) = [] := by
    cases k with
    | zero => rfl
    | succ k =>
      have hmin : min n source.strlen = source.strlen := by omega
      have hend := strlen_end (s := source) (by omega)
      rw [chars, List.range_succ_eq_map, List.map_cons, hmin, Nat.add_zero, hend]
      rfl
  calc (source.chars n).takeWhile (· ≠ 0)
      = (source.chars (min n source.strlen) ++
          chars (fun i => source (min n source.strlen + i)) k).takeWhile (· ≠ 0) := by
        rw [← chars_add, ← hk]
    _ = source.chars (min n source.strlen) := by
        rw [List.takeWhile_append_of_pos hfront, hback, List.append_nil]

/-- What `strncpy` leaves: the characters before a 0, of the first `n`. -/
theorem strncpy_takeWhile (d : CString) (hn : n < word32) :
    IsString (strncpy d source n) ((source.chars n).takeWhile (· ≠ 0)) := by
  intro i hi
  rw [takeWhile_chars hn] at hi ⊢
  rw [chars_length] at hi
  rw [strncpy]
  rcases hi.lt_or_eq with hlt | rfl
  · rw [if_pos (by omega), if_pos (by omega),
      List.getD_eq_getElem _ _ (by rw [chars_length]; exact hlt), chars_getElem]
  · rw [List.getD_eq_default _ _ (chars_length _ _).le]
    split_ifs
    · omega
    · rfl
    · rfl
    · omega

/-- `strncat` puts the characters before a 0, of the first `n`, behind the string. -/
theorem strncat_isString (h : IsString s l) (hl : NonZero l) (hlen : l.length < word32)
    (hn : n < word32) :
    IsString (strncat s source n) (l ++ (source.chars n).takeWhile (· ≠ 0)) := by
  rw [strncat, h.strlen_eq hl hlen]
  apply isString_append.mpr
  constructor
  · intro i hi
    rw [within_lt _ hi, h i hi.le]
  · intro i hi
    dsimp only
    rw [within_add]
    exact strncpy_takeWhile _ hn i hi

theorem text_isString (h : s.strlen < word32) : IsString s s.text := by
  intro i hi
  rw [text_length] at hi
  rcases hi.lt_or_eq with hlt | rfl
  · rw [List.getD_eq_getElem _ _ (by rwa [text_length]), text_getElem]
  · rw [List.getD_eq_default _ _ (text_length s).le, strlen_end h]

theorem takeWhile_nonZero (l : List UInt8) : NonZero (l.takeWhile (· ≠ 0)) := by
  intro c hc
  have hall := List.all_eq_true.mp (List.all_takeWhile (l := l)) c hc
  exact of_decide_eq_true hall

theorem NonZero.append (h : NonZero l) (h' : NonZero l') : NonZero (l ++ l') :=
  List.forall_mem_append.mpr ⟨h, h'⟩

theorem strncat_text (h : s.strlen + n < word32) :
    (strncat s source n).text = s.text ++ (source.chars n).takeWhile (· ≠ 0) := by
  have hself : IsString s s.text := text_isString (by omega)
  have hstring : IsString (strncat s source n) (s.text ++ (source.chars n).takeWhile (· ≠ 0)) :=
    strncat_isString hself s.text_nonZero (by rw [text_length]; omega) (by omega)
  apply hstring.text_eq (s.text_nonZero.append (takeWhile_nonZero _))
  have hle := (List.takeWhile_sublist (l := source.chars n) fun c => decide (c ≠ 0)).length_le
  rw [chars_length] at hle
  rw [List.length_append, text_length]
  omega

end CString

end DosKernel
