import DosKernel.Libc.Printf

/-! Comparison of strings. `strcmp` and `stricmp` compare as many characters as the shorter string
has and then one more of each string; the result only says whether the strings differ. -/

namespace DosKernel.Libc

open CString

/-! ### The code -/

def charInt (c : UInt8) : ℤ := c.toInt8.toInt

/-- The loops of `memcmp` and `strincmp`: characters are compared as `f` maps them, and the result is
the difference of the first ones that differ. -/
def compareFrom (f : UInt8 → UInt8) (value : UInt8 → ℤ) : (num : ℕ) → CString → CString → ℤ
  | 0, _, _ => 0
  | num + 1, ptr1, ptr2 =>
    if f (ptr1 0) ≠ f (ptr2 0) then value (ptr1 0) - value (ptr2 0)
    else compareFrom f value num (fun i => ptr1 (i + 1)) fun i => ptr2 (i + 1)

def memcmp (ptr1 ptr2 : CString) (num : ℕ) : ℤ :=
  compareFrom id (fun c => c.toNat) num ptr1 ptr2

/-- What `strncmp` and `strincmp` do: empty strings first. -/
def compareStart (rest : ℤ) (str1 str2 : CString) : ℤ :=
  if str1 0 = 0 then charInt (str2 0)
  else if str2 0 = 0 then -charInt (str1 0)
  else rest

def strncmp (str1 str2 : CString) (num : ℕ) : ℤ := compareStart (memcmp str1 str2 num) str1 str2

def strincmp (str1 str2 : CString) (num : ℕ) : ℤ :=
  compareStart (compareFrom toupper charInt num str1 str2) str1 str2

/-- What `strcmp` and `stricmp` do with the function for a number of characters. -/
def compareWhole (compare : CString → CString → ℕ → ℤ) (str1 str2 : CString) : ℤ :=
  let len1 := strlen str1
  let len2 := strlen str2
  let last := if len1 < len2 then charInt (str1 len1) - charInt (str2 len1)
    else charInt (str1 len2) - charInt (str2 len2)
  compareStart
    (if compare str1 str2 (if len1 < len2 then len1 else len2) ≠ 0 ∨ last ≠ 0 then 1 else 0) str1 str2

def strcmp (str1 str2 : CString) : ℤ := compareWhole strncmp str1 str2

def stricmp (str1 str2 : CString) : ℤ := compareWhole strincmp str1 str2

/-- The inner loop of `strstr`: all characters of `str2` stand at the begin of `str1`. -/
def beginsWith (str1 str2 : CString) : (fuel j : ℕ) → Bool
  | 0, _ => false
  | fuel + 1, j =>
    if str2 j = 0 then true else if str1 j ≠ str2 j then false else beginsWith str1 str2 fuel (j + 1)

/-- The outer loop of `strstr`. -/
def strstrFrom (str1 str2 : CString) : (fuel i : ℕ) → Option ℕ
  | 0, _ => none
  | fuel + 1, i =>
    if str1 i = 0 then none
    else if str1 i = str2 0 ∧ beginsWith (fun j => str1 (i + j)) str2 word32 0 then some i
    else strstrFrom str1 str2 fuel (i + 1)

def strstr (str1 str2 : CString) : Option ℕ := strstrFrom str1 str2 word32 0

/-- The test in `vfs_stat`: an entry has the name that is looked for. -/
def entryHasName (caseSensitive : Bool) (name filename : CString) : Bool :=
  caseSensitive && strcmp name filename = 0 || !caseSensitive && stricmp name filename = 0

/-! ### The loop -/

section Loop
variable {f : UInt8 → UInt8} {value : UInt8 → ℤ} {num : ℕ} {p q : CString}

theorem charInt_injective : Function.Injective charInt := by
  intro c d h
  have hint : c.toInt8 = d.toInt8 := Int8.toInt_inj.mp h
  rw [← UInt8.toUInt8_toInt8 c, hint, UInt8.toUInt8_toInt8]

theorem charInt_eq_zero (c : UInt8) : charInt c = 0 ↔ c = 0 :=
  charInt_injective.eq_iff' rfl

/-- The loop returns 0 if no characters differ. -/
theorem compareFrom_eq_zero (hvalue : Function.Injective value) :
    compareFrom f value num p q = 0 ↔ ∀ i < num, f (p i) = f (q i) := by
  induction num generalizing p q with
  | zero => exact ⟨fun _ i hi => absurd hi (Nat.not_lt_zero i), fun _ => rfl⟩
  | succ num ih =>
    rw [compareFrom]
    split_ifs with hdiffer
    · have hne : value (p 0) - value (q 0) ≠ 0 := fun hzero =>
        hdiffer (congrArg f (hvalue (sub_eq_zero.mp hzero)))
      exact ⟨fun h => absurd h hne, fun h => absurd (h 0 (Nat.succ_pos num)) hdiffer⟩
    · rw [not_not] at hdiffer
      rw [ih]
      constructor
      · intro h i hi
        cases i with
        | zero => exact hdiffer
        | succ i => exact h i (by omega)
      · exact fun h i hi => h (i + 1) (by omega)

end Loop

/-! ### Strings -/

section Strings
variable {f : UInt8 → UInt8} {value : UInt8 → ℤ} {compare : CString → CString → ℕ → ℤ}
  {a b : CString} {l l' : List UInt8} {rest : ℤ}

/-- Two empty strings are equal, and an empty one differs from any other. -/
theorem compareStart_eq_zero (ha : IsString a l) (hl : NonZero l) (hb : IsString b l')
    (hl' : NonZero l') : compareStart rest a b = 0 ↔
      l = [] ∧ l' = [] ∨ l ≠ [] ∧ l' ≠ [] ∧ rest = 0 := by
  have hempty : ∀ {s : CString} {l : List UInt8}, IsString s l → NonZero l → (s 0 = 0 ↔ l = []) := by
    intro s l hs hl
    constructor
    · intro hzero
      by_contra hne
      exact hs.ne_zero hl (List.length_pos_of_ne_nil hne) hzero
    · rintro rfl
      exact hs.end_eq
  have hfirst := hempty ha hl
  have hsecond := hempty hb hl'
  rw [compareStart]
  split_ifs with ha0 hb0
  · rw [charInt_eq_zero]
    tauto
  · rw [neg_eq_zero, charInt_eq_zero]
    tauto
  · tauto

/-- The characters of strings that are equally long are equal one by one. -/
theorem map_eq_iff (ha : IsString a l) (hb : IsString b l') (hlength : l.length = l'.length) :
    l.map f = l'.map f ↔ ∀ i < l.length, f (a i) = f (b i) := by
  constructor
  · intro h i hi
    have hchar : (l.map f).getD i (f 0) = (l'.map f).getD i (f 0) := by rw [h]
    rwa [List.getD_map, List.getD_map, ← ha i hi.le, ← hb i (by omega)] at hchar
  · intro h
    apply List.ext_getElem (by simpa using hlength)
    intro i hi hi'
    rw [List.length_map] at hi hi'
    have hchar := h i hi
    rw [ha i hi.le, hb i hi'.le, List.getD_eq_getElem _ _ hi, List.getD_eq_getElem _ _ hi'] at hchar
    rw [List.getElem_map, List.getElem_map, hchar]

/-- Strings of different lengths differ in the character behind the shorter one. -/
theorem last_eq_zero (ha : IsString a l) (hl : NonZero l) (hb : IsString b l') (hl' : NonZero l') :
    (if l.length < l'.length then charInt (a l.length) - charInt (b l.length)
      else charInt (a l'.length) - charInt (b l'.length)) = 0 ↔ l.length = l'.length := by
  split_ifs with hlt
  · rw [sub_eq_zero, charInt_injective.eq_iff, ha.end_eq]
    exact ⟨fun h => absurd h.symm (hb.ne_zero hl' hlt), fun h => absurd h hlt.ne⟩
  · rw [sub_eq_zero, charInt_injective.eq_iff, hb.end_eq]
    constructor
    · intro h
      by_contra hne
      exact ha.ne_zero hl (by omega) h
    · intro h
      rw [← h]
      exact ha.end_eq

/-- `a || b` is 0 if both are. -/
theorem or_eq_zero (x y : ℤ) : (if x ≠ 0 ∨ y ≠ 0 then (1 : ℤ) else 0) = 0 ↔ x = 0 ∧ y = 0 := by
  split_ifs with h
  · exact ⟨fun h' => absurd h' (by decide), fun h' => absurd h (by tauto)⟩
  · exact ⟨fun _ => by tauto, fun _ => rfl⟩

/-- A comparison of whole strings finds those equal that the loop finds equal. -/
theorem compareWhole_eq_zero (hvalue : Function.Injective value)
    (hcompare : ∀ num, compare a b num = compareStart (compareFrom f value num a b) a b)
    (ha : IsString a l) (hl : NonZero l) (hlen : l.length < word32)
    (hb : IsString b l') (hl' : NonZero l') (hlen' : l'.length < word32) :
    compareWhole compare a b = 0 ↔ l.map f = l'.map f := by
  have hlast := last_eq_zero ha hl hb hl'
  unfold compareWhole
  dsimp only
  rw [compareStart_eq_zero ha hl hb hl', ha.strlen_eq hl hlen, hb.strlen_eq hl' hlen', hcompare,
    or_eq_zero, hlast, compareStart_eq_zero ha hl hb hl', compareFrom_eq_zero hvalue]
  have hmap : l.length = l'.length → (l.map f = l'.map f ↔ ∀ i < l.length, f (a i) = f (b i)) :=
    map_eq_iff ha hb
  have hnum : l.length = l'.length →
      (if l.length < l'.length then l.length else l'.length) = l.length := by
    intro hlength
    rw [hlength, if_neg (lt_irrefl _)]
  constructor
  · rintro (⟨rfl, rfl⟩ | ⟨hne, hne', ⟨hnil, -⟩ | ⟨-, -, hchars⟩, hlength⟩)
    · rfl
    · exact absurd hnil hne
    · rw [hnum hlength] at hchars
      exact (hmap hlength).mpr hchars
  · intro h
    have hlength : l.length = l'.length := by simpa using congrArg List.length h
    have hchars := (hmap hlength).mp h
    rw [← hnum hlength] at hchars
    by_cases hnil : l = []
    · exact .inl ⟨hnil, List.eq_nil_of_length_eq_zero (by rw [← hlength, hnil, List.length_nil])⟩
    · have hnil' : l' ≠ [] := fun h' => hnil (List.eq_nil_of_length_eq_zero (by rw [hlength, h']; rfl))
      exact .inr ⟨hnil, hnil', .inr ⟨hnil, hnil', hchars⟩, hlength⟩

end Strings

/-! ### The begin of a string -/

section Begin
variable {a b : CString} {l p : List UInt8} {i fuel : ℕ}

/-- A text is the begin of another one if its characters stand there. -/
theorem prefix_iff (hp : NonZero p) : p <+: l ↔ ∀ i < p.length, l.getD i 0 = p.getD i 0 := by
  induction p generalizing l with
  | nil => exact ⟨fun _ i hi => absurd hi (Nat.not_lt_zero i), fun _ => List.nil_prefix⟩
  | cons c p ih =>
    have hc : c ≠ 0 := hp c List.mem_cons_self
    cases l with
    | nil =>
      constructor
      · exact fun h => absurd (List.prefix_nil.mp h) (List.cons_ne_nil c p)
      · exact fun h => absurd (h 0 (Nat.succ_pos _)).symm hc
    | cons c' l =>
      rw [List.cons_prefix_cons, ih fun c hc => hp c (List.mem_cons_of_mem _ hc)]
      constructor
      · rintro ⟨rfl, h⟩ i hi
        cases i with
        | zero => rfl
        | succ i => exact h i (Nat.lt_of_succ_lt_succ hi)
      · intro h
        exact ⟨(h 0 (Nat.succ_pos _)).symm, fun i hi => h (i + 1) (Nat.succ_lt_succ hi)⟩

/-- `strncmp` with the length of a text tells whether a string begins with it. -/
theorem strncmp_eq_zero (ha : IsString a l) (hl : NonZero l) (hb : IsString b p) (hp : NonZero p)
    (hne : p ≠ []) : strncmp a b p.length = 0 ↔ p <+: l := by
  have hnat : Function.Injective fun c : UInt8 => (c.toNat : ℤ) :=
    fun c d h => UInt8.toNat_inj.mp (Int.ofNat_inj.mp h)
  have hchars : memcmp a b p.length = 0 ↔ ∀ i < p.length, a i = b i := compareFrom_eq_zero hnat
  rw [strncmp, compareStart_eq_zero ha hl hb hp, hchars]
  constructor
  · rintro (⟨-, hnil⟩ | ⟨-, -, h⟩)
    · exact absurd hnil hne
    · have hle : p.length ≤ l.length := by
        by_contra hlt
        exact hb.ne_zero hp (Nat.not_le.mp hlt) ((h _ (Nat.not_le.mp hlt)).symm.trans ha.end_eq)
      exact (prefix_iff hp).mpr fun i hi => by rw [← ha i (by omega), ← hb i hi.le, h i hi]
  · intro h
    have hle := h.length_le
    have hl0 : l ≠ [] := fun hnil => hne (List.prefix_nil.mp (hnil ▸ h))
    exact .inr ⟨hl0, hne, fun i hi => by rw [ha i (by omega), hb i hi.le, (prefix_iff hp).mp h i hi]⟩

/-- The inner loop of `strstr` compares up to the end of the text. -/
theorem beginsWith_eq {j : ℕ} (ha : Rest a j l) (hb : Rest b j p) (hp : NonZero p)
    (hfuel : p.length < fuel) : beginsWith a b fuel j = true ↔ p <+: l := by
  induction p generalizing l j fuel with
  | nil =>
    cases fuel with
    | zero => exact absurd hfuel (Nat.not_lt_zero _)
    | succ fuel =>
      rw [beginsWith, if_pos hb.ends]
      exact ⟨fun _ => List.nil_prefix, fun _ => rfl⟩
  | cons c p ih =>
    cases fuel with
    | zero => exact absurd hfuel (Nat.not_lt_zero _)
    | succ fuel =>
      have hc : c ≠ 0 := hp c List.mem_cons_self
      rw [beginsWith, hb.head, if_neg hc, ha.headD]
      split_ifs with hdiffer
      · constructor
        · exact fun h => h.elim
        · rintro ⟨l', rfl⟩
          exact absurd rfl hdiffer
      · rw [not_not] at hdiffer
        cases l with
        | nil => exact absurd hdiffer.symm hc
        | cons c' l =>
          obtain rfl : c' = c := hdiffer
          rw [ih ha.tail hb.tail (fun c hc => hp c (List.mem_cons_of_mem _ hc))
            (Nat.lt_of_succ_lt_succ hfuel), List.cons_prefix_cons]
          exact ⟨fun h => ⟨rfl, h⟩, fun h => h.2⟩

/-- A text stands behind as few characters as possible. -/
structure FirstAt (p l before after : List UInt8) : Prop where
  split : l = before ++ (p ++ after)
  first : ∀ before' after', l = before' ++ (p ++ after') → before.length ≤ before'.length

/-- `strstr` finds the first place of a text. -/
theorem strstrFrom_spec (ha : Rest a i l) (hl : NonZero l) (hb : IsString b p) (hp : NonZero p)
    (hne : p ≠ []) (hlen : p.length < word32) (hfuel : l.length < fuel) :
    (∃ before after, FirstAt p l before after ∧ strstrFrom a b fuel i = some (i + before.length)) ∨
      (∀ before after, l ≠ before ++ (p ++ after)) ∧ strstrFrom a b fuel i = none := by
  induction l generalizing i fuel with
  | nil =>
    cases fuel with
    | zero => exact absurd hfuel (Nat.not_lt_zero _)
    | succ fuel =>
      rw [strstrFrom, if_pos ha.ends]
      refine .inr ⟨fun before after h => ?_, rfl⟩
      exact hne (List.append_eq_nil_iff.mp (List.append_eq_nil_iff.mp h.symm).2).1
  | cons c l ih =>
    cases fuel with
    | zero => exact absurd hfuel (Nat.not_lt_zero _)
    | succ fuel =>
      have hbegin : beginsWith (fun j => a (i + j)) b word32 0 = true ↔ p <+: c :: l :=
        beginsWith_eq (IsString.rest ha) hb.rest hp hlen
      have hfirst : p <+: c :: l → a i = b 0 := by
        rintro ⟨l', h⟩
        rw [ha.head, hb.rest.headD]
        cases p with
        | nil => exact absurd rfl hne
        | cons c' p => exact (List.cons.inj h).1.symm
      rw [strstrFrom, if_neg (by rw [ha.head]; exact hl c List.mem_cons_self)]
      split_ifs with hfound
      · obtain ⟨after, hafter⟩ := hbegin.mp hfound.2
        exact .inl ⟨[], after, ⟨hafter.symm, fun _ _ _ => Nat.zero_le _⟩, rfl⟩
      · have hnot : ¬ p <+: c :: l := fun h => hfound ⟨hfirst h, hbegin.mpr h⟩
        rcases ih ha.tail (fun c hc => hl c (List.mem_cons_of_mem _ hc)) (Nat.lt_of_succ_lt_succ hfuel) with
          ⟨before, after, ⟨hsplit, hleast⟩, hresult⟩ | ⟨hnone, hresult⟩
        · refine .inl ⟨c :: before, after, ⟨by rw [hsplit]; rfl, ?_⟩, ?_⟩
          · intro before' after' h
            cases before' with
            | nil => exact absurd ⟨after', h.symm⟩ hnot
            | cons c' before' => exact Nat.succ_le_succ (hleast before' after' (List.cons.inj h).2)
          · rw [hresult, List.length_cons, Nat.add_assoc, Nat.add_comm 1]
        · refine .inr ⟨?_, hresult⟩
          intro before after h
          cases before with
          | nil => exact hnot ⟨after, h.symm⟩
          | cons c' before => exact hnone before after (List.cons.inj h).2

theorem FirstAt.unique {before after before' after' : List UInt8} (h : FirstAt p l before after)
    (h' : FirstAt p l before' after') : before = before' ∧ after = after' := by
  have hlength := le_antisymm (h.first _ _ h'.split) (h'.first _ _ h.split)
  obtain ⟨hbefore, hrest⟩ := List.append_inj (h.split.symm.trans h'.split) hlength
  exact ⟨hbefore, List.append_cancel_left hrest⟩

end Begin

/-- `strcmp` finds equal strings, `stricmp` those that are equal in upper case, and `vfs_stat` takes
the entries with such names. -/
theorem strcmp_stricmp_eq_zero {a b : CString} {l l' : List UInt8}
    (ha : IsString a l) (hl : NonZero l) (hlen : l.length < word32)
    (hb : IsString b l') (hl' : NonZero l') (hlen' : l'.length < word32) :
    (strcmp a b = 0 ↔ l = l') ∧ (stricmp a b = 0 ↔ l.map toupper = l'.map toupper) ∧
      ∀ caseSensitive, entryHasName caseSensitive a b = true ↔
        if caseSensitive then l = l' else l.map toupper = l'.map toupper := by
  have hnat : Function.Injective fun c : UInt8 => (c.toNat : ℤ) :=
    fun c d h => UInt8.toNat_inj.mp (Int.ofNat_inj.mp h)
  have hcmp : strcmp a b = 0 ↔ l = l' := by
    have hcompare : ∀ num, strncmp a b num =
        compareStart (compareFrom id (fun c => (c.toNat : ℤ)) num a b) a b := fun num => rfl
    have hwhole : strcmp a b = 0 ↔ l.map id = l'.map id :=
      compareWhole_eq_zero hnat hcompare ha hl hlen hb hl' hlen'
    rwa [List.map_id, List.map_id] at hwhole
  have hicompare : ∀ num, strincmp a b num = compareStart (compareFrom toupper charInt num a b) a b :=
    fun num => rfl
  have hicmp : stricmp a b = 0 ↔ l.map toupper = l'.map toupper :=
    compareWhole_eq_zero charInt_injective hicompare ha hl hlen hb hl' hlen'
  refine ⟨hcmp, hicmp, fun caseSensitive => ?_⟩
  unfold entryHasName
  cases caseSensitive with
  | false => simpa using hicmp
  | true => simpa using hcmp

/-- `ab` is not `aB`, but is in upper case. -/
theorem strcmp_stricmp_case : strcmp (fun i => [97, 98].getD i 0) (fun i => [97, 66].getD i 0) ≠ 0 ∧
    stricmp (fun i => [97, 98].getD i 0) (fun i => [97, 66].getD i 0) = 0 := by
  have ha : ∀ c ∈ [(97 : UInt8), 98], c ≠ 0 := by simp
  have hb : ∀ c ∈ [(97 : UInt8), 66], c ≠ 0 := by simp
  obtain ⟨hcmp, hicmp, -⟩ := strcmp_stricmp_eq_zero (a := fun i => [97, 98].getD i 0)
    (b := fun i => [97, 66].getD i 0) (fun _ _ => rfl) ha (by decide) (fun _ _ => rfl) hb (by decide)
  exact ⟨fun h => absurd (hcmp.mp h) (by decide), hicmp.mpr (by decide)⟩

end DosKernel.Libc
