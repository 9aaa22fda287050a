import DosKernel.Libc.Comparison
import DosKernel.Libc.Strtol

/-! The root device on the command line. `parse_cmdline_root` first checks the text behind `root=` and
then takes it apart again with other loops, putting a 0 behind each number while it is read. -/

namespace DosKernel.Boot

open CString Libc

/-! ### The code -/

def literal (text : List UInt8) : CString := fun i => text.getD i 0

def root : List UInt8 := ['r'.toUInt8, 'o'.toUInt8, 'o'.toUInt8, 't'.toUInt8, '='.toUInt8]

def fd : List UInt8 := ['f'.toUInt8, 'd'.toUInt8]

def hd : List UInt8 := ['h'.toUInt8, 'd'.toUInt8]

def cd : List UInt8 := ['c'.toUInt8, 'd'.toUInt8]

/-- `strncmp(tmp, text, n) == 0` with the length of the text. -/
def startsWith (cmdline : CString) (tmp : ℕ) (text : List UInt8) : Prop :=
  strncmp (fun i => cmdline (tmp + i)) (literal text) text.length = 0

instance (cmdline : CString) (tmp : ℕ) (text : List UInt8) : Decidable (startsWith cmdline tmp text) :=
  inferInstanceAs (Decidable (_ = _))

/-- The loops that go on over certain characters, at most up to the end of the string. -/
def skipWhile (p : UInt8 → Bool) (cmdline : CString) : (fuel i : ℕ) → ℕ
  | 0, i => i
  | fuel + 1, i => if cmdline i ≠ 0 ∧ p (cmdline i) = true then skipWhile p cmdline fuel (i + 1) else i

/-- What `validate_cmdline_root` does behind the letters of the drive; `false` is the error. -/
def validateNumbers (cmdline : CString) (startDisk : ℕ) : Bool :=
  let endDisk := skipWhile isdigit cmdline word32 startDisk
  let startPartition := endDisk + 1
  let endPartition := skipWhile isdigit cmdline word32 startPartition
  if ¬ isdigit (cmdline startDisk) then false
  else if cmdline endDisk ≠ 'p'.toUInt8 then false
  else if ¬ isdigit (cmdline startPartition) then false
  else if cmdline endPartition ≠ 0 ∧ ¬ isspace (cmdline endPartition) then false
  else true

/-- `validate_cmdline_root`: whether it returns. -/
def validateCmdlineRoot (cmdline : CString) : Bool :=
  match strstr cmdline (literal root) with
  | none => false
  | some i =>
    let tmp := i + 5
    if startsWith cmdline tmp fd then validateNumbers cmdline (tmp + 2)
    else if startsWith cmdline tmp hd then validateNumbers cmdline (tmp + 2)
    else if startsWith cmdline tmp cd then validateNumbers cmdline (tmp + 2)
    else false

/-- The command line with `*drive` and `*partition`. -/
structure RootDevice where
  cmdline : CString
  drive : Int32
  partition : Int32

/-- The number from `tmp` to `last`, with the command line that is left. -/
def readNumber (cmdline : CString) (tmp last : ℕ) : Int32 × CString :=
  let tmp2 := cmdline last
  let cmdline := Function.update cmdline last 0
  ((strtol (fun i => cmdline (tmp + i)) 10).1, Function.update cmdline last tmp2)

/-- `parse_cmdline_root`; `none` is the panic. -/
def parseCmdlineRoot (cmdline : CString) (drive partition : Int32) : Option RootDevice :=
  if validateCmdlineRoot cmdline then
    match strstr cmdline (literal root) with
    | none => some ⟨cmdline, drive, partition⟩
    | some i =>
      let tmp := i + 5
      let start :=
        if startsWith cmdline tmp fd then (0, tmp + 2)
        else if startsWith cmdline tmp hd then (0x80, tmp + 2)
        else if startsWith cmdline tmp cd then (0xE0, tmp + 2)
        else (drive, tmp)
      let last := skipWhile (· ≠ 'p'.toUInt8) cmdline word32 start.2
      let disk := readNumber cmdline start.2 last
      let tmp := last + 1
      let last := skipWhile (fun c => !isspace c) disk.2 word32 tmp
      let part := readNumber disk.2 tmp last
      some ⟨part.2, start.1 + disk.1, part.1⟩
  else none

/-! ### Texts -/

/-- The letters of a drive, and the number of the first one. -/
inductive DriveText : List UInt8 → ℤ → Prop
  | fd : DriveText fd 0
  | hd : DriveText hd 0x80
  | cd : DriveText cd 0xE0

/-- Decimal digits, at least one. -/
def IsDecimal (l : List UInt8) : Prop := l ≠ [] ∧ ∀ c ∈ l, isdigit c = true

/-- Behind the first `root=` stand the letters of a drive, a number, `p`, a number, and then a space or
nothing. -/
structure RootText (l : List UInt8) (drive : ℤ) (disk part : List UInt8) : Prop where
  split : ∃ before letters rest, FirstAt root l before (letters ++ (disk ++ 'p'.toUInt8 :: (part ++ rest))) ∧
    DriveText letters drive ∧ ∀ c ∈ rest.head?, isspace c = true
  disk : IsDecimal disk
  part : IsDecimal part

/-! ### The loops -/

section Loops
variable {cmdline : CString} {p : UInt8 → Bool} {i fuel : ℕ} {l text digits rest : List UInt8}

theorem literal_isString (text : List UInt8) : IsString (literal text) text := fun _ _ => rfl

theorem startsWith_iff (h : Rest cmdline i l) (hl : NonZero l) (ht : NonZero text) (hne : text ≠ []) :
    startsWith cmdline i text ↔ text <+: l :=
  strncmp_eq_zero h hl (literal_isString text) ht hne

theorem skipWhile_eq (h : Rest cmdline i l) (hl : NonZero l) (hfuel : l.length < fuel) :
    skipWhile p cmdline fuel i = i + (l.takeWhile p).length := by
  induction l generalizing i fuel with
  | nil =>
    cases fuel with
    | zero => exact absurd hfuel (Nat.not_lt_zero _)
    | succ fuel =>
      rw [skipWhile, if_neg fun hc => hc.1 h.ends]
      rfl
  | cons c l ih =>
    cases fuel with
    | zero => exact absurd hfuel (Nat.not_lt_zero _)
    | succ fuel =>
      have hc : c ≠ 0 := hl c List.mem_cons_self
      rw [skipWhile, h.head, List.takeWhile_cons]
      by_cases hp : p c = true
      · rw [if_pos ⟨hc, hp⟩, if_pos hp, ih h.tail (fun c hc => hl c (List.mem_cons_of_mem _ hc))
          (Nat.lt_of_succ_lt_succ hfuel), List.length_cons, Nat.add_assoc, Nat.add_comm 1]
      · rw [if_neg fun h => hp h.2, if_neg hp]
        rfl

/-- A loop ends behind the characters that it goes on over. -/
theorem skipWhile_front (h : Rest cmdline i (digits ++ rest)) (hl : NonZero (digits ++ rest))
    (hfuel : (digits ++ rest).length < fuel) (hdigits : ∀ c ∈ digits, p c = true)
    (hrest : ∀ c ∈ rest.head?, p c = false) : skipWhile p cmdline fuel i = i + digits.length := by
  rw [skipWhile_eq h hl hfuel, takeWhile_front hdigits hrest]

/-- A digit stands for a number below 10, and it is neither a space nor `p`. -/
theorem isdigit_spec {c : UInt8} (h : isdigit c = true) : (∃ d, digitOf c = some d ∧ (d : ℤ) < 10) ∧
    c ≠ 'p'.toUInt8 ∧ isspace c = false ∧ c ≠ 0 := by
  have hall : ∀ k < 256, isdigit (UInt8.ofNat k) = true → (∃ d < 10, digitOf (UInt8.ofNat k) = some d) ∧
      UInt8.ofNat k ≠ 'p'.toUInt8 ∧ isspace (UInt8.ofNat k) = false ∧ UInt8.ofNat k ≠ 0 := by
    decide +kernel
  have hc := hall c.toNat c.toNat_lt
  rw [UInt8.ofNat_toNat] at hc
  obtain ⟨⟨d, hd, hdigit⟩, hrest⟩ := hc h
  exact ⟨⟨d, hdigit, by exact_mod_cast hd⟩, hrest⟩

/-- A decimal number is read, and the command line is as it was. -/
theorem readNumber_eq (h : Rest cmdline i (digits ++ rest)) (hdigits : IsDecimal digits)
    (hlen : digits.length < word32) : readNumber cmdline i (i + digits.length) =
      (Int32.ofInt (valueOf 10 digits), cmdline) := by
  have hstring : IsString (fun j => Function.update cmdline (i + digits.length) 0 (i + j)) digits := by
    intro j hj
    dsimp only
    rcases hj.lt_or_eq with hlt | rfl
    · rw [Function.update_of_ne (by omega), (isString_append.mp h).1 j hlt]
    · rw [Function.update_self, List.getD_eq_default _ _ le_rfl]
  have hnumber : NumberText 10 digits 1 digits 10 :=
    ⟨⟨[], [], [], rfl, by simp, .none, .given _ (by decide)⟩, hdigits.1,
      fun c hc => (isdigit_spec (hdigits.2 c hc)).1⟩
  have hread := strtol_eq (.inr (by decide)) hstring
    (fun c hc => (isdigit_spec (hdigits.2 c hc)).2.2.2) hlen hnumber fun h => absurd h.1 (by decide)
  unfold readNumber
  dsimp only
  rw [hread, one_mul, Function.update_idem, Function.update_eq_self]

end Loops

/-! ### Validation -/

section Validation
variable {cmdline : CString} {i : ℕ} {l disk part rest : List UInt8}

/-- What stands behind the letters of the drive. -/
structure NumbersText (l disk part rest : List UInt8) : Prop where
  split : l = disk ++ 'p'.toUInt8 :: (part ++ rest)
  disk : IsDecimal disk
  part : IsDecimal part
  rest : ∀ c ∈ rest.head?, isspace c = true

theorem IsDecimal.first (h : IsDecimal disk) (hrest : Rest cmdline i (disk ++ l)) :
    isdigit (cmdline i) = true := by
  obtain ⟨hne, hdigits⟩ := h
  cases disk with
  | nil => exact absurd rfl hne
  | cons c disk =>
    rw [hrest.head]
    exact hdigits c List.mem_cons_self

/-- The digits in front of a text are a decimal number if it begins with a digit. -/
theorem isDecimal_takeWhile (h : Rest cmdline i l) (hfirst : isdigit (cmdline i) = true) :
    IsDecimal (l.takeWhile isdigit) := by
  constructor
  · cases l with
    | nil =>
      rw [h.ends] at hfirst
      exact absurd hfirst (by decide)
    | cons c l =>
      rw [h.head] at hfirst
      rw [List.takeWhile_cons, if_pos hfirst]
      exact List.cons_ne_nil _ _
  · exact fun c hc => List.all_eq_true.mp (List.all_takeWhile (l := l)) c hc

/-- No digit stands behind the partition. -/
theorem isspace_not_isdigit {c : UInt8} (h : isspace c = true) : isdigit c = false := by
  by_contra hdigit
  rw [Bool.not_eq_false] at hdigit
  rw [(isdigit_spec hdigit).2.2.1] at h
  exact Bool.false_ne_true h

/-- Loops that go on over digits end behind the first number at `p`, and behind the second one. -/
theorem NumbersText.places {p q : UInt8 → Bool} (h : NumbersText l disk part rest)
    (hrest : Rest cmdline i l) (hl : NonZero l) (hlen : l.length < word32)
    (hp : ∀ c, isdigit c = true → p c = true) (hend : p 'p'.toUInt8 = false)
    (hq : ∀ c, isdigit c = true → q c = true) (hspace : ∀ c, isspace c = true → q c = false) :
    skipWhile p cmdline word32 i = i + disk.length ∧ cmdline (i + disk.length) = 'p'.toUInt8 ∧
      Rest cmdline (i + disk.length + 1) (part ++ rest) ∧
      skipWhile q cmdline word32 (i + disk.length + 1) = i + disk.length + 1 + part.length := by
  obtain ⟨rfl, hdisk, hpart, hbehind⟩ := h
  have hsecond := hrest.append.tail
  rw [List.length_append, List.length_cons] at hlen
  refine ⟨?_, hrest.append.head, hsecond, ?_⟩
  · refine skipWhile_front hrest hl (by rw [List.length_append, List.length_cons]; omega)
      (fun c hc => hp c (hdisk.2 c hc)) fun c hc => ?_
    rw [← Option.some.inj hc, hend]
  · refine skipWhile_front hsecond (fun c hc => hl c (by simp [hc])) (by omega)
      (fun c hc => hq c (hpart.2 c hc)) fun c hc => hspace c (hbehind c hc)

/-- Behind the letters of the drive the text is checked up to what follows the second number. -/
theorem validateNumbers_iff (h : Rest cmdline i l) (hl : NonZero l) (hlen : l.length < word32) :
    validateNumbers cmdline i = true ↔ ∃ disk part rest, NumbersText l disk part rest := by
  unfold validateNumbers
  dsimp only
  constructor
  · have hsplit := List.takeWhile_append_dropWhile (p := isdigit) (l := l)
    have hbehind : Rest cmdline (i + (l.takeWhile isdigit).length) (l.dropWhile isdigit) := by
      rw [← hsplit] at h
      exact h.append
    rw [skipWhile_eq h hl hlen]
    intro hvalid
    split_ifs at hvalid with hdigit hp hdigit' hend
    rw [not_not] at hp
    obtain ⟨l', hl'⟩ : ∃ l', l.dropWhile isdigit = 'p'.toUInt8 :: l' := by
      cases hdrop : l.dropWhile isdigit with
      | nil =>
        rw [hdrop] at hbehind
        exact absurd (hbehind.ends.symm.trans hp) (by decide)
      | cons c l' =>
        rw [hdrop] at hbehind
        exact ⟨l', by rw [← hbehind.head, hp]⟩
    rw [hl'] at hbehind hsplit
    have hsplit' := List.takeWhile_append_dropWhile (p := isdigit) (l := l')
    have hchars : NonZero l' := fun c hc => hl c (by rw [← hsplit]; simp [hc])
    have hshort : l'.length < word32 := by
      have hlength := congrArg List.length hsplit
      rw [List.length_append, List.length_cons] at hlength
      omega
    rw [skipWhile_eq hbehind.tail hchars hshort] at hend
    have hlast : Rest cmdline (i + (l.takeWhile isdigit).length + 1 + (l'.takeWhile isdigit).length)
        (l'.dropWhile isdigit) := by
      have htail := hbehind.tail
      rw [← hsplit'] at htail
      exact htail.append
    refine ⟨l.takeWhile isdigit, l'.takeWhile isdigit, l'.dropWhile isdigit, ?_, isDecimal_takeWhile h hdigit,
      isDecimal_takeWhile hbehind.tail hdigit', fun c hc => ?_⟩
    · rw [hsplit', hsplit]
    · have hhead : cmdline (i + (l.takeWhile isdigit).length + 1 + (l'.takeWhile isdigit).length) = c := by
        rw [hlast.headD, List.headD_eq_head?_getD, show (l'.dropWhile isdigit).head? = some c from hc]
        rfl
      have hc0 : c ≠ 0 := hchars c ((List.dropWhile_suffix isdigit).subset (List.mem_of_mem_head? hc))
      rw [hhead] at hend
      by_contra hspace
      exact hend ⟨hc0, hspace⟩
  · rintro ⟨disk, part, rest, hnumbers⟩
    obtain ⟨hfirst, hp, hsecond, hlast⟩ := hnumbers.places h hl hlen (p := isdigit) (q := isdigit)
      (fun _ hc => hc) rfl (fun _ hc => hc) fun _ hc => isspace_not_isdigit hc
    obtain ⟨rfl, hdisk, hpart, hrest⟩ := hnumbers
    rw [hfirst, hlast, hdisk.first h, hp, hpart.first hsecond, hsecond.append.headD]
    cases rest with
    | nil => rfl
    | cons c rest =>
      have hc : isspace c = true := hrest c rfl
      rw [if_neg (by decide), if_neg (by decide), if_neg (by decide), if_neg fun h => h.2 hc]

theorem letters_spec {letters : List UInt8} {drive : ℤ} (h : DriveText letters drive) :
    letters.length = 2 ∧ NonZero letters := by
  cases h with
  | fd => exact ⟨rfl, by decide⟩
  | hd => exact ⟨rfl, by decide⟩
  | cd => exact ⟨rfl, by decide⟩

/-- The letters of a drive are told from those of the others. -/
theorem startsWith_letters {letters letters' : List UInt8} {drive drive' : ℤ}
    (h : Rest cmdline i (letters ++ l)) (hl : NonZero (letters ++ l)) (hletters : DriveText letters drive)
    (hletters' : DriveText letters' drive') : startsWith cmdline i letters' ↔ letters' = letters := by
  obtain ⟨hlength, -⟩ := letters_spec hletters
  obtain ⟨hlength', hzero⟩ := letters_spec hletters'
  rw [startsWith_iff h hl hzero (List.ne_nil_of_length_pos (by omega))]
  constructor
  · rintro ⟨l', hl'⟩
    exact (List.append_inj hl' (hlength'.trans hlength.symm)).1
  · rintro rfl
    exact List.prefix_append _ _

/-- The place of the text behind `root=`, if there is one. -/
theorem strstr_root (h : IsString cmdline l) (hl : NonZero l) (hlen : l.length < word32) :
    (∃ before after, FirstAt root l before after ∧
        strstr cmdline (literal root) = some before.length ∧ Rest cmdline (before.length + 5) after ∧
        NonZero after ∧ after.length < word32) ∨
      (∀ before after, ¬ FirstAt root l before after) ∧ strstr cmdline (literal root) = none := by
  have hroot : NonZero root := by decide
  rcases strstrFrom_spec h.rest hl (literal_isString root) hroot (by decide) (by decide) hlen with
    ⟨before, after, hfirst, hresult⟩ | ⟨hnone, hresult⟩
  · rw [Nat.zero_add] at hresult
    have hrest := h.rest
    rw [hfirst.split] at hrest hl hlen
    have hbehind := hrest.append.append
    rw [Nat.zero_add] at hbehind
    refine .inl ⟨before, after, hfirst, hresult, hbehind, fun c hc => hl c (by simp [hc]), ?_⟩
    simp only [List.length_append] at hlen
    omega
  · exact .inr ⟨fun before after hfirst => hnone before after hfirst.split, hresult⟩

/-- The check succeeds for the texts of root devices. -/
theorem validateCmdlineRoot_iff (h : IsString cmdline l) (hl : NonZero l) (hlen : l.length < word32) :
    validateCmdlineRoot cmdline = true ↔ ∃ drive disk part, RootText l drive disk part := by
  unfold validateCmdlineRoot
  rcases strstr_root h hl hlen with ⟨before, after, hfirst, hstrstr, hafter, hchars, hshort⟩ | ⟨hnone, hstrstr⟩
  · rw [hstrstr]
    dsimp only
    have hnumbers : ∀ {letters t : List UInt8} {drive : ℤ}, DriveText letters drive → letters ++ t = after →
        (validateNumbers cmdline (before.length + 5 + 2) = true ↔
          ∃ disk part rest, NumbersText t disk part rest) := by
      rintro letters t drive hletters rfl
      have hrest := hafter.append
      rw [(letters_spec hletters).1] at hrest
      rw [List.length_append] at hshort
      exact validateNumbers_iff hrest (fun c hc => hchars c (by simp [hc])) (by omega)
    have hroot : ∀ {letters : List UInt8} {drive : ℤ}, DriveText letters drive →
        startsWith cmdline (before.length + 5) letters →
        validateNumbers cmdline (before.length + 5 + 2) = true →
        ∃ drive disk part, RootText l drive disk part := by
      intro letters drive hletters hstarts hvalid
      obtain ⟨hlength, hzero⟩ := letters_spec hletters
      obtain ⟨t, ht⟩ := (startsWith_iff hafter hchars hzero
        (List.ne_nil_of_length_pos (by omega))).mp hstarts
      obtain ⟨disk, part, rest, rfl, hdisk, hpart, hrest⟩ := (hnumbers hletters ht).mp hvalid
      exact ⟨drive, disk, part, ⟨before, letters, rest, ht ▸ hfirst, hletters, hrest⟩, hdisk, hpart⟩
    constructor
    · intro hvalid
      split_ifs at hvalid with hfd hhd hcd
      · exact hroot .fd hfd hvalid
      · exact hroot .hd hhd hvalid
      · exact hroot .cd hcd hvalid
    · rintro ⟨drive, disk, part, ⟨before', letters, rest, hfirst', hletters, hrest⟩, hdisk, hpart⟩
      obtain ⟨rfl, hsame⟩ := hfirst.unique hfirst'
      have hvalid := (hnumbers hletters hsame.symm).mpr ⟨disk, part, rest, rfl, hdisk, hpart, hrest⟩
      have hstarts : startsWith cmdline (before.length + 5) letters := by
        rw [hsame] at hafter hchars
        exact (startsWith_letters hafter hchars hletters hletters).mpr rfl
      cases hletters with
      | fd => rw [if_pos hstarts, hvalid]
      | hd =>
        rw [if_pos hstarts, hvalid]
        split_ifs <;> rfl
      | cd =>
        rw [if_pos hstarts, hvalid]
        split_ifs <;> rfl
  · rw [hstrstr]
    constructor
    · exact fun hfalse => absurd hfalse Bool.false_ne_true
    · rintro ⟨drive, disk, part, ⟨before, letters, rest, hfirst, -⟩, -⟩
      exact absurd hfirst (hnone _ _)

end Validation

/-! ### Parsing -/

section Parsing
variable {cmdline : CString} {l disk part : List UInt8} {drive : ℤ}

/-- The letters of a drive choose its first number. -/
theorem start_eq {letters : List UInt8} {i j : ℕ} {other : Int32 × ℕ} (h : Rest cmdline i (letters ++ l))
    (hl : NonZero (letters ++ l)) (hletters : DriveText letters drive) :
    (if startsWith cmdline i fd then ((0 : Int32), j)
      else if startsWith cmdline i hd then (0x80, j)
      else if startsWith cmdline i cd then (0xE0, j)
      else other) = (Int32.ofInt drive, j) := by
  have hfd := startsWith_letters h hl hletters .fd
  have hhd := startsWith_letters h hl hletters .hd
  have hcd := startsWith_letters h hl hletters .cd
  cases hletters with
  | fd =>
    rw [if_pos (hfd.mpr rfl)]
    rfl
  | hd =>
    rw [if_neg (fun hd => absurd (hfd.mp hd) (by decide)), if_pos (hhd.mpr rfl)]
    rfl
  | cd =>
    rw [if_neg (fun hd => absurd (hfd.mp hd) (by decide)),
      if_neg (fun hd => absurd (hhd.mp hd) (by decide)), if_pos (hcd.mpr rfl)]
    rfl

theorem IsDecimal.valueOf_nonneg (h : IsDecimal disk) : 0 ≤ valueOf 10 disk := by
  have hdigits : IsDigits 10 disk := fun c hc => (isdigit_spec (h.2 c hc)).1
  exact (hdigits.valueOf_lt (by decide)).1

theorem DriveText.nonneg {letters : List UInt8} (h : DriveText letters drive) : 0 ≤ drive := by
  cases h <;> decide

/-- The numbers of a root device are read, and the command line is as it was. -/
theorem parseCmdlineRoot_eq (h : IsString cmdline l) (hl : NonZero l) (hlen : l.length < word32)
    (hroot : RootText l drive disk part) (drive₀ partition₀ : Int32) :
    parseCmdlineRoot cmdline drive₀ partition₀ =
      some ⟨cmdline, Int32.ofInt (drive + valueOf 10 disk), Int32.ofInt (valueOf 10 part)⟩ := by
  have hvalid := (validateCmdlineRoot_iff h hl hlen).mpr ⟨drive, disk, part, hroot⟩
  obtain ⟨⟨before, letters, rest, hfirst, hletters, hspace⟩, hdisk, hpart⟩ := hroot
  obtain ⟨before', after, hfirst', hstrstr, hafter, hchars, hshort⟩ | ⟨hnone, -⟩ := strstr_root h hl hlen
  · obtain ⟨rfl, rfl⟩ := hfirst.unique hfirst'
    obtain ⟨hlength, -⟩ := letters_spec hletters
    have hnumbers : NumbersText (disk ++ 'p'.toUInt8 :: (part ++ rest)) disk part rest :=
      ⟨rfl, hdisk, hpart, hspace⟩
    have hrest := hafter.append
    rw [hlength] at hrest
    obtain ⟨hend, -, hsecond, hlast⟩ := hnumbers.places hrest (fun c hc => hchars c (by simp [hc]))
      (by rw [List.length_append] at hshort; omega) (p := (· ≠ 'p'.toUInt8)) (q := fun c => !isspace c)
      (fun c hc => decide_eq_true (isdigit_spec hc).2.1) rfl
      (fun c hc => by rw [(isdigit_spec hc).2.2.1]; rfl) fun c hc => by rw [hc]; rfl
    simp only [List.length_append, List.length_cons] at hshort
    unfold parseCmdlineRoot
    rw [if_pos hvalid, hstrstr]
    dsimp only
    rw [start_eq hafter hchars hletters]
    dsimp only
    rw [hend, readNumber_eq hrest hdisk (by omega)]
    dsimp only
    rw [hlast, readNumber_eq hsecond hpart (by omega), ofInt_add]
  · exact absurd hfirst (hnone _ _)

end Parsing

/-- `parse_cmdline_root` returns exactly for the texts of root devices, with the drive and the
partition, and leaves the command line as it was. -/
theorem parseCmdlineRoot_iff {cmdline : CString} {l : List UInt8} (h : IsString cmdline l)
    (hl : NonZero l) (hlen : l.length < word32) (drive₀ partition₀ : Int32) :
    ((parseCmdlineRoot cmdline drive₀ partition₀).isSome = true ↔
      ∃ drive disk part, RootText l drive disk part) ∧
    ∀ drive disk part, RootText l drive disk part →
      ∃ r, parseCmdlineRoot cmdline drive₀ partition₀ = some r ∧ r.cmdline = cmdline ∧
        (drive + valueOf 10 disk < 2 ^ 31 → r.drive.toInt = drive + valueOf 10 disk) ∧
        (valueOf 10 part < 2 ^ 31 → r.partition.toInt = valueOf 10 part) := by
  constructor
  · rw [← validateCmdlineRoot_iff h hl hlen]
    unfold parseCmdlineRoot
    split_ifs with hvalid
    · cases strstr cmdline (literal root) with
      | none => exact ⟨fun _ => hvalid, fun _ => rfl⟩
      | some i => exact ⟨fun _ => hvalid, fun _ => rfl⟩
    · exact ⟨fun hnone => absurd hnone Bool.false_ne_true, fun htrue => absurd htrue hvalid⟩
  · intro drive disk part hroot
    have hdisk := hroot.disk.valueOf_nonneg
    have hpart := hroot.part.valueOf_nonneg
    obtain ⟨-, letters, -, -, hletters, -⟩ := hroot.split
    have hdrive := hletters.nonneg
    refine ⟨_, parseCmdlineRoot_eq h hl hlen hroot drive₀ partition₀, rfl, fun hfits => ?_, fun hfits => ?_⟩
    · exact Int32.toInt_ofInt_of_le (by omega) hfits
    · exact Int32.toInt_ofInt_of_le (by omega) hfits

theorem parseCmdlineRoot_iff_hd : ∃ r, parseCmdlineRoot
      (fun i => [114, 111, 111, 116, 61, 104, 100, 49, 112, 50].getD i 0) 0 0 = some r ∧
    r.drive.toInt = 0x81 ∧ r.partition.toInt = 2 := by
  have hnonZero : ∀ c ∈ [(114 : UInt8), 111, 111, 116, 61, 104, 100, 49, 112, 50], c ≠ 0 := by simp
  have hroot : RootText [114, 111, 111, 116, 61, 104, 100, 49, 112, 50] 0x80 [49] [50] :=
    ⟨⟨[], hd, [], ⟨rfl, fun _ _ _ => Nat.zero_le _⟩, .hd, by simp⟩,
      ⟨by simp, List.forall_mem_singleton.mpr (by decide)⟩,
      ⟨by simp, List.forall_mem_singleton.mpr (by decide)⟩⟩
  obtain ⟨r, hr, -, hdrive, hpart⟩ :=
    (parseCmdlineRoot_iff (fun _ _ => rfl) hnonZero (by decide) 0 0).2 _ _ _ hroot
  exact ⟨r, hr, hdrive (by decide), hpart (by decide)⟩

end DosKernel.Boot
