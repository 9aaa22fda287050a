import DosKernel.Libc.Formats

/-! Strings in fields. In front of a string that is shorter than its field `vsprintf` puts the spaces
into its buffer, but it appends no more characters than the string has; and it never takes back the
flag `-`. -/

namespace DosKernel.Libc

open CString Vsprintf

/-- A part of a format with fields: a character, or a string with its width, at the left or at the
right of its field. -/
inductive FieldPiece
  | literal (c : UInt8) (hc : c ≠ 0 ∧ c ≠ '%'.toUInt8)
  | field (left : Bool) (digits : List (Fin 10)) (hwidth : widthFrom digits 0 < 1024)
      (memory : CString) (hlength : memory.strlen < 1024)

namespace FieldPiece

/-- How a part is spelled. -/
def format : FieldPiece → List UInt8
  | literal c _ => [c]
  | field left digits _ _ _ =>
    '%'.toUInt8 :: ((if left then ['-'.toUInt8] else []) ++ widthChars digits ++ ['s'.toUInt8])

def args : FieldPiece → List VaArg
  | literal _ _ => []
  | field _ _ _ memory _ => [.pointer memory]

/-- The string with spaces up to the width. -/
def output : FieldPiece → List UInt8
  | literal c _ => [c]
  | field left digits _ memory _ =>
    if left then memory.text ++ List.replicate (widthFrom digits 0 - memory.text.length) ' '.toUInt8
    else List.replicate (widthFrom digits 0 - memory.text.length) ' '.toUInt8 ++ memory.text

/-- The flag behind a part. -/
def leftBehind (leftAlign : Bool) : FieldPiece → Bool
  | literal _ _ => leftAlign
  | field left _ _ _ _ => left || leftAlign

/-- What `vsprintf` makes of a part. -/
def rendered (leftAlign : Bool) : FieldPiece → List UInt8
  | literal c _ => [c]
  | field left digits _ memory _ => fieldText (left || leftAlign) (widthFrom digits 0) memory.text

end FieldPiece

/-- What `vsprintf` makes of the parts. -/
def renderedFields : (leftAlign : Bool) → List FieldPiece → List UInt8
  | _, [] => []
  | leftAlign, p :: pieces => p.rendered leftAlign ++ renderedFields (p.leftBehind leftAlign) pieces

/-- Every string at the right of its field is as long as the field, or it has only spaces and a string
at the left came before it. -/
def FieldsFilled : (leftAlign : Bool) → List FieldPiece → Prop
  | _, [] => True
  | leftAlign, .literal _ _ :: pieces => FieldsFilled leftAlign pieces
  | leftAlign, .field left digits _ memory _ :: pieces =>
    (left = false → widthFrom digits 0 ≤ memory.strlen ∨
      leftAlign = true ∧ ∀ c ∈ memory.text, c = ' '.toUInt8) ∧
    FieldsFilled (left || leftAlign) pieces

/-- `vsprintf` leaves a text in the destination. -/
def Renders (float : FloatToAscii) (dest format : CString) (args : List VaArg) (text : List UInt8) :
    Prop :=
  ∃ fuel str ret, vsprintf float fuel dest format args = some (str, ret) ∧ Stored dest str text

/-! ### The loop -/

section Loop
variable (float : FloatToAscii) {format dest : CString} {text : List UInt8} {args : List VaArg}
  {s : Vsprintf} {i : ℕ}

/-- The digits of a width, behind `%` or behind a flag. -/
theorem flags_width (digits : List (Fin 10)) (hpadding : s.padding = false)
    (hprecision : s.precisionToggle = false) (hwidth : s.width = 0) :
    ∃ currMod padding paddingChar, Flags (widthChars digits) s { s with
      currMod := currMod
      padding := padding
      paddingChar := paddingChar
      width := widthFrom digits 0 } := by
  rw [← hwidth]
  by_cases hcurr : s.currMod = 0
  · cases digits with
    | nil => exact ⟨s.currMod, s.padding, s.paddingChar, .nil s⟩
    | cons d digits =>
      by_cases hd : d = 0
      · have hflags := flags_zeroDigits digits hpadding hcurr hprecision
        have hskip : widthFrom (d :: digits) s.width = widthFrom digits s.width := by
          rw [widthFrom, List.foldl_cons, hd, hwidth]
          rfl
        have hchars : widthChars (d :: digits) = '0'.toUInt8 :: widthChars digits := by
          rw [hd]
          rfl
        rw [hskip, hchars]
        exact ⟨_, _, _, hflags⟩
      · have hflag := flag_digit d hprecision fun h => absurd h hd
        have hspace : (if s.currMod = 0 then ' '.toUInt8 else s.currMod) ≠ 0 := by
          rw [if_pos hcurr]
          decide
        exact ⟨_, s.padding, s.paddingChar, .cons (digitChar_digit_ne_zero d) hflag
          (.inr (.inr hspace)) (flags_digits digits hprecision hspace)⟩
  · exact ⟨s.currMod, s.padding, s.paddingChar, flags_digits digits hprecision hcurr⟩

/-- What the loop does with a part of the format. -/
theorem field_reaches (p : FieldPiece) (h : Ready dest text (p.args ++ args) s)
    (hformat : ∀ j < p.format.length, format (i + j) = p.format.getD j 0)
    (hzero : dest (text ++ p.rendered s.leftAlign).length = 0) :
    ∃ t, Reaches float format i s (i + p.format.length) t ∧
      Ready dest (text ++ p.rendered s.leftAlign) args t ∧ t.leftAlign = p.leftBehind s.leftAlign := by
  cases p with
  | literal c hc =>
    have hchar : format i = c := hformat 0 (Nat.succ_pos 0)
    refine ⟨_, ⟨1, fun fuel => run_literal float (hchar ▸ hc.1) (hchar ▸ hc.2) h.not_begun⟩, ?_, rfl⟩
    rw [hchar]
    exact h.literal hzero
  | field left digits hwidth memory hlength =>
    cases left with
    | false =>
      obtain ⟨currMod, padding, paddingChar, hflags⟩ :=
        flags_width digits h.padding h.precisionToggle h.width
      have happended := string_appended float (s := { s with
        currMod := currMod
        padding := padding
        paddingChar := paddingChar
        width := widthFrom digits 0 }) h.precisionToggle h.args hlength h.stored h.str hwidth
      obtain ⟨t, hreaches, hready, hleft⟩ := h.conversion float hflags rfl hformat rfl rfl happended
      exact ⟨t, hreaches, hready, hleft⟩
    | true =>
      have hminus : s.flag '-'.toUInt8 = some { s with
          currMod := '-'.toUInt8
          leftAlign := true } := rfl
      obtain ⟨currMod, padding, paddingChar, hdigits⟩ := flags_width digits (s := { s with
        currMod := '-'.toUInt8
        leftAlign := true }) h.padding h.precisionToggle h.width
      have hflags : Flags ('-'.toUInt8 :: widthChars digits) s _ :=
        .cons (by decide) hminus (.inr (.inr (by decide : '-'.toUInt8 ≠ 0))) hdigits
      have happended := string_appended float (s := { s with
        leftAlign := true
        currMod := currMod
        padding := padding
        paddingChar := paddingChar
        width := widthFrom digits 0 }) h.precisionToggle h.args hlength h.stored h.str hwidth
      obtain ⟨t, hreaches, hready, hleft⟩ := h.conversion float hflags rfl hformat rfl rfl happended
      exact ⟨t, hreaches, hready, hleft⟩

theorem fields_reach (pieces : List FieldPiece) (h : Ready dest text (pieces.flatMap FieldPiece.args) s)
    (hformat : IsString (fun j => format (i + j)) (pieces.flatMap FieldPiece.format))
    (hzero : ∀ k ≤ (text ++ renderedFields s.leftAlign pieces).length, dest k = 0) :
    ∃ t, Reaches float format i s (i + (pieces.flatMap FieldPiece.format).length) t ∧
      Ready dest (text ++ renderedFields s.leftAlign pieces) [] t := by
  induction pieces generalizing i s text with
  | nil =>
    refine ⟨s, .refl, ?_⟩
    rw [renderedFields, List.append_nil]
    exact h
  | cons p pieces ih =>
    rw [List.flatMap_cons] at h hformat
    rw [renderedFields, ← List.append_assoc] at hzero
    obtain ⟨hfirst, hrest⟩ := isString_append.mp hformat
    obtain ⟨t, hreaches, hready, hleft⟩ := field_reaches float p h hfirst
      (hzero _ (List.prefix_append _ _).length_le)
    have hnext : IsString (fun j => format (i + p.format.length + j))
        (pieces.flatMap FieldPiece.format) := by
      simpa only [Nat.add_assoc] using hrest
    rw [← hleft] at hzero
    obtain ⟨t', hreaches', hready'⟩ := ih hready hnext hzero
    rw [hleft] at hready'
    refine ⟨t', ?_, ?_⟩
    · rw [List.flatMap_cons, List.length_append, ← Nat.add_assoc]
      exact hreaches.trans hreaches'
    · rwa [renderedFields, ← List.append_assoc]

end Loop

/-! ### Fields -/

section Fields
variable {α : Type} {l l' : List α} {a : α} {k : ℕ}

/-- A list goes round as many copies of an element as one likes only if it consists of them. -/
theorem append_replicate_comm (hk : 0 < k) :
    l ++ List.replicate k a = List.replicate k a ++ l ↔ ∀ c ∈ l, c = a := by
  obtain ⟨k, rfl⟩ := Nat.exists_eq_add_of_lt hk
  rw [Nat.zero_add]
  constructor
  · intro heq
    induction l with
    | nil => exact fun c hc => absurd hc List.not_mem_nil
    | cons b l ih =>
      rw [List.replicate_succ, List.cons_append, List.cons_append, List.cons.injEq] at heq
      obtain ⟨rfl, hrest⟩ := heq
      have hmove : List.replicate k b ++ b :: l = b :: List.replicate k b ++ l := by
        rw [← List.replicate_succ, List.replicate_succ', List.append_assoc]
        rfl
      rw [← List.replicate_succ, hmove, ← List.replicate_succ] at hrest
      exact List.forall_mem_cons.mpr ⟨rfl, ih hrest⟩
  · intro hall
    rw [List.eq_replicate_of_mem hall, List.replicate_append_replicate,
      List.replicate_append_replicate, Nat.add_comm]

/-- Of two texts whose parts are no longer in the first one than in the second one. -/
theorem append_eq_append_iff_of_le {m m' : List α} (h : l.length ≤ l'.length)
    (hm : m.length ≤ m'.length) : l ++ m = l' ++ m' ↔ l = l' ∧ m = m' := by
  constructor
  · intro heq
    have hlength := congrArg List.length heq
    rw [List.length_append, List.length_append] at hlength
    exact List.append_inj heq (by omega)
  · rintro ⟨rfl, rfl⟩
    rfl

/-- A part is never rendered longer than it should be. -/
theorem rendered_length_le (leftAlign : Bool) (p : FieldPiece) :
    (p.rendered leftAlign).length ≤ p.output.length := by
  cases p with
  | literal c hc => exact le_rfl
  | field left digits hwidth memory hlength =>
    have houtput : (FieldPiece.field left digits hwidth memory hlength).output.length =
        (widthFrom digits 0 - memory.text.length) + memory.text.length := by
      cases left <;> simp [FieldPiece.output, Nat.add_comm]
    rw [houtput, FieldPiece.rendered, fieldText]
    split_ifs
    · rw [List.length_append, List.length_replicate]
      omega
    · rw [List.length_take]
      omega
    · omega

theorem renderedFields_length_le (leftAlign : Bool) (pieces : List FieldPiece) :
    (renderedFields leftAlign pieces).length ≤ (pieces.flatMap FieldPiece.output).length := by
  induction pieces generalizing leftAlign with
  | nil => exact le_rfl
  | cons p pieces ih =>
    rw [renderedFields, List.flatMap_cons, List.length_append, List.length_append]
    exact Nat.add_le_add (rendered_length_le leftAlign p) (ih _)

theorem fieldText_eq_iff (left leftAlign : Bool) (width : ℕ) (l : List UInt8) :
    fieldText (left || leftAlign) width l =
        (if left then l ++ List.replicate (width - l.length) ' '.toUInt8
          else List.replicate (width - l.length) ' '.toUInt8 ++ l) ↔
      (left = false → width ≤ l.length ∨ leftAlign = true ∧ ∀ c ∈ l, c = ' '.toUInt8) := by
  unfold fieldText
  by_cases hlt : l.length < width
  · have hpos : 0 < width - l.length := by omega
    rw [if_pos hlt]
    cases left with
    | true => simp
    | false =>
      cases leftAlign with
      | true =>
        simp only [Bool.or_true, if_true, Bool.false_eq_true, if_false, true_and, forall_const,
          append_replicate_comm hpos]
        exact ⟨Or.inr, fun h => h.resolve_left (Nat.not_le.mpr hlt)⟩
      | false =>
        simp only [Bool.or_false, Bool.false_eq_true, if_false, false_and, or_false, forall_const]
        refine iff_of_false (fun heq => ?_) (Nat.not_le.mpr hlt)
        have hlength := congrArg List.length heq
        simp at hlength
        omega
  · have hle : width ≤ l.length := Nat.not_lt.mp hlt
    rw [if_neg hlt, Nat.sub_eq_zero_of_le hle]
    simp [hle]

theorem renderedFields_eq_iff (leftAlign : Bool) (pieces : List FieldPiece) :
    renderedFields leftAlign pieces = pieces.flatMap FieldPiece.output ↔
      FieldsFilled leftAlign pieces := by
  induction pieces generalizing leftAlign with
  | nil => exact iff_of_true rfl trivial
  | cons p pieces ih =>
    rw [renderedFields, List.flatMap_cons, append_eq_append_iff_of_le (rendered_length_le leftAlign p)
      (renderedFields_length_le _ pieces), ih]
    cases p with
    | literal c hc => exact and_iff_right rfl
    | field left digits hwidth memory hlength =>
      rw [FieldsFilled, ← text_length]
      exact and_congr_left' (fieldText_eq_iff left leftAlign _ _)

end Fields

/-! ### Formats -/

section Formats
variable {left leftAlign : Bool} {width : ℕ} {l : List UInt8}

theorem fieldText_nonZero (hl : NonZero l) : NonZero (fieldText leftAlign width l) := by
  unfold fieldText
  split_ifs
  · exact hl.append (replicate_space_nonZero _)
  · exact fun c hc => (replicate_space_nonZero _).append hl c (List.mem_of_mem_take hc)
  · exact hl

theorem renderedFields_nonZero (leftAlign : Bool) (pieces : List FieldPiece) :
    NonZero (renderedFields leftAlign pieces) := by
  induction pieces generalizing leftAlign with
  | nil => exact fun c hc => absurd hc List.not_mem_nil
  | cons p pieces ih =>
    refine NonZero.append ?_ (ih _)
    cases p with
    | literal c hc => exact List.forall_mem_singleton.mpr hc.1
    | field left digits hwidth memory hlength => exact fieldText_nonZero memory.text_nonZero

theorem piece_output_nonZero (p : FieldPiece) : NonZero p.output := by
  cases p with
  | literal c hc => exact List.forall_mem_singleton.mpr hc.1
  | field left digits hwidth memory hlength =>
    cases left with
    | false => exact (replicate_space_nonZero _).append memory.text_nonZero
    | true => exact memory.text_nonZero.append (replicate_space_nonZero _)

theorem output_nonZero (pieces : List FieldPiece) : NonZero (pieces.flatMap FieldPiece.output) := by
  intro b hb
  obtain ⟨p, -, hb⟩ := List.mem_flatMap.mp hb
  exact piece_output_nonZero p b hb

variable (float : FloatToAscii) (pieces : List FieldPiece) {format dest : CString} {size : ℕ}

/-- Of a format with fields `vsprintf` renders what its flags and lengths make of it, and nothing
else. -/
theorem renders_iff_eq (hformat : IsString format (pieces.flatMap FieldPiece.format))
    (hsize : (pieces.flatMap FieldPiece.output).length < size) (hzero : ∀ i < size, dest i = 0) :
    Renders float dest format (pieces.flatMap FieldPiece.args) (pieces.flatMap FieldPiece.output) ↔
      renderedFields false pieces = pieces.flatMap FieldPiece.output := by
  have hstart := ready_start (hzero 0 (by omega)) (pieces.flatMap FieldPiece.args)
  have hroom : ∀ k ≤ (renderedFields false pieces).length, dest k = 0 := fun k hk =>
    hzero k ((hk.trans (renderedFields_length_le false pieces)).trans_lt hsize)
  obtain ⟨t, hreaches, hready⟩ := fields_reach float pieces hstart (i := 0)
    (by simpa only [Nat.zero_add] using hformat) hroom
  rw [List.nil_append] at hready
  obtain ⟨fuel, hrun⟩ := hreaches.ends (by rw [Nat.zero_add]; exact hformat.end_eq)
  constructor
  · rintro ⟨fuel', str, ret, hvalue, hstored⟩
    obtain ⟨t', hrun', heq⟩ := Option.map_eq_some_iff.mp hvalue
    have hsame : t = t' := by
      have hlong := run_mono hrun fuel'
      rw [Nat.add_comm, run_mono hrun' fuel] at hlong
      exact (Option.some.inj hlong).symm
    obtain rfl : t'.dest = str := congrArg Prod.fst heq
    rw [← hsame] at hstored
    exact hready.stored.string.unique hstored.string (renderedFields_nonZero _ _) (output_nonZero _)
  · intro heq
    refine ⟨fuel, t.dest, t.ret, ?_, heq ▸ hready.stored⟩
    rw [vsprintf, hrun, Option.map_some]

/-- Strings in fields are rendered with their spaces exactly if every string at the right of its field
is as long as the field, or has only spaces and a string at the left came before it. -/
theorem renders_fields_iff (hformat : IsString format (pieces.flatMap FieldPiece.format))
    (hsize : (pieces.flatMap FieldPiece.output).length < size) (hzero : ∀ i < size, dest i = 0) :
    Renders float dest format (pieces.flatMap FieldPiece.args) (pieces.flatMap FieldPiece.output) ↔
      FieldsFilled false pieces :=
  (renders_iff_eq float pieces hformat hsize hzero).trans (renderedFields_eq_iff false pieces)

end Formats

theorem ab_text : CString.text (fun i => [97, 98].getD i 0) = [97, 98] := by
  have hnonZero : NonZero [97, 98] := by simp [NonZero]
  exact IsString.text_eq (fun _ _ => rfl) hnonZero (by decide)

theorem ab_strlen_lt : CString.strlen (fun i => [97, 98].getD i 0) < 1024 := by
  rw [← text_length, ab_text]
  decide

/-- `[%-5s]` with `ab`. -/
theorem renders_fields_iff_left : Renders ⟨fun _ buf _ => buf, fun _ buf _ => buf⟩ (fun _ => 0)
    (fun i => [91, 37, 45, 53, 115, 93].getD i 0) [.pointer fun i => [97, 98].getD i 0]
    [91, 97, 98, 32, 32, 32, 93] := by
  have houtput : List.flatMap FieldPiece.output [.literal 91 (by decide),
      .field true [5] (by decide) _ ab_strlen_lt, .literal 93 (by decide)] =
      [91, 97, 98, 32, 32, 32, 93] := by
    simp only [List.flatMap_cons, FieldPiece.output, ab_text]
    decide
  have hformat : IsString (fun i => [91, 37, 45, 53, 115, 93].getD i 0)
      (List.flatMap FieldPiece.format [.literal 91 (by decide),
        .field true [5] (by decide) _ ab_strlen_lt, .literal 93 (by decide)]) := fun _ _ => rfl
  have hzero : ∀ i < 8, (fun _ => 0 : CString) i = 0 := fun _ _ => rfl
  have hrenders := renders_fields_iff ⟨fun _ buf _ => buf, fun _ buf _ => buf⟩ _ hformat
    (by rw [houtput]; decide) hzero
  rw [houtput] at hrenders
  exact hrenders.mpr ⟨nofun, trivial⟩

/-- Of `[%5s]` with `ab` only two of the spaces come out. -/
theorem right_field_shortened : ¬ Renders ⟨fun _ buf _ => buf, fun _ buf _ => buf⟩ (fun _ => 0)
    (fun i => [91, 37, 53, 115, 93].getD i 0) [.pointer fun i => [97, 98].getD i 0]
    [91, 32, 32, 32, 97, 98, 93] := by
  have houtput : List.flatMap FieldPiece.output [.literal 91 (by decide),
      .field false [5] (by decide) _ ab_strlen_lt, .literal 93 (by decide)] =
      [91, 32, 32, 32, 97, 98, 93] := by
    simp only [List.flatMap_cons, FieldPiece.output, ab_text]
    decide
  have hrendered : renderedFields false [.literal 91 (by decide),
      .field false [5] (by decide) _ ab_strlen_lt, .literal 93 (by decide)] = [91, 32, 32, 93] := by
    simp only [renderedFields, FieldPiece.rendered, ab_text]
    decide
  have hformat : IsString (fun i => [91, 37, 53, 115, 93].getD i 0)
      (List.flatMap FieldPiece.format [.literal 91 (by decide),
        .field false [5] (by decide) _ ab_strlen_lt, .literal 93 (by decide)]) := fun _ _ => rfl
  have hzero : ∀ i < 8, (fun _ => 0 : CString) i = 0 := fun _ _ => rfl
  have hiff := renders_iff_eq ⟨fun _ buf _ => buf, fun _ buf _ => buf⟩ _ hformat
    (by rw [houtput]; decide) hzero
  rw [houtput, hrendered] at hiff
  exact fun hrenders => absurd (hiff.mp hrenders) (by decide)

end DosKernel.Libc
