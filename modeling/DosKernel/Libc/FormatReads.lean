import DosKernel.Lib.Accesses
import DosKernel.Libc.Printf

/-! The reads of `vsprintf` in the format. The pointer moves in front of the character that is looked at
next in a conversion, and once more behind the conversion; what the last character was does not matter. -/

namespace DosKernel.Libc

open CString Lib Access Vsprintf

/-! ### The code -/

/-- The loop of `vsprintf`, with the characters of the format that it reads. -/
def Vsprintf.runReads (float : FloatToAscii) (format : CString) :
    (fuel i : ℕ) → Vsprintf → Access Unit Vsprintf
  | 0, _, _ => diverge
  | fuel + 1, i, s => do
    let c ← touch () (format i) i 1
    if c = 0 then pure s
    else if s.Begun ∨ c = '%'.toUInt8 then do
      let c ← touch () (format (i + 1)) (i + 1) 1
      match flag c s with
      | some s => runReads float format fuel (i + 1) s
      | none => runReads float format fuel (i + 2) ((convert float c s).reset.count s.str)
    else runReads float format fuel (i + 1) ((s.putChar c).count s.str)

/-- `vsprintf`, with the characters of the format that it reads. -/
def vsprintfReads (float : FloatToAscii) (fuel : ℕ) (str format : CString) (args : List VaArg) :
    Access Unit Vsprintf :=
  runReads float format fuel 0 { dest := str, args := args }

/-- The reads aside, it is the same loop. -/
theorem runReads_value (float : FloatToAscii) (format : CString) (fuel i : ℕ) (s : Vsprintf) :
    (runReads float format fuel i s).value = run float format fuel i s := by
  induction fuel generalizing i s with
  | zero => rfl
  | succ fuel ih =>
    rw [runReads, run]
    change Access.value (if _ then _ else _) = _
    split_ifs with hend hbegun
    · rfl
    · change Access.value (match flag _ s with | some s => _ | none => _) = _
      cases flag (format (i + 1)) s with
      | some s' => exact ih _ _
      | none => exact ih _ _
    · exact ih _ _

/-! ### Conversions that end -/

/-- Where a format is read: between conversions, or in one, with what the characters `l` and `h` sum up
to and whether there was another flag. -/
inductive FormatState
  | between
  | inside (modifier : ℤ) (flagged : Bool)
  deriving DecidableEq

namespace FormatState

/-- A character behind which a conversion goes on, whatever was in front of it. -/
def IsFlag (c : UInt8) : Prop :=
  c = '-'.toUInt8 ∨ c = ' '.toUInt8 ∨ ('0'.toUInt8 ≤ c ∧ c ≤ '9'.toUInt8) ∨ c = '.'.toUInt8 ∨
    c = '*'.toUInt8

instance (c : UInt8) : Decidable (IsFlag c) := by
  unfold IsFlag
  infer_instance

/-- In a conversion, unless nothing is left of it. -/
def resume (modifier : ℤ) (flagged : Bool) : FormatState :=
  if modifier = 0 ∧ flagged = false then between else inside modifier flagged

def next : FormatState → UInt8 → FormatState
  | between, c => if c = '%'.toUInt8 then inside 0 false else between
  | inside modifier flagged, c =>
    if IsFlag c then inside modifier true
    else if c = 'l'.toUInt8 then resume (modifier + 1) flagged
    else if c = 'h'.toUInt8 then resume (modifier - 1) flagged
    else between

end FormatState

/-- Every conversion of the format has its last character. -/
def EndsBetween (l : List UInt8) : Prop := l.foldl FormatState.next .between = .between

instance (l : List UInt8) : Decidable (EndsBetween l) := by
  unfold EndsBetween
  infer_instance

/-- However long the loop runs, it reads the first `n` characters of the format only. -/
def ReadsWithin (float : FloatToAscii) (format : CString) (n i : ℕ) (s : Vsprintf) : Prop :=
  ∀ fuel, Inside (fun _ => n) (runReads float format fuel i s)

section Reads
variable {float : FloatToAscii} {format : CString} {n i : ℕ} {s : Vsprintf}

/-- The character at the pointer is read in any case. -/
theorem ReadsWithin.lt (h : ReadsWithin float format n i s) : i < n :=
  ((inside_touch_bind () _ i 1 _).mp (h 1)).1

theorem readsWithin_end (hend : format i = 0) : ReadsWithin float format n i s ↔ i < n := by
  refine ⟨ReadsWithin.lt, fun hlt fuel => ?_⟩
  cases fuel with
  | zero => exact inside_diverge
  | succ fuel =>
    rw [runReads, inside_touch_bind, if_pos hend]
    exact ⟨hlt, inside_pure _⟩

theorem readsWithin_step {i' : ℕ} {s' : Vsprintf} {p : Prop} (hstep : ∀ fuel,
    Inside (fun _ => n) (runReads float format (fuel + 1) i s) ↔
      p ∧ Inside (fun _ => n) (runReads float format fuel i' s')) :
    ReadsWithin float format n i s ↔ p ∧ ReadsWithin float format n i' s' := by
  constructor
  · exact fun h => ⟨((hstep 0).mp (h _)).1, fun fuel => ((hstep fuel).mp (h _)).2⟩
  · rintro ⟨hp, h⟩ fuel
    cases fuel with
    | zero => exact inside_diverge
    | succ fuel => exact (hstep fuel).mpr ⟨hp, h fuel⟩

/-- A character that is none of a conversion. -/
theorem readsWithin_literal (hi : format i ≠ 0) (hliteral : format i ≠ '%'.toUInt8) (hbegun : ¬ s.Begun) :
    ReadsWithin float format n i s ↔
      i < n ∧ ReadsWithin float format n (i + 1) ((s.putChar (format i)).count s.str) := by
  refine readsWithin_step fun fuel => ?_
  rw [runReads, inside_touch_bind, if_neg hi, if_neg (not_or.mpr ⟨hbegun, hliteral⟩)]
  rfl

/-- A character behind which the conversion goes on. -/
theorem readsWithin_flag {s' : Vsprintf} (hi : format i ≠ 0) (hbegun : s.Begun ∨ format i = '%'.toUInt8)
    (hflag : flag (format (i + 1)) s = some s') :
    ReadsWithin float format n i s ↔ i + 1 < n ∧ ReadsWithin float format n (i + 1) s' := by
  refine readsWithin_step fun fuel => ?_
  rw [runReads, inside_touch_bind, if_neg hi, if_pos hbegun, inside_touch_bind, hflag, ← and_assoc]
  exact and_congr_left' ⟨And.right, fun h => ⟨by omega, h⟩⟩

/-- The last character of a conversion. -/
theorem readsWithin_convert (hi : format i ≠ 0) (hbegun : s.Begun ∨ format i = '%'.toUInt8)
    (hflag : flag (format (i + 1)) s = none) :
    ReadsWithin float format n i s ↔ i + 1 < n ∧
      ReadsWithin float format n (i + 2) ((convert float (format (i + 1)) s).reset.count s.str) := by
  refine readsWithin_step fun fuel => ?_
  rw [runReads, inside_touch_bind, if_neg hi, if_pos hbegun, inside_touch_bind, hflag, ← and_assoc]
  exact and_congr_left' ⟨And.right, fun h => ⟨by omega, h⟩⟩

end Reads

/-! ### The states of the loop -/

/-- Between conversions, with the characters that are left. -/
structure Between (format : CString) (n i : ℕ) (l : List UInt8) (s : Vsprintf) : Prop where
  rest : Rest format i l
  length : n = i + l.length + 1
  modifier : s.modifier = 0
  currMod : s.currMod = 0
  padding : s.padding = false
  precisionToggle : s.precisionToggle = false

/-- In a conversion, with the characters that are left behind the one at the pointer. -/
structure Within (format : CString) (n i : ℕ) (l : List UInt8) (modifier : ℤ) (flagged : Bool)
    (s : Vsprintf) : Prop where
  rest : Rest format (i + 1) l
  length : n = i + 1 + l.length + 1
  current : format i ≠ 0
  begun : s.Begun ∨ format i = '%'.toUInt8
  modifier : s.modifier = modifier
  currMod : s.currMod ≠ 0 ↔ flagged = true
  padding : s.padding = true → s.currMod ≠ 0
  precisionToggle : s.precisionToggle = true → s.currMod ≠ 0

/-- The loop is in a state, with the characters that are left. -/
def FormatState.At (format : CString) (n i : ℕ) (l : List UInt8) (s : Vsprintf) : FormatState → Prop
  | between => Between format n i l s
  | inside modifier flagged => Within format n i l modifier flagged s

section States
variable {float : FloatToAscii} {format : CString} {n i : ℕ} {l : List UInt8} {c : UInt8} {s : Vsprintf}
  {modifier : ℤ} {flagged : Bool}

theorem Between.not_begun (h : Between format n i l s) : ¬ s.Begun :=
  Vsprintf.not_begun h.modifier h.currMod h.padding

theorem flag_of_isFlag (hc : FormatState.IsFlag c)
    (hprecision : s.precisionToggle = true → s.currMod ≠ 0) :
    ∃ s', flag c s = some s' ∧ s'.modifier = s.modifier ∧ s'.currMod ≠ 0 := by
  have hne : c ≠ 0 := by
    rintro rfl
    exact absurd hc (by decide)
  unfold flag
  split_ifs with hminus hspace hzero hdigit htoggle hcurr hdot hstar hl hh
  · exact ⟨_, rfl, rfl, hne⟩
  · exact ⟨_, rfl, rfl, hne⟩
  · exact ⟨_, rfl, rfl, hne⟩
  · exact ⟨_, rfl, rfl, hprecision htoggle⟩
  · exact ⟨_, rfl, rfl, show ' '.toUInt8 ≠ 0 by decide⟩
  · exact ⟨_, rfl, rfl, hcurr⟩
  · exact ⟨_, rfl, rfl, hne⟩
  · exact ⟨_, rfl, rfl, hne⟩
  · exact absurd hc (by subst hl; decide)
  · exact absurd hc (by subst hh; decide)
  · rcases hc with h | h | h | h | h
    · exact absurd h hminus
    · exact absurd h hspace
    · exact absurd h hdigit
    · exact absurd h hdot
    · exact absurd h hstar

theorem flag_of_last (hc : ¬ FormatState.IsFlag c) (hl : c ≠ 'l'.toUInt8) (hh : c ≠ 'h'.toUInt8) :
    flag c s = none := by
  obtain ⟨hminus, hspace, hdigit, hdot, hstar⟩ :
      c ≠ '-'.toUInt8 ∧ c ≠ ' '.toUInt8 ∧ ¬ ('0'.toUInt8 ≤ c ∧ c ≤ '9'.toUInt8) ∧ c ≠ '.'.toUInt8 ∧
        c ≠ '*'.toUInt8 := by
    simpa only [FormatState.IsFlag, not_or] using hc
  have hzero : c ≠ '0'.toUInt8 := by
    rintro rfl
    exact hdigit (by decide)
  rw [flag, if_neg hminus, if_neg hspace, if_neg fun h => hzero h.1, if_neg hdigit, if_neg hdot,
    if_neg hstar, if_neg hl, if_neg hh]

theorem Between.ends (h : Between format n i [] s) : ReadsWithin float format n i s := by
  rw [readsWithin_end h.rest.ends, h.length]
  exact Nat.lt_succ_self i

/-- At the end of the format, in a conversion: the 0 is taken for its last character. -/
theorem Within.runs_over (h : Within format n i [] modifier flagged s) :
    ¬ ReadsWithin float format n i s := by
  have hflag : flag (format (i + 1)) s = none := by
    rw [h.rest.ends]
    exact flag_of_last (by decide) (by decide) (by decide)
  rw [readsWithin_convert h.current h.begun hflag, h.length]
  exact fun hreads => absurd hreads.2.lt (lt_irrefl _)

/-- A character between conversions that begins none. -/
theorem Between.literal (float : FloatToAscii) (h : Between format n i (c :: l) s) (hc : c ≠ '%'.toUInt8)
    (hzero : c ≠ 0) :
    ∃ s', Between format n (i + 1) l s' ∧
      (ReadsWithin float format n i s ↔ ReadsWithin float format n (i + 1) s') := by
  have hchar := h.rest.head
  have hlength := h.length
  rw [List.length_cons] at hlength
  refine ⟨_, ?_, (readsWithin_literal (hchar ▸ hzero) (hchar ▸ hc) h.not_begun).trans
    (and_iff_right (by omega))⟩
  exact ⟨h.rest.tail, by omega, h.modifier, h.currMod, h.padding, h.precisionToggle⟩

theorem Between.percent (h : Between format n i ('%'.toUInt8 :: l) s) :
    Within format n i l 0 false s where
  rest := h.rest.tail
  length := by
    rw [h.length, List.length_cons]
    omega
  current := by
    rw [h.rest.head]
    decide
  begun := .inr h.rest.head
  modifier := h.modifier
  currMod := iff_of_false (not_not_intro h.currMod) (by decide)
  padding hpadding := absurd (h.padding.symm.trans hpadding) (by decide)
  precisionToggle htoggle := absurd (h.precisionToggle.symm.trans htoggle) (by decide)

/-- A character in a conversion behind which it goes on. -/
theorem Within.goes_on (h : Within format n i (c :: l) modifier flagged s) {s' : Vsprintf}
    (hflag : flag c s = some s') :
    ReadsWithin float format n i s ↔ ReadsWithin float format n (i + 1) s' := by
  have hlength := h.length
  rw [List.length_cons] at hlength
  exact (readsWithin_flag h.current h.begun (h.rest.head ▸ hflag)).trans (and_iff_right (by omega))

theorem Within.last (float : FloatToAscii) (h : Within format n i (c :: l) modifier flagged s)
    (hflag : flag c s = none) :
    ∃ s', Between format n (i + 2) l s' ∧
      (ReadsWithin float format n i s ↔ ReadsWithin float format n (i + 2) s') := by
  have hlength := h.length
  rw [List.length_cons] at hlength
  refine ⟨_, ?_, (readsWithin_convert h.current h.begun (h.rest.head ▸ hflag)).trans
    (and_iff_right (by omega))⟩
  exact ⟨h.rest.tail, by omega, rfl, rfl, rfl, rfl⟩

/-- `l` or `h` in a conversion. Where nothing is left of it, the character is copied. -/
theorem Within.resume (h : Within format n i (c :: l) modifier flagged s) (hc : c ≠ '%'.toUInt8)
    (hzero : c ≠ 0) {k : ℤ} (hflag : flag c s = some { s with modifier := k }) :
    ∃ i' s', (FormatState.resume k flagged).At format n i' l s' ∧
      (ReadsWithin float format n i s ↔ ReadsWithin float format n i' s') := by
  have hlength := h.length
  rw [List.length_cons] at hlength
  rw [h.goes_on hflag]
  unfold FormatState.resume
  split_ifs with hleft
  · obtain ⟨hk, hflagged⟩ := hleft
    have hcurr : s.currMod = 0 := by
      by_contra hne
      rw [h.currMod.mp hne] at hflagged
      exact nomatch hflagged
    have hbetween : Between format n (i + 1) (c :: l) { s with modifier := k } :=
      ⟨h.rest, by rw [List.length_cons]; omega, hk, hcurr,
        Bool.eq_false_iff.mpr fun hpadding => h.padding hpadding hcurr,
        Bool.eq_false_iff.mpr fun htoggle => h.precisionToggle htoggle hcurr⟩
    obtain ⟨s', hs', hreads⟩ := hbetween.literal float hc hzero
    exact ⟨_, s', hs', hreads⟩
  · refine ⟨i + 1, { s with modifier := k }, ⟨h.rest.tail, by omega, h.rest.head ▸ hzero, .inl ?_, rfl, h.currMod, h.padding,
      h.precisionToggle⟩, Iff.rfl⟩
    by_contra hnot
    refine hleft ⟨?_, ?_⟩
    · by_contra hk
      exact hnot (.inl hk)
    · rw [Bool.eq_false_iff]
      exact fun hflagged => hnot (.inr (.inr (h.currMod.mpr hflagged)))

theorem FormatState.At.step (float : FloatToAscii) {state : FormatState}
    (h : state.At format n i (c :: l) s) (hzero : c ≠ 0) :
    ∃ i' s', (state.next c).At format n i' l s' ∧
      (ReadsWithin float format n i s ↔ ReadsWithin float format n i' s') := by
  cases state with
  | between =>
    unfold FormatState.next
    dsimp only
    split_ifs with hc
    · subst hc
      exact ⟨i, s, Between.percent h, Iff.rfl⟩
    · obtain ⟨s', hs', hreads⟩ := Between.literal float h hc hzero
      exact ⟨_, s', hs', hreads⟩
  | inside modifier flagged =>
    change Within format n i (c :: l) modifier flagged s at h
    unfold FormatState.next
    dsimp only
    split_ifs with hc hl hh
    · obtain ⟨s', hflag, hmodifier, hcurr⟩ := flag_of_isFlag hc h.precisionToggle
      have hlength := h.length
      rw [List.length_cons] at hlength
      refine ⟨i + 1, s', ⟨h.rest.tail, by omega, h.rest.head ▸ hzero, .inl (.inr (.inr hcurr)),
        hmodifier.trans h.modifier, iff_of_true hcurr rfl, fun _ => hcurr, fun _ => hcurr⟩, ?_⟩
      exact h.goes_on hflag
    · subst hl
      exact h.resume (by decide) hzero (h.modifier ▸ flag_l s)
    · subst hh
      exact h.resume (by decide) hzero (h.modifier ▸ flag_h s)
    · obtain ⟨s', hs', hreads⟩ := h.last float (flag_of_last hc hl hh)
      exact ⟨_, s', hs', hreads⟩

theorem FormatState.At.reads {state : FormatState} (h : state.At format n i l s) (hl : NonZero l) :
    ReadsWithin float format n i s ↔ l.foldl FormatState.next state = .between := by
  induction l generalizing state i s with
  | nil =>
    cases state with
    | between => exact iff_of_true (Between.ends h) rfl
    | inside modifier flagged => exact iff_of_false (Within.runs_over h) (by simp)
  | cons c l ih =>
    obtain ⟨i', s', hs', hreads⟩ := h.step float (hl c List.mem_cons_self)
    rw [hreads, List.foldl_cons]
    exact ih hs' fun b hb => hl b (List.mem_cons_of_mem _ hb)

end States

/-- `vsprintf` reads nothing behind the 0 of the format exactly if every conversion in the format has its
last character. -/
theorem format_reads_inside_iff (float : FloatToAscii) (str : CString) (args : List VaArg)
    {format : CString} {l : List UInt8} (h : IsString format l) (hl : NonZero l) :
    (∀ fuel, Inside (fun _ => l.length + 1) (vsprintfReads float fuel str format args)) ↔
      EndsBetween l := by
  have hstart : FormatState.between.At format (l.length + 1) 0 l { dest := str, args := args } :=
    ⟨h.rest, by rw [Nat.zero_add], rfl, rfl, rfl, rfl⟩
  exact hstart.reads hl

theorem format_reads_inside_iff_long :
    (∀ fuel, Inside (fun _ => 4) (vsprintfReads ⟨fun _ buf _ => buf, fun _ buf _ => buf⟩ fuel
      (fun _ => 0) (fun i => [37, 108, 100].getD i 0) [.word 7])) ↔ EndsBetween [37, 108, 100] :=
  format_reads_inside_iff ⟨fun _ buf _ => buf, fun _ buf _ => buf⟩ (fun _ => 0) [.word 7]
    (fun _ _ => rfl) (by simp [NonZero])

theorem format_read_behind_percent :
    ¬ ∀ fuel, Inside (fun _ => 2) (vsprintfReads ⟨fun _ buf _ => buf, fun _ buf _ => buf⟩ fuel
      (fun _ => 0) (fun i => [37].getD i 0) []) := by
  intro h
  have hbehind := h 2 ((), 2, 1) (by decide)
  exact absurd hbehind (by decide)

end DosKernel.Libc
