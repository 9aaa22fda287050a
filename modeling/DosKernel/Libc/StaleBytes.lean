import DosKernel.Libc.Formats

/-! What `sprintf` makes of bytes that stand in its destination. Characters are stored at the pointer and
leave the byte behind them as it is; texts are put behind the string that the destination holds from the
pointer on, and the pointer moves by the length of the text all the same. -/

namespace DosKernel.Libc

open CString Vsprintf

/-! ### Stores and texts -/

/-- What a part of a format does to the destination: a character is stored at the pointer, a text is put
behind the string from there on. -/
inductive Effect
  | put (c : UInt8)
  | append (t : List UInt8)

namespace Effect

/-- How far the pointer moves. -/
def length : Effect → ℕ
  | put _ => 1
  | append t => t.length

/-- The destination behind it, for a pointer `p`. -/
def store : Effect → CString → ℕ → CString
  | put c, d, p => Function.update d p c
  | append t, d, p =>
    d.within p fun d => d.within d.strlen fun d i => if i ≤ t.length then t.getD i 0 else d i

def storeAll : List Effect → CString → ℕ → CString
  | [], d, _ => d
  | e :: effects, d, p => storeAll effects (e.store d p) (p + e.length)

/-- A 0 is stored in front of every text that has characters. -/
def Ended : List Effect → Prop
  | [] => False
  | put c :: effects => c = 0 ∨ Ended effects
  | append t :: effects => t = [] ∧ Ended effects

section Effects
variable {e : Effect} {effects : List Effect} {d : CString} {p i : ℕ} {t : List UInt8}

/-- Nothing in front of the pointer is changed. -/
theorem store_before (hi : i < p) : e.store d p i = d i := by
  cases e with
  | put c => exact Function.update_of_ne hi.ne _ _
  | append t =>
    rw [store]
    exact within_lt _ hi

theorem storeAll_before (hi : i < p) : storeAll effects d p i = d i := by
  induction effects generalizing d p with
  | nil => rfl
  | cons e effects ih => rw [storeAll, ih (by omega), store_before hi]

/-- At the end of a string, the text is stored at the pointer. -/
theorem append_of_end (hend : d p = 0) (hi : i ≤ t.length) : (append t).store d p (p + i) = t.getD i 0 := by
  have hlen : CString.strlen (fun j => d (p + j)) = 0 := strlen_zero (by simpa using hend)
  have hadd := within_add (fun j => d (p + j)) 0 (fun d i => if i ≤ t.length then t.getD i 0 else d i) i
  rw [Nat.zero_add] at hadd
  rw [store, within_add, hlen, hadd, if_pos hi]

/-- In front of the end of a string, the byte at the pointer stays. -/
theorem append_of_ne_zero (hne : d p ≠ 0) : (append t).store d p p = d p := by
  have hlen : 1 ≤ CString.strlen fun j => d (p + j) := by
    refine strlen_ge (by decide) fun j hj => ?_
    rwa [Nat.lt_one_iff.mp hj, Nat.add_zero]
  have hadd := within_add d p (fun d => d.within d.strlen fun d i => if i ≤ t.length then t.getD i 0 else d i) 0
  rw [Nat.add_zero] at hadd
  rw [store, hadd, within_lt _ hlen, Nat.add_zero]

/-- A text without characters changes nothing. -/
theorem append_nil (hlen : CString.strlen (fun j => d (p + j)) < word32) : (append []).store d p = d := by
  funext i
  rcases Nat.lt_or_ge i p with hlt | hge
  · rw [store]
    exact within_lt _ hlt
  · obtain ⟨j, rfl⟩ := Nat.exists_eq_add_of_le hge
    have hend := strlen_end hlen
    rw [store, within_add]
    generalize CString.strlen (fun j => d (p + j)) = k at hend ⊢
    rcases Nat.lt_or_ge j k with hlt | hge
    · rw [within_lt _ hlt]
    · obtain ⟨n, rfl⟩ := Nat.exists_eq_add_of_le hge
      rw [within_add]
      split_ifs with hn
      · obtain rfl := Nat.le_zero.mp hn
        exact hend.symm
      · rfl

theorem storeAll_put (c : UInt8) (effects : List Effect) (d : CString) (p : ℕ) :
    storeAll (put c :: effects) d p p = c := by
  have hlt : p < p + (put c).length := Nat.lt_succ_self p
  rw [storeAll, storeAll_before hlt, store, Function.update_self]

theorem storeAll_append (c : UInt8) (t : List UInt8) (effects : List Effect) (d : CString) (p : ℕ) :
    storeAll (append (c :: t) :: effects) d p p = (append (c :: t)).store d p p := by
  have hlt : p < p + (append (c :: t)).length := Nat.lt_add_of_pos_right (Nat.succ_pos t.length)
  rw [storeAll, storeAll_before hlt]

/-- Up to a 0 that is stored, nothing depends on what the destination held. -/
theorem Ended.storeAll (h : Ended effects) :
    ∃ l, NonZero l ∧ ∀ d p, Rest (storeAll effects d p) p l := by
  induction effects with
  | nil => exact h.elim
  | cons e effects ih =>
    cases e with
    | put c =>
      by_cases hc : c = 0
      · subst hc
        refine ⟨[], by simp [NonZero], fun d p j hj => ?_⟩
        rw [Nat.le_zero.mp hj]
        exact storeAll_put 0 effects d p
      · obtain ⟨l, hl, hrest⟩ := ih (h.resolve_left hc)
        refine ⟨c :: l, List.forall_mem_cons.mpr ⟨hc, hl⟩, fun d p j hj => ?_⟩
        cases j with
        | zero => exact storeAll_put c effects d p
        | succ j =>
          have hnext := hrest ((put c).store d p) (p + 1) j (Nat.le_of_succ_le_succ hj)
          dsimp only at hnext ⊢
          rw [List.getD_cons_succ, ← hnext, Nat.add_right_comm, Nat.add_assoc]
          rfl
    | append t =>
      obtain ⟨rfl, hrest⟩ := h
      obtain ⟨l, hl, hrest⟩ := ih hrest
      exact ⟨l, hl, fun d p => hrest _ _⟩

/-- Otherwise a byte `b` that stands behind zeros stays there, in front of it no 0 is stored, and without
it another byte comes to its place. -/
theorem stays_of_not_ended (h : ¬ Ended effects) : ∃ k b, b ≠ 0 ∧ ∀ d p, (∀ j, j ≠ k → d (p + j) = 0) →
    (∀ j < k, storeAll effects d p (p + j) ≠ 0) ∧
    (d (p + k) = 0 → storeAll effects d p (p + k) ≠ b) ∧
    (d (p + k) = b → storeAll effects d p (p + k) = b) := by
  induction effects with
  | nil =>
    refine ⟨0, 1, by decide, fun d p _ => ⟨fun j hj => absurd hj (Nat.not_lt_zero j), ?_, id⟩⟩
    intro hzero
    rw [storeAll, hzero]
    decide
  | cons e effects ih =>
    cases e with
    | put c =>
      obtain ⟨hc, hrest⟩ := not_or.mp h
      obtain ⟨k, b, hb, hstays⟩ := ih hrest
      refine ⟨k + 1, b, hb, fun d p hzero => ?_⟩
      have hplace : ∀ j, (put c).store d p (p + 1 + j) = d (p + (j + 1)) := by
        intro j
        rw [store, Function.update_of_ne (by omega), Nat.add_right_comm, Nat.add_assoc]
      obtain ⟨hfront, hother, hsame⟩ := hstays ((put c).store d p) (p + 1) fun j hj => by
        rw [hplace]
        exact hzero _ (by omega)
      rw [hplace] at hother hsame
      have hnext : p + 1 + k = p + (k + 1) := by omega
      rw [hnext] at hother hsame
      refine ⟨fun j hj => ?_, hother, hsame⟩
      cases j with
      | zero =>
        rw [Nat.add_zero, storeAll_put]
        exact hc
      | succ j =>
        have hchar := hfront j (Nat.lt_of_succ_lt_succ hj)
        rwa [Nat.add_right_comm, Nat.add_assoc] at hchar
    | append t =>
      cases t with
      | nil =>
        obtain ⟨k, b, hb, hstays⟩ := ih fun hrest => h ⟨rfl, hrest⟩
        refine ⟨k, b, hb, fun d p hzero => ?_⟩
        have hlen : CString.strlen (fun j => d (p + j)) < word32 := by
          obtain ⟨n, hn, hne⟩ : ∃ n < 2, n ≠ k := ⟨if k = 0 then 1 else 0, by split_ifs <;> omega⟩
          have hword : word32 = 4294967296 := rfl
          have hle : CString.strlen (fun j => d (p + j)) ≤ n :=
            strlenFrom_le (hzero n hne) (Nat.zero_le n) (by omega)
          omega
        rw [storeAll, append_nil hlen]
        exact hstays d p hzero
      | cons c t =>
        obtain ⟨b, hb, hne⟩ : ∃ b : UInt8, b ≠ 0 ∧ c ≠ b := by
          by_cases hc : c = 1
          · exact ⟨2, by decide, by rw [hc]; decide⟩
          · exact ⟨1, by decide, hc⟩
        refine ⟨0, b, hb, fun d p _ => ⟨fun j hj => absurd hj (Nat.not_lt_zero j), fun hzero => ?_,
          fun hsame => ?_⟩⟩
        · have hfirst : (append (c :: t)).store d p p = c := append_of_end hzero (Nat.zero_le _)
          rw [Nat.add_zero, storeAll_append, hfirst]
          exact hne
        · rw [Nat.add_zero] at hsame ⊢
          rw [storeAll_append, append_of_ne_zero (by rwa [hsame]), hsame]

/-- The destination holds the same string in any case exactly if a 0 is stored in front of every text. -/
theorem storeAll_same_iff : (∀ d d' : CString, ∃ l, NonZero l ∧ IsString (storeAll effects d 0) l ∧
    IsString (storeAll effects d' 0) l) ↔ Ended effects := by
  constructor
  · intro hsame
    by_contra h
    obtain ⟨k, b, hb, hstays⟩ := stays_of_not_ended h
    obtain ⟨l, hl, hstring, hstring'⟩ := hsame (fun _ => 0) fun i => if i = k then b else 0
    obtain ⟨hfront, hother, -⟩ := hstays (fun _ => 0) 0 fun j _ => rfl
    obtain ⟨-, -, hstale⟩ := hstays (fun i => if i = k then b else 0) 0 fun j hj => by
      rw [Nat.zero_add, if_neg hj]
    rw [Nat.zero_add] at hother hstale
    have hle : k ≤ l.length := by
      by_contra hlt
      have hchar := hfront _ (Nat.lt_of_not_le hlt)
      rw [Nat.zero_add] at hchar
      exact hchar hstring.end_eq
    exact hother rfl ((hstring k hle).trans ((hstring' k hle).symm.trans (hstale (if_pos rfl))))
  · intro h d d'
    obtain ⟨l, hl, hrest⟩ := h.storeAll
    have hstring : ∀ d, IsString (storeAll effects d 0) l := by
      intro d i hi
      have hchar := hrest d 0 i hi
      dsimp only at hchar
      rwa [Nat.zero_add] at hchar
    exact ⟨l, hl, hstring d, hstring d'⟩

end Effects

end Effect

/-! ### The parts of a format -/

/-- A part of a format without flags, with its argument. -/
inductive PlainPiece
  | literal (c : UInt8) (hc : c ≠ 0 ∧ c ≠ '%'.toUInt8)
  | char (value : UInt32)
  | string (memory : CString) (hlength : memory.strlen < word32)
  | signed (value : UInt32)
  | unsigned (number : UnsignedFormat) (value : UInt32)

namespace PlainPiece

/-- How a part is spelled. -/
def format : PlainPiece → List UInt8
  | literal c _ => [c]
  | char _ => ['%'.toUInt8, 'c'.toUInt8]
  | string _ _ => ['%'.toUInt8, 's'.toUInt8]
  | signed _ => ['%'.toUInt8, 'd'.toUInt8]
  | unsigned number _ => ['%'.toUInt8, number.char]

def args : PlainPiece → List VaArg
  | literal _ _ => []
  | char value => [.word value]
  | string memory _ => [.pointer memory]
  | signed value => [.word value]
  | unsigned _ value => [.word value]

/-- A character is stored, a string or a number is put behind the string that is there. -/
def effect : PlainPiece → Effect
  | literal c _ => .put c
  | char value => .put value.toUInt8
  | string memory _ => .append memory.text
  | signed value => .append (signedNumeral value.toInt32.toInt)
  | unsigned number value => .append (numeral number.base value.toNat)

end PlainPiece

/-- A `%c` stores a 0, and in front of it are only literal characters, other `%c`s and empty strings. -/
def EndsEarly : List PlainPiece → Prop
  | [] => False
  | .literal _ _ :: pieces => EndsEarly pieces
  | .char value :: pieces => value.toUInt8 = 0 ∨ EndsEarly pieces
  | .string memory _ :: pieces => memory.strlen = 0 ∧ EndsEarly pieces
  | .signed _ :: _ => False
  | .unsigned _ _ :: _ => False

theorem numeral_ne_nil {base : ℕ} (hbase : 2 ≤ base) (n : ℕ) : numeral base n ≠ [] := by
  rw [← List.length_pos_iff, numeral, List.length_reverse]
  exact digitChars_length_pos hbase n

theorem signedNumeral_ne_nil (value : ℤ) : signedNumeral value ≠ [] := by
  unfold signedNumeral
  split_ifs
  · exact List.cons_ne_nil _ _
  · exact numeral_ne_nil (by decide) _

theorem ended_iff_endsEarly (pieces : List PlainPiece) :
    Effect.Ended (pieces.map PlainPiece.effect) ↔ EndsEarly pieces := by
  induction pieces with
  | nil => exact Iff.rfl
  | cons piece pieces ih =>
    cases piece with
    | literal c hc => exact (or_iff_right hc.1).trans ih
    | char value => exact or_congr_right ih
    | string memory hlength =>
      refine and_congr ?_ ih
      rw [← List.length_eq_zero_iff, text_length]
    | signed value => exact iff_of_false (fun h => signedNumeral_ne_nil _ h.1) id
    | unsigned number value =>
      exact iff_of_false (fun h => numeral_ne_nil number.base_bounds.2.2.1 _ h.1) id

/-! ### The loop -/

/-- The state between two conversions, with the arguments to come. -/
structure Idle (args : List VaArg) (s : Vsprintf) : Prop where
  modifier : s.modifier = 0
  currMod : s.currMod = 0
  padding : s.padding = false
  width : s.width = 0
  precisionToggle : s.precisionToggle = false
  args : s.args = args

section Loop
variable (float : FloatToAscii) {format : CString} {args : List VaArg} {s : Vsprintf} {i : ℕ}
  {t : List UInt8}

theorem Idle.not_begun (h : Idle args s) : ¬ s.Begun :=
  Vsprintf.not_begun h.modifier h.currMod h.padding

theorem append_store (hbuf : IsString s.buf t) (ht : NonZero t) (hlen : t.length < word32) :
    (s.append t.length).dest = (Effect.append t).store s.dest s.str := by
  have hcopy : ∀ d : CString, d.strncpy s.buf t.length =
      fun i => if i ≤ t.length then t.getD i 0 else d i := by
    intro d
    funext i
    rw [strncpy, hbuf.strlen_eq ht hlen]
    rcases Nat.lt_trichotomy i t.length with hlt | rfl | hgt
    · rw [if_pos hlt, if_pos hlt, if_pos hlt.le, hbuf i hlt.le]
    · rw [if_neg (lt_irrefl _), if_pos rfl, if_pos le_rfl, List.getD_eq_default _ _ le_rfl]
    · rw [if_neg (by omega), if_neg (by omega), if_neg (by omega)]
  simp only [Vsprintf.append, strncat, hcopy, Effect.store]

/-- The destination and the pointer behind a part. -/
structure Done (e : Effect) (args : List VaArg) (s t : Vsprintf) : Prop where
  dest : t.dest = e.store s.dest s.str
  str : t.str = s.str + e.length
  args : t.args = args

theorem conversion_reaches {c : UInt8} (hflag : flag c s = none)
    (hformat : ∀ j < 2, format (i + j) = ['%'.toUInt8, c].getD j 0) {e : Effect} {args' : List VaArg}
    (hdone : Done e args' s (convert float c s)) :
    ∃ t, Reaches float format i s (i + 2) t ∧ Idle args' t ∧ Done e args' s t := by
  have hpercent : format i = '%'.toUInt8 := hformat 0 (by decide)
  have hi : format i ≠ 0 := by
    rw [hpercent]
    decide
  refine ⟨(convert float c s).reset.count s.str, ⟨1, fun fuel => ?_⟩,
    ⟨rfl, rfl, rfl, rfl, rfl, hdone.args⟩, hdone.dest, hdone.str, hdone.args⟩
  refine run_conversion float (.nil s) hflag hi (.inr hpercent) fun j hj => ?_
  rw [Nat.le_zero.mp hj]
  exact hformat 1 (by decide)

theorem appendNumber_done (h : s.padding = false) (hbuf : IsString s.buf t) (ht : NonZero t)
    (hlen : t.length < word32) : Done (.append t) s.args s (s.appendNumber id) := by
  have hplain : ¬ (s.padding = true ∧ t.length < s.width) := fun hpad =>
    absurd (h.symm.trans hpad.1) (by decide)
  unfold appendNumber
  dsimp only [id]
  rw [hbuf.strlen_eq ht hlen, if_neg hplain, hbuf.strlen_eq ht hlen]
  exact ⟨append_store (s := { s with bufLen := t.length }) hbuf ht hlen, rfl, rfl⟩

theorem convert_done (p : PlainPiece) {c : UInt8} (h : Idle (p.args ++ args) s)
    (hp : p.format = ['%'.toUInt8, c]) : flag c s = none ∧ Done p.effect args s (convert float c s) := by
  cases p with
  | literal c hc => exact absurd hp (by simp [PlainPiece.format])
  | char value =>
    obtain rfl : 'c'.toUInt8 = c := by simpa [PlainPiece.format] using hp
    have hconvert : convert float 'c'.toUInt8 s = { s.putChar value.toUInt8 with args := args } := by
      change { s.putChar (vaWord s.args).toUInt8 with args := s.args.tail } = _
      rw [h.args]
      rfl
    rw [hconvert]
    exact ⟨rfl, rfl, rfl, rfl⟩
  | string memory hlength =>
    obtain rfl : 's'.toUInt8 = c := by simpa [PlainPiece.format] using hp
    obtain ⟨buf, hread, hbuf⟩ := readString_eq h.precisionToggle h.args hlength
    have hconvert : convert float 's'.toUInt8 s = s.readString.appendString := rfl
    have hshort : ¬ memory.text.length < s.width := by
      rw [h.width]
      exact Nat.not_lt_zero _
    rw [hconvert, hread]
    unfold appendString
    dsimp only
    rw [if_neg hshort]
    refine ⟨rfl, append_store (s := { s with buf := buf, bufLen := memory.text.length, args := args }) hbuf
      memory.text_nonZero (by rwa [text_length]), rfl, rfl⟩
  | signed value =>
    obtain rfl : 'd'.toUInt8 = c := by simpa [PlainPiece.format] using hp
    have hmodifier : s.modifier = LengthModifier.none.modifier := h.modifier
    obtain ⟨buf, hread, hbuf⟩ := readSigned_eq hmodifier h.args
    have hconvert : convert float 'd'.toUInt8 s = (s.readSigned 10).appendNumber id := rfl
    have hlen := signedNumeral_length_le (LengthModifier.none.signed_natAbs_lt value)
    rw [hconvert, hread]
    have hdone := appendNumber_done (s := { s with buf := buf, args := args }) h.padding hbuf
      (signedNumeral_nonZero _) (hlen.trans_lt (by decide))
    exact ⟨rfl, hdone.dest, hdone.str, hdone.args⟩
  | unsigned number value =>
    obtain rfl : number.char = c := by simpa [PlainPiece.format] using hp
    obtain ⟨hbase, hle, hbase', hle'⟩ := number.base_bounds
    have hmodifier : s.modifier = LengthModifier.none.modifier := h.modifier
    obtain ⟨buf, hread, hbuf⟩ := readUnsigned_eq hbase hle hmodifier h.args
    rw [Int.natAbs_natCast] at hbuf
    have hconvert : convert float number.char s = (s.readUnsigned number.base).appendNumber id := by
      cases number <;> rfl
    rw [hconvert, hread]
    have hdone := appendNumber_done (s := { s with buf := buf, args := args }) h.padding hbuf
      (numeral_nonZero hbase' hle' _) ((numeral_length_le hbase' value.toNat_lt).trans_lt (by decide))
    exact ⟨by cases number <;> rfl, hdone.dest, hdone.str, hdone.args⟩

/-- What the loop does with a part of the format. -/
theorem plain_reaches (p : PlainPiece) (h : Idle (p.args ++ args) s)
    (hformat : ∀ j < p.format.length, format (i + j) = p.format.getD j 0) :
    ∃ t, Reaches float format i s (i + p.format.length) t ∧ Idle args t ∧ Done p.effect args s t := by
  have hconversion : ∀ c, p.format = ['%'.toUInt8, c] →
      ∃ t, Reaches float format i s (i + p.format.length) t ∧ Idle args t ∧ Done p.effect args s t := by
    intro c hp
    obtain ⟨hflag, hdone⟩ := convert_done float p h hp
    rw [hp] at hformat ⊢
    exact conversion_reaches float hflag hformat hdone
  cases p with
  | literal c hc =>
    have hchar : format i = c := hformat 0 (Nat.succ_pos 0)
    refine ⟨(s.putChar (format i)).count s.str,
      ⟨1, fun fuel => run_literal float (hchar ▸ hc.1) (hchar ▸ hc.2) h.not_begun⟩,
      ⟨h.modifier, h.currMod, h.padding, h.width, h.precisionToggle, h.args⟩, ?_, rfl, h.args⟩
    rw [hchar]
    rfl
  | char value => exact hconversion _ rfl
  | string memory hlength => exact hconversion _ rfl
  | signed value => exact hconversion _ rfl
  | unsigned number value => exact hconversion _ rfl

theorem plains_reach (pieces : List PlainPiece) (h : Idle (pieces.flatMap PlainPiece.args) s)
    (hformat : IsString (fun j => format (i + j)) (pieces.flatMap PlainPiece.format)) :
    ∃ t, Reaches float format i s (i + (pieces.flatMap PlainPiece.format).length) t ∧
      t.dest = Effect.storeAll (pieces.map PlainPiece.effect) s.dest s.str := by
  induction pieces generalizing i s with
  | nil => exact ⟨s, .refl, rfl⟩
  | cons p pieces ih =>
    rw [List.flatMap_cons] at h hformat
    obtain ⟨hfirst, hrest⟩ := isString_append.mp hformat
    obtain ⟨t, hreaches, hidle, hdone⟩ := plain_reaches float p h hfirst
    have hnext : IsString (fun j => format (i + p.format.length + j))
        (pieces.flatMap PlainPiece.format) := by
      simpa only [Nat.add_assoc] using hrest
    obtain ⟨t', hreaches', hdest⟩ := ih hidle hnext
    refine ⟨t', ?_, ?_⟩
    · rw [List.flatMap_cons, List.length_append, ← Nat.add_assoc]
      exact hreaches.trans hreaches'
    · rw [hdest, hdone.dest, hdone.str]
      rfl

end Loop

/-! ### The string that is left -/

/-- `sprintf` leaves a string in the destination. -/
def Leaves (float : FloatToAscii) (format : CString) (args : List VaArg) (dest : CString) (l : List UInt8) :
    Prop :=
  ∃ fuel str ret, vsprintf float fuel dest format args = some (str, ret) ∧ IsString str l

theorem leaves_iff (float : FloatToAscii) (pieces : List PlainPiece) {format : CString}
    (hformat : IsString format (pieces.flatMap PlainPiece.format)) (dest : CString) (l : List UInt8) :
    Leaves float format (pieces.flatMap PlainPiece.args) dest l ↔
      IsString (Effect.storeAll (pieces.map PlainPiece.effect) dest 0) l := by
  have hstart : Idle (pieces.flatMap PlainPiece.args)
      { dest := dest, args := pieces.flatMap PlainPiece.args } := ⟨rfl, rfl, rfl, rfl, rfl, rfl⟩
  obtain ⟨t, hreaches, hdest⟩ := plains_reach float pieces hstart (i := 0)
    (by simpa only [Nat.zero_add] using hformat)
  obtain ⟨fuel, hrun⟩ := hreaches.ends (by rw [Nat.zero_add]; exact hformat.end_eq)
  rw [← hdest]
  constructor
  · rintro ⟨fuel', str, ret, hcall, hstring⟩
    obtain ⟨s, hs, heq⟩ := Option.map_eq_some_iff.mp hcall
    have hsame := (run_mono hs fuel).symm.trans (Nat.add_comm fuel fuel' ▸ run_mono hrun fuel')
    obtain rfl := Option.some.inj hsame
    obtain ⟨rfl, -⟩ := Prod.mk.inj heq
    exact hstring
  · intro hstring
    exact ⟨fuel, t.dest, t.ret, by rw [vsprintf, hrun]; rfl, hstring⟩

theorem leaves_same_iff (float : FloatToAscii) (pieces : List PlainPiece) {format : CString}
    (hformat : IsString format (pieces.flatMap PlainPiece.format)) :
    (∀ dest dest' : CString, ∃ l, NonZero l ∧
      Leaves float format (pieces.flatMap PlainPiece.args) dest l ∧
      Leaves float format (pieces.flatMap PlainPiece.args) dest' l) ↔
    Effect.Ended (pieces.map PlainPiece.effect) := by
  simp only [leaves_iff float pieces hformat]
  exact Effect.storeAll_same_iff

/-- `sprintf` leaves the same string whatever the destination held exactly if a `%c` stores a 0 before a
number or a string that is not empty is put out. -/
theorem sprintf_independent_iff (float : FloatToAscii) (pieces : List PlainPiece) {format : CString}
    (hformat : IsString format (pieces.flatMap PlainPiece.format)) :
    (∀ dest dest' : CString, ∃ l, NonZero l ∧
      Leaves float format (pieces.flatMap PlainPiece.args) dest l ∧
      Leaves float format (pieces.flatMap PlainPiece.args) dest' l) ↔ EndsEarly pieces :=
  (leaves_same_iff float pieces hformat).trans (ended_iff_endsEarly pieces)

/-- `a%c` with a 0, in front of zeros and in front of ones. -/
theorem sprintf_independent_iff_zero : ∃ l, NonZero l ∧
    Leaves ⟨fun _ buf _ => buf, fun _ buf _ => buf⟩ (fun i => [97, 37, 99].getD i 0) [.word 0]
      (fun _ => 0) l ∧
    Leaves ⟨fun _ buf _ => buf, fun _ buf _ => buf⟩ (fun i => [97, 37, 99].getD i 0) [.word 0]
      (fun _ => 1) l :=
  (sprintf_independent_iff ⟨fun _ buf _ => buf, fun _ buf _ => buf⟩
    [.literal 97 (by decide), .char 0] fun _ _ => rfl).mpr (.inl rfl) (fun _ => 0) fun _ => 1

/-- `%d` with 7. -/
theorem sprintf_keeps_stale_byte : ¬ ∀ dest dest' : CString, ∃ l, NonZero l ∧
    Leaves ⟨fun _ buf _ => buf, fun _ buf _ => buf⟩ (fun i => [37, 100].getD i 0) [.word 7] dest l ∧
    Leaves ⟨fun _ buf _ => buf, fun _ buf _ => buf⟩ (fun i => [37, 100].getD i 0) [.word 7] dest' l := by
  have hformat : IsString (fun i => [37, 100].getD i 0)
      (List.flatMap PlainPiece.format [.signed 7]) := fun _ _ => rfl
  intro h
  have hended := (leaves_same_iff ⟨fun _ buf _ => buf, fun _ buf _ => buf⟩ [.signed 7] hformat).mp h
  exact (ended_iff_endsEarly [.signed 7]).mp hended

end DosKernel.Libc
