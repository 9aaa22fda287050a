import DosKernel.Syscall.Read
import DosKernel.Drivers.Screen

/-! The input side of a terminal. `tty_read_char` puts the character of a key into the
input buffer and echoes it; `tty_read` takes characters out. The characters between the
two indices are pending. -/

namespace DosKernel.Console

open Lib

def enomem : ℤ := 12

structure Terminal where
  input : Tty
  echo : Bool
  output : Output

/-! ### The code -/

/-- `tty->in_buffer[tty->in_buffer_end++] = c`, with room for it. -/
def appendChar (t : Tty) (c : UInt8) (h : t.inBufferEnd ≠ t.inBufferSize) : Tty :=
  { t with
    inBuffer := Function.update t.inBuffer t.inBufferEnd c
    inBufferEnd := t.inBufferEnd + 1
    end_le := Nat.lt_of_le_of_ne t.end_le h }

/-- `tty->in_buffer_end--`. -/
def eraseChar (t : Tty) : Tty :=
  { t with inBufferEnd := t.inBufferEnd - 1, end_le := (Nat.sub_le _ _).trans t.end_le }

/-- `if (tty->echo) tty_write(tty, &c, 1)`. -/
def echoChar (t : Terminal) (c : UInt8) : Terminal :=
  if t.echo then { t with output := (ttyWrite t.output [c]).2 } else t

def ttyCharsReady (t : Tty) : ℤ :=
  (if t.inBufferEnd < t.inBufferStart then (t.inBufferEnd : ℤ) + t.inBufferSize else t.inBufferEnd) -
    t.inBufferStart

def ttyReadChar (kblayout : ℤ → UInt8) (t : Terminal) (scancode : ℤ) : ℤ × Terminal :=
  if h : t.input.inBufferEnd = t.input.inBufferSize then (-enomem, t)
  else
    let c := kblayout scancode
    if t.input.canon = true ∧ c = 8 then
      if t.input.inBufferStart < t.input.inBufferEnd then
        (0, echoChar { t with input := eraseChar t.input } c)
      else (0, t)
    else (0, echoChar { t with input := appendChar t.input c h } c)

/-- A terminal after `tty_init`; the buffers come from `malloc`. -/
def ttyInit (inBuffer outBuffer : ℕ → UInt8) (textBuffer : ℤ → UInt16) (width height : ℤ) :
    Terminal where
  input := ⟨inBuffer, 1024, 0, 0, true, by decide, Nat.zero_le _, Nat.zero_le _⟩
  echo := true
  output := outputInit outBuffer textBuffer width height

/-- A key is pressed, or a process reads into a buffer of `len` bytes. -/
inductive Op
  | key (scancode : ℤ)
  | read (len : Fin 2147483648)
  deriving DecidableEq

def Op.run (kblayout : ℤ → UInt8) (t : Terminal) : Op → Terminal
  | .key scancode => (ttyReadChar kblayout t scancode).2
  | .read len => { t with input := (ttyRead t.input len).2 }

def run (kblayout : ℤ → UInt8) (t : Terminal) (os : List Op) : Terminal :=
  os.foldl (Op.run kblayout) t

theorem run_append (kblayout : ℤ → UInt8) (t : Terminal) (os ps : List Op) :
    run kblayout t (os ++ ps) = run kblayout (run kblayout t os) ps := List.foldl_append

/-! ### The pending characters -/

/-- The characters `in_buffer[in_buffer_start..in_buffer_end)`. -/
def pending (t : Tty) : List UInt8 :=
  (List.range' t.inBufferStart (t.inBufferEnd - t.inBufferStart)).map t.inBuffer

@[simp] theorem pending_length (t : Tty) :
    (pending t).length = t.inBufferEnd - t.inBufferStart := by
  simp [pending]

@[simp] theorem echoChar_input (t : Terminal) (c : UInt8) : (echoChar t c).input = t.input := by
  rw [echoChar]
  split_ifs <;> rfl

section Indices
variable {t : Tty}

theorem ttyCharsReady_eq (h : t.inBufferStart ≤ t.inBufferEnd) :
    ttyCharsReady t = (pending t).length := by
  rw [ttyCharsReady, pending_length, if_neg (by omega)]
  omega

theorem pending_appendChar (c : UInt8) (hfull : t.inBufferEnd ≠ t.inBufferSize)
    (h : t.inBufferStart ≤ t.inBufferEnd) : pending (appendChar t c hfull) = pending t ++ [c] := by
  have hlen : t.inBufferEnd + 1 - t.inBufferStart = t.inBufferEnd - t.inBufferStart + 1 := by omega
  have hlast : t.inBufferStart + (t.inBufferEnd - t.inBufferStart) = t.inBufferEnd := by omega
  simp only [pending, appendChar, hlen, List.range'_concat, List.map_append, List.map_singleton,
    one_mul, hlast, Function.update_self]
  congr 1
  apply List.map_congr_left
  intro i hi
  rw [List.mem_range'_1] at hi
  rw [Function.update_of_ne (by omega)]

theorem pending_eraseChar (h : t.inBufferStart < t.inBufferEnd) :
    pending (eraseChar t) = (pending t).dropLast := by
  have hlen : t.inBufferEnd - t.inBufferStart = t.inBufferEnd - 1 - t.inBufferStart + 1 := by omega
  simp only [pending, eraseChar, hlen, List.range'_concat, List.map_append, List.map_singleton,
    List.dropLast_concat]

/-- The loop of `tty_read` between two indices of the buffer does not come to its end. -/
theorem ttyReadFrom_eq (t : Tty) (fuel : ℕ) {len start : ℕ} (hlen : len < word32)
    (hstart : start ≤ t.inBufferEnd) (hfuel : t.inBufferEnd - start < fuel) :
    ttyReadFrom t fuel len start =
      (((List.range' start (t.inBufferEnd - start)).map t.inBuffer).take len,
        start + min len (t.inBufferEnd - start)) := by
  have hend := t.end_le
  induction fuel generalizing len start with
  | zero => omega
  | succ fuel ih =>
    rw [ttyReadFrom]
    by_cases hstop : len = 0 ∨ start = t.inBufferEnd
    · rw [if_pos hstop]
      rcases hstop with rfl | rfl <;> simp
    · obtain ⟨l, rfl⟩ : ∃ l, len = l + 1 := ⟨len - 1, by omega⟩
      have hless : (l + 1 + word32 - 1) % word32 = l := by
        rw [Nat.mod_eq_sub_mod (by omega), Nat.mod_eq_of_lt (by omega)]
        omega
      have hmore : t.inBufferEnd - start = t.inBufferEnd - (start + 1) + 1 := by omega
      simp only [if_neg hstop, if_neg (show ¬ start = t.inBufferSize by omega),
        if_neg (show ¬ start = t.inBufferEnd by omega), hless]
      rw [ih (by omega) (by omega) (by omega), hmore, List.range'_succ, List.map_cons,
        List.take_succ_cons]
      simp only [Prod.mk.injEq, true_and]
      omega

theorem ttyRead_eq {len : ℕ} (hlen : len < word32) (h : t.inBufferStart ≤ t.inBufferEnd) :
    (ttyRead t len).1 = (pending t).take len ∧
      (ttyRead t len).2.inBufferStart = t.inBufferStart + min len (pending t).length := by
  have hend := t.end_le
  have hloop := ttyReadFrom_eq t (2 * t.inBufferSize + 2) hlen h (by omega)
  rw [pending_length]
  exact ⟨congrArg Prod.fst hloop, congrArg Prod.snd hloop⟩

theorem pending_ttyRead {len : ℕ} (hlen : len < word32) (h : t.inBufferStart ≤ t.inBufferEnd) :
    pending (ttyRead t len).2 = (pending t).drop len := by
  have hstart := (ttyRead_eq hlen h).2
  rw [pending_length] at hstart
  have hsame : (ttyRead t len).2.inBuffer = t.inBuffer ∧
      (ttyRead t len).2.inBufferEnd = t.inBufferEnd := ⟨rfl, rfl⟩
  rw [pending, hsame.1, hsame.2, hstart, pending, ← List.map_drop, List.drop_range']
  rcases le_total len (t.inBufferEnd - t.inBufferStart) with hle | hle
  · rw [min_eq_left hle, Nat.mul_one, Nat.sub_add_eq]
  · rw [min_eq_right hle, Nat.add_sub_of_le h, Nat.sub_self, Nat.sub_eq_zero_of_le hle]
    rfl

end Indices

/-! ### Runs -/

/-- The start index is not behind the end index. -/
def InOrder (t : Terminal) : Prop := t.input.inBufferStart ≤ t.input.inBufferEnd

/-- What `tty_read_char` can do to the input: refuse the key, erase a character, ignore
a backspace, or append the character. -/
theorem ttyReadChar_cases (kblayout : ℤ → UInt8) (t : Terminal) (scancode : ℤ) :
    (t.input.inBufferEnd = t.input.inBufferSize ∧
      (ttyReadChar kblayout t scancode).1 = -enomem ∧
      (ttyReadChar kblayout t scancode).2.input = t.input) ∨
    (t.input.inBufferEnd ≠ t.input.inBufferSize ∧ (ttyReadChar kblayout t scancode).1 = 0 ∧
      (t.input.canon = true ∧ kblayout scancode = 8) ∧
      t.input.inBufferStart < t.input.inBufferEnd ∧
      (ttyReadChar kblayout t scancode).2.input = eraseChar t.input) ∨
    (t.input.inBufferEnd ≠ t.input.inBufferSize ∧ (ttyReadChar kblayout t scancode).1 = 0 ∧
      (t.input.canon = true ∧ kblayout scancode = 8) ∧
      t.input.inBufferEnd ≤ t.input.inBufferStart ∧
      (ttyReadChar kblayout t scancode).2.input = t.input) ∨
    ∃ h : t.input.inBufferEnd ≠ t.input.inBufferSize, (ttyReadChar kblayout t scancode).1 = 0 ∧
      ¬ (t.input.canon = true ∧ kblayout scancode = 8) ∧
      (ttyReadChar kblayout t scancode).2.input = appendChar t.input (kblayout scancode) h := by
  simp only [ttyReadChar]
  split_ifs with hfull hback hsome
  · exact .inl ⟨hfull, rfl, rfl⟩
  · exact .inr (.inl ⟨hfull, rfl, hback, hsome, echoChar_input _ _⟩)
  · exact .inr (.inr (.inl ⟨hfull, rfl, hback, not_lt.mp hsome, rfl⟩))
  · exact .inr (.inr (.inr ⟨hfull, rfl, hback, echoChar_input _ _⟩))

theorem ttyReadChar_pending (kblayout : ℤ → UInt8) {t : Terminal} (h : InOrder t) (scancode : ℤ) :
    pending (ttyReadChar kblayout t scancode).2.input =
      if (ttyReadChar kblayout t scancode).1 = -enomem then pending t.input
      else if t.input.canon = true ∧ kblayout scancode = 8 then (pending t.input).dropLast
      else pending t.input ++ [kblayout scancode] := by
  have hzero : ¬ (0 : ℤ) = -enomem := by decide
  rcases ttyReadChar_cases kblayout t scancode with ⟨-, hret, hin⟩ | ⟨-, hret, hback, hsome, hin⟩ |
    ⟨-, hret, hback, hnone, hin⟩ | ⟨hroom, hret, hback, hin⟩
  · rw [hret, hin, if_pos rfl]
  · rw [hret, hin, if_neg hzero, if_pos hback]
    exact pending_eraseChar hsome
  · have hempty : pending t.input = [] := by
      rw [← List.length_eq_zero_iff, pending_length]
      omega
    rw [hret, hin, if_neg hzero, if_pos hback, hempty]
    rfl
  · rw [hret, hin, if_neg hzero, if_neg hback]
    exact pending_appendChar _ hroom h

theorem ttyReadChar_inOrder (kblayout : ℤ → UInt8) {t : Terminal} (h : InOrder t) (scancode : ℤ) :
    InOrder (ttyReadChar kblayout t scancode).2 := by
  rw [InOrder] at h ⊢
  rcases ttyReadChar_cases kblayout t scancode with ⟨-, -, hin⟩ | ⟨-, -, -, hsome, hin⟩ |
    ⟨-, -, -, -, hin⟩ | ⟨hroom, -, -, hin⟩
  · rwa [hin]
  · rw [hin]
    exact Nat.le_sub_one_of_lt hsome
  · rwa [hin]
  · rw [hin]
    exact h.trans (Nat.le_succ _)

theorem Op.run_inOrder (kblayout : ℤ → UInt8) {t : Terminal} (h : InOrder t) (o : Op) :
    InOrder (o.run kblayout t) := by
  cases o with
  | key scancode => exact ttyReadChar_inOrder kblayout h scancode
  | read len =>
    have hlen : (len : ℕ) < word32 := len.isLt.trans (by decide)
    have hstart := (ttyRead_eq hlen h).2
    rw [pending_length] at hstart
    have hend : (ttyRead t.input len).2.inBufferEnd = t.input.inBufferEnd := rfl
    rw [InOrder] at h ⊢
    simp only [Op.run, hstart, hend]
    omega

theorem run_inOrder (kblayout : ℤ → UInt8) {t : Terminal} (h : InOrder t) (os : List Op) :
    InOrder (run kblayout t os) := by
  induction os generalizing t with
  | nil => exact h
  | cons o os ih => exact ih (o.run_inOrder kblayout h)

section Stream
variable (kblayout : ℤ → UInt8) (inBuffer outBuffer : ℕ → UInt8) (textBuffer : ℤ → UInt16)
  (width height : ℤ)

/-- After any run of keys and reads the indices are in order and inside the buffer, and
`tty_chars_ready` counts the pending characters; a key that is not refused appends its
character to them, except that in canonical mode a backspace removes the last one; a
read takes the first `len` of them, as far as there are so many. -/
theorem input_stream (os : List Op) :
    let t := run kblayout (ttyInit inBuffer outBuffer textBuffer width height) os
    t.input.inBufferStart ≤ t.input.inBufferEnd ∧
    t.input.inBufferEnd ≤ t.input.inBufferSize ∧
    ttyCharsReady t.input = (pending t.input).length ∧
    (∀ scancode, pending (ttyReadChar kblayout t scancode).2.input =
      if (ttyReadChar kblayout t scancode).1 = -enomem then pending t.input
      else if t.input.canon = true ∧ kblayout scancode = 8 then (pending t.input).dropLast
      else pending t.input ++ [kblayout scancode]) ∧
    ∀ len : Fin 2147483648, (ttyRead t.input len).1 = (pending t.input).take len ∧
      pending (ttyRead t.input len).2 = (pending t.input).drop len := by
  intro t
  have horder : InOrder t := run_inOrder kblayout (le_refl 0) os
  refine ⟨horder, t.input.end_le, ttyCharsReady_eq horder, ttyReadChar_pending kblayout horder, ?_⟩
  intro len
  have hlen : (len : ℕ) < word32 := len.isLt.trans (by decide)
  exact ⟨(ttyRead_eq hlen horder).1, pending_ttyRead hlen horder⟩

end Stream

/-! ### When a key is refused -/

/-- How many characters were typed and not erased, and how many of them were read. -/
structure Counts where
  typed : ℕ
  taken : ℕ

/-- The counts after one operation, in a buffer of 1024 characters. -/
def Counts.after (kblayout : ℤ → UInt8) (n : Counts) : Op → Counts
  | .key scancode =>
    if n.typed = 1024 then n
    else if kblayout scancode = 8 then
      if n.taken < n.typed then { n with typed := n.typed - 1 } else n
    else { n with typed := n.typed + 1 }
  | .read len => { n with taken := n.taken + min (len : ℕ) (n.typed - n.taken) }

def counts (kblayout : ℤ → UInt8) (os : List Op) : Counts :=
  os.foldl (Counts.after kblayout) ⟨0, 0⟩

theorem counts_concat (kblayout : ℤ → UInt8) (os : List Op) (o : Op) :
    counts kblayout (os ++ [o]) = (counts kblayout os).after kblayout o := by
  rw [counts, List.foldl_append]
  rfl

structure Counted (n : Counts) (t : Terminal) : Prop where
  start : t.input.inBufferStart = n.taken
  stop : t.input.inBufferEnd = n.typed
  size : t.input.inBufferSize = 1024
  canon : t.input.canon = true
  taken_le : n.taken ≤ n.typed
  typed_le : n.typed ≤ 1024

theorem Counted.key {kblayout : ℤ → UInt8} {n : Counts} {t : Terminal} (h : Counted n t)
    (scancode : ℤ) :
    Counted (n.after kblayout (.key scancode)) (ttyReadChar kblayout t scancode).2 := by
  obtain ⟨hstart, hstop, hsize, hcanon, htaken, htyped⟩ := h
  rw [Counts.after]
  rcases ttyReadChar_cases kblayout t scancode with ⟨hfull, -, hin⟩ | ⟨hroom, -, hback, hsome, hin⟩ |
    ⟨hroom, -, hback, hnone, hin⟩ | ⟨hroom, -, hback, hin⟩
  · rw [if_pos (by omega)]
    exact ⟨by rw [hin, hstart], by rw [hin, hstop], by rw [hin, hsize], by rw [hin, hcanon], htaken,
      htyped⟩
  · rw [if_neg (by omega), if_pos hback.2, if_pos (by omega)]
    exact ⟨by rw [hin]; exact hstart, by rw [hin, ← hstop]; rfl, by rw [hin]; exact hsize,
      by rw [hin]; exact hcanon, by dsimp only; omega, by dsimp only; omega⟩
  · rw [if_neg (by omega), if_pos hback.2, if_neg (by omega)]
    exact ⟨by rw [hin, hstart], by rw [hin, hstop], by rw [hin, hsize], by rw [hin, hcanon], htaken,
      htyped⟩
  · rw [if_neg (by omega), if_neg (fun hc => hback ⟨hcanon, hc⟩)]
    exact ⟨by rw [hin]; exact hstart, by rw [hin, ← hstop]; rfl, by rw [hin]; exact hsize,
      by rw [hin]; exact hcanon, by dsimp only; omega, by dsimp only; omega⟩

theorem Counted.read {kblayout : ℤ → UInt8} {n : Counts} {t : Terminal} (h : Counted n t)
    (len : Fin 2147483648) :
    Counted (n.after kblayout (.read len)) { t with input := (ttyRead t.input len).2 } := by
  obtain ⟨hstart, hstop, hsize, hcanon, htaken, htyped⟩ := h
  have hlen : (len : ℕ) < word32 := len.isLt.trans (by decide)
  have hread := (ttyRead_eq (t := t.input) hlen (by omega)).2
  rw [pending_length, hstart, hstop] at hread
  exact ⟨hread, hstop, hsize, hcanon, by simp only [Counts.after]; omega, htyped⟩

section Refused
variable (kblayout : ℤ → UInt8) (inBuffer outBuffer : ℕ → UInt8) (textBuffer : ℤ → UInt16)
  (width height : ℤ)

theorem counted_run (os : List Op) : Counted (counts kblayout os)
    (run kblayout (ttyInit inBuffer outBuffer textBuffer width height) os) := by
  induction os using List.reverseRecOn with
  | nil => exact ⟨rfl, rfl, rfl, rfl, le_rfl, Nat.zero_le _⟩
  | append_singleton os o ih =>
    rw [counts_concat, run_append]
    cases o with
    | key scancode => exact ih.key scancode
    | read len => exact ih.read len

/-- A key is refused only where the pending characters fill the buffer. -/
def RefusedWhenFull (t : Terminal) : Prop :=
  ∀ scancode, (ttyReadChar kblayout t scancode).1 = -enomem →
    (pending t.input).length = t.input.inBufferSize

variable {kblayout} in
theorem Counted.refusedWhenFull_iff {n : Counts} {t : Terminal} (h : Counted n t) :
    RefusedWhenFull kblayout t ↔ n.typed < 1024 ∨ n.taken = 0 := by
  obtain ⟨hstart, hstop, hsize, -, htaken, htyped⟩ := h
  constructor
  · intro hrefused
    by_cases hfull : n.typed < 1024
    · exact .inl hfull
    have hret : (ttyReadChar kblayout t 0).1 = -enomem := by
      rw [ttyReadChar, dif_pos (by omega)]
    have hlen := hrefused 0 hret
    rw [pending_length] at hlen
    omega
  · rintro hcounts scancode hret
    rcases ttyReadChar_cases kblayout t scancode with ⟨hfull, -, -⟩ | ⟨-, hret', -⟩ |
      ⟨-, hret', -⟩ | ⟨-, hret', -⟩
    · rw [pending_length]
      omega
    all_goals
      rw [hret] at hret'
      exact absurd hret' (by decide)

/-- What makes a key refused stays: the typed characters are as many as before and those
read are no fewer. -/
theorem counts_refused_mono {os ps : List Op} (h : os <+: ps)
    (hps : (counts kblayout ps).typed < 1024 ∨ (counts kblayout ps).taken = 0) :
    (counts kblayout os).typed < 1024 ∨ (counts kblayout os).taken = 0 := by
  obtain ⟨qs, rfl⟩ := h
  induction qs using List.reverseRecOn with
  | nil => rwa [List.append_nil] at hps
  | append_singleton qs o ih =>
    apply ih
    have hle := (counted_run kblayout (fun _ => 0) (fun _ => 0) (fun _ => 0) 0 0 (os ++ qs)).typed_le
    rw [← List.append_assoc, counts_concat] at hps
    generalize counts kblayout (os ++ qs) = n at hle hps ⊢
    cases o with
    | key scancode =>
      rw [Counts.after] at hps
      split_ifs at hps with hfull
      · exact hps
      all_goals exact .inl (Nat.lt_of_le_of_ne hle hfull)
    | read len =>
      rw [Counts.after] at hps
      dsimp only at hps
      omega

/-- In all states of a run a key is refused only where the pending characters fill the
buffer, exactly when the run leaves less than 1024 characters typed, or reads none. -/
theorem refused_when_full_iff (os : List Op) :
    (∀ ps, ps <+: os → RefusedWhenFull kblayout
      (run kblayout (ttyInit inBuffer outBuffer textBuffer width height) ps)) ↔
      (counts kblayout os).typed < 1024 ∨ (counts kblayout os).taken = 0 := by
  have hiff : ∀ ps, RefusedWhenFull kblayout
      (run kblayout (ttyInit inBuffer outBuffer textBuffer width height) ps) ↔
      (counts kblayout ps).typed < 1024 ∨ (counts kblayout ps).taken = 0 := fun ps =>
    (counted_run kblayout inBuffer outBuffer textBuffer width height ps).refusedWhenFull_iff
  constructor
  · intro h
    exact (hiff os).mp (h os List.prefix_rfl)
  · intro h ps hps
    exact (hiff ps).mpr (counts_refused_mono kblayout hps h)

/-- A key that is no backspace is counted until the buffer is full. -/
theorem counts_replicate {scancode : ℤ} (hc : kblayout scancode ≠ 8) {n : ℕ} (hn : n ≤ 1024) :
    counts kblayout (List.replicate n (.key scancode)) = ⟨n, 0⟩ := by
  induction n with
  | zero => rfl
  | succ n ih =>
    rw [List.replicate_succ', counts_concat, ih (by omega)]
    simp only [Counts.after]
    rw [if_neg (by omega), if_neg hc]

end Refused

/-- After 1024 keys one character is read; the next key is refused all the same. -/
theorem key_refused_after_read :
    ¬ ∀ (kblayout : ℤ → UInt8) (os : List Op), RefusedWhenFull kblayout
      (run kblayout (ttyInit (fun _ => 0) (fun _ => 0) (fun _ => 0) 80 25) os) := by
  intro h
  have hcounts : counts (fun _ => 65) (List.replicate 1024 (.key 30) ++ [.read 1]) = ⟨1024, 1⟩ := by
    rw [counts_concat, counts_replicate (fun _ => 65) (by decide) le_rfl]
    rfl
  have hcounted := counted_run (fun _ => 65) (fun _ => 0) (fun _ => 0) (fun _ => 0) 80 25
    (List.replicate 1024 (.key 30) ++ [.read 1])
  have hfull := hcounted.refusedWhenFull_iff.mp (h _ _)
  rw [hcounts] at hfull
  exact absurd hfull (by decide)

end DosKernel.Console
