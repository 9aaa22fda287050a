import DosKernel.Drivers.Screen

/-! The use that `tty_write` makes of the output buffer: at which positions it is
written and read, and which bytes go on to `tty_write_char`. -/

namespace DosKernel.Console

/-- The output side of a terminal, with the positions of `out_buffer` that were used and the
bytes that `tty_write_char` was called with. -/
structure Traced extends Output where
  indices : List ℕ
  written : List UInt8

namespace Traced

/-- The loop of `tty_flush`. -/
def flushFrom : (fuel i : ℕ) → Traced → Traced
  | 0, _, t => t
  | fuel + 1, i, t =>
    if i = t.outBufferEnd then t
    else
      let i' := if i = t.outBufferSize then 0 else i
      flushFrom fuel (i' + 1) { t with
        screen := t.screen.put (t.outBuffer i')
        indices := t.indices ++ [i']
        written := t.written ++ [t.outBuffer i'] }

/-- `tty_flush`. -/
def flush (t : Traced) : Traced :=
  { flushFrom (2 * t.outBufferSize + 2) t.outBufferStart t with
    outBufferStart := 0
    outBufferEnd := 0 }

/-- One byte goes into the buffer. -/
def store (t : Traced) (c : UInt8) : Traced :=
  { t with
    outBuffer := Function.update t.outBuffer t.outBufferEnd c
    outBufferEnd := t.outBufferEnd + 1
    indices := t.indices ++ [t.outBufferEnd] }

/-- The loop of `tty_write`. -/
def writeBytes : Traced → List UInt8 → Traced
  | t, [] => t
  | t, c :: buf =>
    writeBytes ((if t.outBufferEnd = t.outBufferSize then t.flush else t).store c) buf

/-- `tty_write`. -/
def write (t : Traced) (buf : List UInt8) : ℤ × Traced := (buf.length, (t.writeBytes buf).flush)

end Traced

/-- A terminal from which nothing has been recorded yet. -/
def Output.traced (o : Output) : Traced := { o with indices := [], written := [] }

/-! ### The record does not change the run -/

namespace Traced
variable {t : Traced}

theorem flushFrom_toOutput (fuel i : ℕ) (t : Traced) : (flushFrom fuel i t).toOutput =
    { t.toOutput with screen := Console.flushFrom t.toOutput fuel i t.screen } := by
  have hput : ∀ (o : Output) (s : Screen) (fuel i : ℕ) (u : Screen),
      Console.flushFrom { o with screen := s } fuel i u = Console.flushFrom o fuel i u := by
    intro o s fuel
    induction fuel with
    | zero => exact fun _ _ => rfl
    | succ fuel ih =>
      intro i u
      simp only [Console.flushFrom, ih]
  induction fuel generalizing i t with
  | zero => rfl
  | succ fuel ih =>
    simp only [flushFrom, Console.flushFrom]
    split_ifs
    · rfl
    · rw [ih, hput]
    · rw [ih, hput]

theorem flush_toOutput (t : Traced) : t.flush.toOutput = ttyFlush t.toOutput := by
  have h := flushFrom_toOutput (2 * t.outBufferSize + 2) t.outBufferStart t
  simp only [flush, ttyFlush, h]

theorem store_toOutput (t : Traced) (c : UInt8) : (t.store c).toOutput = t.toOutput.collect c := rfl

theorem writeBytes_toOutput (t : Traced) (buf : List UInt8) :
    (t.writeBytes buf).toOutput = Console.writeBytes t.toOutput buf := by
  induction buf generalizing t with
  | nil => rfl
  | cons c buf ih =>
    rw [writeBytes, ih, store_toOutput, Console.writeBytes]
    split_ifs
    · rw [flush_toOutput]
      rfl
    · rfl

theorem write_toOutput (t : Traced) (buf : List UInt8) :
    (t.write buf).2.toOutput = (ttyWrite t.toOutput buf).2 := by
  rw [write, flush_toOutput, writeBytes_toOutput]
  rfl

/-! ### What the buffer is used for -/

/-- The bytes between the start and the end of the buffer. -/
def pending (t : Traced) : List UInt8 :=
  (List.range' t.outBufferStart (t.outBufferEnd - t.outBufferStart)).map t.outBuffer

/-- All bytes that were taken are written or wait between the start and the end, and only
positions in the buffer were used. -/
structure Holds (t : Traced) (size : ℕ) (s : Screen) (taken : List UInt8) : Prop where
  size_eq : t.outBufferSize = size
  start_le : t.outBufferStart ≤ t.outBufferEnd
  end_le : t.outBufferEnd ≤ size
  taken_eq : t.written ++ t.pending = taken
  shown : t.screen = t.written.foldl Screen.put s
  inside : ∀ i ∈ t.indices, i < size

variable {size i fuel : ℕ} {s : Screen} {taken : List UInt8}

/-- The loop from position `i` on writes the bytes from there to the end. -/
theorem flushFrom_eq (hend : t.outBufferEnd ≤ t.outBufferSize) (hi : i ≤ t.outBufferEnd)
    (hfuel : t.outBufferEnd - i < fuel) : flushFrom fuel i t = { t with
      screen := ((List.range' i (t.outBufferEnd - i)).map t.outBuffer).foldl Screen.put t.screen
      indices := t.indices ++ List.range' i (t.outBufferEnd - i)
      written := t.written ++ (List.range' i (t.outBufferEnd - i)).map t.outBuffer } := by
  induction fuel generalizing i t with
  | zero => omega
  | succ fuel ih =>
    rw [flushFrom]
    split_ifs with hdone hwrap
    · simp [hdone]
    · -- the end is never behind the buffer
      omega
    · rw [ih (by exact hend) (by dsimp only; omega) (by dsimp only; omega)]
      dsimp only
      rw [show t.outBufferEnd - i = t.outBufferEnd - (i + 1) + 1 by omega, List.range'_succ,
        List.map_cons, List.foldl_cons]
      simp

theorem Holds.flush (h : t.Holds size s taken) :
    t.flush.Holds size s taken ∧ t.flush.outBufferEnd = 0 ∧ t.flush.written = taken := by
  have hend := h.end_le
  have hstart := h.start_le
  have hflush : flushFrom (2 * t.outBufferSize + 2) t.outBufferStart t = _ :=
    flushFrom_eq (by rw [h.size_eq]; exact hend) hstart (by rw [h.size_eq]; omega)
  have hwritten : t.flush.written = taken := by
    rw [Traced.flush, hflush, ← h.taken_eq]
    rfl
  refine ⟨⟨?_, le_rfl, Nat.zero_le _, ?_, ?_, ?_⟩, rfl, hwritten⟩
  · rw [Traced.flush, hflush]
    exact h.size_eq
  · rw [hwritten]
    exact List.append_nil _
  · rw [Traced.flush, hflush]
    dsimp only
    rw [List.foldl_append, ← h.shown]
  · rw [Traced.flush, hflush]
    intro i hi
    rcases List.mem_append.mp hi with hi | hi
    · exact h.inside i hi
    · have := List.mem_range'_1.mp hi
      omega

theorem Holds.store (h : t.Holds size s taken) (hroom : t.outBufferEnd < size) (c : UInt8) :
    (t.store c).Holds size s (taken ++ [c]) := by
  have hstart := h.start_le
  refine ⟨h.size_eq, Nat.le_succ_of_le hstart, hroom, ?_, h.shown, ?_⟩
  · have hkept : (List.range' t.outBufferStart (t.outBufferEnd - t.outBufferStart)).map
        (Function.update t.outBuffer t.outBufferEnd c) = t.pending := by
      refine List.map_congr_left fun i hi => ?_
      have := List.mem_range'_1.mp hi
      exact Function.update_of_ne (by omega) _ _
    have hpending : (t.store c).pending = t.pending ++ [c] := by
      simp only [Traced.pending, Traced.store]
      rw [show t.outBufferEnd + 1 - t.outBufferStart = t.outBufferEnd - t.outBufferStart + 1 by omega,
        List.range'_concat, List.map_append, hkept, Nat.one_mul,
        show t.outBufferStart + (t.outBufferEnd - t.outBufferStart) = t.outBufferEnd by omega,
        List.map_singleton, Function.update_self]
      rfl
    rw [hpending, ← h.taken_eq, List.append_assoc]
    rfl
  · intro i hi
    rcases List.mem_append.mp hi with hi | hi
    · exact h.inside i hi
    · rw [List.mem_singleton.mp hi]
      exact hroom

theorem Holds.writeBytes (h : t.Holds size s taken) (hsize : 0 < size) (buf : List UInt8) :
    (t.writeBytes buf).Holds size s (taken ++ buf) := by
  induction buf generalizing t taken with
  | nil =>
    rw [List.append_nil]
    exact h
  | cons c buf ih =>
    rw [Traced.writeBytes, List.append_cons]
    split_ifs with hfull
    · obtain ⟨hflush, hend, -⟩ := h.flush
      exact ih (hflush.store (by rw [hend]; exact hsize) c)
    · rw [h.size_eq] at hfull
      exact ih (h.store (lt_of_le_of_ne h.end_le hfull) c)

end Traced

/-- The output buffer as `tty_init` and the calls after it leave it, with nothing in it. -/
structure Output.Empty (o : Output) : Prop where
  empty : o.outBufferStart = o.outBufferEnd
  end_le : o.outBufferEnd ≤ o.outBufferSize
  pos : 0 < o.outBufferSize

theorem outputInit_empty (outBuffer : ℕ → UInt8) (textBuffer : ℤ → UInt16) (width height : ℤ) :
    (outputInit outBuffer textBuffer width height).Empty :=
  ⟨rfl, Nat.zero_le _, by simp [outputInit]⟩

theorem Output.Empty.holds {o : Output} (h : o.Empty) :
    o.traced.Holds o.outBufferSize o.screen [] := by
  refine ⟨rfl, h.empty.le, h.end_le, ?_, rfl, fun i hi => by cases hi⟩
  have hpending : o.traced.pending = [] := by
    rw [Traced.pending]
    simp [Output.traced, h.empty]
  rw [hpending]
  rfl

/-- `tty_write` on an empty output buffer calls `tty_write_char` once for each byte, in their
order, uses only positions in the buffer, leaves it empty and returns the length. -/
theorem write_lossless {o : Output} (h : o.Empty) (buf : List UInt8) :
    (o.traced.write buf).2.toOutput = (ttyWrite o buf).2 ∧
      (o.traced.write buf).2.written = buf ∧
      (∀ i ∈ (o.traced.write buf).2.indices, i < o.outBufferSize) ∧
      (ttyWrite o buf).2.screen = buf.foldl Screen.put o.screen ∧
      (ttyWrite o buf).2.Empty ∧ (ttyWrite o buf).1 = buf.length := by
  obtain ⟨hholds, hend, hwritten⟩ := (h.holds.writeBytes h.pos buf).flush
  have hout := o.traced.write_toOutput buf
  rw [List.nil_append] at hwritten
  have hsize : (ttyWrite o buf).2.outBufferSize = o.outBufferSize := by
    rw [← show o.traced.toOutput = o from rfl, ← hout]
    exact hholds.size_eq
  refine ⟨hout, hwritten, hholds.inside, ?_, ⟨rfl, Nat.zero_le _, ?_⟩, rfl⟩
  · have hshown := hholds.shown
    rw [hwritten] at hshown
    rw [← show o.traced.toOutput = o from rfl, ← hout]
    exact hshown
  · rw [hsize]
    exact h.pos

/-- A buffer of two bytes is flushed in the middle of three. -/
theorem write_lossless_of_three :
    (ttyWrite ⟨fun _ => 0, 2, 1, 1, ⟨fun _ => 0, 80, 25, 0, 0, 7, []⟩⟩ [97, 98, 99]).2.screen =
      [97, 98, 99].foldl Screen.put ⟨fun _ => 0, 80, 25, 0, 0, 7, []⟩ :=
  (write_lossless ⟨rfl, by decide, by decide⟩ [97, 98, 99]).2.2.2.1

end DosKernel.Console
