import DosKernel.Drivers.Tty
import DosKernel.Lib.Runs

/-! The keyboard. `keyboard_handler` takes one byte from the controller at every interrupt: the
code of a key that goes down, with bit 7 clear, or that of a key that goes up. What processes read
from the terminal is what an editor makes of the keys that went down. -/

namespace DosKernel.Console

open Lib

/-! ### The code -/

/-- The static variables of `keyboard.c`, and the current terminal. -/
structure Keyboard where
  scancode : UInt8
  irqC : BitVec 32
  pressed : UInt8 → Bool
  tty : Terminal

/-- `keyboard_init`; the scancode is that of an earlier interrupt. -/
def keyboardInit (scancode : UInt8) (tty : Terminal) : Keyboard where
  scancode := scancode
  irqC := 0#32
  pressed := fun _ => false
  tty := tty

/-- What `keyboard_handler` does with the byte before it looks for Ctrl, Alt and Del. -/
def Keyboard.take (kblayout : ℤ → UInt8) (s : Keyboard) (data : UInt8) : Keyboard :=
  if data &&& 0x80 = 0 then
    { scancode := data
      irqC := s.irqC + 1#32
      pressed := Function.update s.pressed data true
      tty := (ttyReadChar kblayout s.tty data.toNat).2 }
  else
    { scancode := data
      irqC := s.irqC + 1#32
      pressed := Function.update s.pressed (data &&& ~~~0x80) false
      tty := s.tty }

/-- `pressed[0x1d] && pressed[0x38] && pressed[0x53]`. -/
def Keyboard.reset (s : Keyboard) : Bool := s.pressed 0x1d && s.pressed 0x38 && s.pressed 0x53

/-- `keyboard_handler`; there is no state behind a panic. -/
def keyboardHandler (kblayout : ℤ → UInt8) (s : Keyboard) (data : UInt8) : Option Keyboard :=
  if (s.take kblayout data).reset then none else some (s.take kblayout data)

/-- The keyboard interrupts, or a process reads from the terminal into `len` bytes. -/
inductive KeyEvent
  | byte (data : UInt8)
  | read (len : Fin 2147483648)
  deriving DecidableEq

def keyboardStep (kblayout : ℤ → UInt8) (s : Keyboard) : KeyEvent → Option Keyboard
  | .byte data => keyboardHandler kblayout s data
  | .read len => some { s with tty := { s.tty with input := (ttyRead s.tty.input len).2 } }

/-- The characters that a step gives to a process. -/
def delivered (s : Keyboard) : KeyEvent → List UInt8
  | .byte _ => []
  | .read len => (ttyRead s.tty.input len).1

/-! ### An editor -/

/-- What was read, what was typed and not read, and how many characters more there is room for. -/
structure Editor where
  taken : List UInt8
  waiting : List UInt8
  room : ℕ
  deriving DecidableEq

/-- A character is typed; a backspace takes back the last one that was not read. -/
def Editor.type (e : Editor) (c : UInt8) : Editor :=
  if e.room = 0 then e
  else if c = 8 then
    if e.waiting = [] then e else { e with waiting := e.waiting.dropLast, room := e.room + 1 }
  else { e with waiting := e.waiting ++ [c], room := e.room - 1 }

/-- A key that goes down is typed. -/
def Editor.after (kblayout : ℤ → UInt8) (e : Editor) : KeyEvent → Editor
  | .byte data => if data < 0x80 then e.type (kblayout data.toNat) else e
  | .read len => { e with
      taken := e.taken ++ e.waiting.take len
      waiting := e.waiting.drop len }

/-- The editor after the events, with room for 1024 characters. -/
def edit (kblayout : ℤ → UInt8) (es : List KeyEvent) : Editor :=
  es.foldl (Editor.after kblayout) ⟨[], [], 1024⟩

def lastByte (key : UInt8) : List KeyEvent → Option UInt8
  | [] => none
  | .byte data :: es => (lastByte key es).or (if data &&& 0x7F = key then some data else none)
  | .read _ :: es => lastByte key es

/-- The key went down and not up again. -/
def Held (es : List KeyEvent) (key : UInt8) : Prop := lastByte key es = some key

instance (es : List KeyEvent) (key : UInt8) : Decidable (Held es key) :=
  inferInstanceAs (Decidable (_ = _))

theorem edit_concat (kblayout : ℤ → UInt8) (es : List KeyEvent) (e : KeyEvent) :
    edit kblayout (es ++ [e]) = (edit kblayout es).after kblayout e := by
  rw [edit, List.foldl_append]
  rfl

theorem lastByte_append (key : UInt8) (es fs : List KeyEvent) :
    lastByte key (es ++ fs) = (lastByte key fs).or (lastByte key es) := by
  induction es with
  | nil => simp [lastByte]
  | cons e es ih =>
    cases e with
    | byte data => rw [List.cons_append, lastByte, lastByte, ih, Option.or_assoc]
    | read len => exact ih

theorem held_concat_read {es : List KeyEvent} {key : UInt8} (len : Fin 2147483648) :
    Held (es ++ [.read len]) key ↔ Held es key := by
  unfold Held
  rw [lastByte_append]
  rfl

theorem held_concat_byte {es : List KeyEvent} {key : UInt8} (data : UInt8) :
    Held (es ++ [.byte data]) key ↔ if data &&& 0x7F = key then data = key else Held es key := by
  unfold Held
  rw [lastByte_append]
  simp only [lastByte, Option.none_or]
  split_ifs
  · simp
  · simp

/-! ### The bytes -/

theorem forall_byte {P : UInt8 → Prop} (h : ∀ n < 256, P (UInt8.ofNat n)) (data : UInt8) : P data := by
  have hdata := h data.toNat data.toNat_lt
  rwa [UInt8.ofNat_toNat] at hdata

/-- How the bit `0x80`, which tells a break from a make, lies beside the number of the key. -/
theorem key_bits : ∀ data : UInt8, (data &&& 0x80 = 0 ↔ data < 0x80) ∧
    (data < 0x80 → data &&& 0x7F = data) ∧ data &&& ~~~0x80 = data &&& 0x7F ∧
      (¬ data < 0x80 → data &&& 0x7F ≠ data) :=
  forall_byte (by decide +kernel)

theorem make_iff (data : UInt8) : data &&& 0x80 = 0 ↔ data < 0x80 := (key_bits data).1

theorem make_low (data : UInt8) (h : data < 0x80) : data &&& 0x7F = data := (key_bits data).2.1 h

theorem break_low (data : UInt8) : data &&& ~~~0x80 = data &&& 0x7F := (key_bits data).2.2.1

theorem break_ne (data : UInt8) (h : ¬ data < 0x80) : data &&& 0x7F ≠ data :=
  (key_bits data).2.2.2 h

/-! ### Runs -/

/-- The terminal holds what the editor has, and `pressed` tells which keys are down. -/
structure Tracks (kblayout : ℤ → UInt8) (es : List KeyEvent) (s : Keyboard) (log : List UInt8) :
    Prop where
  taken : (edit kblayout es).taken = log
  waiting : (edit kblayout es).waiting = pending s.tty.input
  room : s.tty.input.inBufferEnd + (edit kblayout es).room = 1024
  size : s.tty.input.inBufferSize = 1024
  canon : s.tty.input.canon = true
  order : InOrder s.tty
  pressed : ∀ key, s.pressed key = decide (Held es key)

section Step
variable {kblayout : ℤ → UInt8} {es : List KeyEvent} {s : Keyboard} {log : List UInt8}

/-- A key that is typed does to the terminal what it does to the editor. -/
theorem Tracks.type (h : Tracks kblayout es s log) (scancode : ℤ) :
    let t := (ttyReadChar kblayout s.tty scancode).2
    let e := (edit kblayout es).type (kblayout scancode)
    e.taken = log ∧ e.waiting = pending t.input ∧ t.input.inBufferEnd + e.room = 1024 ∧
      t.input.inBufferSize = 1024 ∧ t.input.canon = true ∧ InOrder t := by
  intro t e
  have horder : InOrder t := ttyReadChar_inOrder kblayout h.order scancode
  have hpending := ttyReadChar_pending kblayout h.order scancode
  have hroom := h.room
  have hsize := h.size
  have hlen : (edit kblayout es).waiting.length = s.tty.input.inBufferEnd - s.tty.input.inBufferStart := by
    rw [h.waiting, pending_length]
  have hzero : ¬ (0 : ℤ) = -enomem := by decide
  rcases ttyReadChar_cases kblayout s.tty scancode with ⟨hfull, hret, hin⟩ |
    ⟨hfree, hret, hback, hsome, hin⟩ | ⟨hfree, hret, hback, hnone, hin⟩ | ⟨hfree, hret, hback, hin⟩
  · have he : e = edit kblayout es := if_pos (by omega)
    rw [he]
    rw [hret, if_pos rfl] at hpending
    exact ⟨h.taken, h.waiting.trans hpending.symm, by rw [hin]; exact hroom, by rw [hin]; exact hsize,
      by rw [hin]; exact h.canon, horder⟩
  · have hne : (edit kblayout es).waiting ≠ [] := by
      rw [← List.length_pos_iff]
      omega
    have he : e = { edit kblayout es with
        waiting := (edit kblayout es).waiting.dropLast, room := (edit kblayout es).room + 1 } := by
      show Editor.type _ _ = _
      rw [Editor.type, if_neg (by omega), if_pos hback.2, if_neg hne]
    have hend : t.input.inBufferEnd = s.tty.input.inBufferEnd - 1 := by
      rw [hin]
      rfl
    rw [hret, if_neg hzero, if_pos hback, ← h.waiting] at hpending
    rw [he]
    exact ⟨h.taken, hpending.symm, by rw [hend]; dsimp only; omega, by rw [hin]; exact hsize,
      by rw [hin]; exact h.canon, horder⟩
  · have hnil : (edit kblayout es).waiting = [] := by
      rw [← List.length_eq_zero_iff]
      omega
    have he : e = edit kblayout es := by
      show Editor.type _ _ = _
      rw [Editor.type, if_neg (by omega), if_pos hback.2, if_pos hnil]
    rw [he]
    exact ⟨h.taken, by rw [hin]; exact h.waiting, by rw [hin]; exact hroom, by rw [hin]; exact hsize,
      by rw [hin]; exact h.canon, horder⟩
  · have hchar : ¬ kblayout scancode = 8 := fun hc => hback ⟨h.canon, hc⟩
    have he : e = { edit kblayout es with
        waiting := (edit kblayout es).waiting ++ [kblayout scancode],
        room := (edit kblayout es).room - 1 } := by
      show Editor.type _ _ = _
      rw [Editor.type, if_neg (by omega), if_neg hchar]
    have hend : t.input.inBufferEnd = s.tty.input.inBufferEnd + 1 := by
      rw [hin]
      rfl
    rw [hret, if_neg hzero, if_neg hback, ← h.waiting] at hpending
    rw [he]
    exact ⟨h.taken, hpending.symm, by rw [hend]; dsimp only; omega, by rw [hin]; exact hsize,
      by rw [hin]; exact h.canon, horder⟩

theorem Tracks.take_pressed (h : Tracks kblayout es s log) (data key : UInt8) :
    (s.take kblayout data).pressed key = decide (Held (es ++ [.byte data]) key) := by
  rw [Bool.eq_iff_iff, decide_eq_true_eq, held_concat_byte]
  unfold Keyboard.take
  by_cases hmake : data < 0x80
  · rw [if_pos ((make_iff data).mpr hmake), make_low data hmake]
    dsimp only
    by_cases hkey : data = key
    · subst hkey
      simp
    · rw [Function.update_of_ne (Ne.symm hkey), if_neg hkey, h.pressed, decide_eq_true_eq]
  · rw [if_neg fun hbit => hmake ((make_iff data).mp hbit), break_low]
    dsimp only
    by_cases hkey : data &&& 0x7F = key
    · have hne := break_ne data hmake
      rw [hkey] at hne
      simp [hkey, hne.symm]
    · rw [Function.update_of_ne (Ne.symm hkey), if_neg hkey, h.pressed, decide_eq_true_eq]

/-- The handler goes on if Ctrl, Alt and Del are not all held. -/
theorem Tracks.handler_eq_none_iff (h : Tracks kblayout es s log) (data : UInt8) :
    keyboardHandler kblayout s data = none ↔ Held (es ++ [.byte data]) 0x1d ∧
      Held (es ++ [.byte data]) 0x38 ∧ Held (es ++ [.byte data]) 0x53 := by
  unfold keyboardHandler Keyboard.reset
  rw [h.take_pressed, h.take_pressed, h.take_pressed]
  simp [and_assoc]

theorem Tracks.byte (h : Tracks kblayout es s log) (data : UInt8) :
    Tracks kblayout (es ++ [.byte data]) (s.take kblayout data) log := by
  have hpressed := h.take_pressed data
  have hedit : edit kblayout (es ++ [.byte data]) = if data < 0x80 then
      (edit kblayout es).type (kblayout data.toNat) else edit kblayout es := edit_concat _ _ _
  by_cases hmake : data < 0x80
  · have htty : (s.take kblayout data).tty = (ttyReadChar kblayout s.tty data.toNat).2 := by
      unfold Keyboard.take
      rw [if_pos ((make_iff data).mpr hmake)]
    rw [if_pos hmake] at hedit
    obtain ⟨h1, h2, h3, h4, h5, h6⟩ := h.type data.toNat
    rw [← htty] at h2 h3 h4 h5 h6
    rw [← hedit] at h1 h2 h3
    exact ⟨h1, h2, h3, h4, h5, h6, hpressed⟩
  · have htty : (s.take kblayout data).tty = s.tty := by
      unfold Keyboard.take
      rw [if_neg fun hbit => hmake ((make_iff data).mp hbit)]
    rw [if_neg hmake] at hedit
    refine ⟨?_, ?_, ?_, ?_, ?_, ?_, hpressed⟩
    · rw [hedit, h.taken]
    · rw [hedit, htty, h.waiting]
    · rw [hedit, htty, h.room]
    · rw [htty, h.size]
    · rw [htty, h.canon]
    · rw [htty]
      exact h.order

theorem Tracks.read (h : Tracks kblayout es s log) (len : Fin 2147483648) :
    Tracks kblayout (es ++ [.read len])
      { s with tty := { s.tty with input := (ttyRead s.tty.input len).2 } }
      (log ++ (ttyRead s.tty.input len).1) := by
  have hlen : (len : ℕ) < word32 := len.isLt.trans (by decide)
  have hedit := edit_concat kblayout es (.read len)
  unfold Editor.after at hedit
  refine ⟨?_, ?_, ?_, h.size, h.canon, (Op.read len).run_inOrder kblayout h.order, fun key => ?_⟩
  · rw [hedit, (ttyRead_eq hlen h.order).1, ← h.waiting, ← h.taken]
  · rw [hedit, pending_ttyRead hlen h.order, ← h.waiting]
  · rw [hedit]
    exact h.room
  · rw [h.pressed, Bool.eq_iff_iff, decide_eq_true_eq, decide_eq_true_eq, held_concat_read]

end Step

/-- The keyboard and the terminal before the first interrupt. -/
theorem tracks_init (kblayout : ℤ → UInt8) (scancode : UInt8) (inBuffer outBuffer : ℕ → UInt8)
    (textBuffer : ℤ → UInt16) (width height : ℤ) : Tracks kblayout []
      (keyboardInit scancode (ttyInit inBuffer outBuffer textBuffer width height)) [] where
  taken := rfl
  waiting := rfl
  room := rfl
  size := rfl
  canon := rfl
  order := le_refl 0
  pressed _ := rfl

theorem tracks_of_run {kblayout : ℤ → UInt8} {es fs : List KeyEvent} {s s' : Keyboard}
    {log log' : List UInt8} (h : Tracks kblayout es s log)
    (hrun : Run (logged (keyboardStep kblayout) delivered) Anything (s, log) fs (s', log')) :
    Tracks kblayout (es ++ fs) s' log' := by
  induction fs generalizing es s log with
  | nil =>
    cases hrun
    rwa [List.append_nil]
  | cons e fs ih =>
    cases hrun with
    | cons hc hs ht =>
      obtain ⟨t, hstep, rfl⟩ := Option.map_eq_some_iff.mp hs
      have hnext : Tracks kblayout (es ++ [e]) t (log ++ delivered s e) := by
        cases e with
        | byte data =>
          rw [keyboardStep, keyboardHandler] at hstep
          split_ifs at hstep
          obtain rfl := Option.some.inj hstep
          simpa [delivered] using h.byte data
        | read len =>
          obtain rfl := Option.some.inj hstep
          exact h.read len
      simpa using ih hnext ht

/-- In every run of keyboard interrupts and reads, what the processes have read is what the editor
gives out, in order; what they can still read is what waits in the editor; and the next interrupt
ends in a panic exactly if Ctrl, Alt and Del are held then. -/
theorem keyboard_edits {kblayout : ℤ → UInt8} {scancode : UInt8} {inBuffer outBuffer : ℕ → UInt8}
    {textBuffer : ℤ → UInt16} {width height : ℤ} {es : List KeyEvent} {s : Keyboard}
    {log : List UInt8} (hrun : Run (logged (keyboardStep kblayout) delivered) Anything
      (keyboardInit scancode (ttyInit inBuffer outBuffer textBuffer width height), []) es (s, log)) :
    log = (edit kblayout es).taken ∧ pending s.tty.input = (edit kblayout es).waiting ∧
      ∀ data, keyboardHandler kblayout s data = none ↔ Held (es ++ [.byte data]) 0x1d ∧
        Held (es ++ [.byte data]) 0x38 ∧ Held (es ++ [.byte data]) 0x53 := by
  have h := tracks_of_run (tracks_init kblayout scancode inBuffer outBuffer textBuffer width height)
    hrun
  rw [List.nil_append] at h
  exact ⟨h.taken.symm, h.waiting.symm, h.handler_eq_none_iff⟩

/-- `a`, a backspace, `b`; then a process reads. -/
def keyEvents : List KeyEvent :=
  [.byte 0x1e, .byte 0x9e, .byte 0x0e, .byte 0x8e, .byte 0x30, .read ⟨10, by decide⟩]

/-- The keys `a`, `b` and backspace of the layout. -/
def threeKeys (scancode : ℤ) : UInt8 :=
  if scancode = 0x1e then 97 else if scancode = 0x30 then 98 else if scancode = 0x0e then 8 else 0

theorem keyboard_edits_backspace : ∃ s log,
    Run (logged (keyboardStep threeKeys) delivered) Anything
      (keyboardInit 0 (ttyInit (fun _ => 0) (fun _ => 0) (fun _ => 0) 80 25), []) keyEvents (s, log) ∧
    log = (edit threeKeys keyEvents).taken ∧ (edit threeKeys keyEvents).taken = [98] := by
  have hruns : ∃ s log, Run (logged (keyboardStep threeKeys) delivered) Anything
      (keyboardInit 0 (ttyInit (fun _ => 0) (fun _ => 0) (fun _ => 0) 80 25), []) keyEvents (s, log) :=
    ⟨_, _, .cons trivial rfl (.cons trivial rfl (.cons trivial rfl (.cons trivial rfl
      (.cons trivial rfl (.cons trivial rfl (.nil _))))))⟩
  obtain ⟨s, log, hrun⟩ := hruns
  exact ⟨s, log, hrun, (keyboard_edits hrun).1, by decide⟩

end DosKernel.Console
