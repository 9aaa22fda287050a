import DosKernel.Lib.Accesses
import DosKernel.Libc.Strings

/-! The standard streams of the programs. A stream has a buffer of 1024 bytes. What is put out is
collected there and written at the end of each call, and before when the buffer is full. What is
read in is stored at a pointer that goes on and on, and fetched from an index that stays 0. -/

namespace DosKernel.Userland

open Lib Lib.Access CString

/-! ### The code -/

/-- The fields of `FILE` that the calls use, with the buffer: `ptr` and `base` are places in it. -/
structure Stream where
  ptr : ℕ
  cnt : ℕ
  base : ℕ
  buf : CString

/-- A stream of `_init_stdio`, with what `malloc` has left in the buffer. -/
def initStdio (buf : CString) : Stream := ⟨0, 0, 0, buf⟩

def eof : ℤ := -1

/-- `stdout`, with the bytes that `write` was given. -/
structure Output where
  stdout : Stream
  written : List UInt8

namespace Output

/-- `_flush`, when `write` takes all bytes. -/
def flush (s : Output) : Lib.Access Unit (ℤ × Output) :=
  if s.stdout.cnt = 0 then pure (0, s)
  else do
    let bytes ← touch () (chars (fun i => s.stdout.buf (s.stdout.ptr + i)) s.stdout.cnt) s.stdout.ptr
      s.stdout.cnt
    pure (s.stdout.cnt, ⟨{ s.stdout with cnt := 0 }, s.written ++ bytes⟩)

/-- The assignment of `_putchar`. -/
def store (c : UInt8) (s : Output) : Output where
  stdout := { s.stdout with
    buf := Function.update s.stdout.buf (s.stdout.ptr + s.stdout.cnt) c
    cnt := s.stdout.cnt + 1 }
  written := s.written

/-- The test of `_putchar` for a full buffer. -/
def makeRoom (s : Output) : Lib.Access Unit (ℤ × Output) :=
  if s.stdout.cnt = 1024 then s.flush else pure (0, s)

def putcharUnflushed (c : UInt8) (s : Output) : Lib.Access Unit (ℤ × Output) := do
  let (_, s) ← s.makeRoom
  touch () (0, s.store c) (s.stdout.ptr + s.stdout.cnt) 1

def putchar (c : UInt8) (s : Output) : Lib.Access Unit (ℤ × Output) := do
  let (_, s) ← s.putcharUnflushed c
  s.flush

def putsFrom (str : CString) : (fuel i : ℕ) → Output → Lib.Access Unit (ℤ × Output)
  | 0, _, _ => diverge
  | fuel + 1, i, s =>
    if str i = 0 then pure (0, s)
    else do
      let (ret, s) ← s.putcharUnflushed (str i)
      if ret = eof then pure (eof, s) else putsFrom str fuel (i + 1) s

def puts (str : CString) (s : Output) : Lib.Access Unit (ℤ × Output) := do
  let (ret, s) ← putsFrom str word32 0 s
  if ret = eof then pure (eof, s)
  else do
    let (_, s) ← s.putcharUnflushed '\n'.toUInt8
    s.flush

end Output

/-- The read of `_getchar`: a byte, or none if the result of `read` is not 1. -/
def readByte (byte : Option UInt8) (s : Stream) : Lib.Access Unit (ℤ × Stream) :=
  match byte with
  | none => pure (eof, s)
  | some b => do
    let s ← touch () { s with buf := Function.update s.buf s.ptr b } s.ptr 1
    let s := { s with ptr := s.ptr + 1 }
    let c ← touch () (s.buf (s.base + s.cnt)) (s.base + s.cnt) 1
    pure (c.toInt8.toInt, s)

/-- `getchar`: the result of `_getchar` as an `unsigned char`. -/
def getchar (byte : Option UInt8) (s : Stream) : Lib.Access Unit (ℤ × Stream) := do
  let (ret, s) ← readByte byte s
  let ret := UInt8.ofInt ret
  pure (if ret ≤ 0 then -1 else (ret.toNat : ℤ), s)

/-! ### Runs -/

/-- The calls that put something out. -/
inductive Call
  | putchar (c : UInt8)
  | puts (str : CString)

namespace Call

def run : Call → Output → Lib.Access Unit (ℤ × Output)
  | putchar c => Output.putchar c
  | puts str => Output.puts str

/-- What a call puts out. -/
def text : Call → List UInt8
  | putchar c => [c]
  | puts str => str.text ++ ['\n'.toUInt8]

def Ends : Call → Prop
  | putchar _ => True
  | puts str => str.strlen < word32

end Call

def runCalls : List Call → Output → Lib.Access Unit Output
  | [], s => pure s
  | call :: calls, s => do
    let (_, s) ← call.run s
    runCalls calls s

/-- The results of `getchar`, with what `read` delivers in each call. -/
def getchars : List (Option UInt8) → Stream → Lib.Access Unit (List ℤ × Stream)
  | [], s => pure ([], s)
  | byte :: bytes, s => do
    let (ret, s) ← getchar byte s
    let (rets, s) ← getchars bytes s
    pure (ret :: rets, s)

/-- What `getchar` is to return. -/
def streamed : Option UInt8 → ℤ
  | none => eof
  | some b => b.toNat

/-- Every call returns the byte that was read in it, and stores inside the buffer. -/
def DeliversStream (buf : CString) (bytes : List (Option UInt8)) : Prop :=
  Ensures (fun _ => 1024) (getchars bytes (initStdio buf)) fun r => r.1 = bytes.map streamed

/-- The same byte was read in every call, and it is not 0. -/
def OneByte (bytes : List (Option UInt8)) : Prop := ∃ b, b ≠ 0 ∧ ∀ byte ∈ bytes, byte = some b

/-! ### Output -/

namespace Output
variable {s : Output} {c : UInt8} {str : CString} {l : List UInt8} {fuel i : ℕ}

/-- What was put out, written or not. -/
def sent (s : Output) : List UInt8 := s.written ++ s.stdout.buf.chars s.stdout.cnt

/-- The pointer is at the begin of the buffer, and there are not more bytes in it than it can take. -/
structure Filled (s : Output) : Prop where
  ptr : s.stdout.ptr = 0
  cnt : s.stdout.cnt ≤ 1024

/-- The computation puts the bytes out, after all others. -/
def Emits (x : Lib.Access Unit (ℤ × Output)) (ret : ℤ → Prop) (s : Output) (l : List UInt8) : Prop :=
  Ensures (fun _ => 1024) x fun r => ret r.1 ∧ r.2.Filled ∧ r.2.sent = s.sent ++ l

theorem flush_spec (h : s.Filled) : Ensures (fun _ => 1024) s.flush fun r =>
    r.2.Filled ∧ r.2.stdout.cnt = 0 ∧ r.2.written = s.sent := by
  rw [flush]
  split_ifs with hcnt
  · rw [ensures_pure]
    refine ⟨h, hcnt, ?_⟩
    rw [sent, hcnt]
    exact (List.append_nil _).symm
  · have hbuf : (fun i => s.stdout.buf (s.stdout.ptr + i)) = s.stdout.buf := by
      funext i
      rw [h.ptr, Nat.zero_add]
    rw [ensures_bind, ensures_touch, ensures_pure, hbuf]
    refine ⟨?_, ⟨h.ptr, Nat.zero_le _⟩, rfl, rfl⟩
    have := h.cnt
    rw [h.ptr]
    omega

/-- With room in the buffer, a character is stored behind the others. -/
theorem store_spec (h : s.Filled) (hroom : s.stdout.cnt < 1024) :
    (s.store c).Filled ∧ (s.store c).sent = s.sent ++ [c] := by
  refine ⟨⟨h.ptr, hroom⟩, ?_⟩
  have hold : chars (Function.update s.stdout.buf (s.stdout.ptr + s.stdout.cnt) c) s.stdout.cnt =
      chars s.stdout.buf s.stdout.cnt := by
    apply List.map_congr_left
    intro i hi
    have hne : i ≠ s.stdout.ptr + s.stdout.cnt := by
      have := List.mem_range.mp hi
      omega
    exact Function.update_of_ne hne c s.stdout.buf
  have hlast : Function.update s.stdout.buf (s.stdout.ptr + s.stdout.cnt) c s.stdout.cnt = c := by
    rw [h.ptr, Nat.zero_add, Function.update_self]
  simp only [sent, store]
  rw [chars_add, hold, List.append_assoc]
  exact congrArg (fun b => s.written ++ (chars s.stdout.buf s.stdout.cnt ++ [b])) hlast

theorem makeRoom_spec (h : s.Filled) : Ensures (fun _ => 1024) s.makeRoom fun r =>
    r.2.Filled ∧ r.2.stdout.cnt < 1024 ∧ r.2.sent = s.sent := by
  rw [makeRoom]
  split_ifs with hfull
  · refine (flush_spec h).mono fun r hr => ⟨hr.1, by rw [hr.2.1]; decide, ?_⟩
    rw [sent, hr.2.1, hr.2.2]
    exact List.append_nil _
  · rw [ensures_pure]
    exact ⟨h, Nat.lt_of_le_of_ne h.cnt hfull, rfl⟩

theorem putcharUnflushed_spec (h : s.Filled) : Emits (s.putcharUnflushed c) (· = 0) s [c] := by
  rw [Emits, putcharUnflushed, ensures_bind]
  refine (makeRoom_spec h).mono fun r ⟨hfilled, hlt, hsent⟩ => ?_
  obtain ⟨hfilled', hsent'⟩ := store_spec (c := c) hfilled hlt
  rw [ensures_touch, hfilled.ptr, Nat.zero_add]
  exact ⟨hlt, rfl, hfilled', by rw [hsent', hsent]⟩

/-- The loop of `_puts` does not fail, and puts out the characters up to the end of the string. -/
theorem putsFrom_spec (h : s.Filled) (hstr : Rest str i l) (hl : NonZero l) (hfuel : l.length < fuel) :
    Emits (putsFrom str fuel i s) (· = 0) s l := by
  induction l generalizing s i fuel with
  | nil =>
    obtain ⟨fuel, rfl⟩ := Nat.exists_eq_add_one.mpr hfuel
    rw [Emits, putsFrom, if_pos hstr.ends, ensures_pure]
    exact ⟨rfl, h, (List.append_nil _).symm⟩
  | cons c l ih =>
    obtain ⟨fuel, rfl⟩ := Nat.exists_eq_add_one.mpr (Nat.zero_lt_of_lt hfuel)
    have hc : str i ≠ 0 := by
      rw [hstr.head]
      exact hl c List.mem_cons_self
    rw [Emits, putsFrom, if_neg hc, ensures_bind]
    refine (putcharUnflushed_spec h).mono fun r ⟨hret, hfilled, hsent⟩ => ?_
    have hgo : r.1 ≠ eof := by
      rw [hret]
      decide
    dsimp only
    rw [if_neg hgo]
    refine (ih hfilled hstr.tail (fun c hc => hl c (List.mem_cons_of_mem _ hc))
      (Nat.lt_of_succ_lt_succ hfuel)).mono fun r' ⟨hret', hfilled', hsent'⟩ => ⟨hret', hfilled', ?_⟩
    rw [hsent', hsent, hstr.head, List.append_assoc, List.singleton_append]

/-- Between two calls nothing is left in the buffer. -/
structure Flushed (s : Output) (l : List UInt8) : Prop where
  filled : s.Filled
  cnt : s.stdout.cnt = 0
  written : s.written = l

theorem Flushed.sent_eq (h : s.Flushed l) : s.sent = l := by
  rw [sent, h.cnt, h.written]
  exact List.append_nil l

theorem flush_sent (h : s.Filled) (hsent : s.sent = l) :
    Ensures (fun _ => 1024) s.flush fun r => r.2.Flushed l :=
  (flush_spec h).mono fun _ hr => ⟨hr.1, hr.2.1, hr.2.2.trans hsent⟩

theorem putchar_spec (h : s.Flushed l) (c : UInt8) :
    Ensures (fun _ => 1024) (s.putchar c) fun r => r.2.Flushed (l ++ [c]) := by
  rw [putchar, ensures_bind]
  refine (putcharUnflushed_spec h.filled).mono fun r ⟨_, hfilled, hsent⟩ => ?_
  exact flush_sent hfilled (by rw [hsent, h.sent_eq])

theorem puts_spec (h : s.Flushed l) (hstr : str.strlen < word32) :
    Ensures (fun _ => 1024) (s.puts str) fun r => r.2.Flushed (l ++ (str.text ++ ['\n'.toUInt8])) := by
  have hrest : Rest str 0 str.text := (text_isString hstr).rest
  have hlength : str.text.length < word32 := by rwa [text_length]
  rw [puts, ensures_bind]
  refine (putsFrom_spec h.filled hrest str.text_nonZero hlength).mono fun r ⟨hret, hfilled, hsent⟩ => ?_
  have hgo : r.1 ≠ eof := by
    rw [hret]
    decide
  dsimp only
  rw [if_neg hgo, ensures_bind]
  refine (putcharUnflushed_spec hfilled).mono fun r' ⟨_, hfilled', hsent'⟩ => ?_
  exact flush_sent hfilled' (by rw [hsent', hsent, h.sent_eq, List.append_assoc])

end Output

theorem Call.run_spec {s : Output} {l : List UInt8} {call : Call} (h : s.Flushed l) (hends : call.Ends) :
    Ensures (fun _ => 1024) (call.run s) fun r => r.2.Flushed (l ++ call.text) := by
  cases call with
  | putchar c => exact Output.putchar_spec h c
  | puts str => exact Output.puts_spec h hends

theorem runCalls_spec {s : Output} {l : List UInt8} {calls : List Call} (h : s.Flushed l)
    (hends : ∀ call ∈ calls, call.Ends) :
    Ensures (fun _ => 1024) (runCalls calls s) fun s => s.Flushed (l ++ calls.flatMap Call.text) := by
  induction calls generalizing s l with
  | nil =>
    rw [runCalls, ensures_pure, List.flatMap_nil, List.append_nil]
    exact h
  | cons call calls ih =>
    rw [runCalls, ensures_bind, List.flatMap_cons, ← List.append_assoc]
    refine (Call.run_spec h (hends call List.mem_cons_self)).mono fun r hr => ?_
    exact ih hr fun call hcall => hends call (List.mem_cons_of_mem _ hcall)

/-- After every sequence of calls `write` was given what they put out, and all places in the buffer
were below 1024. -/
theorem stdout_lossless (buf : CString) (calls : List Call) (hends : ∀ call ∈ calls, call.Ends) :
    Ensures (fun _ => 1024) (runCalls calls ⟨initStdio buf, []⟩) fun s =>
      s.written = calls.flatMap Call.text := by
  have hinit : Output.Flushed ⟨initStdio buf, []⟩ [] := ⟨⟨rfl, Nat.zero_le _⟩, rfl, rfl⟩
  exact (runCalls_spec hinit hends).mono fun s hs => hs.written

def letterB : CString := fun i => if i = 0 then 98 else 0

theorem stdout_lossless_letters :
    Ensures (fun _ => 1024) (runCalls [.putchar 97, .puts letterB] ⟨initStdio fun _ => 0, []⟩) fun s =>
      s.written = [97, 98, 10] := by
  have hstring : IsString letterB [98] := show ∀ i ≤ 1, letterB i = [98].getD i 0 by decide
  have hnonZero : NonZero [98] := by decide
  have hends : ∀ call ∈ [Call.putchar 97, .puts letterB], call.Ends := by
    intro call hcall
    rcases List.mem_pair.mp hcall with rfl | rfl
    · trivial
    · rw [Call.Ends, hstring.strlen_eq hnonZero (by decide)]
      decide
  have htext : letterB.text = [98] := hstring.text_eq hnonZero (by decide)
  refine (stdout_lossless (fun _ => 0) _ hends).mono fun s hs => ?_
  rw [hs, List.flatMap_cons, List.flatMap_singleton, Call.text, Call.text, htext]
  rfl

/-! ### Input -/

section Input
variable {s : Stream} {b c : UInt8} {byte : Option UInt8} {bytes : List (Option UInt8)}

theorem ofInt_char (c : UInt8) : UInt8.ofInt c.toInt8.toInt = c := by
  have hint : c.toInt8.toInt = (c.toNat : ℤ).bmod 256 := BitVec.toInt_eq_toNat_bmod c.toBitVec
  have hlt := c.toNat_lt
  have hmod : (c.toNat : ℤ).bmod 256 % 2 ^ 8 = c.toNat :=
    (Int.bmod_emod (x := c.toNat) (m := 256)).trans (by omega)
  rw [UInt8.ofInt, hint, hmod, Int.toNat_natCast, UInt8.ofNat_toNat]

/-- What `getchar` makes of a byte. -/
def fetched (c : UInt8) : ℤ := if c ≤ 0 then -1 else (c.toNat : ℤ)

theorem fetched_eq (c b : UInt8) : fetched c = (b.toNat : ℤ) ↔ c ≠ 0 ∧ c = b := by
  have hzero : c ≤ 0 ↔ c = 0 := UInt8.le_zero_iff
  rw [fetched]
  split_ifs with hc
  · exact iff_of_false not_false fun h => h.1 (hzero.mp hc)
  · rw [Int.natCast_inj, UInt8.toNat_inj]
    exact ⟨fun h => ⟨fun h0 => hc (hzero.mpr h0), h⟩, fun h => h.2⟩

/-- A read without a byte is taken for the byte 255. -/
theorem getchar_none (s : Stream) : getchar none s = pure (255, s) := rfl

/-- The pointer goes on, and the byte at the index is returned. -/
theorem ensures_getchar (s : Stream) (b : UInt8) (Q : ℤ × Stream → Prop) :
    Ensures (fun _ => 1024) (getchar (some b) s) Q ↔
      s.ptr + 1 ≤ 1024 ∧ s.base + s.cnt + 1 ≤ 1024 ∧
        Q (fetched (Function.update s.buf s.ptr b (s.base + s.cnt)),
          { s with buf := Function.update s.buf s.ptr b, ptr := s.ptr + 1 }) := by
  simp only [getchar, readByte, ensures_bind, ensures_touch, ensures_pure, ofInt_char]
  rfl

theorem ensures_getchars_cons (byte : Option UInt8) (bytes : List (Option UInt8)) (s : Stream) :
    Ensures (fun _ => 1024) (getchars (byte :: bytes) s)
        (fun r => r.1 = (byte :: bytes).map streamed) ↔
      Ensures (fun _ => 1024) (getchar byte s) fun r => r.1 = streamed byte ∧
        Ensures (fun _ => 1024) (getchars bytes r.2) fun r => r.1 = bytes.map streamed := by
  simp only [getchars, ensures_bind, ensures_pure, List.map_cons, List.cons.injEq, ensures_const_and]

/-- Without a byte to return, the result is wrong. -/
theorem getchars_none (bytes : List (Option UInt8)) (s : Stream) :
    ¬ Ensures (fun _ => 1024) (getchars (none :: bytes) s)
      (fun r => r.1 = (none :: bytes).map streamed) := by
  rw [ensures_getchars_cons, getchar_none, ensures_pure]
  rintro ⟨hresult, -⟩
  have hwrong : (255 : ℤ) ≠ streamed none := by decide
  exact hwrong hresult

/-- Some bytes have been read, the first of which is `b`. -/
structure HasRead (s : Stream) (b : UInt8) : Prop where
  pos : 0 < s.ptr
  le : s.ptr ≤ 1024
  cnt : s.cnt = 0
  base : s.base = 0
  first : s.buf 0 = b

/-- From the second call on, the first byte is returned again. -/
theorem getchars_iff (h : HasRead s b) (hb : b ≠ 0) :
    Ensures (fun _ => 1024) (getchars bytes s) (fun r => r.1 = bytes.map streamed) ↔
      (∀ byte ∈ bytes, byte = some b) ∧ s.ptr + bytes.length ≤ 1024 := by
  induction bytes generalizing s with
  | nil =>
    rw [getchars, ensures_pure]
    exact iff_of_true rfl ⟨by simp, h.le⟩
  | cons byte bytes ih =>
    cases byte with
    | none => exact iff_of_false (getchars_none bytes s) fun hall => by simpa using hall.1 none
    | some c =>
      have hfirst : Function.update s.buf s.ptr c 0 = b := by
        rw [Function.update_of_ne (Nat.ne_of_lt h.pos), h.first]
      rw [ensures_getchars_cons, ensures_getchar, h.base, h.cnt, Nat.add_zero, hfirst, streamed,
        fetched_eq, List.forall_mem_cons, List.length_cons, Option.some_inj]
      constructor
      · rintro ⟨hle, -, ⟨-, rfl⟩, hrest⟩
        obtain ⟨hall, hlength⟩ := (ih ⟨Nat.succ_pos _, hle, rfl, rfl, hfirst⟩).mp hrest
        exact ⟨⟨rfl, hall⟩, by dsimp only at hlength; omega⟩
      · rintro ⟨⟨rfl, hall⟩, hlength⟩
        refine ⟨by omega, by omega, ⟨hb, rfl⟩, ?_⟩
        exact (ih ⟨Nat.succ_pos _, by dsimp only; omega, rfl, rfl, hfirst⟩).mpr
          ⟨hall, by dsimp only; omega⟩

theorem hasRead_first (buf : CString) (b : UInt8) : HasRead ⟨1, 0, 0, Function.update buf 0 b⟩ b :=
  ⟨Nat.one_pos, show 1 ≤ 1024 by decide, rfl, rfl, Function.update_self 0 b buf⟩

/-- The calls of `getchar` deliver the stream exactly if it is one byte again and again, at most 1024
times. -/
theorem deliversStream_iff (buf : CString) (bytes : List (Option UInt8)) :
    DeliversStream buf bytes ↔ OneByte bytes ∧ bytes.length ≤ 1024 := by
  unfold DeliversStream OneByte
  cases bytes with
  | nil =>
    rw [getchars, ensures_pure]
    exact iff_of_true rfl ⟨⟨1, by decide, by simp⟩, Nat.zero_le _⟩
  | cons byte bytes =>
    cases byte with
    | none =>
      refine iff_of_false (getchars_none bytes _) fun hall => ?_
      obtain ⟨⟨b, -, hall⟩, -⟩ := hall
      simpa using hall none
    | some b =>
      have hfirst : Function.update buf 0 b 0 = b := Function.update_self 0 b buf
      rw [ensures_getchars_cons, ensures_getchar]
      simp only [initStdio, Nat.add_zero, Nat.zero_add, hfirst, streamed, fetched_eq]
      constructor
      · rintro ⟨-, -, ⟨hb, -⟩, hrest⟩
        obtain ⟨hall, hlength⟩ := (getchars_iff (hasRead_first buf b) hb).mp hrest
        refine ⟨⟨b, hb, ?_⟩, by rw [List.length_cons]; dsimp only at hlength; omega⟩
        exact List.forall_mem_cons.mpr ⟨rfl, hall⟩
      · rintro ⟨⟨b', hb', hall⟩, hlength⟩
        obtain ⟨hhead, hrest⟩ := List.forall_mem_cons.mp hall
        obtain rfl := Option.some.inj hhead
        rw [List.length_cons] at hlength
        refine ⟨by decide, by decide, ⟨hb', trivial⟩,
          (getchars_iff (hasRead_first buf b) hb').mpr ⟨hrest, ?_⟩⟩
        dsimp only
        omega

/-- The second call returns the first byte again. -/
theorem getchar_repeats :
    ¬ ∀ (buf : CString) (bytes : List (Option UInt8)), DeliversStream buf bytes := by
  intro h
  have hdelivers := h (fun _ => 0) [some 65, some 66]
  rw [DeliversStream, ensures_getchars_cons, ensures_getchar] at hdelivers
  obtain ⟨-, -, -, hrest⟩ := hdelivers
  obtain ⟨hall, -⟩ := (getchars_iff (hasRead_first (fun _ => 0) 65) (by decide)).mp hrest
  exact absurd (hall (some 66) (by decide)) (by decide)

end Input

end DosKernel.Userland
