import DosKernel.Fs.Paths
import DosKernel.Libc.Strings

/-! The tokens of a string. `strtok` stores a 0 over the delimiter behind a token and remembers where
the string goes on, until it has come to the end of the string; the tokens stay where they are cut. -/

namespace DosKernel.Libc

open CString

/-! ### The code -/

/-- The memory and the static variable `last`; `NULL` is 0. -/
structure Tokenizer where
  mem : CString
  last : ℕ

namespace Tokenizer

/-- The loop of `strtok` over the delimiters: the character is one of them. -/
def isDelimiterFrom (m : CString) (delimiters : ℕ) (c : UInt8) : (fuel j : ℕ) → Bool
  | 0, _ => false
  | fuel + 1, j =>
    if m (delimiters + j) = 0 then false
    else if c = m (delimiters + j) then true
    else isDelimiterFrom m delimiters c fuel (j + 1)

/-- The loop over the string: the place where a token ends. -/
def tokenEnd (m : CString) (str delimiters : ℕ) : (fuel i : ℕ) → ℕ
  | 0, i => i
  | fuel + 1, i =>
    if m (str + i) = 0 then i
    else if isDelimiterFrom m delimiters (m (str + i)) word32 0 then i
    else tokenEnd m str delimiters fuel (i + 1)

def strtok (s : Tokenizer) (str delimiters : ℕ) : ℕ × Tokenizer :=
  let str := if str = 0 then s.last else str
  if str = 0 then (0, s)
  else
    let i := tokenEnd s.mem str delimiters word32 0
    if s.mem (str + i) = 0 then (str, { s with last := 0 })
    else (str, ⟨Function.update s.mem (str + i) 0, str + i + 1⟩)

/-- A call for a string and more calls for `NULL`: what they return. -/
def strtokCalls (delimiters : ℕ) : (n str : ℕ) → Tokenizer → List ℕ × Tokenizer
  | 0, _, s => ([], s)
  | n + 1, str, s =>
    let first := s.strtok str delimiters
    let rest := strtokCalls delimiters n 0 first.2
    (first.1 :: rest.1, rest.2)

end Tokenizer

/-! ### What is to be returned -/

/-- The pieces of a string between two delimiters. -/
def segments (delimiters l : List UInt8) : List (List UInt8) := l.splitOnP (· ∈ delimiters)

/-- The pointers lead to the pieces, which lie one behind the other from an address on; and when there
are no more, they are `NULL`. -/
def PointTo (m : CString) : (p : ℕ) → List (List UInt8) → List ℕ → Prop
  | _, _, [] => True
  | p, [], r :: rs => r = 0 ∧ PointTo m p [] rs
  | p, t :: ts, r :: rs => r = p ∧ Rest m p t ∧ PointTo m (p + t.length + 1) ts rs

/-! ### A token -/

namespace Tokenizer
variable {s : Tokenizer} {m m' : CString} {l t rest ds : List UInt8} {c : UInt8}
  {str d p i j n fuel : ℕ}

theorem isDelimiterFrom_eq (hd : Rest m (d + j) ds) (hds : NonZero ds) (hfuel : ds.length < fuel) :
    isDelimiterFrom m d c fuel j = true ↔ c ∈ ds := by
  induction ds generalizing j fuel with
  | nil =>
    obtain ⟨fuel, rfl⟩ := Nat.exists_eq_add_one.mpr hfuel
    rw [isDelimiterFrom, if_pos hd.ends]
    exact iff_of_false (by decide) List.not_mem_nil
  | cons c' ds ih =>
    obtain ⟨fuel, rfl⟩ := Nat.exists_eq_add_one.mpr (Nat.zero_lt_of_lt hfuel)
    have hhead : m (d + j) = c' := hd.head
    rw [isDelimiterFrom, hhead, if_neg (hds c' List.mem_cons_self), List.mem_cons]
    split_ifs with hc
    · exact iff_of_true rfl (.inl hc)
    · rw [or_iff_right hc]
      exact ih hd.tail (fun c hc => hds c (List.mem_cons_of_mem _ hc)) (Nat.lt_of_succ_lt_succ hfuel)

/-- A token ends in front of the first delimiter, or with the string. -/
theorem tokenEnd_eq (hstr : Rest m (str + i) (t ++ rest)) (ht : NonZero t) (hfree : ∀ x ∈ t, x ∉ ds)
    (hrest : ∀ x ∈ rest.head?, x ∈ ds) (hd : Rest m d ds) (hds : NonZero ds) (hlen : ds.length < word32)
    (hfuel : t.length < fuel) : tokenEnd m str d fuel i = i + t.length := by
  have hdelimiter : ∀ c, isDelimiterFrom m d c word32 0 = true ↔ c ∈ ds := fun c =>
    isDelimiterFrom_eq hd hds hlen
  induction t generalizing i fuel with
  | nil =>
    obtain ⟨fuel, rfl⟩ := Nat.exists_eq_add_one.mpr hfuel
    rw [tokenEnd]
    cases rest with
    | nil =>
      rw [if_pos hstr.ends]
      rfl
    | cons c rest =>
      have hc : isDelimiterFrom m d (m (str + i)) word32 0 = true := by
        rw [hdelimiter, hstr.head]
        exact hrest c rfl
      rw [if_pos hc, ite_self]
      rfl
  | cons c t ih =>
    obtain ⟨fuel, rfl⟩ := Nat.exists_eq_add_one.mpr (Nat.zero_lt_of_lt hfuel)
    have hhead : m (str + i) = c := hstr.head
    have hc : ¬ isDelimiterFrom m d c word32 0 = true := by
      rw [hdelimiter]
      exact hfree c List.mem_cons_self
    rw [tokenEnd, hhead, if_neg (ht c List.mem_cons_self), if_neg hc,
      ih hstr.tail (fun x hx => ht x (List.mem_cons_of_mem _ hx))
        (fun x hx => hfree x (List.mem_cons_of_mem _ hx)) (Nat.lt_of_succ_lt_succ hfuel),
      List.length_cons]
    omega

/-- Behind the last token there is nothing to cut. -/
theorem strtok_null (hp : (if str = 0 then s.last else str) = 0) : s.strtok str d = (0, s) := by
  rw [strtok, hp]
  exact if_pos rfl

/-- The last token: the rest of the string, behind which there are no more. -/
theorem strtok_last (hp : (if str = 0 then s.last else str) = p) (h0 : p ≠ 0) (hstr : Rest s.mem p l)
    (hl : NonZero l) (hfree : ∀ x ∈ l, x ∉ ds) (hd : Rest s.mem d ds) (hds : NonZero ds)
    (hlen : l.length < word32) (hdlen : ds.length < word32) :
    s.strtok str d = (p, { s with last := 0 }) := by
  have hrest : Rest s.mem (p + 0) (l ++ []) := by rwa [List.append_nil]
  have hend : tokenEnd s.mem p d word32 0 = 0 + l.length :=
    tokenEnd_eq hrest hl hfree (by simp) hd hds hdlen hlen
  have hzero : s.mem (p + l.length) = 0 := hstr.end_eq
  rw [strtok, hp]
  dsimp only
  rw [if_neg h0, hend, Nat.zero_add, if_pos hzero]

theorem strtok_cut (hp : (if str = 0 then s.last else str) = p) (h0 : p ≠ 0)
    (hstr : Rest s.mem p (t ++ c :: rest)) (hl : NonZero (t ++ c :: rest)) (hfree : ∀ x ∈ t, x ∉ ds)
    (hc : c ∈ ds) (hd : Rest s.mem d ds) (hds : NonZero ds)
    (hlen : (t ++ c :: rest).length < word32) (hdlen : ds.length < word32) :
    s.strtok str d = (p, ⟨Function.update s.mem (p + t.length) 0, p + t.length + 1⟩) := by
  obtain ⟨ht, hcrest⟩ := List.forall_mem_append.mp hl
  rw [List.length_append] at hlen
  have hend : tokenEnd s.mem p d word32 0 = 0 + t.length :=
    tokenEnd_eq hstr ht hfree (fun x hx => by rwa [← Option.some.inj hx]) hd hds hdlen (by omega)
  have hchar : s.mem (p + t.length) = c := hstr.append.head
  rw [strtok, hp]
  dsimp only
  rw [if_neg h0, hend, Nat.zero_add, hchar, if_neg (hcrest c List.mem_cons_self)]

/-! ### All tokens -/

/-- The string and the delimiters lie at two places of the memory. -/
structure Placed (m : CString) (str d : ℕ) (l ds : List UInt8) : Prop where
  text : Rest m str l
  ne_zero : str ≠ 0
  delimiters : Rest m d ds
  disjoint : str + l.length < d ∨ d + ds.length < str

theorem Placed.cut (h : Placed m p d (t ++ c :: rest) ds) :
    Placed (Function.update m (p + t.length) 0) (p + t.length + 1) d rest ds := by
  have hdisjoint := h.disjoint
  rw [List.length_append, List.length_cons] at hdisjoint
  refine ⟨fun j hj => ?_, Nat.succ_ne_zero _, fun j hj => ?_, by omega⟩
  · dsimp only
    rw [Function.update_of_ne (by omega)]
    exact h.text.append.tail j hj
  · dsimp only
    rw [Function.update_of_ne (by omega)]
    exact h.delimiters j hj

/-- The token is cut off where the delimiter was. -/
theorem Placed.token (h : Placed m p d (t ++ c :: rest) ds)
    (hkeep : ∀ x < p + t.length + 1, m' x = Function.update m (p + t.length) 0 x) : Rest m' p t := by
  intro j hj
  dsimp only
  rw [hkeep _ (by omega)]
  rcases hj.lt_or_eq with hlt | rfl
  · have hchar := (isString_append.mp h.text).1 j hlt
    rw [Function.update_of_ne (by omega)]
    exact hchar
  · rw [Function.update_self, List.getD_eq_default _ _ le_rfl]

/-- Behind the last token all calls return `NULL`. -/
theorem strtokCalls_end (hlast : s.last = 0) (p : ℕ) : (strtokCalls d n 0 s).2 = s ∧
    ∀ m, PointTo m p [] (strtokCalls d n 0 s).1 := by
  induction n generalizing p with
  | zero => exact ⟨rfl, fun _ => trivial⟩
  | succ n ih =>
    rw [strtokCalls]
    dsimp only
    rw [strtok_null ((if_pos rfl).trans hlast)]
    exact ⟨(ih p).1, fun m => ⟨rfl, (ih p).2 m⟩⟩

theorem exists_first_delimiter (ds l : List UInt8) :
    (∀ x ∈ l, x ∉ ds) ∨ ∃ t c rest, l = t ++ c :: rest ∧ (∀ x ∈ t, x ∉ ds) ∧ c ∈ ds := by
  induction l with
  | nil => exact .inl fun x hx => absurd hx List.not_mem_nil
  | cons x l ih =>
    by_cases hx : x ∈ ds
    · exact .inr ⟨[], x, l, rfl, fun y hy => absurd hy List.not_mem_nil, hx⟩
    · rcases ih with hfree | ⟨t, c, rest, rfl, hfree, hc⟩
      · exact .inl (List.forall_mem_cons.mpr ⟨hx, hfree⟩)
      · exact .inr ⟨x :: t, c, rest, rfl, List.forall_mem_cons.mpr ⟨hx, hfree⟩, hc⟩

/-- The calls for a string, and what they leave of the memory in front of it. -/
theorem strtokCalls_spec (hp : (if str = 0 then s.last else str) = p) (h : Placed s.mem p d l ds)
    (hl : NonZero l) (hds : NonZero ds) (hlen : l.length < word32) (hdlen : ds.length < word32) :
    PointTo (strtokCalls d n str s).2.mem p (segments ds l) (strtokCalls d n str s).1 ∧
      ∀ x < p, (strtokCalls d n str s).2.mem x = s.mem x := by
  induction n generalizing s str p l with
  | zero => exact ⟨trivial, fun _ _ => rfl⟩
  | succ n ih =>
    rw [strtokCalls]
    dsimp only
    rcases exists_first_delimiter ds l with hfree | ⟨t, c, rest, rfl, hfree, hc⟩
    · rw [strtok_last hp h.ne_zero h.text hl hfree h.delimiters hds hlen hdlen]
      have hsegments : segments ds l = [l] :=
        List.splitOnP_eq_singleton fun x hx => by simpa using hfree x hx
      obtain ⟨hsame, hnull⟩ := strtokCalls_end (s := { s with last := 0 }) (d := d) (n := n) rfl
        (p + l.length + 1)
      dsimp only
      rw [hsegments, hsame]
      exact ⟨⟨rfl, h.text, hnull _⟩, fun _ _ => rfl⟩
    · rw [strtok_cut hp h.ne_zero h.text hl hfree hc h.delimiters hds hlen hdlen]
      have hsegments : segments ds (t ++ c :: rest) = t :: segments ds rest :=
        List.splitOnP_append_cons_of_forall_mem (fun x hx => by simpa using hfree x hx) c
          (by simpa using hc) rest
      have hrest : NonZero rest := fun x hx =>
        hl x (List.mem_append_right t (List.mem_cons_of_mem c hx))
      have hresume : (if 0 = 0 then p + t.length + 1 else 0) = p + t.length + 1 := if_pos rfl
      rw [List.length_append, List.length_cons] at hlen
      obtain ⟨hpoint, hkeep⟩ := ih (s := ⟨Function.update s.mem (p + t.length) 0, p + t.length + 1⟩)
        hresume h.cut hrest (by omega)
      rw [hsegments]
      refine ⟨⟨rfl, h.token hkeep, hpoint⟩, fun x hx => ?_⟩
      dsimp only at hkeep ⊢
      rw [hkeep x (by omega), Function.update_of_ne (by omega)]

@[simp] theorem strtokCalls_length (d n str : ℕ) (s : Tokenizer) :
    (strtokCalls d n str s).1.length = n := by
  induction n generalizing str s with
  | zero => rfl
  | succ n ih => exact congrArg Nat.succ (ih _ _)

/-! ### Tokens of a path -/

def charByte (c : Char) : UInt8 := UInt8.ofNat c.toNat

/-- A pointer to a path, which is cut at slashes, or `NULL`. -/
def Represents (m : CString) (d p : ℕ) : Option (List Char) → Prop
  | none => p = 0
  | some cs => Placed m p d (cs.map charByte) [charByte '/'] ∧ (∀ c ∈ cs, 0 < c.toNat ∧ c.toNat < 256) ∧
      cs.length < word32

theorem charByte_slash {c : Char} (h : c.toNat < 256) : charByte c = charByte '/' ↔ c = '/' := by
  constructor
  · intro heq
    have hnat : c.toNat % 2 ^ 8 = '/'.toNat % 2 ^ 8 := by
      rw [← UInt8.toNat_ofNat', ← UInt8.toNat_ofNat']
      exact congrArg UInt8.toNat heq
    rw [Nat.mod_eq_of_lt (show c.toNat < 2 ^ 8 from h)] at hnat
    exact Char.toNat_inj.mp hnat
  · exact congrArg charByte

theorem map_charByte_nonZero {cs : List Char} (h : ∀ c ∈ cs, 0 < c.toNat ∧ c.toNat < 256) :
    NonZero (cs.map charByte) := by
  intro b hb
  obtain ⟨c, hc, rfl⟩ := List.mem_map.mp hb
  obtain ⟨hpos, hlt⟩ := h c hc
  intro hzero
  have hnat : c.toNat % 2 ^ 8 = 0 := by
    rw [← UInt8.toNat_ofNat']
    exact congrArg UInt8.toNat hzero
  omega

theorem vfs_strtok_last {cs last : Option (List Char)} {path : List Char} (h : cs.or last = some path)
    (hslash : '/' ∉ path) : Vfs.strtok cs last '/' = (some path, none) := by
  have hdrop : path.dropWhile (fun c => decide (c ≠ '/')) = [] :=
    List.dropWhile_eq_nil_iff.mpr fun c hc => decide_eq_true fun he => hslash (he ▸ hc)
  simp only [Vfs.strtok, h, hdrop]

theorem vfs_strtok_cut {cs last : Option (List Char)} {front back : List Char}
    (h : cs.or last = some (front ++ '/' :: back)) (hslash : '/' ∉ front) :
    Vfs.strtok cs last '/' = (some front, some back) := by
  have hfront : ∀ c ∈ front, decide (c ≠ '/') = true := fun c hc =>
    decide_eq_true fun he => hslash (he ▸ hc)
  have hdrop : (front ++ '/' :: back).dropWhile (fun c => decide (c ≠ '/')) = '/' :: back := by
    rw [List.dropWhile_append_of_pos hfront, List.dropWhile_cons_of_neg (by decide)]
  have htake : (front ++ '/' :: back).takeWhile (fun c => decide (c ≠ '/')) = front := by
    rw [List.takeWhile_append_of_pos hfront, List.takeWhile_cons_of_neg (by decide), List.append_nil]
  simp only [Vfs.strtok, h, hdrop, htake]

/-- A path without slashes has none in the memory. -/
theorem slash_notMem_map {path : List Char} (hbytes : ∀ c ∈ path, 0 < c.toNat ∧ c.toNat < 256)
    (hslash : '/' ∉ path) : ∀ b ∈ path.map charByte, b ∉ [charByte '/'] := by
  intro b hb
  obtain ⟨c, hc, rfl⟩ := List.mem_map.mp hb
  rw [List.mem_singleton, charByte_slash (hbytes c hc).2]
  exact fun he => hslash (he ▸ hc)

/-- The call on a path in the memory does what the one on lists does. -/
theorem strtok_refines {cs last : Option (List Char)} (hp : (if str = 0 then s.last else str) = p)
    (h : Represents s.mem d p (cs.or last)) :
    (s.strtok str d).1 = (if (Vfs.strtok cs last '/').1.isSome then p else 0) ∧
      (∀ t ∈ (Vfs.strtok cs last '/').1, Rest (s.strtok str d).2.mem p (t.map charByte)) ∧
        Represents (s.strtok str d).2.mem d (s.strtok str d).2.last (Vfs.strtok cs last '/').2 := by
  have hdelimiter : NonZero [charByte '/'] := by decide
  cases hcs : cs.or last with
  | none =>
    rw [hcs] at h
    obtain rfl : p = 0 := h
    have hlast : s.last = 0 := by
      split_ifs at hp with hstr
      · exact hp
      · exact absurd hp hstr
    have hvfs : Vfs.strtok cs last '/' = (none, none) := by simp only [Vfs.strtok, hcs]
    rw [strtok_null hp, hvfs]
    exact ⟨rfl, fun t ht => absurd ht (by simp), hlast⟩
  | some path =>
    rw [hcs] at h
    obtain ⟨hplaced, hbytes, hlen⟩ := h
    have hnonZero := map_charByte_nonZero hbytes
    by_cases hslash : '/' ∈ path
    · obtain ⟨front, back, rfl, hfirst⟩ := List.eq_append_cons_of_mem hslash
      obtain ⟨hfbytes, hbbytes⟩ := List.forall_mem_append.mp hbytes
      rw [List.map_append, List.map_cons] at hplaced hnonZero
      rw [vfs_strtok_cut hcs hfirst, strtok_cut hp hplaced.ne_zero hplaced.text hnonZero
        (slash_notMem_map hfbytes hfirst) (List.mem_singleton_self _) hplaced.delimiters hdelimiter
        (by simpa using hlen) (by decide)]
      refine ⟨rfl, fun t ht => ?_, hplaced.cut, fun c hc => hbbytes c (List.mem_cons_of_mem _ hc), ?_⟩
      · obtain rfl := Option.some.inj ht
        exact hplaced.token fun x _ => rfl
      · rw [List.length_append, List.length_cons] at hlen
        omega
    · rw [vfs_strtok_last hcs hslash, strtok_last hp hplaced.ne_zero hplaced.text hnonZero
        (slash_notMem_map hbytes hslash) hplaced.delimiters hdelimiter (by rwa [List.length_map])
        (by decide)]
      refine ⟨rfl, fun t ht => ?_, rfl⟩
      obtain rfl := Option.some.inj ht
      exact hplaced.text

end Tokenizer

/-- However often `strtok` is called for a string, it returns its pieces between the delimiters one after
the other, and then `NULL`. -/
theorem strtok_segments {m : CString} {str d : ℕ} {l ds : List UInt8}
    (h : Tokenizer.Placed m str d l ds) (hl : NonZero l) (hds : NonZero ds) (hlen : l.length < word32)
    (hdlen : ds.length < word32) (last n : ℕ) :
    (Tokenizer.strtokCalls d n str ⟨m, last⟩).1.length = n ∧
      PointTo (Tokenizer.strtokCalls d n str ⟨m, last⟩).2.mem str (segments ds l)
        (Tokenizer.strtokCalls d n str ⟨m, last⟩).1 :=
  ⟨Tokenizer.strtokCalls_length d n str _,
    (Tokenizer.strtokCalls_spec (if_neg h.ne_zero) h hl hds hlen hdlen).1⟩

/-- `a,,b` at 16 and `,` at 32. -/
def commas : CString := fun i => ([97, 44, 44, 98].getD (i - 16) 0) ||| (if i = 32 then 44 else 0)

theorem strtok_segments_commas :
    PointTo (Tokenizer.strtokCalls 32 5 16 ⟨commas, 0⟩).2.mem 16 [[97], [], [98]]
      (Tokenizer.strtokCalls 32 5 16 ⟨commas, 0⟩).1 := by
  have hplaced : Tokenizer.Placed commas 16 32 [97, 44, 44, 98] [44] :=
    ⟨show ∀ i ≤ 4, commas (16 + i) = [97, 44, 44, 98].getD i 0 by decide, by decide,
      show ∀ i ≤ 1, commas (32 + i) = [44].getD i 0 by decide, by decide⟩
  have hsegments : segments [44] [97, 44, 44, 98] = [[97], [], [98]] := by decide
  have hl : NonZero [97, 44, 44, 98] := by decide
  have hds : NonZero [44] := by decide
  rw [← hsegments]
  exact (strtok_segments hplaced hl hds (by decide) (by decide) 0 5).2

end DosKernel.Libc
