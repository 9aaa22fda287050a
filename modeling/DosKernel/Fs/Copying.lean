import DosKernel.Fs.Readers

/-! Readers that copy from blocks holding a file. A read gives the file where it
starts at a block boundary or stays inside a block; any other read takes bytes from
behind the buffer. -/

namespace DosKernel

open Lib

/-- The sizes `read` can be asked for: a positive `int`. -/
def Asked (n : ℕ) : Prop := 0 < n ∧ n < 2147483648

instance (n : ℕ) : Decidable (Asked n) := inferInstanceAs (Decidable (_ ∧ _))

/-- A read that stays below 4 GiB, and starts at a block boundary or stays inside
one block. -/
def ReadFits (size blockSize offset count : ℕ) : Prop :=
  offset + count < word32 ∧
    (offset % blockSize = 0 ∨ offset % blockSize + min count (size - offset) ≤ blockSize)

instance (size blockSize offset count : ℕ) : Decidable (ReadFits size blockSize offset count) :=
  inferInstanceAs (Decidable (_ ∧ _))

/-- The bytes a read returns: the first ones of the buffer, as many as it says. -/
def returned (r : ℤ × List UInt8) : List UInt8 := r.2.take r.1.toNat

/-- What a read of `n` bytes makes of the offset of a descriptor. -/
def advanced (offset n : ℕ) : ℕ := if n = 0 then offset else (offset + n) % word32

theorem advanced_eq {size offset n : ℕ} (hsize : size < word32) (h : offset + n ≤ size) :
    advanced offset n = offset + n := by
  rw [advanced]
  split_ifs with h0
  · omega
  · exact Nat.mod_eq_of_lt (by omega)

theorem advanced_le (o n : ℕ) : advanced o n ≤ o + n := by
  rw [advanced]
  split_ifs
  · exact Nat.le_add_right o n
  · exact Nat.mod_le _ _

theorem clip_le (size count offset : ℕ) : clip size count offset ≤ count := by
  have hmod := Nat.mod_le (offset + count) word32
  rw [clip]
  split_ifs <;> omega

theorem clip_min {size count offset n : ℕ} (hsize : size < word32) (h : offset + count ≤ n) :
    clip (min size n) count offset = clip size count offset := by
  rcases Nat.le_total size n with hle | hle
  · rw [min_eq_left hle]
  · rw [min_eq_right hle, clip, clip, Nat.mod_eq_of_lt (by omega), if_neg (by omega),
      if_neg (by omega)]

theorem clip_eq {size count offset : ℕ} (hlt : offset < size) (h : offset + count < word32) :
    clip size count offset = min count (size - offset) := by
  rw [clip, Nat.mod_eq_of_lt h]
  split_ifs <;> omega

theorem clip_of_wrap {size count offset : ℕ} (hsize : size < word32) (hcount : count < word32)
    (hlt : offset < size) (h : word32 ≤ offset + count) : clip size count offset = count := by
  have hmod : (offset + count) % word32 = offset + count - word32 := by
    rw [Nat.mod_eq_sub_mod h, Nat.mod_eq_of_lt]
    simp only [word32] at *
    omega
  rw [clip, hmod, if_neg]
  simp only [word32] at *
  omega

theorem result_of_ok {c : Copied UInt8} (hok : c.ok = true) (h : c.stored.length < 2147483648) :
    copyResult c = ((c.stored.length : ℤ), c.stored) := by
  have hbmod : Int.bmod (c.stored.length : ℤ) word32 = c.stored.length :=
    Int.bmod_eq_of_le_mul_two (by rw [word32]; omega) (by rw [word32]; omega)
  rw [copyResult, if_pos hok, hbmod]

theorem copyResult_toNat_le (c : Copied UInt8) : (copyResult c).1.toNat ≤ (copyResult c).2.length := by
  simp only [copyResult, eio, Int.bmod, word32]
  split_ifs <;> omega

theorem returned_result {c : Copied UInt8} (hok : c.ok = true)
    (h : c.stored.length < 2147483648) : returned (copyResult c) = c.stored := by
  rw [result_of_ok hok h, returned]
  simp

/-! ### Readers that copy from blocks -/

theorem exists_byte_ne (b : UInt8) : ∃ v, v ≠ b := by
  rcases eq_or_ne b 0 with rfl | h
  · exact ⟨1, by decide⟩
  · exact ⟨0, h.symm⟩

/-- Where a reader of blocks finds them. With `t` the memory behind its buffer, the
blocks for a read of `n` bytes at `o` hold the file from the block of `o` on. -/
structure BlockSource (size blockSize : ℕ) (byteAt : ℕ → UInt8)
    (blocks : (t : ℕ → UInt8) → (count offset : ℕ) → List (Option (ℕ → UInt8))) : Prop where
  block_pos : 0 < blockSize
  size_lt : size < word32
  holds : ∀ t n o, 0 < n → o + n ≤ size →
    Holds blockSize byteAt (o - o % blockSize) (o % blockSize + n) (blocks t n o)
  behind : ∀ t n o block, (blocks t n o)[0]? = some (some block) → block blockSize = t 0
  wraps : ∀ t n o, Asked n → o < size → word32 ≤ o + n →
    ∀ k, k * blockSize < n → ∃ block, (blocks t n o)[k]? = some (some block)

/-- The copy of such a reader. -/
def copyOf (size blockSize : ℕ)
    (blocks : (t : ℕ → UInt8) → (count offset : ℕ) → List (Option (ℕ → UInt8)))
    (t : ℕ → UInt8) (count offset : ℕ) : Copied UInt8 :=
  copyBlocks blockSize (offset % blockSize) (blocks t (clip size count offset) offset)
    (clip size count offset)

namespace BlockSource
variable {size blockSize : ℕ} {byteAt : ℕ → UInt8}
  {blocks : (t : ℕ → UInt8) → (count offset : ℕ) → List (Option (ℕ → UInt8))}
  (h : BlockSource size blockSize byteAt blocks) (t : ℕ → UInt8) {n o : ℕ}
include h

/-- The copy finds all its blocks, also when it goes wrong. -/
theorem copyOf_full (hn : Asked n) (ho : o < size) :
    (copyOf size blockSize blocks t n o).left = 0 ∧
      (copyOf size blockSize blocks t n o).ok = true := by
  rcases Nat.lt_or_ge (o + n) word32 with hlt | hge
  · rw [copyOf, clip_eq ho hlt]
    refine copyBlocks_full fun k hk => ?_
    obtain ⟨block, hget, -⟩ := h.holds t (min n (size - o)) o (by have := hn.1; omega) (by omega) k
      (by omega)
    exact ⟨block, hget⟩
  · rw [copyOf, clip_of_wrap h.size_lt (hn.2.trans (by decide)) ho hge]
    exact copyBlocks_full (h.wraps t n o hn ho hge)

theorem copyOf_length (hn : Asked n) (ho : o < size) :
    (copyOf size blockSize blocks t n o).stored.length = clip size n o := by
  have htotal := copyBlocks_stored_le blockSize (o % blockSize) (blocks t (clip size n o) o)
    (clip size n o)
  have hleft := (h.copyOf_full t hn ho).1
  rw [copyOf] at hleft ⊢
  omega

theorem returned_copyOf (hn : Asked n) (ho : o < size) :
    returned (copyResult (copyOf size blockSize blocks t n o)) =
      (copyOf size blockSize blocks t n o).stored :=
  returned_result (h.copyOf_full t hn ho).2 (by
    rw [h.copyOf_length t hn ho]
    exact (clip_le _ _ _).trans_lt hn.2)

theorem copyOf_eq (hn : Asked n) (ho : o < size) (hfit : ReadFits size blockSize o n) :
    (copyOf size blockSize blocks t n o).stored = slice byteAt o (min n (size - o)) := by
  have hpos := hn.1
  rw [copyOf, clip_eq ho hfit.1, copyBlocks_eq hfit.2 (h.holds t _ o (by omega) (by omega)),
    Nat.sub_add_cancel (Nat.mod_le _ _)]

/-- A read that does not fit gives a byte from behind the buffer, or more bytes than
the file has left. -/
theorem not_prefix_copyOf (hn : Asked n) (ho : o < size) (hfit : ¬ ReadFits size blockSize o n) :
    ∃ t, ¬ (copyOf size blockSize blocks t n o).stored <+: slice byteAt o (size - o) := by
  have hpos := hn.1
  rcases Nat.lt_or_ge (o + n) word32 with hlt | hge
  · have hcross : ¬ (o % blockSize = 0 ∨ o % blockSize + min n (size - o) ≤ blockSize) :=
      fun hf => hfit ⟨hlt, hf⟩
    have hmod := Nat.mod_lt o h.block_pos
    obtain ⟨v, hv⟩ := exists_byte_ne (byteAt (o + (blockSize - o % blockSize)))
    refine ⟨fun _ => v, fun hpre => hv ?_⟩
    obtain ⟨block, hget, -⟩ := h.holds (fun _ => v) (min n (size - o)) o (by omega) (by omega) 0
      (by omega)
    have hbehind := h.behind _ _ _ block hget
    obtain ⟨bs, hbs⟩ : ∃ bs, blocks (fun _ => v) (min n (size - o)) o = some block :: bs := by
      rcases hb : blocks (fun _ => v) (min n (size - o)) o with _ | ⟨b, bs⟩
      · rw [hb] at hget
        cases hget
      · rw [hb] at hget
        exact ⟨bs, by simpa using hget⟩
    rw [copyOf, clip_eq ho hlt, hbs] at hpre
    have hval := copyBlocks_behind block bs (by omega) hmod (by omega :
      blockSize < o % blockSize + min n (size - o))
    obtain ⟨rest, hrest⟩ := hpre
    have hread := slice_getElem? byteAt (s := o) (n := size - o) (k := blockSize - o % blockSize)
      (by omega)
    rw [← hrest, List.getElem?_append_left (List.getElem?_eq_some_iff.mp hval).1, hval,
      hbehind] at hread
    exact Option.some.inj hread
  · refine ⟨fun _ => 0, fun hpre => ?_⟩
    have hle := hpre.length_le
    rw [h.copyOf_length _ hn ho, clip_of_wrap h.size_lt (hn.2.trans (by decide)) ho hge, slice_length] at hle
    have := h.size_lt
    omega

/-- Such a reader reads the file where its reads fit. -/
theorem reader : Reader Asked (ReadFits size blockSize) byteAt size fun t n o =>
    returned (if size ≤ o then (0, []) else copyResult (copyOf size blockSize blocks t n o)) where
  past := by
    intro t n o ho
    rw [if_pos ho]
    rfl
  fit := by
    intro t n o hn ho hfit
    rw [if_neg (by omega), h.returned_copyOf t hn ho, h.copyOf_eq t hn ho hfit]
  unfit := by
    intro n o hn ho hfit
    obtain ⟨t, ht⟩ := h.not_prefix_copyOf hn ho hfit
    exact ⟨t, by rwa [if_neg (by omega), h.returned_copyOf t hn ho]⟩

end BlockSource

end DosKernel
