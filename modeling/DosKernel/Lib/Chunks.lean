import Mathlib.Data.List.Basic
import Mathlib.Tactic.Ring

/-! Reading a sequence block by block and chunk by chunk. `copyBlocks` is the
loop that takes every block from the same inner offset on; `chunks` is the
caller that asks for one chunk after the other from where the last one ended. -/

namespace DosKernel.Lib

variable {α : Type*}

/-- The values of `f` at `s, …, s + n - 1`. -/
def slice (f : ℕ → α) (s n : ℕ) : List α := (List.range' s n).map f

@[simp] theorem slice_length (f : ℕ → α) (s n : ℕ) : (slice f s n).length = n := by
  simp [slice]

@[simp] theorem slice_zero (f : ℕ → α) (s : ℕ) : slice f s 0 = [] := rfl

theorem slice_append (f : ℕ → α) (s m n : ℕ) :
    slice f s m ++ slice f (s + m) n = slice f s (m + n) := by
  simp only [slice, ← List.map_append, List.range'_append_1]

theorem take_slice (f : ℕ → α) (s m n : ℕ) : (slice f s n).take m = slice f s (min m n) := by
  refine List.ext_getElem (by simp) fun k _ _ => ?_
  simp [slice]

theorem slice_congr {f g : ℕ → α} {s t n : ℕ} (h : ∀ k < n, f (s + k) = g (t + k)) :
    slice f s n = slice g t n := by
  refine List.ext_getElem (by simp) fun k hk _ => ?_
  have hk' : k < n := by simpa using hk
  simpa [slice] using h k hk'

theorem slice_getElem? (f : ℕ → α) {s n k : ℕ} (h : k < n) : (slice f s n)[k]? = some (f (s + k)) := by
  simp [slice, h]

/-- What a copy has stored, how much is left to copy, and whether every block so
far could be read. -/
structure Copied (α : Type*) where
  stored : List α
  left : ℕ
  ok : Bool

/-- A copy in two parts: the `toRead - off` values from `off` on, or all of them when
`off` is not below `toRead`, and then the rest from where the first part ended. -/
def copyParts (block : ℕ → α) (off toRead : ℕ) : List α :=
  let len := if off < toRead then toRead - off else toRead
  slice block off len ++ slice block (off + len) (toRead - len)

theorem copyParts_eq (block : ℕ → α) (off toRead : ℕ) :
    copyParts block off toRead = slice block off toRead := by
  rw [copyParts, slice_append]
  congr 1
  split <;> omega

/-- The copy loop: each pass reads a block and takes `min count size` values of it
from `off` on. A block may hold more than `size` values. -/
def copyBlocks (size off : ℕ) : List (Option (ℕ → α)) → (count : ℕ) → Copied α
  | [], count => ⟨[], count, true⟩
  | b :: bs, count =>
    if count = 0 then ⟨[], 0, true⟩
    else
      match b with
      | none => ⟨[], count, false⟩
      | some block =>
        let toRead := min count size
        let rest := copyBlocks size off bs (count - toRead)
        ⟨copyParts block off toRead ++ rest.stored, rest.left, rest.ok⟩

@[simp] theorem copyBlocks_zero (size off : ℕ) (bs : List (Option (ℕ → α))) :
    copyBlocks size off bs 0 = ⟨[], 0, true⟩ := by
  cases bs <;> rfl

theorem copyBlocks_cons (size off : ℕ) (block : ℕ → α) (bs : List (Option (ℕ → α))) {count : ℕ}
    (h : 0 < count) :
    copyBlocks size off (some block :: bs) count =
      ⟨slice block off (min count size) ++ (copyBlocks size off bs (count - min count size)).stored,
        (copyBlocks size off bs (count - min count size)).left,
        (copyBlocks size off bs (count - min count size)).ok⟩ := by
  rw [copyBlocks, if_neg h.ne']
  simp only [copyParts_eq]

theorem copyBlocks_stored_le (size off : ℕ) (bs : List (Option (ℕ → α))) (count : ℕ) :
    (copyBlocks size off bs count).stored.length + (copyBlocks size off bs count).left = count := by
  induction bs generalizing count with
  | nil => simp [copyBlocks]
  | cons b bs ih =>
    rcases Nat.eq_zero_or_pos count with rfl | hpos
    · simp
    cases b with
    | none => simp [copyBlocks, hpos.ne']
    | some block =>
      rw [copyBlocks_cons _ _ _ _ hpos]
      have h := ih (count - min count size)
      simp only [List.length_append, slice_length]
      omega

/-- The blocks hold the sequence `f` from position `s` on, as far as `n` values. -/
def Holds (size : ℕ) (f : ℕ → α) (s n : ℕ) (bs : List (Option (ℕ → α))) : Prop :=
  ∀ k, k * size < n → ∃ block, bs[k]? = some (some block) ∧
    ∀ j < size, block j = f (s + k * size + j)

theorem Holds.tail {size : ℕ} {f : ℕ → α} {s n : ℕ} {b : Option (ℕ → α)}
    {bs : List (Option (ℕ → α))} (h : Holds size f s (size + n) (b :: bs)) :
    Holds size f (s + size) n bs := by
  intro k hk
  obtain ⟨block, hget, hval⟩ := h (k + 1) (by rw [Nat.succ_mul]; omega)
  refine ⟨block, hget, fun j hj => ?_⟩
  rw [hval j hj, Nat.succ_mul]
  congr 1
  omega

/-- A copy that starts at a block boundary or stays inside one block gives the
sequence. -/
theorem copyBlocks_eq {size : ℕ} {f : ℕ → α} {off : ℕ}
    {bs : List (Option (ℕ → α))} {s count : ℕ} (hfit : off = 0 ∨ off + count ≤ size)
    (h : Holds size f s (off + count) bs) :
    copyBlocks size off bs count = ⟨slice f (s + off) count, 0, true⟩ := by
  induction bs generalizing s count with
  | nil =>
    rcases Nat.eq_zero_or_pos count with rfl | hpos
    · simp
    obtain ⟨block, hget, -⟩ := h 0 (by omega)
    simp at hget
  | cons b bs ih =>
    rcases Nat.eq_zero_or_pos count with rfl | hpos
    · simp
    obtain ⟨block, hget, hval⟩ := h 0 (by omega)
    obtain rfl : b = some block := by simpa using hget
    rw [copyBlocks_cons _ _ _ _ hpos]
    have hhead : ∀ n, off + n ≤ size → slice block off n = slice f (s + off) n := fun n hn =>
      slice_congr fun k hk => by rw [hval _ (by omega)]; congr 1; omega
    rcases Nat.le_total count size with hle | hle
    · rw [Nat.min_eq_left hle, Nat.sub_self, copyBlocks_zero, hhead count (by omega)]
      simp
    · -- only a copy from a block boundary goes on to the next block
      obtain rfl : off = 0 := by omega
      have hrest : Holds size f (s + size) (0 + (count - size)) bs :=
        Holds.tail (by rwa [show size + (0 + (count - size)) = 0 + count by omega])
      rw [Nat.min_eq_right hle, ih (Or.inl rfl) hrest, hhead size (by omega)]
      simp only [Nat.add_zero]
      rw [slice_append, Nat.add_sub_cancel' hle]

/-- Enough readable blocks give a whole copy. -/
theorem copyBlocks_full {size off : ℕ} {bs : List (Option (ℕ → α))}
    {count : ℕ} (h : ∀ k, k * size < count → ∃ block, bs[k]? = some (some block)) :
    (copyBlocks size off bs count).left = 0 ∧ (copyBlocks size off bs count).ok = true := by
  induction bs generalizing count with
  | nil =>
    rcases Nat.eq_zero_or_pos count with rfl | hpos
    · simp
    obtain ⟨block, hget⟩ := h 0 (by omega)
    simp at hget
  | cons b bs ih =>
    rcases Nat.eq_zero_or_pos count with rfl | hpos
    · simp
    obtain ⟨block, hget⟩ := h 0 (by omega)
    obtain rfl : b = some block := by simpa using hget
    rw [copyBlocks_cons _ _ _ _ hpos]
    refine ih fun k hk => ?_
    have hnext := h (k + 1) (by rw [Nat.succ_mul]; omega)
    simpa using hnext

/-- A copy that leaves its first block from an inner offset takes the value behind
that block. -/
theorem copyBlocks_behind {size off count : ℕ} (block : ℕ → α) (bs : List (Option (ℕ → α)))
    (hoff : 0 < off) (hlt : off < size) (hcross : size < off + count) :
    (copyBlocks size off (some block :: bs) count).stored[size - off]? = some (block size) := by
  rw [copyBlocks_cons _ _ _ _ (by omega)]
  have hk : size - off < min count size := by omega
  rw [List.getElem?_append_left (by simpa using hk), slice_getElem? _ hk]
  congr 2
  omega

/-! ### Longer lists of blocks -/

def Copied.append (c d : Copied α) : Copied α := ⟨c.stored ++ d.stored, d.left, d.ok⟩

section Longer
variable {size off count : ℕ} {bs bs' : List (Option (ℕ → α))}

theorem copyBlocks_append_of_ok (h : (copyBlocks size off bs count).ok = true) :
    copyBlocks size off (bs ++ bs') count = (copyBlocks size off bs count).append
      (copyBlocks size off bs' (copyBlocks size off bs count).left) := by
  induction bs generalizing count with
  | nil => rfl
  | cons b bs ih =>
    rcases Nat.eq_zero_or_pos count with rfl | hpos
    · simp [Copied.append]
    cases b with
    | none =>
      rw [copyBlocks, if_neg hpos.ne'] at h
      cases h
    | some block =>
      rw [copyBlocks_cons _ _ _ _ hpos] at h ⊢
      rw [List.cons_append, copyBlocks_cons _ _ _ _ hpos, ih h]
      simp only [Copied.append, List.append_assoc]

/-- What stands behind a block that cannot be read is not looked at. -/
theorem copyBlocks_append_of_not_ok (h : (copyBlocks size off bs count).ok = false) :
    copyBlocks size off (bs ++ bs') count = copyBlocks size off bs count := by
  induction bs generalizing count with
  | nil => cases h
  | cons b bs ih =>
    rcases Nat.eq_zero_or_pos count with rfl | hpos
    · simp
    cases b with
    | none => simp [copyBlocks, hpos.ne']
    | some block =>
      rw [copyBlocks_cons _ _ _ _ hpos] at h ⊢
      rw [List.cons_append, copyBlocks_cons _ _ _ _ hpos, ih h]

theorem copyBlocks_append_of_done
    (h : (copyBlocks size off bs count).ok = false ∨ (copyBlocks size off bs count).left = 0) :
    copyBlocks size off (bs ++ bs') count = copyBlocks size off bs count := by
  cases hok : (copyBlocks size off bs count).ok with
  | false => exact copyBlocks_append_of_not_ok hok
  | true =>
    have hleft := h.resolve_left (by simp [hok])
    rw [copyBlocks_append_of_ok hok, hleft, copyBlocks_zero, Copied.append, List.append_nil, ← hleft,
      ← hok]

/-- A copy that goes on has used up its blocks. -/
theorem copyBlocks_length_of_left (hok : (copyBlocks size off bs count).ok = true)
    (hleft : (copyBlocks size off bs count).left ≠ 0) :
    (copyBlocks size off bs count).stored.length = bs.length * size := by
  induction bs generalizing count with
  | nil => simp [copyBlocks]
  | cons b bs ih =>
    rcases Nat.eq_zero_or_pos count with rfl | hpos
    · simp at hleft
    cases b with
    | none =>
      rw [copyBlocks, if_neg hpos.ne'] at hok
      cases hok
    | some block =>
      rw [copyBlocks_cons _ _ _ _ hpos] at hok hleft ⊢
      have hle : size ≤ count := by
        by_contra hlt
        rw [show count - min count size = 0 by omega, copyBlocks_zero] at hleft
        exact hleft rfl
      simp only [List.length_append, slice_length, ih hok hleft, List.length_cons, Nat.succ_mul]
      omega

/-- Taking every block from `off` on is taking the blocks without their first `off` values. -/
theorem copyBlocks_shift (size off : ℕ) (bs : List (Option (ℕ → α))) (count : ℕ) :
    copyBlocks size off bs count =
      copyBlocks size 0 (bs.map (Option.map fun b j => b (off + j))) count := by
  induction bs generalizing count with
  | nil => rfl
  | cons b bs ih =>
    rcases Nat.eq_zero_or_pos count with rfl | hpos
    · simp
    cases b with
    | none => simp [copyBlocks, hpos.ne']
    | some block =>
      have hslice : slice block off (min count size) =
          slice (fun j => block (off + j)) 0 (min count size) :=
        slice_congr fun k _ => by rw [Nat.zero_add]
      rw [List.map_cons, Option.map_some, copyBlocks_cons _ _ _ _ hpos, copyBlocks_cons _ _ _ _ hpos,
        ih, hslice]

/-- How many blocks can be read before the first one that cannot. -/
def readableRun (bs : List (Option (ℕ → α))) : ℕ := (bs.takeWhile Option.isSome).length

theorem copyBlocks_length (size off : ℕ) (bs : List (Option (ℕ → α))) (count : ℕ) :
    (copyBlocks size off bs count).stored.length = min count (readableRun bs * size) := by
  induction bs generalizing count with
  | nil => simp [copyBlocks, readableRun]
  | cons b bs ih =>
    rcases Nat.eq_zero_or_pos count with rfl | hpos
    · simp
    cases b with
    | none => simp [copyBlocks, readableRun, hpos.ne']
    | some block =>
      have hsucc : readableRun (some block :: bs) = readableRun bs + 1 := by simp [readableRun]
      rw [copyBlocks_cons _ _ _ _ hpos, hsucc, Nat.succ_mul]
      simp only [List.length_append, slice_length, ih]
      omega

theorem copyBlocks_map_some {β : Type*} (hsize : 0 < size) (B : β → ℕ → α) (ps : List β) (d : β)
    (count : ℕ) : copyBlocks size 0 (ps.map fun p => some (B p)) count =
      ⟨slice (fun i => B (ps.getD (i / size) d) (i % size)) 0 (min count (ps.length * size)),
        count - min count (ps.length * size), true⟩ := by
  induction ps generalizing count with
  | nil => simp [copyBlocks]
  | cons p ps ih =>
    rcases Nat.eq_zero_or_pos count with rfl | hpos
    · simp
    have hlen : min count ((p :: ps).length * size) =
        min count size + min (count - min count size) (ps.length * size) := by
      rw [List.length_cons, Nat.succ_mul]
      omega
    have hhead : slice (B p) 0 (min count size) =
        slice (fun i => B ((p :: ps).getD (i / size) d) (i % size)) 0 (min count size) := by
      refine slice_congr fun k hk => ?_
      rw [Nat.zero_add, Nat.div_eq_of_lt (by omega), Nat.mod_eq_of_lt (by omega)]
      rfl
    have htail : slice (fun i => B (ps.getD (i / size) d) (i % size)) 0
        (min (count - min count size) (ps.length * size)) =
        slice (fun i => B ((p :: ps).getD (i / size) d) (i % size)) (0 + min count size)
          (min (count - min count size) (ps.length * size)) := by
      refine slice_congr fun k hk => ?_
      rw [Nat.zero_add, Nat.zero_add, show min count size = size by omega, Nat.add_mod_left,
        Nat.add_div_left _ hsize]
      rfl
    rw [List.map_cons, copyBlocks_cons _ _ _ _ hpos, ih, hlen, ← slice_append, ← hhead, ← htail]
    simp only [Copied.mk.injEq, and_true, true_and]
    omega

end Longer

/-! ### One chunk after the other -/

/-- The values that successive reads return; `advance` is what a read of some length
makes of the offset. -/
def chunks (advance : ℕ → ℕ → ℕ) (read : (count offset : ℕ) → List α) :
    (offset : ℕ) → List ℕ → List α
  | _, [] => []
  | o, n :: ns => read n o ++ chunks advance read (advance o (read n o).length) ns

theorem chunks_length_le {advance : ℕ → ℕ → ℕ} {read : (count offset : ℕ) → List α}
    (hlength : ∀ n o, (read n o).length ≤ n) (o : ℕ) (ns : List ℕ) :
    (chunks advance read o ns).length ≤ ns.sum := by
  induction ns generalizing o with
  | nil => exact Nat.zero_le _
  | cons n ns ih =>
    rw [chunks, List.length_append, List.sum_cons]
    exact Nat.add_le_add (hlength n o) (ih _)

/-- Reads that agree as far as they are asked for give the same values. -/
theorem chunks_congr {advance : ℕ → ℕ → ℕ} {read read' : (count offset : ℕ) → List α} {s o : ℕ}
    {ns : List ℕ} (hadv : ∀ o n, advance o n ≤ o + n) (hlength : ∀ n o, (read n o).length ≤ n)
    (h : ∀ n ∈ ns, ∀ o, o + n ≤ s → read' n o = read n o) (hs : o + ns.sum ≤ s) :
    chunks advance read' o ns = chunks advance read o ns := by
  induction ns generalizing o with
  | nil => rfl
  | cons n ns ih =>
    rw [List.sum_cons] at hs
    have hlen := hlength n o
    have hnext := hadv o (read n o).length
    rw [chunks, chunks, h n List.mem_cons_self o (by omega),
      ih (fun m hm => h m (List.mem_cons_of_mem n hm)) (by omega)]

/-- Every read before the end of a sequence of `size` values is one that `Fits`. -/
def ReadsFit (Fits : ℕ → ℕ → Prop) (size : ℕ) : (offset : ℕ) → List ℕ → Prop
  | _, [] => True
  | o, n :: ns => (size ≤ o ∨ Fits o n) ∧ ReadsFit Fits size (min (o + n) size) ns

instance ReadsFit.decidable (Fits : ℕ → ℕ → Prop) [∀ o n, Decidable (Fits o n)] (size : ℕ) :
    ∀ (o : ℕ) (ns : List ℕ), Decidable (ReadsFit Fits size o ns)
  | _, [] => isTrue trivial
  | o, n :: ns =>
    have := ReadsFit.decidable Fits size (min (o + n) size) ns
    inferInstanceAs (Decidable (_ ∧ _))

/-- A reader of the sequence `f` of `size` values, whose result also depends on
something of type `τ` that the sequence does not fix. The reads that fit do not
depend on it, and those that do not can go wrong through it. -/
structure Reader {τ : Type*} (Asked : ℕ → Prop) (Fits : ℕ → ℕ → Prop) (f : ℕ → α) (size : ℕ)
    (read : τ → (count offset : ℕ) → List α) : Prop where
  past : ∀ t n o, size ≤ o → read t n o = []
  fit : ∀ t n o, Asked n → o < size → Fits o n → read t n o = slice f o (min n (size - o))
  unfit : ∀ n o, Asked n → o < size → ¬ Fits o n → ∃ t, ¬ read t n o <+: slice f o (size - o)

namespace Reader
variable {τ : Type*} {Asked : ℕ → Prop} {Fits : ℕ → ℕ → Prop} {f : ℕ → α} {size : ℕ}
  {read : τ → (count offset : ℕ) → List α} {advance : ℕ → ℕ → ℕ} {o : ℕ} {ns : List ℕ}

theorem chunks_eq (h : Reader Asked Fits f size read) 
    (hadv : ∀ o n, o + n ≤ size → advance o n = o + n) (tail : ℕ → τ) (ho : o ≤ size)
    (hns : ∀ n ∈ ns, Asked n) (hfit : ReadsFit Fits size o ns) :
    chunks advance (fun n o => read (tail o) n o) o ns = slice f o (min ns.sum (size - o)) := by
  induction ns generalizing o with
  | nil => simp [chunks]
  | cons n ns ih =>
    have ih' := ih (o := min (o + n) size) (by omega)
      (fun m hm => hns m (List.mem_cons_of_mem n hm)) hfit.2
    rcases ho.lt_or_eq with hlt | rfl
    · rw [chunks, h.fit _ _ _ (hns n List.mem_cons_self) hlt (hfit.1.resolve_left (by omega)),
        slice_length, hadv _ _ (by omega), show o + min n (size - o) = min (o + n) size by omega, ih',
        show min (o + n) size = o + min n (size - o) by omega, slice_append, List.sum_cons]
      congr 1
      omega
    · rw [chunks, h.past _ _ _ le_rfl, List.nil_append, List.length_nil, hadv _ _ le_rfl, Nat.add_zero]
      rw [show min (o + n) o = o by omega] at ih'
      rw [ih', Nat.sub_self, Nat.min_zero, Nat.min_zero]

/-- The chunks are a prefix of the sequence, whatever the reads depend on besides
it, exactly when every read fits. -/
theorem chunks_prefix_iff (h : Reader Asked Fits f size read)
    (hadv : ∀ o n, o + n ≤ size → advance o n = o + n) (ho : o ≤ size)
    (hns : ∀ n ∈ ns, Asked n) :
    (∀ tail : ℕ → τ, chunks advance (fun n o => read (tail o) n o) o ns <+: slice f o (size - o)) ↔
      ReadsFit Fits size o ns := by
  refine ⟨fun hpre => ?_, fun hfit tail => ?_⟩
  · induction ns generalizing o with
    | nil => trivial
    | cons n ns ih =>
      have hns' : ∀ m ∈ ns, Asked m := fun m hm => hns m (List.mem_cons_of_mem n hm)
      rcases ho.lt_or_eq with hlt | rfl
      · have hf : Fits o n := by
          by_contra hnot
          obtain ⟨t, ht⟩ := h.unfit n o (hns n List.mem_cons_self) hlt hnot
          exact ht ((List.prefix_append _ _).trans (hpre fun _ => t))
        refine ⟨Or.inr hf, ih (by omega) hns' fun tail => ?_⟩
        have hp := hpre tail
        rw [chunks, h.fit _ _ _ (hns n List.mem_cons_self) hlt hf, slice_length,
          hadv _ _ (by omega),
          show size - o = min n (size - o) + (size - (o + min n (size - o))) by omega,
          ← slice_append, ← show size - o = min n (size - o) + (size - (o + min n (size - o))) by omega,
          List.prefix_append_right_inj] at hp
        rwa [show o + min n (size - o) = min (o + n) size by omega] at hp
      · refine ⟨Or.inl le_rfl, ?_⟩
        rw [show min (o + n) o = o by omega]
        refine ih le_rfl hns' fun tail => ?_
        have hp := hpre tail
        rwa [chunks, h.past _ _ _ le_rfl, List.nil_append, List.length_nil, hadv _ _ le_rfl,
          Nat.add_zero] at hp
  · rw [h.chunks_eq hadv tail ho hns hfit,
      show size - o = min ns.sum (size - o) + (size - o - min ns.sum (size - o)) by omega,
      ← slice_append]
    exact ⟨_, by congr 2; omega⟩

end Reader

end DosKernel.Lib
