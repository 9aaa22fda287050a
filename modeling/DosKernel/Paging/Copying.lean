import DosKernel.Paging.Isolation

/-! Copying out of another address space. `mmu_memcpy` reads four bytes, then
two and then one through a single page lookup each, so a read that crosses the
end of a page goes on behind its frame. -/

namespace DosKernel

open Lib

/-- A loop of `mmu_memcpy`: `n` reads of `c` bytes. -/
def copyLoop (c : ℕ) (m : Memory) (pdt virtAddr destination n : ℕ) : Memory :=
  forRange (fun i m => m.store ((destination + c * i) % word32) c
    (mmuRead c m pdt ((virtAddr + c * i) % word32))) n 0 m

def mmuMemcpy (m : Memory) (pdt virtAddr destination n : ℕ) : Memory :=
  let i := n / 4
  let m := copyLoop 4 m pdt virtAddr destination i
  let virtAddr := (virtAddr + 4 * i) % word32
  let destination := (destination + 4 * i) % word32
  let n := n - 4 * i
  let i := n / 2
  let m := copyLoop 2 m pdt virtAddr destination i
  let virtAddr := (virtAddr + 2 * i) % word32
  let destination := (destination + 2 * i) % word32
  copyLoop 1 m pdt virtAddr destination (n - 2 * i)

/-- The loop of `mmu_strlen`. -/
def strlenFrom (m : Memory) (pdt virtAddr : ℕ) : (fuel len : ℕ) → Option ℕ
  | 0, _ => none
  | fuel + 1, len =>
    if mmuReadb m pdt ((virtAddr + len) % word32) = 0 then some len
    else strlenFrom m pdt virtAddr fuel (len + 1)

/-- `mmu_strlen`; `none` when no byte of the address space is 0 and the loop does not end. -/
def mmuStrlen (m : Memory) (pdt virtAddr : ℕ) : Option ℕ := strlenFrom m pdt virtAddr word32 0

def mmuStrcpy (m : Memory) (pdt virtAddr destination : ℕ) : Option Memory :=
  (mmuStrlen m pdt virtAddr).map fun len =>
    (mmuMemcpy m pdt virtAddr destination len).store ((destination + len) % word32) 1 0

def mmuStrncpy (m : Memory) (pdt virtAddr destination n : ℕ) : Option Memory :=
  (mmuStrlen m pdt virtAddr).map fun len =>
    let m := mmuMemcpy m pdt virtAddr destination (if len < n then len else n)
    let m := forRange (fun i m => m.store ((destination + i) % word32) 1 0) (n - len) len m
    m.store ((destination + n) % word32) 1 0

section Bytes
variable {m : Memory} {pdt a v dst n k c i j : ℕ}

/-- The byte at position `k` of a read at `a`. -/
def chunkByte (m : Memory) (pdt a k : ℕ) : UInt8 :=
  (pageOf m pdt a).elim 0 fun p => m ((p.frame + pageOffset a + k) % space)

theorem load_byte (h : k < n) : UInt8.ofNat (m.load a n / 256 ^ k) = m ((a + k) % space) := by
  induction n generalizing a k with
  | zero => omega
  | succ n ih =>
    have hbyte := (m (a % space)).toNat_lt
    cases k with
    | zero =>
      rw [Memory.load, Nat.pow_zero, Nat.div_one, Nat.add_zero, UInt8.ofNat_add, UInt8.ofNat_toNat,
        UInt8.ofNat_mul]
      simp
    | succ k =>
      have hhigh : ((m (a % space)).toNat + 256 * m.load (a + 1) n) / 256 = m.load (a + 1) n := by
        omega
      rw [Memory.load, Nat.pow_succ', ← Nat.div_div_eq_div_mul, hhigh, ih (by omega),
        Nat.add_assoc, Nat.add_comm 1 k]

theorem chunkByte_read (h : k < c) :
    UInt8.ofNat (mmuRead c m pdt a / 256 ^ k) = chunkByte m pdt a k := by
  rw [mmuRead, chunkByte]
  cases pageOf m pdt a with
  | none => simp
  | some p => exact load_byte h

theorem readb_eq (m : Memory) (pdt a : ℕ) : mmuReadb m pdt a = (chunkByte m pdt a 0).toNat := by
  rw [mmuRead_one, chunkByte]
  cases hp : pageOf m pdt a with
  | none => rfl
  | some p =>
    have h1 := p.isPage_frame.top
    have h2 : p.frame + pageOffset a + 0 < space := by
      have h3 := p.isPage_frame.aligned
      rw [pageOffset, space]
      omega
    rw [Option.elim_some, Option.elim_some, Nat.mod_eq_of_lt h2, Nat.add_zero]

/-- Inside its page a read of several bytes gives what reads of one byte give. -/
theorem chunkByte_inside (h : pageOffset a + k < 4096) :
    chunkByte m pdt a k = chunkByte m pdt (a + k) 0 := by
  simp only [pageOffset] at h
  have h1 : pdIndex (a + k) = pdIndex a := by simp only [pdIndex]; omega
  have h2 : ptIndex (a + k) = ptIndex a := by simp only [ptIndex]; omega
  have h3 : pageOffset (a + k) = pageOffset a + k := by simp only [pageOffset]; omega
  have hpage : pageOf m pdt (a + k) = pageOf m pdt a := by rw [pageOf, pageOf, h1, h2]
  rw [chunkByte, chunkByte, hpage, h3]
  simp only [Nat.add_assoc, Nat.add_zero]

/-- The start of the read that gives byte `i` of a copy of `n` bytes. -/
def readStart (n i : ℕ) : ℕ :=
  if i < n / 4 * 4 then i / 4 * 4 else if i < n / 2 * 2 then n / 4 * 4 else i

def copyByte (m : Memory) (pdt v n i : ℕ) : UInt8 :=
  chunkByte m pdt (v + readStart n i) (i - readStart n i)

/-- No read of the copy depends on what is in the buffer. -/
def Unread (m : Memory) (pdt v n dst : ℕ) : Prop :=
  ∀ f, ∀ i < n, copyByte (m.write dst n f) pdt v n i = copyByte m pdt v n i

/-- Nor does it depend on a part of the buffer. -/
theorem Unread.part (h : Unread m pdt v n dst) (hdst : dst + n ≤ space) (hj : j ≤ n) (hi : i < n)
    (f : ℕ → UInt8) : copyByte (m.write dst j f) pdt v n i = copyByte m pdt v n i := by
  have hsame : m.write dst j f =
      m.write dst n fun k => if k < j then f k else m (dst + k) := by
    funext x
    by_cases h1 : dst ≤ x ∧ x < dst + j
    · rw [Memory.write_of_mem (by omega) h1.1 h1.2, Memory.write_of_mem hdst h1.1 (by omega),
        if_pos (by omega)]
    · rw [Memory.write_of_not_mem (by omega) h1]
      by_cases h2 : dst ≤ x ∧ x < dst + n
      · rw [Memory.write_of_mem hdst h2.1 h2.2, if_neg (by omega), Nat.add_sub_cancel' h2.1]
      · rw [Memory.write_of_not_mem hdst h2]
  rw [hsame]
  exact h _ i hi

theorem Unread.step (h : Unread m pdt v n dst) (hdst : dst + n ≤ space) (hj : j + c ≤ n)
    (hstart : ∀ k < c, readStart n (j + k) = j) :
    (m.write dst j (copyByte m pdt v n)).store (dst + j) c
      (mmuRead c (m.write dst j (copyByte m pdt v n)) pdt (v + j)) =
    m.write dst (j + c) (copyByte m pdt v n) := by
  rw [← Memory.write_append (by omega), Memory.store]
  refine Memory.write_congr fun k hk => ?_
  have hpart := h.part hdst (by omega : j ≤ n) (by omega : j + k < n) (copyByte m pdt v n)
  rw [chunkByte_read hk, ← hpart, copyByte, hstart k hk, Nat.add_sub_cancel_left]

theorem Unread.loop (h : Unread m pdt v n dst) (hv : v + n ≤ word32) (hdst : dst + n ≤ word32)
    {l : ℕ} (hc : 0 < c) (hj : j + c * l ≤ n)
    (hstart : ∀ i < l, ∀ k < c, readStart n (j + c * i + k) = j + c * i) :
    copyLoop c (m.write dst j (copyByte m pdt v n)) pdt (v + j) (dst + j) l =
      m.write dst (j + c * l) (copyByte m pdt v n) := by
  refine forRange_invariant (I := fun i M => M = m.write dst (j + c * i) (copyByte m pdt v n))
    (i := 0) (n := l) (fun i M _ hi hM => ?_) rfl |>.trans (by rw [Nat.zero_add])
  have hle : c * (i + 1) ≤ c * l := Nat.mul_le_mul_left c (by omega)
  rw [Nat.mul_succ] at hle
  have hv' : (v + j + c * i) % word32 = v + (j + c * i) := by
    rw [Nat.mod_eq_of_lt (by omega), Nat.add_assoc]
  have hd' : (dst + j + c * i) % word32 = dst + (j + c * i) := by
    rw [Nat.mod_eq_of_lt (by omega), Nat.add_assoc]
  simp only [hM, hv', hd']
  rw [h.step hdst (by omega) (hstart i (by omega)), Nat.mul_succ, Nat.add_assoc]

theorem copyLoop_mod (c : ℕ) (m : Memory) (pdt v dst n : ℕ) :
    copyLoop c m pdt (v % word32) (dst % word32) n = copyLoop c m pdt v dst n := by
  simp only [copyLoop, Nat.mod_add_mod]

/-- The whole copy: the two loops over words end on a word, the last one on byte `n`. -/
theorem Unread.memcpy (h : Unread m pdt v n dst) (hv : v + n ≤ word32) (hdst : dst + n ≤ word32) :
    mmuMemcpy m pdt v dst n = m.write dst n (copyByte m pdt v n) := by
  have hword := h.loop hv hdst (c := 4) (j := 0) (l := n / 4) (by omega) (by omega)
    fun i hi k hk => by rw [readStart, if_pos (by omega)]; omega
  have hhalf := h.loop hv hdst (c := 2) (j := 4 * (n / 4)) (l := (n - 4 * (n / 4)) / 2)
    (by omega) (by omega)
    fun i hi k hk => by rw [readStart, if_neg (by omega), if_pos (by omega)]; omega
  have hbyte := h.loop hv hdst (c := 1) (j := 4 * (n / 4) + 2 * ((n - 4 * (n / 4)) / 2))
    (l := n - 4 * (n / 4) - 2 * ((n - 4 * (n / 4)) / 2)) (by omega) (by omega)
    fun i hi k hk => by rw [readStart, if_neg (by omega), if_neg (by omega)]; omega
  rw [Memory.write_zero, Nat.zero_add, Nat.add_zero, Nat.add_zero] at hword
  rw [← Nat.add_assoc, ← Nat.add_assoc] at hbyte
  simp only [mmuMemcpy, Nat.mod_add_mod]
  rw [hword, copyLoop_mod, copyLoop_mod, hhalf, hbyte]
  congr 1
  omega

/-! ### Reads that cross the end of a page -/

/-- The read that gives byte `i` begins on another page than the byte. -/
def Straddles (v n i : ℕ) : Prop := (v + readStart n i) / 4096 ≠ (v + i) / 4096

instance : Decidable (Straddles v n i) := inferInstanceAs (Decidable (_ ≠ _))

theorem readStart_le (n i : ℕ) : readStart n i ≤ i ∧ i < readStart n i + 4 := by
  rw [readStart]
  split_ifs <;> omega

theorem copyByte_of_not_straddles (h : ¬ Straddles v n i) :
    copyByte m pdt v n i = chunkByte m pdt (v + i) 0 := by
  have hle := readStart_le n i
  rw [Straddles, not_not] at h
  rw [copyByte, chunkByte_inside (by rw [pageOffset]; omega)]
  congr 1
  omega

/-- The byte that is found for `a` behind the frame of the page before. -/
def byteBehind (m : Memory) (pdt a : ℕ) : UInt8 :=
  (pageOf m pdt (a - 4096)).elim 0 fun p => m ((p.frame + 4096 + pageOffset a) % space)

theorem pageOf_page {b : ℕ} (h : a / 4096 = b / 4096) : pageOf m pdt a = pageOf m pdt b := by
  have h1 : pdIndex a = pdIndex b := by simp only [pdIndex]; omega
  have h2 : ptIndex a = ptIndex b := by simp only [ptIndex]; omega
  rw [pageOf, pageOf, h1, h2]

theorem copyByte_of_straddles (h : Straddles v n i) :
    copyByte m pdt v n i = byteBehind m pdt (v + i) := by
  have hle := readStart_le n i
  rw [Straddles] at h
  have hpage : (v + readStart n i) / 4096 = (v + i - 4096) / 4096 := by omega
  rw [copyByte, chunkByte, byteBehind, pageOf_page hpage]
  cases pageOf m pdt (v + i - 4096) with
  | none => rfl
  | some p =>
    rw [Option.elim_some, Option.elim_some]
    congr 2
    simp only [pageOffset]
    omega

/-- Every byte that a read finds behind the end of a page is the byte of the next page. -/
def SameBehind (m : Memory) (pdt v n : ℕ) : Prop :=
  ∀ i < n, Straddles v n i → (byteBehind m pdt (v + i)).toNat = mmuReadb m pdt (v + i)

theorem copyByte_eq_iff : (∀ i < n, (copyByte m pdt v n i).toNat = mmuReadb m pdt (v + i)) ↔
    SameBehind m pdt v n := by
  refine forall₂_congr fun i _ => ?_
  by_cases h : Straddles v n i
  · rw [copyByte_of_straddles h]
    exact ⟨fun hbyte _ => hbyte, fun hbyte => hbyte h⟩
  · rw [copyByte_of_not_straddles h, readb_eq]
    exact ⟨fun _ h' => absurd h' h, fun _ => rfl⟩

/-- Copies agree with byte reads exactly if this holds where a read crosses the end of a page. -/
theorem mmuMemcpy_reads_iff (h : Unread m pdt v n dst) (hv : v + n ≤ word32)
    (hdst : dst + n ≤ word32) :
    (∀ i < n, (mmuMemcpy m pdt v dst n (dst + i)).toNat = mmuReadb m pdt (v + i)) ↔
      SameBehind m pdt v n := by
  rw [← copyByte_eq_iff, h.memcpy hv hdst]
  refine forall₂_congr fun i hi => ?_
  rw [Memory.write_of_mem hdst (by omega) (by omega), Nat.add_sub_cancel_left]

/-! ### Strings -/

theorem strlenFrom_eq {fuel len l : ℕ} (h : strlenFrom m pdt v fuel len = some l) : len ≤ l ∧
    l < len + fuel ∧ mmuReadb m pdt ((v + l) % word32) = 0 ∧
    ∀ i, len ≤ i → i < l → mmuReadb m pdt ((v + i) % word32) ≠ 0 := by
  induction fuel generalizing len with
  | zero => cases h
  | succ fuel ih =>
    rw [strlenFrom] at h
    split at h
    · cases h
      exact ⟨le_rfl, by omega, ‹_›, fun i h1 h2 => absurd h1 (by omega)⟩
    · obtain ⟨h1, h2, h3, h4⟩ := ih h
      refine ⟨by omega, by omega, h3, fun i hi hl => ?_⟩
      rcases Nat.eq_or_lt_of_le hi with rfl | hi
      · assumption
      · exact h4 i hi hl

theorem strlenFrom_of {fuel len l : ℕ} (hle : len ≤ l) (hlt : l < len + fuel)
    (h0 : mmuReadb m pdt ((v + l) % word32) = 0)
    (hne : ∀ i, len ≤ i → i < l → mmuReadb m pdt ((v + i) % word32) ≠ 0) :
    strlenFrom m pdt v fuel len = some l := by
  induction fuel generalizing len with
  | zero => omega
  | succ fuel ih =>
    rw [strlenFrom]
    rcases Nat.eq_or_lt_of_le hle with rfl | hlt'
    · exact if_pos h0
    · rw [if_neg (hne len le_rfl hlt')]
      exact ih hlt' (by omega) fun i hi => hne i (by omega)

/-- `mmu_strlen` returns the number of bytes before the first one that is 0. -/
theorem mmuStrlen_eq_some : mmuStrlen m pdt v = some n ↔ n < word32 ∧
    mmuReadb m pdt ((v + n) % word32) = 0 ∧
    ∀ i < n, mmuReadb m pdt ((v + i) % word32) ≠ 0 := by
  constructor
  · intro h
    obtain ⟨-, h1, h2, h3⟩ := strlenFrom_eq h
    exact ⟨by omega, h2, fun i hi => h3 i (Nat.zero_le i) hi⟩
  · rintro ⟨h1, h2, h3⟩
    exact strlenFrom_of (Nat.zero_le n) (by omega) h2 fun i _ hi => h3 i hi

theorem mmuStrcpy_eq (hlen : mmuStrlen m pdt v = some n) (h : Unread m pdt v n dst)
    (hv : v + n ≤ word32) (hdst : dst + n < word32) : mmuStrcpy m pdt v dst =
      some ((m.write dst n (copyByte m pdt v n)).store (dst + n) 1 0) := by
  rw [mmuStrcpy, hlen, Option.map_some, h.memcpy hv (by omega), Nat.mod_eq_of_lt hdst]

/-! ### Buffers apart from the page tables -/

/-- The range `[dst, dst + n)` holds none of the `k` bytes from `a` on. -/
def Apart (dst n a k : ℕ) : Prop := a + k ≤ dst ∨ dst + n ≤ a

instance : Decidable (Apart dst n a k) := inferInstanceAs (Decidable (_ ∨ _))

theorem entryAt_write (hdst : dst + n ≤ space) (ha : a + 4 ≤ space) (h : Apart dst n a 4)
    (f : ℕ → UInt8) : entryAt (m.write dst n f) a = entryAt m a := by
  rw [Apart] at h
  rw [entryAt, entryAt]
  congr 1
  exact Memory.load_congr ha fun x _ _ => Memory.write_of_not_mem hdst (by omega)

/-- A read that uses neither entry nor byte of the buffer. -/
structure ReadApart (m : Memory) (pdt a k dst n : ℕ) : Prop where
  dirTop : pdt + 4 * pdIndex a + 4 ≤ space
  dir : Apart dst n (pdt + 4 * pdIndex a) 4
  table : (entryAt m (pdt + 4 * pdIndex a)).present = true →
    Apart dst n ((entryAt m (pdt + 4 * pdIndex a)).frame + 4 * ptIndex a) 4
  page : ∀ p, pageOf m pdt a = some p →
    Apart dst n ((p.frame + pageOffset a + k) % space) 1

theorem ReadApart.pageOf_write (h : ReadApart m pdt a k dst n) (hdst : dst + n ≤ space)
    (f : ℕ → UInt8) : pageOf (m.write dst n f) pdt a = pageOf m pdt a := by
  have hdir := entryAt_write (m := m) hdst h.dirTop h.dir f
  have htable := h.table
  simp only [pageOf, hdir]
  generalize entryAt m (pdt + 4 * pdIndex a) = pd at htable ⊢
  by_cases hpres : pd.present = true
  · have h1 := pd.isPage_frame.aligned
    have h2 := pd.isPage_frame.top
    have htop : pd.frame + 4 * ptIndex a + 4 ≤ space := by
      rw [ptIndex, space]
      omega
    rw [entryAt_write hdst htop (htable hpres) f]
  · rw [if_neg hpres, if_neg hpres]

theorem ReadApart.chunkByte_write (h : ReadApart m pdt a k dst n) (hdst : dst + n ≤ space)
    (f : ℕ → UInt8) : chunkByte (m.write dst n f) pdt a k = chunkByte m pdt a k := by
  have hpage := h.page
  rw [chunkByte, chunkByte, h.pageOf_write hdst]
  cases hp : pageOf m pdt a with
  | none => rfl
  | some p =>
    have hout := hpage p hp
    rw [Apart] at hout
    rw [Option.elim_some, Option.elim_some]
    exact Memory.write_of_not_mem hdst (by omega)

theorem Unread.of_apart (hdst : dst + n ≤ space)
    (h : ∀ i < n, ReadApart m pdt (v + readStart n i) (i - readStart n i) dst n) :
    Unread m pdt v n dst := fun f i hi => (h i hi).chunkByte_write hdst f

end Bytes

/-- `mmu_memcpy` and `mmu_strcpy` agree with `mmu_readb` on every byte exactly if no read that
crosses the end of a page finds another byte behind its frame than in the next page. -/
theorem copies_agree_iff {m : Memory} {pdt v dst n : ℕ} (hread : Unread m pdt v n dst)
    (hv : v + n ≤ word32) (hdst : dst + n ≤ word32) :
    ((∀ i < n, (mmuMemcpy m pdt v dst n (dst + i)).toNat = mmuReadb m pdt (v + i)) ↔
      SameBehind m pdt v n) ∧
    (mmuStrlen m pdt v = some n → dst + n < word32 →
      ((∃ m', mmuStrcpy m pdt v dst = some m' ∧ m' (dst + n) = 0 ∧
        ∀ i < n, (m' (dst + i)).toNat = mmuReadb m pdt (v + i)) ↔ SameBehind m pdt v n)) := by
  refine ⟨mmuMemcpy_reads_iff hread hv hdst, fun hlen hend => ?_⟩
  have hbyte : ∀ i < n, ((m.write dst n (copyByte m pdt v n)).store (dst + n) 1 0) (dst + i) =
      copyByte m pdt v n i := by
    intro i hi
    rw [Memory.store, Memory.write_of_not_mem hend (by omega),
      Memory.write_of_mem hdst (by omega) (by omega), Nat.add_sub_cancel_left]
  have hzero : ((m.write dst n (copyByte m pdt v n)).store (dst + n) 1 0) (dst + n) = 0 := by
    rw [Memory.store, Memory.write_of_mem hend le_rfl (by omega)]
    simp
  rw [← copyByte_eq_iff, mmuStrcpy_eq hlen hread hv hend]
  constructor
  · rintro ⟨m', hm, -, hreads⟩ i hi
    obtain rfl := Option.some.inj hm
    rw [← hreads i hi, hbyte i hi]
  · intro h
    exact ⟨_, rfl, hzero, fun i hi => by rw [hbyte i hi, h i hi]⟩

/-- The pages 0 and 1 in frames that lie side by side, with a string of six bytes at `0xffd`. -/
def adjacentFrames : Memory :=
  setEntry (setEntry (setEntry
    (fun x => if 0x422ffd ≤ x ∧ x < 0x423003 then UInt8.ofNat (97 + (x - 0x422ffd)) else 0)
    0x420000 (userEntry 0x421000)) 0x421000 (userEntry 0x422000)) 0x421004 (userEntry 0x423000)

theorem adjacentFrames_strlen : mmuStrlen adjacentFrames 0x420000 0xffd = some 6 := by
  have hbytes : ∀ i < 6, mmuReadb adjacentFrames 0x420000 ((0xffd + i) % word32) ≠ 0 := by decide
  exact mmuStrlen_eq_some.mpr ⟨by decide, by decide, hbytes⟩

/-- The string is copied from page 0 and page 1. -/
theorem copies_agree_in_adjacent_frames : Straddles 0xffd 6 3 ∧
    (∀ i < 6, (mmuMemcpy adjacentFrames 0x420000 0xffd 0x200000 6 (0x200000 + i)).toNat =
      mmuReadb adjacentFrames 0x420000 (0xffd + i)) ∧
    ∃ m', mmuStrcpy adjacentFrames 0x420000 0xffd 0x200000 = some m' ∧ m' (0x200000 + 6) = 0 ∧
      ∀ i < 6, (m' (0x200000 + i)).toNat = mmuReadb adjacentFrames 0x420000 (0xffd + i) := by
  have hsame : SameBehind adjacentFrames 0x420000 0xffd 6 := by
    have hbehind : ∀ i < 6, Straddles 0xffd 6 i →
        (byteBehind adjacentFrames 0x420000 (0xffd + i)).toNat =
          mmuReadb adjacentFrames 0x420000 (0xffd + i) := by decide
    exact hbehind
  have hpages : ∀ i < 6, ∀ p ∈ pageOf adjacentFrames 0x420000 (0xffd + readStart 6 i),
      Apart 0x200000 6
        ((p.frame + pageOffset (0xffd + readStart 6 i) + (i - readStart 6 i)) % space) 1 := by
    decide
  have htables : ∀ i < 6, 0x420000 + 4 * pdIndex (0xffd + readStart 6 i) + 4 ≤ space ∧
      Apart 0x200000 6 (0x420000 + 4 * pdIndex (0xffd + readStart 6 i)) 4 ∧
      Apart 0x200000 6 ((entryAt adjacentFrames
        (0x420000 + 4 * pdIndex (0xffd + readStart 6 i))).frame +
          4 * ptIndex (0xffd + readStart 6 i)) 4 := by
    decide
  have hread : Unread adjacentFrames 0x420000 0xffd 6 0x200000 :=
    Unread.of_apart (by decide) fun i hi =>
      ⟨(htables i hi).1, (htables i hi).2.1, fun _ => (htables i hi).2.2, hpages i hi⟩
  have hagree := copies_agree_iff hread (by decide) (by decide)
  exact ⟨by decide, hagree.1.mpr hsame, (hagree.2 adjacentFrames_strlen (by decide)).mpr hsame⟩

/-- The pages 0 and 1 in frames that do not lie side by side; the byte at `0x1000` is 7. -/
def stringMemory : Memory :=
  setEntry (setEntry (setEntry (fun x => if x = 0x424000 then 7 else 0) 0x420000
    (userEntry 0x421000)) 0x421000 (userEntry 0x422000)) 0x421004 (userEntry 0x424000)

/-- Four bytes across the end of page 0: the third one is read behind the frame of that page. -/
theorem copies_disagree_across_pages :
    mmuReadb stringMemory 0x420000 0x1000 = 7 ∧
    mmuMemcpy stringMemory 0x420000 0xffe 0x200000 4 (0x200000 + 2) = 0 := by
  constructor <;> decide

end DosKernel
