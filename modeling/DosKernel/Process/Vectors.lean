import DosKernel.Process.ExecSpace

/-! The loop of `process_execve` that copies a vector of strings. The pointers fill one page and
the strings another one, at running offsets that are not compared with the size of a page; the
loop ends at the first string of length 0. -/

namespace DosKernel

open Lib

/-- The `n` bytes from `a` on lie in the page `q`. -/
def Inside (q a n : ℕ) : Prop := q ≤ a ∧ a + n ≤ q + 4096

instance (q a n : ℕ) : Decidable (Inside q a n) := inferInstanceAs (Decidable (_ ∧ _))

/-- The loop of `copyStrings` writes its pointers in `page` and the strings in `strs`. -/
def CopiesInside (old vec page strs virt : ℕ) : (fuel i next : ℕ) → Memory → Prop
  | 0, _, _, _ => True
  | fuel + 1, i, next, m =>
    let addr := mmuReadl m old ((vec + 4 * i) % word32)
    addr ≠ 0 → Inside page (page + 4 * i) 4 ∧
      let m := m.store (page + 4 * i) 4 ((virt + next) % word32)
      ∀ len, mmuStrlen m old addr = some len → len ≠ 0 →
        Inside strs ((strs + next) % word32) (len + 1) ∧
          ∀ m', mmuStrncpy m old addr ((strs + next) % word32) len = some m' →
            CopiesInside old vec page strs virt fuel (i + 1) (next + len + 1) m'

/-- Where string `i` begins, if there is a 0 behind each. -/
def stringStart (len : ℕ → ℕ) (i : ℕ) : ℕ := ∑ j ∈ Finset.range i, (len j + 1)

/-- What the loop reads of a vector of `n` strings, whatever is in free frames. -/
structure CallerStrings (b : Bitmap) (m : Memory) (old vec n : ℕ) (ptr len : ℕ → ℕ) : Prop where
  pointer : ∀ {m'}, SameUsed b m' m → ∀ i ≤ n, mmuReadl m' old ((vec + 4 * i) % word32) = ptr i
  ne : ∀ i < n, ptr i ≠ 0
  null : ptr n = 0
  strlen : ∀ {m'}, SameUsed b m' m → ∀ i < n, mmuStrlen m' old (ptr i) = some (len i)
  copy : ∀ {m' q dst}, SameUsed b m' m → IsPage q → b.Spare q → ∀ i < n, Inside q dst (len i + 1) →
    mmuStrncpy m' old (ptr i) dst (len i) =
      some ((m'.write dst (len i) (copyByte m old (ptr i) (len i))).store (dst + len i) 1 0)

/-- The pages after `e` pointers and `i` strings were copied. -/
structure CopiedPages (m : Memory) (old page strs virt : ℕ) (ptr len : ℕ → ℕ) (e i : ℕ)
    (m' : Memory) : Prop where
  entry : ∀ j < e, m'.load (page + 4 * j) 4 = virt + stringStart len j
  byte : ∀ j < i, ∀ k < len j,
    m' (strs + (stringStart len j + k)) = copyByte m old (ptr j) (len j) k
  zero : ∀ j < i, m' (strs + (stringStart len j + len j)) = 0
  pageRest : ∀ x, 4 * e ≤ x → x < 4096 → m' (page + x) = 0
  strsRest : ∀ x, stringStart len i ≤ x → x < 4096 → m' (strs + x) = 0

/-- The state of the loop that began with the memory `m₀`. -/
structure Copied (b : Bitmap) (m : Memory) (old page strs virt : ℕ) (ptr len : ℕ → ℕ)
    (m₀ : Memory) (e i : ℕ) (m' : Memory) : Prop
    extends CopiedPages m old page strs virt ptr len e i m' where
  used : SameUsed b m' m
  kept : ∀ {q}, IsPage q → q ≠ page → q ≠ strs → SamePage m' m₀ q

structure CopyPages (b : Bitmap) (page strs virt : ℕ) : Prop where
  pageIs : IsPage page
  strsIs : IsPage strs
  pageSpare : b.Spare page
  strsSpare : b.Spare strs
  ne : page ≠ strs
  top : virt + 4096 < word32

section Loop
variable {b : Bitmap} {m m₀ m' : Memory} {old vec page strs virt n i j e : ℕ} {ptr len : ℕ → ℕ}

theorem stringStart_succ (len : ℕ → ℕ) (i : ℕ) :
    stringStart len (i + 1) = stringStart len i + len i + 1 := by
  rw [stringStart, Finset.sum_range_succ, ← stringStart, Nat.add_assoc]

theorem stringStart_mono (len : ℕ → ℕ) : Monotone (stringStart len) := by
  refine monotone_nat_of_le_succ fun i => ?_
  rw [stringStart_succ]
  omega

/-- String `j` ends before string `i` begins. -/
theorem stringStart_add_lt (len : ℕ → ℕ) (h : j < i) :
    stringStart len j + len j < stringStart len i := by
  have hmono := stringStart_mono len h
  rw [Nat.succ_eq_add_one, stringStart_succ] at hmono
  omega

/-- Writes in a free frame are not seen. -/
theorem SameUsed.trans_page {q : ℕ} (h : SameUsed b m₀ m) (hq : b.Spare q)
    (hsame : ∀ {p}, IsPage p → p ≠ q → SamePage m' m₀ p) : SameUsed b m' m := by
  intro p hp hnot
  refine (hsame hp ?_).trans (h hp hnot)
  rintro rfl
  exact hnot hq

theorem Copied.pointer (hp : CopyPages b page strs virt)
    (h : Copied b m old page strs virt ptr len m₀ i i m') (hin : 4 * i + 4 ≤ 4096)
    (hstart : stringStart len i ≤ 4096) : Copied b m old page strs virt ptr len m₀ (i + 1) i
      (m'.store (page + 4 * i) 4 ((virt + stringStart len i) % word32)) := by
  have hpage := hp.pageIs.aligned
  have htop := hp.pageIs.top
  have hv := hp.top
  have hspace : page + 4 * i + 4 ≤ space := by
    rw [space]
    omega
  have hmod : (virt + stringStart len i) % word32 = virt + stringStart len i :=
    Nat.mod_eq_of_lt (by omega)
  have hother : ∀ {q}, IsPage q → q ≠ page →
      SamePage (m'.store (page + 4 * i) 4 (virt + stringStart len i)) m' q := fun hq hne =>
    samePage_write hp.pageIs (by omega) (by omega) hq hne
  have hstrs : ∀ x < 4096, m'.store (page + 4 * i) 4 (virt + stringStart len i) (strs + x) =
      m' (strs + x) := fun x hx => hother hp.strsIs hp.ne.symm _ (by omega) (by omega)
  rw [hmod]
  refine ⟨⟨fun j hj => ?_, fun j hj k hk => ?_, fun j hj => ?_, fun x hx hx' => ?_,
    fun x hx hx' => ?_⟩, SameUsed.trans_page h.used hp.pageSpare hother,
    fun hq hqp hqs => (hother hq hqp).trans (h.kept hq hqp hqs)⟩
  · rcases Nat.lt_succ_iff_lt_or_eq.mp hj with hj | rfl
    · rw [← h.entry j hj]
      refine Memory.load_congr (by omega) fun x hx hx' => ?_
      exact Memory.write_of_not_mem hspace (by omega)
    · exact Memory.load_store hspace (by rw [word32] at hv; omega)
  · have hlt := stringStart_add_lt len hj
    rw [hstrs _ (by omega)]
    exact h.byte j hj k hk
  · have hlt := stringStart_add_lt len hj
    rw [hstrs _ (by omega)]
    exact h.zero j hj
  · rw [Memory.store, Memory.write_of_not_mem hspace (by omega)]
    exact h.pageRest x (by omega) hx'
  · rw [hstrs x hx']
    exact h.strsRest x hx hx'

theorem Copied.string (hp : CopyPages b page strs virt)
    (h : Copied b m old page strs virt ptr len m₀ (i + 1) i m') (hcount : 4 * i + 4 ≤ 4096)
    (hin : stringStart len i + len i + 1 ≤ 4096) :
    Copied b m old page strs virt ptr len m₀ (i + 1) (i + 1)
      ((m'.write (strs + stringStart len i) (len i) (copyByte m old (ptr i) (len i))).store
        (strs + stringStart len i + len i) 1 0) := by
  have hstrs := hp.strsIs.aligned
  have htop := hp.strsIs.top
  have hpageTop := hp.pageIs.top
  have hpageAligned := hp.pageIs.aligned
  have hspace : strs + stringStart len i + (len i + 1) ≤ space := by
    rw [space]
    omega
  generalize hnew : (m'.write (strs + stringStart len i) (len i)
    (copyByte m old (ptr i) (len i))).store (strs + stringStart len i + len i) 1 0 = m''
  have hother : ∀ {q}, IsPage q → q ≠ strs → SamePage m'' m' q := by
    intro q hq hne
    rw [← hnew]
    exact (samePage_write hp.strsIs (by omega) (by omega) hq hne).trans
      (samePage_write hp.strsIs (by omega) (by omega) hq hne)
  have hpage : ∀ x < 4096, m'' (page + x) = m' (page + x) := fun x hx =>
    hother hp.pageIs hp.ne _ (by omega) (by omega)
  have hout : ∀ x, x < stringStart len i ∨ stringStart len i + len i < x →
      x < 4096 → m'' (strs + x) = m' (strs + x) := by
    intro x hx hx'
    rw [← hnew, Memory.store, Memory.write_of_not_mem (by omega) (by omega),
      Memory.write_of_not_mem (by omega) (by omega)]
  refine ⟨⟨fun j hj => ?_, fun j hj k hk => ?_, fun j hj => ?_, fun x hx hx' => ?_,
    fun x hx hx' => ?_⟩, SameUsed.trans_page h.used hp.strsSpare hother,
    fun hq hqp hqs => (hother hq hqs).trans (h.kept hq hqp hqs)⟩
  · rw [← h.entry j hj]
    refine Memory.load_congr (by rw [space]; omega) fun x hx hx' => ?_
    exact hother hp.pageIs hp.ne x (by omega) (by omega)
  · rcases Nat.lt_succ_iff_lt_or_eq.mp hj with hj | rfl
    · have hlt := stringStart_add_lt len hj
      rw [hout _ (by omega) (by omega)]
      exact h.byte j hj k hk
    · rw [← hnew, Memory.store, Memory.write_of_not_mem (by omega) (by omega),
        Memory.write_of_mem (by omega) (by omega) (by omega)]
      congr 1
      omega
  · rcases Nat.lt_succ_iff_lt_or_eq.mp hj with hj | rfl
    · have hlt := stringStart_add_lt len hj
      rw [hout _ (by omega) (by omega)]
      exact h.zero j hj
    · rw [← hnew, Memory.store, Memory.write_of_mem (by omega) (by omega) (by omega)]
      simp
  · rw [hpage x hx']
    exact h.pageRest x hx hx'
  · rw [stringStart_succ] at hx
    rw [hout x (by omega) hx']
    exact h.strsRest x (by omega) hx'

/-- The body of the loop, with the pointer written. -/
theorem Copied.pass (hp : CopyPages b page strs virt) (hc : CallerStrings b m old vec n ptr len)
    (h : Copied b m old page strs virt ptr len m₀ i i m') (hi : i < n) (hin : 4 * i + 4 ≤ 4096)
    (hstart : stringStart len i ≤ 4096) : ∃ m₁,
      Copied b m old page strs virt ptr len m₀ (i + 1) i m₁ ∧ ∀ fuel,
        copyStrings old vec page strs virt (fuel + 1) i (stringStart len i) m' =
          (if len i = 0 then some (i, m₁) else
            (mmuStrncpy m₁ old (ptr i) ((strs + stringStart len i) % word32) (len i)).bind
              (copyStrings old vec page strs virt fuel (i + 1) (stringStart len (i + 1)))) ∧
        (CopiesInside old vec page strs virt (fuel + 1) i (stringStart len i) m' ↔ (len i ≠ 0 →
          Inside strs ((strs + stringStart len i) % word32) (len i + 1) ∧ ∀ m'',
            mmuStrncpy m₁ old (ptr i) ((strs + stringStart len i) % word32) (len i) = some m'' →
              CopiesInside old vec page strs virt fuel (i + 1) (stringStart len (i + 1)) m'')) := by
  have hstep := h.pointer hp hin hstart
  have hread := hc.pointer h.used i hi.le
  have hlen := hc.strlen hstep.used i hi
  refine ⟨_, hstep, fun fuel => ⟨?_, ?_⟩⟩
  · rw [copyStrings, hread, if_neg (hc.ne i hi)]
    dsimp only
    rw [hlen, Option.bind_some, stringStart_succ]
  · rw [CopiesInside, hread]
    dsimp only
    rw [hlen, stringStart_succ]
    constructor
    · intro hall
      exact (hall (hc.ne i hi)).2 _ rfl
    · intro hall _
      refine ⟨⟨by omega, by omega⟩, fun l hl => ?_⟩
      obtain rfl := Option.some.inj hl
      exact hall

theorem Copied.next (hp : CopyPages b page strs virt) (hc : CallerStrings b m old vec n ptr len)
    (h : Copied b m old page strs virt ptr len m₀ i i m') (hi : i < n) (hpos : len i ≠ 0)
    (hin : 4 * i + 4 ≤ 4096) (hend : stringStart len (i + 1) ≤ 4096) : ∃ m₂,
      Copied b m old page strs virt ptr len m₀ (i + 1) (i + 1) m₂ ∧ ∀ fuel,
        copyStrings old vec page strs virt (fuel + 1) i (stringStart len i) m' =
          copyStrings old vec page strs virt fuel (i + 1) (stringStart len (i + 1)) m₂ ∧
        (CopiesInside old vec page strs virt (fuel + 1) i (stringStart len i) m' ↔
          CopiesInside old vec page strs virt fuel (i + 1) (stringStart len (i + 1)) m₂) := by
  have hsucc := stringStart_succ len i
  have haligned := hp.strsIs.aligned
  have htop := hp.strsIs.top
  have hmod : (strs + stringStart len i) % word32 = strs + stringStart len i :=
    Nat.mod_eq_of_lt (by rw [word32]; omega)
  have hinside : Inside strs (strs + stringStart len i) (len i + 1) := ⟨by omega, by omega⟩
  obtain ⟨m₁, hstep, hpass⟩ := h.pass hp hc hi hin (by omega)
  have hcopy := hc.copy hstep.used hp.strsIs hp.strsSpare i hi hinside
  refine ⟨_, hstep.string hp hin (by omega), fun fuel => ?_⟩
  obtain ⟨hrun, hwrites⟩ := hpass fuel
  rw [hmod] at hrun hwrites
  rw [hrun, hwrites, if_neg hpos, hcopy, Option.bind_some]
  refine ⟨rfl, fun hall => (hall hpos).2 _ rfl, fun hrest _ => ⟨hinside, fun m'' hm => ?_⟩⟩
  rwa [← Option.some.inj hm]

/-- The passes over strings that fit. -/
theorem Copied.steps (hp : CopyPages b page strs virt) (hc : CallerStrings b m old vec n ptr len)
    (h : Copied b m old page strs virt ptr len m₀ 0 0 m₀) (hi : i ≤ n) (hpos : ∀ j < i, len j ≠ 0)
    (hin : 4 * i ≤ 4096) (hend : stringStart len i ≤ 4096) : ∃ m',
      Copied b m old page strs virt ptr len m₀ i i m' ∧ ∀ fuel,
        copyStrings old vec page strs virt (fuel + i) 0 0 m₀ =
          copyStrings old vec page strs virt fuel i (stringStart len i) m' ∧
        (CopiesInside old vec page strs virt (fuel + i) 0 0 m₀ ↔
          CopiesInside old vec page strs virt fuel i (stringStart len i) m') := by
  induction i with
  | zero => exact ⟨m₀, h, fun fuel => ⟨rfl, Iff.rfl⟩⟩
  | succ i ih =>
    have hsucc := stringStart_succ len i
    obtain ⟨m', hm, hrun⟩ := ih (by omega) (fun j hj => hpos j (by omega)) (by omega) (by omega)
    obtain ⟨m₂, hm₂, hnext⟩ := hm.next hp hc hi (hpos i (by omega)) (by omega) hend
    refine ⟨m₂, hm₂, fun fuel => ?_⟩
    obtain ⟨h1, h2⟩ := hrun (fuel + 1)
    obtain ⟨h3, h4⟩ := hnext fuel
    rw [show fuel + (i + 1) = fuel + 1 + i by omega]
    exact ⟨h1.trans h3, h2.trans h4⟩

/-- The loop ends behind `t` strings: they are all there are, or the next one is empty. -/
structure Stops (len : ℕ → ℕ) (n t : ℕ) : Prop where
  le : t ≤ n
  pos : ∀ j < t, len j ≠ 0
  zero : t < n → len t = 0

/-- The pointers that are written, with that to an empty string. -/
def pointersWritten (n t : ℕ) : ℕ := if t < n then t + 1 else t

theorem CopiesInside.pointer {next fuel : ℕ} (hc : CallerStrings b m old vec n ptr len)
    (hused : SameUsed b m' m) (hi : i < n)
    (h : CopiesInside old vec page strs virt (fuel + 1) i next m') : 4 * i + 4 ≤ 4096 := by
  rw [CopiesInside, hc.pointer hused i hi.le] at h
  have hin := (h (hc.ne i hi)).1
  rw [Inside] at hin
  omega

/-- The passes of a loop that writes where it should. -/
theorem CopiesInside.fits (hp : CopyPages b page strs virt)
    (hc : CallerStrings b m old vec n ptr len)
    (h₀ : Copied b m old page strs virt ptr len m₀ 0 0 m₀) {t fuel : ℕ} (ht : Stops len n t)
    (h : CopiesInside old vec page strs virt (fuel + t) 0 0 m₀) (hi : i ≤ t) :
    4 * i ≤ 4096 ∧ stringStart len i ≤ 4096 := by
  induction i with
  | zero => exact ⟨by omega, Nat.zero_le _⟩
  | succ i ih =>
    obtain ⟨hcount, hend⟩ := ih (by omega)
    have hlt : i < n := Nat.lt_of_lt_of_le hi ht.le
    obtain ⟨m', hm, hrun⟩ := h₀.steps hp hc hlt.le (fun j hj => ht.pos j (by omega)) hcount hend
    obtain ⟨f, hf⟩ : ∃ f, fuel + t = f + 1 + i := ⟨fuel + t - i - 1, by omega⟩
    rw [hf, (hrun (f + 1)).2] at h
    have hin := h.pointer hc hm.used hlt
    obtain ⟨m₁, -, hpass⟩ := hm.pass hp hc hlt hin hend
    obtain ⟨hlow, htop⟩ := (((hpass f).2.mp h) (ht.pos i hi)).1
    have hpage := hp.strsIs.top
    rw [stringStart_succ]
    rw [word32] at hlow htop
    omega

/-- Every write lies in its page exactly if the pointers and the strings fit. -/
theorem copiesInside_iff (hp : CopyPages b page strs virt)
    (hc : CallerStrings b m old vec n ptr len)
    (h : Copied b m old page strs virt ptr len m₀ 0 0 m₀) {t fuel : ℕ} (ht : Stops len n t)
    (hfuel : n < fuel) : CopiesInside old vec page strs virt fuel 0 0 m₀ ↔
      4 * pointersWritten n t ≤ 4096 ∧ stringStart len t ≤ 4096 := by
  have hle := ht.le
  obtain ⟨f, rfl⟩ : ∃ f, fuel = f + 1 + t := ⟨fuel - t - 1, by omega⟩
  -- what is left to be said about the last pass
  have hlast : ∀ {m'}, Copied b m old page strs virt ptr len m₀ t t m' → 4 * t ≤ 4096 →
      stringStart len t ≤ 4096 → (CopiesInside old vec page strs virt (f + 1) t (stringStart len t) m' ↔
        4 * pointersWritten n t ≤ 4096) := by
    intro m' hm hcount hend
    rw [pointersWritten]
    split_ifs with hlt
    · refine ⟨fun hin => ?_, fun hin => ?_⟩
      · have hpointer := hin.pointer hc hm.used hlt
        omega
      · obtain ⟨m₁, -, hpass⟩ := hm.pass hp hc hlt (by omega) hend
        exact (hpass f).2.mpr fun hne => absurd (ht.zero hlt) hne
    · obtain rfl : t = n := by omega
      rw [CopiesInside, hc.pointer hm.used t le_rfl, hc.null]
      simp [hcount]
  constructor
  · intro hin
    obtain ⟨hcount, hend⟩ := CopiesInside.fits hp hc h ht hin le_rfl
    obtain ⟨m', hm, hrun⟩ := h.steps hp hc hle ht.pos hcount hend
    exact ⟨(hlast hm hcount hend).mp ((hrun (f + 1)).2.mp hin), hend⟩
  · rintro ⟨hin, hend⟩
    have hcount : 4 * t ≤ 4096 := by
      rw [pointersWritten] at hin
      split_ifs at hin <;> omega
    obtain ⟨m', hm, hrun⟩ := h.steps hp hc hle ht.pos hcount hend
    exact (hrun (f + 1)).2.mpr ((hlast hm hcount hend).mpr hin)

/-- What the loop leaves if everything fits. -/
theorem copyStrings_eq (hp : CopyPages b page strs virt)
    (hc : CallerStrings b m old vec n ptr len)
    (h : Copied b m old page strs virt ptr len m₀ 0 0 m₀) {t fuel : ℕ} (ht : Stops len n t)
    (hfuel : n < fuel) (hin : 4 * pointersWritten n t ≤ 4096) (hend : stringStart len t ≤ 4096) :
    ∃ m', copyStrings old vec page strs virt fuel 0 0 m₀ = some (t, m') ∧
      Copied b m old page strs virt ptr len m₀ (pointersWritten n t) t m' := by
  have hle := ht.le
  obtain ⟨f, rfl⟩ : ∃ f, fuel = f + 1 + t := ⟨fuel - t - 1, by omega⟩
  have hcount : 4 * t ≤ 4096 := by
    rw [pointersWritten] at hin
    split_ifs at hin <;> omega
  obtain ⟨m', hm, hrun⟩ := h.steps hp hc ht.le ht.pos hcount hend
  rw [(hrun (f + 1)).1]
  rw [pointersWritten] at hin ⊢
  split_ifs at hin ⊢ with hlt
  · obtain ⟨m₁, hm₁, hpass⟩ := hm.pass hp hc hlt (by omega) hend
    exact ⟨m₁, by rw [(hpass f).1, if_pos (ht.zero hlt)], hm₁⟩
  · obtain rfl : t = n := by omega
    refine ⟨m', ?_, hm⟩
    rw [copyStrings, hc.pointer hm.used t le_rfl, hc.null]
    exact if_pos rfl

end Loop

/-! ### The vector of the caller -/

/-- A string at `a`: bytes that are mapped and not 0, and a 0 behind them. -/
structure StringAt (m : Memory) (pdt a : ℕ) (str : List UInt8) : Prop where
  top : a + str.length < word32
  mapped : ∀ i ≤ str.length, mmuIsMapped m pdt (a + i) = true
  byte : ∀ i (h : i < str.length), mmuReadb m pdt (a + i) = str[i].toNat
  ne : ∀ c ∈ str, c ≠ 0
  zero : mmuReadb m pdt (a + str.length) = 0

/-- A vector of pointers to strings, with `NULL` behind the last one. -/
structure VectorAt (m : Memory) (pdt vec : ℕ) (args : List (List UInt8)) : Prop where
  aligned : vec % 4 = 0
  top : vec + 4 * args.length + 4 ≤ word32
  ne : ∀ i < args.length, mmuReadl m pdt (vec + 4 * i) ≠ 0
  string : ∀ i (h : i < args.length), StringAt m pdt (mmuReadl m pdt (vec + 4 * i)) args[i]
  null : mmuReadl m pdt (vec + 4 * args.length) = 0

/-- A read that crosses the end of a page goes on in a frame that is in use. -/
def BehindUsed (b : Bitmap) (m : Memory) (pdt v n : ℕ) : Prop :=
  ∀ i < n, Straddles v n i → ∀ e, pageOf m pdt (v + i - 4096) = some e →
    ¬ b.Spare ((e.frame + 4096) % space)

section Caller
variable {b : Bitmap} {m m' : Memory} {old vec v n i : ℕ} {args : List (List UInt8)}

/-- What a copy reads does not depend on free frames. -/
theorem Occupied.copyByte_eq (h : Occupied b m old) (hsame : SameUsed b m' m)
    (htop : v + n ≤ word32) (hbehind : BehindUsed b m old v n) (hi : i < n) :
    copyByte m' old v n i = copyByte m old v n i := by
  by_cases hs : Straddles v n i
  · have hstart := readStart_le n i
    rw [copyByte_of_straddles hs, copyByte_of_straddles hs, byteBehind, byteBehind,
      h.pageOf_eq hsame (by omega)]
    cases he : pageOf m old (v + i - 4096) with
    | none => rfl
    | some e =>
      have h1 := e.isPage_frame.aligned
      have h2 := e.isPage_frame.top
      have hpage : IsPage ((e.frame + 4096) % space) := by
        rw [space]
        exact ⟨by omega, by omega⟩
      refine hsame hpage (hbehind i hi hs e he) _ ?_ ?_
      · rw [pageOffset, space]
        omega
      · rw [pageOffset, space]
        omega
  · rw [copyByte_of_not_straddles hs, copyByte_of_not_straddles hs, ← UInt8.toNat_inj, ← readb_eq,
      ← readb_eq]
    exact h.read_eq hsame (by omega) (pageOffset_lt _)

theorem SameUsed.write {q dst : ℕ} {f : ℕ → UInt8} (h : SameUsed b m' m) (hpage : IsPage q)
    (hq : b.Spare q) (hin : Inside q dst n) : SameUsed b (m'.write dst n f) m := by
  intro p hp hnot
  refine (samePage_write hpage hin.1 hin.2 hp ?_).trans (h hp hnot)
  rintro rfl
  exact hnot hq

/-- A string of the caller is copied with its 0. -/
theorem Occupied.strncpy_eq {q dst : ℕ} (h : Occupied b m old) (hsame : SameUsed b m' m)
    (htop : v + n < word32) (hbehind : BehindUsed b m old v n) (hlen : mmuStrlen m' old v = some n)
    (hpage : IsPage q) (hq : b.Spare q) (hin : Inside q dst (n + 1)) :
    mmuStrncpy m' old v dst n =
      some ((m'.write dst n (copyByte m old v n)).store (dst + n) 1 0) := by
  obtain ⟨hlow, hend⟩ := hin
  have hpageTop := hpage.top
  have hpageAligned := hpage.aligned
  have hread : Unread m' old v n dst := by
    intro f i hi
    have hwrite : SameUsed b (m'.write dst n f) m :=
      SameUsed.write hsame hpage hq ⟨hlow, by omega⟩
    rw [h.copyByte_eq hwrite htop.le hbehind hi, h.copyByte_eq hsame htop.le hbehind hi]
  have hcopy : mmuMemcpy m' old v dst n = m'.write dst n (copyByte m old v n) := by
    rw [hread.memcpy htop.le (by rw [word32]; omega)]
    exact Memory.write_congr fun k hk => h.copyByte_eq hsame htop.le hbehind hk
  have hmod : (dst + n) % word32 = dst + n := Nat.mod_eq_of_lt (by rw [word32]; omega)
  rw [mmuStrncpy, hlen, Option.map_some, if_neg (Nat.lt_irrefl n), Nat.sub_self, hmod, hcopy]
  rfl

/-- The pointer and the length of string `i`. -/
def ptrAt (m : Memory) (old vec i : ℕ) : ℕ := mmuReadl m old (vec + 4 * i)

def lenAt (args : List (List UInt8)) (i : ℕ) : ℕ := (args.getD i []).length

theorem lenAt_eq (h : i < args.length) : lenAt args i = args[i].length := by
  rw [lenAt, ← List.getElem_eq_getD]

theorem VectorAt.reads (hv : VectorAt m old vec args) (h : Occupied b m old)
    (hbehind : ∀ i < args.length, BehindUsed b m old (ptrAt m old vec i) (lenAt args i)) :
    CallerStrings b m old vec args.length (ptrAt m old vec) (lenAt args) := by
  have htop := hv.top
  have haligned := hv.aligned
  have hstrlen : ∀ {m'}, SameUsed b m' m → ∀ i < args.length,
      mmuStrlen m' old (ptrAt m old vec i) = some (lenAt args i) := by
    intro m' hsame i hi
    have hstring := hv.string i hi
    have hend := hstring.top
    rw [← ptrAt] at hstring hend
    rw [lenAt_eq hi]
    have hbyte : ∀ k ≤ args[i].length, mmuReadb m' old ((ptrAt m old vec i + k) % word32) =
        mmuReadb m old (ptrAt m old vec i + k) := by
      intro k hk
      rw [Nat.mod_eq_of_lt (by omega)]
      exact h.read_eq hsame (by omega) (pageOffset_lt _)
    refine mmuStrlen_eq_some.mpr ⟨by omega, ?_, fun k hk => ?_⟩
    · rw [hbyte _ le_rfl]
      exact hstring.zero
    · rw [hbyte k hk.le, hstring.byte k hk]
      have hne := hstring.ne _ (List.getElem_mem hk)
      rwa [Ne, ← UInt8.toNat_inj] at hne
  refine ⟨fun hsame i hi => ?_, hv.ne, hv.null, hstrlen, fun hsame hpage hq i hi hin => ?_⟩
  · rw [Nat.mod_eq_of_lt (by omega)]
    exact h.read_eq hsame (by omega) (by rw [pageOffset]; omega)
  · have hend := (hv.string i hi).top
    rw [← lenAt_eq hi] at hend
    exact h.strncpy_eq hsame hend (hbehind i hi) (hstrlen hsame i hi) hpage hq hin

end Caller

/-! ### What the program sees -/

/-- The program finds the strings through the vector at `virt`, all in the pages that were made
for them. -/
structure PassedAt (m : Memory) (pd virt : ℕ) (args : List (List UInt8)) : Prop where
  inside : 4 * args.length ≤ 4096
  low : ∀ i < args.length, virt + 4096 ≤ mmuReadl m pd (virt + 4 * i)
  high : ∀ i (h : i < args.length),
    mmuReadl m pd (virt + 4 * i) + args[i].length < virt + 8192
  string : ∀ i (h : i < args.length), StringAt m pd (mmuReadl m pd (virt + 4 * i)) args[i]

/-- The two pages of a vector in the address space of the program. -/
structure VectorView (m : Memory) (pd virt page strs : ℕ) : Prop where
  aligned : virt % 4096 = 0
  top : virt + 8192 ≤ word32
  page : LeadsTo m pd virt page
  strs : LeadsTo m pd (virt + 4096) strs

section View
variable {b : Bitmap} {m m₀ m' : Memory} {pd old vec virt page strs v p x i t e : ℕ}
  {args : List (List UInt8)} {ptr len : ℕ → ℕ}

theorem LeadsTo.read (h : LeadsTo m pd v p) (hv : v % 4096 = 0) (hx : x < 4096) (n : ℕ) :
    mmuRead n m pd (v + x) = m.load (p + x) n ∧ mmuIsMapped m pd (v + x) = true := by
  obtain ⟨entry, he, hframe⟩ := h
  have hpage : pageOf m pd (v + x) = some entry := by
    rw [← he]
    exact pageOf_page (by omega)
  refine ⟨?_, ?_⟩
  · rw [mmuRead, hpage, Option.elim_some, hframe, pageOffset]
    congr 1
    omega
  · rw [mmuIsMapped, hpage]
    rfl

theorem CopiedPages.congr (h : CopiedPages m old page strs virt ptr len e i m₀)
    (hpage : IsPage page) (hsame : SamePage m' m₀ page) (hsame' : SamePage m' m₀ strs)
    (hin : 4 * e ≤ 4096) (hend : stringStart len i ≤ 4096) :
    CopiedPages m old page strs virt ptr len e i m' := by
  have haligned := hpage.aligned
  have htop := hpage.top
  refine ⟨fun j hj => ?_, fun j hj k hk => ?_, fun j hj => ?_, fun x hx hx' => ?_,
    fun x hx hx' => ?_⟩
  · rw [← h.entry j hj]
    refine Memory.load_congr (by rw [space]; omega) fun x hx hx' => ?_
    exact hsame x (by omega) (by omega)
  · have hlt := stringStart_add_lt len hj
    rw [hsame' _ (by omega) (by omega)]
    exact h.byte j hj k hk
  · have hlt := stringStart_add_lt len hj
    rw [hsame' _ (by omega) (by omega)]
    exact h.zero j hj
  · rw [hsame _ (by omega) (by omega)]
    exact h.pageRest x hx hx'
  · rw [hsame' _ (by omega) (by omega)]
    exact h.strsRest x hx hx'

theorem VectorView.readl (h : VectorView m' pd virt page strs) (hi : 4 * i + 4 ≤ 4096) :
    mmuReadl m' pd (virt + 4 * i) = m'.load (page + 4 * i) 4 :=
  (h.page.read h.aligned (by omega) 4).1

theorem VectorView.readb (h : VectorView m' pd virt page strs) (hp : IsPage strs) (hx : x < 4096) :
    mmuReadb m' pd (virt + 4096 + x) = (m' (strs + x)).toNat ∧
      mmuIsMapped m' pd (virt + 4096 + x) = true := by
  have haligned := h.aligned
  have h1 := hp.aligned
  have h2 := hp.top
  obtain ⟨hread, hmapped⟩ := h.strs.read (by omega) hx 1
  refine ⟨hread.trans ?_, hmapped⟩
  rw [Memory.load, Memory.load, Nat.mod_eq_of_lt (by rw [space]; omega), Nat.mul_zero, Nat.add_zero]

theorem pageRest_load (h : ∀ x, e ≤ x → x < 4096 → m' (page + x) = 0) (hp : IsPage page) (he : e ≤ i)
    (hi : i + 4 ≤ 4096) : m'.load (page + i) 4 = 0 := by
  have h1 := hp.aligned
  have h2 := hp.top
  have hzero : m'.load (page + i) 4 = Memory.load (fun _ => 0) (page + i) 4 := by
    refine Memory.load_congr (by rw [space]; omega) fun x hx hx' => ?_
    obtain ⟨y, rfl⟩ := Nat.exists_eq_add_of_le (show page ≤ x by omega)
    exact h y (by omega) (by omega)
  rw [hzero]
  rfl

section Passed
variable (hv : VectorAt m old vec args) (hview : VectorView m' pd virt page strs)
  (hpage : IsPage page) (hstrs : IsPage strs)
  (h : CopiedPages m old page strs (virt + 4096) (ptrAt m old vec) (lenAt args)
    (pointersWritten args.length t) t m') (ht : Stops (lenAt args) args.length t)
  (hin : 4 * pointersWritten args.length t ≤ 4096) (hend : stringStart (lenAt args) t ≤ 4096)

include hview h hin in
theorem pointer_read (hi : i < pointersWritten args.length t) :
    mmuReadl m' pd (virt + 4 * i) = virt + 4096 + stringStart (lenAt args) i := by
  rw [hview.readl (by omega), h.entry i hi]

include hview hstrs h hend in
theorem string_read (hi : i < t) {k : ℕ} (hk : k < lenAt args i) :
    mmuReadb m' pd (virt + 4096 + stringStart (lenAt args) i + k) =
      (copyByte m old (ptrAt m old vec i) (lenAt args i) k).toNat := by
  have hlt := stringStart_add_lt (lenAt args) hi
  rw [← h.byte i hi k hk, ← (hview.readb hstrs (by omega)).1, Nat.add_assoc]

include hview hpage h in
/-- There is no pointer behind that to an empty string. -/
theorem PassedAt.length_le (hp : PassedAt m' pd virt args) : args.length ≤ t + 1 := by
  by_contra hlt
  have hinside := hp.inside
  have hlow := hp.low (t + 1) (by omega)
  rw [hview.readl (by omega), pageRest_load (e := 4 * pointersWritten args.length t) h.pageRest
    hpage (by rw [pointersWritten, if_pos (by omega)]) (by omega)] at hlow
  omega

include hv hview hpage hstrs h ht hin hend

theorem PassedAt.stops (hp : PassedAt m' pd virt args) :
    (args.length = t ∨ args.length = t + 1 ∧ stringStart (lenAt args) t < 4096) ∧
      ∀ i < t, SameBehind m old (ptrAt m old vec i) (lenAt args i) := by
  have hle := ht.le
  have hlast := hp.length_le hview hpage h
  refine ⟨?_, fun i hi => copyByte_eq_iff.mp fun k hk => ?_⟩
  · rcases Nat.lt_or_ge t args.length with hlt | hge
    · have hhigh := hp.high t hlt
      rw [pointer_read hview h hin (by rw [pointersWritten, if_pos hlt]; omega)] at hhigh
      exact .inr ⟨by omega, by omega⟩
    · exact .inl (by omega)
  · have hi' : i < args.length := by omega
    have hwritten : i < pointersWritten args.length t := by
      rw [pointersWritten]
      split_ifs <;> omega
    have hstring := hp.string i hi'
    rw [pointer_read hview h hin hwritten] at hstring
    have hk' := hk
    rw [lenAt_eq hi'] at hk'
    rw [← string_read hview hstrs h hend hi hk, hstring.byte k hk', ptrAt, (hv.string i hi').byte k hk']

omit hpage in
theorem passedAt_of_stops
    (hn : args.length = t ∨ args.length = t + 1 ∧ stringStart (lenAt args) t < 4096)
    (hsame : ∀ i < t, SameBehind m old (ptrAt m old vec i) (lenAt args i)) :
    PassedAt m' pd virt args := by
  have htop := hview.top
  have hall : pointersWritten args.length t = args.length := by
    rw [pointersWritten]
    split_ifs <;> omega
  have hentry : ∀ i < args.length,
      mmuReadl m' pd (virt + 4 * i) = virt + 4096 + stringStart (lenAt args) i := fun i hi =>
    pointer_read hview h hin (hall.symm ▸ hi)
  -- every string ends in the page
  have hfits : ∀ i (hi : i < args.length), stringStart (lenAt args) i + args[i].length < 4096 := by
    intro i hi
    rw [← lenAt_eq hi]
    rcases Nat.lt_or_ge i t with hlt | hge
    · have hnext := stringStart_add_lt (lenAt args) hlt
      omega
    · obtain rfl : i = t := by omega
      rw [ht.zero hi]
      omega
  refine ⟨hall ▸ hin, fun i hi => ?_, fun i hi => ?_, fun i hi => ?_⟩
  · rw [hentry i hi]
    omega
  · have hlast := hfits i hi
    rw [hentry i hi]
    omega
  · have hlast := hfits i hi
    have hcaller := hv.string i hi
    rw [hentry i hi]
    refine ⟨by omega, fun k hk => ?_, fun k hk => ?_, hcaller.ne, ?_⟩
    · rw [Nat.add_assoc]
      exact (hview.readb hstrs (by omega)).2
    · rw [← lenAt_eq hi] at hk
      have hlt : i < t := by
        by_contra hge
        obtain rfl : i = t := by omega
        rw [ht.zero hi] at hk
        omega
      rw [string_read hview hstrs h hend hlt hk, copyByte_eq_iff.mpr (hsame i hlt) k hk]
      exact hcaller.byte k (lenAt_eq hi ▸ hk)
    · rw [Nat.add_assoc, (hview.readb hstrs hlast).1]
      rcases Nat.lt_or_ge i t with hlt | hge
      · rw [← lenAt_eq hi, h.zero i hlt]
        rfl
      · obtain rfl : i = t := by omega
        rw [h.strsRest _ (by omega) hlast]
        rfl

/-- The program sees the strings exactly if the loop stopped at the end or at the last one, which
is then empty, and no read across the end of a page found another byte. -/
theorem passedAt_iff : PassedAt m' pd virt args ↔
    (args.length = t ∨ args.length = t + 1 ∧ stringStart (lenAt args) t < 4096) ∧
      ∀ i < t, SameBehind m old (ptrAt m old vec i) (lenAt args i) :=
  ⟨fun hp => hp.stops hv hview hpage hstrs h ht hin hend,
    fun hc => passedAt_of_stops hv hview hstrs h ht hin hend hc.1 hc.2⟩

end Passed

end View

end DosKernel
