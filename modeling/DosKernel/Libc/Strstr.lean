import DosKernel.Lib.Accesses
import DosKernel.Libc.Comparison

/-! The search for a text. A comparison of the text with what stands at a place ends at the first
character that differs, so it does not go on behind the end of the string. -/

namespace DosKernel.Libc

open CString Lib Access

/-! ### The code -/

/-- The inner loop of `strstr` for the place `i`, with the characters of `str1` that it reads. -/
def beginsWithReads (str1 str2 : CString) (i : ℕ) : (fuel j : ℕ) → Access Unit Bool
  | 0, _ => diverge
  | fuel + 1, j =>
    if str2 j = 0 then pure true
    else do
      let c ← touch () (str1 (i + j)) (i + j) 1
      if c ≠ str2 j then pure false else beginsWithReads str1 str2 i fuel (j + 1)

/-- The text stands at the place `i`. -/
def foundAt (str1 str2 : CString) (i : ℕ) : Access Unit Bool := do
  let c ← touch () (str1 i) i 1
  if c = str2 0 then beginsWithReads str1 str2 i word32 0 else pure false

/-- The outer loop. -/
def strstrReadsFrom (str1 str2 : CString) : (fuel i : ℕ) → Access Unit (Option ℕ)
  | 0, _ => diverge
  | fuel + 1, i => do
    let c ← touch () (str1 i) i 1
    if c = 0 then pure none
    else do
      let found ← foundAt str1 str2 i
      if found then pure (some i) else strstrReadsFrom str1 str2 fuel (i + 1)

/-- `strstr`, with the characters of `str1` that it reads. -/
def strstrReads (str1 str2 : CString) : Access Unit (Option ℕ) := strstrReadsFrom str1 str2 word32 0

def OccursAt (p l : List UInt8) (i : ℕ) : Prop := p <+: l.drop i

/-- The place is the first one where the text stands. -/
def FirstPlace (p l : List UInt8) (i : ℕ) : Prop := OccursAt p l i ∧ ∀ j < i, ¬ OccursAt p l j

/-! ### The reads -/

variable {a b : CString} {l p : List UInt8} {n i j fuel : ℕ}

/-- The inner loop ends inside the string, with the result of the one without reads. -/
theorem beginsWithReads_spec (ha : Rest a (i + j) l) (hn : i + j + l.length = n) (hb : Rest b j p)
    (hp : NonZero p) (hfuel : p.length < fuel) :
    Ensures (fun _ => n + 1) (beginsWithReads a b i fuel j) fun r =>
      r = beginsWith (fun k => a (i + k)) b fuel j := by
  induction p generalizing l j fuel with
  | nil =>
    obtain ⟨fuel, rfl⟩ := Nat.exists_eq_add_one.mpr hfuel
    rw [beginsWithReads, beginsWith, if_pos hb.ends, if_pos hb.ends, ensures_pure]
  | cons c p ih =>
    obtain ⟨fuel, rfl⟩ := Nat.exists_eq_add_one.mpr (Nat.zero_lt_of_lt hfuel)
    have hc : b j ≠ 0 := by
      rw [hb.head]
      exact hp c List.mem_cons_self
    rw [beginsWithReads, beginsWith, if_neg hc, if_neg hc, ensures_bind, ensures_touch]
    refine ⟨by omega, ?_⟩
    split_ifs with hdiffer
    · rw [ensures_pure]
    · rw [not_not] at hdiffer
      cases l with
      | nil => exact absurd (hdiffer.symm.trans ha.ends) hc
      | cons c' l =>
        rw [List.length_cons] at hn
        exact ih ha.tail (by omega) hb.tail (fun c hc => hp c (List.mem_cons_of_mem _ hc))
          (Nat.lt_of_succ_lt_succ hfuel)

theorem foundAt_spec (ha : Rest a i l) (hn : i + l.length = n) (hb : IsString b p) (hp : NonZero p)
    (hlen : p.length < word32) :
    Ensures (fun _ => n + 1) (foundAt a b i) fun r =>
      (r = true ↔ a i = b 0 ∧ beginsWith (fun k => a (i + k)) b word32 0 = true) := by
  rw [foundAt, ensures_bind, ensures_touch]
  refine ⟨by omega, ?_⟩
  split_ifs with hfirst
  · refine (beginsWithReads_spec ha hn hb.rest hp hlen).mono fun r hr => ?_
    rw [hr, and_iff_right hfirst]
  · rw [ensures_pure]
    exact iff_of_false (by decide) fun h => hfirst h.1

/-- The outer loop as well. -/
theorem strstrReadsFrom_spec (ha : Rest a i l) (hl : NonZero l) (hn : i + l.length = n)
    (hb : IsString b p) (hp : NonZero p) (hlen : p.length < word32) (hfuel : l.length < fuel) :
    Ensures (fun _ => n + 1) (strstrReadsFrom a b fuel i) fun r => r = strstrFrom a b fuel i := by
  induction l generalizing i fuel with
  | nil =>
    obtain ⟨fuel, rfl⟩ := Nat.exists_eq_add_one.mpr hfuel
    rw [strstrReadsFrom, strstrFrom, ensures_bind, ensures_touch, if_pos ha.ends, if_pos ha.ends,
      ensures_pure]
    rw [List.length_nil] at hn
    exact ⟨by omega, rfl⟩
  | cons c l ih =>
    obtain ⟨fuel, rfl⟩ := Nat.exists_eq_add_one.mpr (Nat.zero_lt_of_lt hfuel)
    have hc : a i ≠ 0 := by
      rw [ha.head]
      exact hl c List.mem_cons_self
    rw [strstrReadsFrom, strstrFrom, ensures_bind, ensures_touch, if_neg hc, if_neg hc, ensures_bind]
    have hfound := foundAt_spec ha hn hb hp hlen
    rw [List.length_cons] at hn
    refine ⟨by omega, hfound.mono fun r hr => ?_⟩
    cases r with
    | true =>
      rw [if_pos rfl, if_pos (hr.mp rfl), ensures_pure]
    | false =>
      rw [if_neg (by decide), if_neg fun h => absurd (hr.mpr h) (by decide)]
      exact ih ha.tail (fun c hc => hl c (List.mem_cons_of_mem _ hc)) (by omega)
        (Nat.lt_of_succ_lt_succ hfuel)

/-! ### The first place -/

theorem FirstAt.firstPlace {before after : List UInt8} (h : FirstAt p l before after) :
    FirstPlace p l before.length := by
  constructor
  · rw [OccursAt, h.split, List.drop_left]
    exact List.prefix_append p after
  · rintro j hj ⟨after', hafter'⟩
    have hlength : before.length ≤ l.length := by
      rw [h.split, List.length_append]
      exact Nat.le_add_right _ _
    have hle := h.first (l.take j) after' (by rw [hafter', List.take_append_drop])
    rw [List.length_take] at hle
    omega

theorem FirstPlace.unique (h : FirstPlace p l i) (h' : FirstPlace p l j) : i = j := by
  rcases Nat.lt_trichotomy i j with hlt | heq | hgt
  · exact absurd h.1 (h'.2 i hlt)
  · exact heq
  · exact absurd h'.1 (h.2 j hgt)

theorem OccursAt.isInfix (h : OccursAt p l i) : p <:+: l :=
  List.IsInfix.trans (List.IsPrefix.isInfix h) (List.drop_suffix i l).isInfix

/-- `strstr` finds the first place of a text, or that there is none, and it reads no character behind
the end of the string. -/
theorem strstr_first {h n : CString} {l p : List UInt8} (hh : IsString h l) (hl : NonZero l)
    (hlen : l.length < word32) (hn : IsString n p) (hp : NonZero p) (hplen : p.length < word32)
    (hne : p ≠ []) :
    Ensures (fun _ => l.length + 1) (strstrReads h n) fun r => r = strstr h n ∧
      (∀ i, r = some i ↔ FirstPlace p l i) ∧ (r = none ↔ ¬ p <:+: l) := by
  refine (strstrReadsFrom_spec hh.rest hl (Nat.zero_add _) hn hp hplen hlen).mono fun r hr => ⟨hr, ?_⟩
  rcases strstrFrom_spec hh.rest hl hn hp hne hplen hlen with
    ⟨before, after, hfirst, hresult⟩ | ⟨hnone, hresult⟩
  · rw [hr, hresult, Nat.zero_add]
    have hplace := hfirst.firstPlace
    refine ⟨fun i => ?_, iff_of_false (by simp) fun hnot => hnot hplace.1.isInfix⟩
    rw [Option.some_inj]
    exact ⟨fun heq => heq ▸ hplace, fun h => hplace.unique h⟩
  · have hnot : ¬ p <:+: l := by
      rintro ⟨before, after, h⟩
      exact hnone before after (by rw [← h, List.append_assoc])
    rw [hr, hresult]
    exact ⟨fun i => iff_of_false (by simp) fun h => hnot h.1.isInfix, iff_of_true rfl hnot⟩

/-- `aab` in `aaab`: the search goes on behind the first place. -/
theorem strstr_first_overlapping :
    strstr (fun i => [97, 97, 97, 98].getD i 0) (fun i => [97, 97, 98].getD i 0) = some 1 := by
  have hl : NonZero [97, 97, 97, 98] := by decide
  have hp : NonZero [97, 97, 98] := by decide
  obtain ⟨-, r, -, hr, hplace, -⟩ := strstr_first (h := fun i => [97, 97, 97, 98].getD i 0)
    (n := fun i => [97, 97, 98].getD i 0) (fun _ _ => rfl) hl (by decide) (fun _ _ => rfl) hp (by decide)
    (by decide)
  have hfirst : FirstPlace [97, 97, 98] [97, 97, 97, 98] 1 := by
    refine ⟨⟨[], rfl⟩, fun j hj => ?_⟩
    obtain rfl : j = 0 := by omega
    unfold OccursAt
    decide
  rw [← hr, hplace]
  exact hfirst

end DosKernel.Libc
