import Mathlib.Data.Finset.Card
import DosKernel.Fs.Descriptors

/-! An open that fails. `process_open_file` marks its slot as used before it looks at the
path; the exits of the terminal and of the framebuffer branch do not take the mark back. -/

namespace DosKernel.Vfs

def usedSlots (fd : ℕ → Descriptor) : Finset ℕ := (Finset.range fdCount).filter fun i => (fd i).used

/-- The path names a terminal with too large a number, or a second framebuffer. -/
def NoDevice (path : List Char) : Prop :=
  if isTtyPath path then atoi (path.drop 8) ≠ 0 ∧ ttysCount < atoi (path.drop 8)
  else isFbPath path ∧ 0 < atoi (path.drop 7)

instance (path : List Char) : Decidable (NoDevice path) := by
  unfold NoDevice
  infer_instance

/-- The slots after one open after the other. -/
def openAll (fd : ℕ → Descriptor) (os : List (Env × List Char × ℕ)) : ℕ → Descriptor :=
  os.foldl (fun fd o => (processOpenFile o.1 fd o.2.1 o.2.2).2) fd

section Failed
variable {env : Env} {fd : ℕ → Descriptor} {d : Descriptor} {path : List Char} {flags : ℕ}

theorem mem_usedSlots {i : ℕ} : i ∈ usedSlots fd ↔ i < fdCount ∧ (fd i).used = true := by
  simp [usedSlots]

theorem usedSlots_card_le (fd : ℕ → Descriptor) : (usedSlots fd).card ≤ fdCount := by
  simpa [usedSlots] using Finset.card_filter_le (Finset.range fdCount) fun i => (fd i).used = true

/-- `openObject` takes the mark back on each of its errors. -/
theorem openObject_used (h : (openObject env d path flags).1 < 0) :
    (openObject env d path flags).2.used = false := by
  rw [openObject] at h ⊢
  rcases hstat : vfsStat env.root env.mounts env.allocated (some path) with e | ⟨mount, st⟩
  · rfl
  · rw [hstat] at h
    dsimp only at h ⊢
    split_ifs at h ⊢
    · rfl
    · exact absurd (show (0 : ℤ) < 0 from h) (lt_irrefl 0)

/-- The slot of a failed open is in use exactly if there is no such device. -/
theorem openSlot_used (h : (openSlot env d path flags).1 < 0) :
    (openSlot env d path flags).2.used = true ↔ NoDevice path := by
  rw [openSlot_eq] at h ⊢
  rw [NoDevice]
  split_ifs at h ⊢ with htty hfb
  · rw [openTty] at h ⊢
    split_ifs at h ⊢ with hnum
    · exact iff_of_true rfl hnum
    · exact absurd (show (0 : ℤ) < 0 from h) (lt_irrefl 0)
  · rw [openFb] at h ⊢
    split_ifs at h ⊢ with hnum
    · exact iff_of_true rfl ⟨hfb, hnum⟩
    · exact absurd (show (0 : ℤ) < 0 from h) (lt_irrefl 0)
  · rw [openObject_used h]
    exact iff_of_false Bool.false_ne_true fun hno => hfb hno.1

/-- A failed open finds no slot, or it works in a slot that was free. -/
theorem processOpenFile_failed (h : (processOpenFile env fd path flags).1 < 0) :
    (usedSlots fd = Finset.range fdCount ∧ (processOpenFile env fd path flags).2 = fd) ∨
    ∃ i < fdCount, (fd i).used = false ∧ (openSlot env (fd i) path flags).1 < 0 ∧
      (processOpenFile env fd path flags).2 =
        Function.update fd i (openSlot env (fd i) path flags).2 := by
  rw [processOpenFile] at h ⊢
  rcases hfind : (List.range fdCount).find? fun i => !(fd i).used with _ | i
  · refine .inl ⟨?_, rfl⟩
    have hall := List.find?_eq_none.mp hfind
    ext i
    rw [mem_usedSlots, Finset.mem_range]
    refine and_iff_left_of_imp fun hi => ?_
    simpa using hall i (List.mem_range.mpr hi)
  · rw [hfind] at h
    have hfree := List.find?_some hfind
    refine .inr ⟨i, List.mem_range.mp (List.mem_of_find?_eq_some hfind), by simpa using hfree, ?_, rfl⟩
    dsimp only at h
    split_ifs at h
    · omega
    · exact h

/-- A failed open leaves the used descriptors alone, or it adds one. -/
theorem usedSlots_failed (h : (processOpenFile env fd path flags).1 < 0) :
    usedSlots (processOpenFile env fd path flags).2 = usedSlots fd ∧
      (usedSlots fd = Finset.range fdCount ∨ ¬ NoDevice path) ∨
    (∃ i ∉ usedSlots fd, usedSlots (processOpenFile env fd path flags).2 = insert i (usedSlots fd)) ∧
      NoDevice path := by
  rcases processOpenFile_failed h with ⟨hfull, hsame⟩ | ⟨i, hi, hfree, hneg, hslots⟩
  · rw [hsame]
    exact .inl ⟨rfl, .inl hfull⟩
  have hused := openSlot_used hneg
  have hmem : ∀ j, j ∈ usedSlots (processOpenFile env fd path flags).2 ↔
      j = i ∧ NoDevice path ∨ j ∈ usedSlots fd := by
    intro j
    rw [mem_usedSlots, mem_usedSlots, hslots]
    by_cases hj : j = i
    · subst hj
      rw [Function.update_self, hused, hfree]
      simp [hi]
    · rw [Function.update_of_ne hj]
      simp [hj]
  by_cases hno : NoDevice path
  · refine .inr ⟨⟨i, ?_, ?_⟩, hno⟩
    · rw [mem_usedSlots, hfree]
      simp
    · ext j
      rw [hmem, Finset.mem_insert]
      simp [hno]
  · refine .inl ⟨?_, .inr hno⟩
    ext j
    rw [hmem]
    simp [hno]

theorem processOpenFile_noDevice (h : NoDevice path) : (processOpenFile env fd path flags).1 < 0 := by
  have herror : -enomem < 0 ∧ -enoent < 0 := by decide
  rw [processOpenFile]
  rcases (List.range fdCount).find? fun i => !(fd i).used with _ | i
  · exact herror.1
  have hslot : (openSlot env (fd i) path flags).1 < 0 := by
    rw [NoDevice] at h
    rw [openSlot_eq]
    split_ifs at h ⊢ with htty hfb
    · rw [openTty, if_pos h]
      exact herror.2
    · rw [openFb, if_pos h.2]
      exact herror.2
    · exact absurd h.1 hfb
  dsimp only
  rw [if_neg hslot.ne]
  exact hslot

/-- Opens of devices that are not there use up the table, one slot after the other. -/
theorem openAll_card {os : List (Env × List Char × ℕ)} (h : ∀ o ∈ os, NoDevice o.2.1) :
    (usedSlots (openAll fd os)).card = min fdCount ((usedSlots fd).card + os.length) := by
  induction os generalizing fd with
  | nil =>
    rw [openAll, List.foldl_nil, List.length_nil, Nat.add_zero,
      Nat.min_eq_right (usedSlots_card_le fd)]
  | cons o os ih =>
    have hno := h o List.mem_cons_self
    rw [openAll, List.foldl_cons, ← openAll, ih fun o ho => h o (List.mem_cons_of_mem _ ho),
      List.length_cons]
    have hfailed : (processOpenFile o.1 fd o.2.1 o.2.2).1 < 0 := processOpenFile_noDevice hno
    rcases usedSlots_failed hfailed with ⟨hsame, hkeep⟩ | ⟨⟨i, hi, hadd⟩, -⟩
    · have hfull := hkeep.resolve_right (not_not.mpr hno)
      rw [hsame, hfull, Finset.card_range]
      omega
    · rw [hadd, Finset.card_insert_of_notMem hi]
      omega

end Failed

/-- An open that fails leaves the used descriptors as they were exactly if there was no
free one, or the path does not name a terminal or framebuffer that is not there. -/
theorem failed_open_keeps_iff {env : Env} {fd : ℕ → Descriptor} {path : List Char} {flags : ℕ}
    (h : (processOpenFile env fd path flags).1 < 0) :
    usedSlots (processOpenFile env fd path flags).2 = usedSlots fd ↔
      usedSlots fd = Finset.range fdCount ∨ ¬ NoDevice path := by
  rcases usedSlots_failed h with ⟨hsame, hkeep⟩ | ⟨⟨i, hi, hadd⟩, hno⟩
  · exact iff_of_true hsame hkeep
  · refine iff_of_false (fun hsame => hi ?_) ?_
    · rw [← hsame, hadd]
      exact Finset.mem_insert_self _ _
    · rintro (hfull | hnot)
      · -- the slot that is added was one of the table
        have hlt := (mem_usedSlots.mp (hadd ▸ Finset.mem_insert_self i (usedSlots fd))).1
        rw [hfull, Finset.mem_range] at hi
        exact hi hlt
      · exact hnot hno

/-- The file `/x` is missing: no descriptor is used up. -/
theorem failed_open_keeps_of_missing :
    (processOpenFile exampleEnv (slots []) ['/', 'x'] 0).1 < 0 ∧
      usedSlots (processOpenFile exampleEnv (slots []) ['/', 'x'] 0).2 = usedSlots (slots []) := by
  have hneg : (processOpenFile exampleEnv (slots []) ['/', 'x'] 0).1 < 0 := by decide
  exact ⟨hneg, (failed_open_keeps_iff hneg).mpr (.inr (by decide))⟩

/-- There is no terminal 9: slot 0 stays in use. -/
theorem failed_open_uses_slot :
    ¬ ∀ (env : Env) (fd : ℕ → Descriptor) (path : List Char) (flags : ℕ),
      (processOpenFile env fd path flags).1 < 0 →
        usedSlots (processOpenFile env fd path flags).2 = usedSlots fd := by
  intro h
  have hsame := h exampleEnv (slots []) "/dev/tty9".toList 0 (by decide)
  have hmem : 0 ∈ usedSlots (processOpenFile exampleEnv (slots []) "/dev/tty9".toList 0).2 :=
    mem_usedSlots.mpr ⟨by decide, by decide⟩
  rw [hsame, mem_usedSlots] at hmem
  exact absurd hmem.2 (by decide)

end DosKernel.Vfs
