import DosKernel.Libc.Strings

/-! The names of FAT directory entries. `dos83toStr` puts the two padded fields together in a
static buffer; it takes the padding of the first field off and leaves that of the second one. -/

namespace DosKernel

namespace CString

/-- The loop of `dos83toStr`: it ends the string at the first space of eight characters. -/
def trimFrom (ret : CString) : (fuel i : ℕ) → ℕ × CString
  | 0, i => (i, ret)
  | fuel + 1, i =>
    if ret i = 0 then (i, ret)
    else if ret i = 32 then (i, Function.update ret i 0)
    else trimFrom ret fuel (i + 1)

/-- The string literal `".."`. -/
def dotDot : CString := fun i => if i < 2 then 46 else 0

/-- `dos83toStr`, with what the static buffer held before and what it holds then. -/
def dos83toStr (ret name ext : CString) : CString :=
  let trimmed := trimFrom (strncpy ret name 8) 8 0
  if ext 0 ≠ 32 ∨ ext 1 ≠ 32 ∨ ext 2 ≠ 32 then
    (trimmed.2.within trimmed.1 fun s => strncat s dot 1).within (trimmed.1 + 1) fun s =>
      strncat s ext 3
  else trimmed.2

/-- The characters in a field that is filled with spaces. -/
structure Padded (field : CString) (size : ℕ) (l : List UInt8) : Prop where
  length_le : l.length ≤ size
  eq : ∀ i < size, field i = l.getD i 32

def IsLabel (l : List UInt8) : Prop := ∀ c ∈ l, c ≠ 0 ∧ c ≠ 32 ∧ c ≠ 46

/-- No character ends a string or a field. -/
def Unpadded (l : List UInt8) : Prop := ∀ c ∈ l, c ≠ 0 ∧ c ≠ 32

def dosName (base ext : List UInt8) : List UInt8 :=
  if ext = [] then base else base ++ 46 :: ext

variable {s t source name ext : CString} {l l' baseName extension : List UInt8} {n k i fuel len : ℕ}

theorem dotDot_isString : IsString dotDot [46, 46] :=
  show ∀ i ≤ 2, dotDot i = [46, 46].getD i 0 by decide

/-! ### The two fields -/

theorem Unpadded.nonZero (h : Unpadded l) : NonZero l := fun c hc => (h c hc).1

theorem IsLabel.unpadded (h : IsLabel l) : Unpadded l := fun c hc => ⟨(h c hc).1, (h c hc).2.1⟩

namespace Padded
variable {field : CString} {size : ℕ}

theorem eq_of_lt (h : Padded field size l) (hi : i < l.length) : field i = l.getD i 0 := by
  rw [h.eq i (hi.trans_le h.length_le), List.getD_eq_getElem _ _ hi, List.getD_eq_getElem _ _ hi]

theorem eq_of_ge (h : Padded field size l) (hge : l.length ≤ i) (hi : i < size) : field i = 32 := by
  rw [h.eq i hi, List.getD_eq_default _ _ hge]

theorem ne_zero (h : Padded field size l) (hl : Unpadded l) (hi : i < size) : field i ≠ 0 := by
  rw [h.eq i hi]
  rcases Nat.lt_or_ge i l.length with hlt | hge
  · rw [List.getD_eq_getElem _ _ hlt]
    exact (hl _ (List.getElem_mem hlt)).1
  · rw [List.getD_eq_default _ _ hge]
    decide

theorem ne_space (h : Padded field size l) (hl : Unpadded l) (hi : i < l.length) : field i ≠ 32 := by
  rw [h.eq i (hi.trans_le h.length_le), List.getD_eq_getElem _ _ hi]
  exact (hl _ (List.getElem_mem hi)).2

/-- The field is empty exactly if it begins with a space. -/
theorem eq_nil_iff (h : Padded field size l) (hl : Unpadded l) (hsize : 0 < size) :
    l = [] ↔ field 0 = 32 := by
  cases l with
  | nil => exact iff_of_true rfl (h.eq_of_ge le_rfl hsize)
  | cons c l => exact iff_of_false (List.cons_ne_nil c l) (h.ne_space hl (Nat.succ_pos _))

end Padded

/-- The loop comes to the end of the label and ends the string there. -/
theorem trimFrom_of_padded (hlabel : ∀ i < l.length, s i = l.getD i 0 ∧ s i ≠ 0 ∧ s i ≠ 32)
    (hend : s l.length = 0 ∨ s l.length = 32) (hfuel : i + fuel = 8) (hi : i ≤ l.length)
    (hlen : l.length ≤ 8) (hlast : s 8 = 0) :
    (trimFrom s fuel i).1 = l.length ∧ IsString (trimFrom s fuel i).2 l := by
  have hstring : s l.length = 0 → IsString s l := by
    intro hzero i hi
    rcases hi.lt_or_eq with hlt | rfl
    · exact (hlabel i hlt).1
    · rw [hzero, List.getD_eq_default _ _ le_rfl]
  induction fuel generalizing i with
  | zero =>
    obtain rfl : i = 8 := hfuel
    have hl : l.length = 8 := by omega
    exact ⟨hl.symm, hstring (by rwa [hl])⟩
  | succ fuel ih =>
    rw [trimFrom]
    rcases hi.lt_or_eq with hlt | rfl
    · obtain ⟨-, hne, hspace⟩ := hlabel i hlt
      rw [if_neg hne, if_neg hspace]
      exact ih (by omega) hlt
    · split_ifs with hzero hspace
      · exact ⟨rfl, hstring hzero⟩
      · refine ⟨rfl, fun i hi => ?_⟩
        dsimp only
        rcases hi.lt_or_eq with hlt | rfl
        · rw [Function.update_of_ne hlt.ne]
          exact (hlabel i hlt).1
        · rw [Function.update_self, List.getD_eq_default _ _ le_rfl]
      · exact absurd hend (not_or.mpr ⟨hzero, hspace⟩)

theorem trimFrom_strncpy (ret : CString) (hname : Padded name 8 baseName) (hl : Unpadded baseName) :
    (trimFrom (strncpy ret name 8) 8 0).1 = baseName.length ∧
      IsString (trimFrom (strncpy ret name 8) 8 0).2 baseName := by
  obtain ⟨hcopy, hlast⟩ := strncpy_of_full ret (by decide) fun i hi => hname.ne_zero hl hi
  refine trimFrom_of_padded (fun i hi => ?_) ?_ rfl (Nat.zero_le _) hname.length_le hlast
  · rw [hcopy i (hi.trans_le hname.length_le)]
    exact ⟨hname.eq_of_lt hi, hname.ne_zero hl (hi.trans_le hname.length_le), hname.ne_space hl hi⟩
  · rcases hname.length_le.lt_or_eq with hlt | heq
    · rw [hcopy _ hlt]
      exact .inr (hname.eq_of_ge le_rfl hlt)
    · rw [heq]
      exact .inl hlast

theorem Padded.getD_eq {field : CString} {size : ℕ} (h : Padded field size l) (hi : i < size) :
    (l ++ List.replicate (size - l.length) 32).getD i 0 = field i := by
  rcases Nat.lt_or_ge i l.length with hlt | hge
  · rw [List.getD_append _ _ _ _ hlt, h.eq_of_lt hlt]
  · rw [List.getD_append_right _ _ _ _ hge, List.getD_replicate _ (by omega), h.eq_of_ge hge hi]

theorem Padded.copied {field : CString} {size : ℕ} (h : Padded field size l) (hl : Unpadded l)
    (hsize : size ≤ word32) (d : CString) :
    IsString (strncpy d field size) (l ++ List.replicate (size - l.length) 32) := by
  obtain ⟨hcopy, hlast⟩ := strncpy_of_full d hsize fun i hi => h.ne_zero hl hi
  have hlen : (l ++ List.replicate (size - l.length) (32 : UInt8)).length = size := by
    have := h.length_le
    simp
    omega
  intro i hi
  rw [hlen] at hi
  rcases hi.lt_or_eq with hlt | rfl
  · rw [hcopy i hlt, h.getD_eq hlt]
  · rw [hlast, List.getD_eq_default _ _ hlen.le]

/-- The point and the extension go behind the name. -/
theorem isString_extended (hs : IsString s l) (hext : Padded ext 3 extension)
    (hl : Unpadded extension) :
    IsString ((s.within l.length fun s => strncat s dot 1).within (l.length + 1) fun s =>
        strncat s ext 3)
      (l ++ 46 :: (extension ++ List.replicate (3 - extension.length) 32)) := by
  have hdot := hs.concat fun d =>
    strncpy_isString d dot_isString (by simp [NonZero]) le_rfl (by decide)
  have hfield := hdot.concat (hext.copied hl (by decide))
  rw [List.length_append, List.append_assoc] at hfield
  exact hfield

/-- What `dos83toStr` gives: the extension comes with the spaces of its field. -/
theorem dos83toStr_isString (ret : CString) (hname : Padded name 8 baseName)
    (hbase : Unpadded baseName) (hext : Padded ext 3 extension) (hl : Unpadded extension) :
    IsString (dos83toStr ret name ext) (if extension = [] then baseName else
      baseName ++ 46 :: (extension ++ List.replicate (3 - extension.length) 32)) := by
  obtain ⟨hlen, hstring⟩ := trimFrom_strncpy ret hname hbase
  have hnil := hext.eq_nil_iff hl (by decide)
  rw [dos83toStr]
  by_cases hempty : extension = []
  · -- the field holds spaces only
    have hfield : ∀ i < 3, ext i = 32 := fun i hi => hext.eq_of_ge (by simp [hempty]) hi
    rw [if_pos hempty, if_neg (by simp [hfield])]
    exact hstring
  · rw [if_neg hempty, if_pos (.inl fun hspace => hempty (hnil.mpr hspace)), hlen]
    exact isString_extended hstring hext hl

/-- The spaces behind a short extension are left in the string. -/
theorem length_of_isString (ret : CString) (hname : Padded name 8 baseName)
    (hbase : IsLabel baseName) (hext : Padded ext 3 extension) (hl : IsLabel extension)
    (hempty : extension ≠ []) (h : IsString (dos83toStr ret name ext) (dosName baseName extension)) :
    extension.length = 3 := by
  have hresult := dos83toStr_isString ret hname hbase.unpadded hext hl.unpadded
  rw [if_neg hempty, ← List.cons_append, ← List.append_assoc] at hresult
  rw [dosName, if_neg hempty] at h
  have hrest := h.eq_nil_of_append hresult (by simp)
  have hzero := congrArg List.length hrest
  simp only [List.length_replicate, List.length_nil] at hzero
  have := hext.length_le
  omega

/-- A name comes back exactly if its extension is empty or fills its field: a shorter one keeps
the spaces behind it. What the buffer held before does not matter. -/
theorem dos83toStr_iff (ret : CString) (hname : Padded name 8 baseName) (hbase : IsLabel baseName)
    (hext : Padded ext 3 extension) (hl : IsLabel extension) :
    IsString (dos83toStr ret name ext) (dosName baseName extension) ↔
      extension.length = 0 ∨ extension.length = 3 := by
  have hresult := dos83toStr_isString ret hname hbase.unpadded hext hl.unpadded
  rw [List.length_eq_zero_iff]
  by_cases hempty : extension = []
  · rw [if_pos hempty] at hresult
    rw [dosName, if_pos hempty]
    exact iff_of_true hresult (.inl hempty)
  · rw [or_iff_right hempty]
    refine ⟨length_of_isString ret hname hbase hext hl hempty, fun hfull => ?_⟩
    rw [if_neg hempty, hfull, Nat.sub_self, List.replicate_zero, List.append_nil] at hresult
    rwa [dosName, if_neg hempty]

def field (l : List UInt8) : CString := fun i => l.getD i 32

theorem padded_field {size : ℕ} (h : l.length ≤ size) : Padded (field l) size l :=
  ⟨h, fun _ _ => rfl⟩

/-- `DISK.IMG`, in a buffer that is full. -/
theorem dos83toStr_of_full :
    IsString (dos83toStr (fun _ => 0xff) (field [68, 73, 83, 75]) (field [73, 77, 71]))
      (dosName [68, 73, 83, 75] [73, 77, 71]) :=
  (dos83toStr_iff _ (padded_field (by decide)) (by simp [IsLabel]) (padded_field (by decide))
    (by simp [IsLabel])).mpr (.inr rfl)

/-- `MAIN.C` comes back with two spaces behind it. -/
theorem dos83toStr_wrong : ¬ ∀ (ret name ext : CString) (baseName extension : List UInt8),
    1 ≤ baseName.length → Padded name 8 baseName → IsLabel baseName → Padded ext 3 extension →
      IsLabel extension → IsString (dos83toStr ret name ext) (dosName baseName extension) := by
  intro h
  have hbase : IsLabel [77, 65, 73, 78] := by simp [IsLabel]
  have hext : IsLabel [67] := by simp [IsLabel]
  have hstring := h (fun _ => 0) (field [77, 65, 73, 78]) (field [67]) [77, 65, 73, 78] [67] (by decide)
    (padded_field (by decide)) hbase (padded_field (by decide)) hext
  exact absurd (length_of_isString _ (padded_field (by decide)) hbase (padded_field (by decide)) hext
    (by simp) hstring) (by decide)

end CString

end DosKernel
