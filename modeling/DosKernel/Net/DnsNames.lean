import DosKernel.Net.Checksums

/-! Domain names. In a message a name is a sequence of labels, each behind its length, up to a
length of zero; as text the labels stand behind each other with dots between them. -/

namespace DosKernel.Net

/-- A label: 1 to 63 characters that do not end a string or a label. -/
def IsDnsLabel (l : List UInt8) : Prop := 1 ≤ l.length ∧ l.length ≤ 63 ∧ ∀ c ∈ l, c ≠ 0 ∧ c ≠ 46

def dotted : List (List UInt8) → List UInt8
  | [] => []
  | [l] => l
  | l :: l' :: ls => l ++ 46 :: dotted (l' :: ls)

def encodeLabels : List (List UInt8) → List UInt8
  | [] => []
  | l :: ls => UInt8.ofNat l.length :: l ++ encodeLabels ls

def encodeName (labels : List (List UInt8)) : List UInt8 := encodeLabels labels ++ [0]

/-- The labels of the name that some bytes begin with, and the bytes behind it. -/
def decodeName : (fuel : ℕ) → List UInt8 → Option (List (List UInt8) × List UInt8)
  | 0, _ => none
  | _ + 1, [] => none
  | fuel + 1, b :: bs =>
    if b = 0 then some ([], bs)
    else if 63 < b.toNat ∨ bs.length < b.toNat then none
    else (decodeName fuel (bs.drop b.toNat)).map fun r => (bs.take b.toNat :: r.1, r.2)

theorem dotted_cons (l : List UInt8) {ls : List (List UInt8)} (h : ls ≠ []) :
    dotted (l :: ls) = l ++ 46 :: dotted ls := by
  cases ls with
  | nil => exact absurd rfl h
  | cons l' ls => rfl

/-- A name has one byte more for its first label than its text. -/
theorem encodeLabels_length {labels : List (List UInt8)} (h : labels ≠ []) :
    (encodeLabels labels).length = (dotted labels).length + 1 := by
  induction labels with
  | nil => exact absurd rfl h
  | cons l ls ih =>
    cases ls with
    | nil => simp [encodeLabels, dotted]
    | cons l' ls =>
      have hrest := ih (List.cons_ne_nil l' ls)
      rw [encodeLabels, List.length_append, hrest]
      simp only [dotted, List.length_append, List.length_cons]
      omega

theorem length_le_encodeLabels (labels : List (List UInt8)) :
    labels.length ≤ (encodeLabels labels).length := by
  induction labels with
  | nil => exact le_rfl
  | cons l ls ih =>
    rw [encodeLabels, List.length_append, List.length_cons, List.length_cons]
    omega

theorem IsDnsLabel.toNat_length {l : List UInt8} (h : IsDnsLabel l) :
    (UInt8.ofNat l.length).toNat = l.length := by
  have hlen := h.2.1
  rw [UInt8.toNat_ofNat']
  omega

theorem IsDnsLabel.length_ne_zero {l : List UInt8} (h : IsDnsLabel l) : UInt8.ofNat l.length ≠ 0 := by
  intro hzero
  have htoNat := h.toNat_length
  have hlen := h.1
  rw [hzero] at htoNat
  exact absurd htoNat (by simp; omega)

/-- A name is decoded to its labels, whatever is behind it. -/
theorem decodeName_encodeName {labels : List (List UInt8)} (h : ∀ l ∈ labels, IsDnsLabel l)
    (rest : List UInt8) {fuel : ℕ} (hfuel : labels.length < fuel) :
    decodeName fuel (encodeName labels ++ rest) = some (labels, rest) := by
  induction labels generalizing fuel with
  | nil =>
    cases fuel with
    | zero => exact absurd hfuel (Nat.not_lt_zero _)
    | succ fuel => rfl
  | cons l ls ih =>
    cases fuel with
    | zero => exact absurd hfuel (Nat.not_lt_zero _)
    | succ fuel =>
      rw [List.forall_mem_cons] at h
      have hlen := h.1.toNat_length
      have hbytes : encodeName (l :: ls) ++ rest =
          UInt8.ofNat l.length :: (l ++ (encodeName ls ++ rest)) := by
        simp [encodeName, encodeLabels]
      have hfits : ¬ (63 < l.length ∨ (l ++ (encodeName ls ++ rest)).length < l.length) := by
        have hle := h.1.2.1
        rw [List.length_append]
        omega
      rw [hbytes, decodeName, if_neg h.1.length_ne_zero, hlen, if_neg hfits, List.drop_left,
        List.take_left, ih h.2 (Nat.lt_of_succ_lt_succ hfuel), Option.map_some]

end DosKernel.Net
