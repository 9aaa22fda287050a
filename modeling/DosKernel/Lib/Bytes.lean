import DosKernel.Lib.Memory

/-! Records in memory: lists of bytes at an address, and numbers in them with the low byte first. The
bytes are read one by one, and a read may fail. -/

namespace DosKernel.Lib

/-! ### Numbers -/

def fromBytes : List UInt8 → ℕ
  | [] => 0
  | b :: bs => b.toNat + 256 * fromBytes bs

/-- The `n` low bytes of a number. -/
def toBytes : (n v : ℕ) → List UInt8
  | 0, _ => []
  | n + 1, v => UInt8.ofNat v :: toBytes n (v / 256)

def numberAt (bs : List UInt8) (k n : ℕ) : ℕ := fromBytes ((bs.drop k).take n)

def byteSum : List UInt8 → UInt8
  | [] => 0
  | b :: bs => b + byteSum bs

@[simp] theorem toBytes_length (n v : ℕ) : (toBytes n v).length = n := by
  induction n generalizing v with
  | zero => rfl
  | succ n ih => rw [toBytes, List.length_cons, ih]

theorem fromBytes_toBytes {n v : ℕ} (h : v < 256 ^ n) : fromBytes (toBytes n v) = v := by
  induction n generalizing v with
  | zero =>
    rw [pow_zero, Nat.lt_one_iff] at h
    exact h.symm
  | succ n ih =>
    rw [pow_succ] at h
    rw [toBytes, fromBytes, ih (by omega), UInt8.toNat_ofNat']
    omega

/-! ### Reads -/

section Reads

def ReadsAt (read : ℕ → Option UInt8) (a : ℕ) (bs : List UInt8) : Prop :=
  ∀ i b, bs[i]? = some b → read (a + i) = some b

def readNumber (read : ℕ → Option UInt8) : (n a : ℕ) → Option ℕ
  | 0, _ => some 0
  | n + 1, a => do
    let b ← read a
    let rest ← readNumber read n (a + 1)
    some (b.toNat + 256 * rest)

def readSum (read : ℕ → Option UInt8) : (n a : ℕ) → (sum : UInt8) → Option UInt8
  | 0, _, sum => some sum
  | n + 1, a, sum => do
    let b ← read a
    readSum read n (a + 1) (sum + b)

/-- Whether the bytes are those of a text; nothing is read behind the first that differs. -/
def readEq (read : ℕ → Option UInt8) : (text : List UInt8) → (a : ℕ) → Option Bool
  | [], _ => some true
  | c :: text, a => do
    let b ← read a
    if b = c then readEq read text (a + 1) else some false

variable {read : ℕ → Option UInt8} {a n v : ℕ} {b : UInt8} {bs cs text : List UInt8}

theorem readsAt_iff : ReadsAt read a bs ↔ ∀ i : Fin bs.length, read (a + i) = some bs[i] := by
  constructor
  · intro h i
    exact h i bs[i] (List.getElem?_eq_getElem i.isLt)
  · intro h i b hb
    obtain ⟨hi, rfl⟩ := List.getElem?_eq_some_iff.mp hb
    exact h ⟨i, hi⟩

instance (read : ℕ → Option UInt8) (a : ℕ) (bs : List UInt8) : Decidable (ReadsAt read a bs) :=
  decidable_of_iff _ readsAt_iff.symm

theorem readsAt_nil (read : ℕ → Option UInt8) (a : ℕ) : ReadsAt read a [] := fun _ _ h => nomatch h

theorem readsAt_cons : ReadsAt read a (b :: bs) ↔ read a = some b ∧ ReadsAt read (a + 1) bs := by
  constructor
  · intro h
    refine ⟨h 0 b rfl, fun i c hc => ?_⟩
    have hnext := h (i + 1) c hc
    rwa [Nat.add_comm i, ← Nat.add_assoc] at hnext
  · rintro ⟨hfirst, hrest⟩ i c hc
    cases i with
    | zero =>
      obtain rfl := Option.some.inj hc
      exact hfirst
    | succ i =>
      have hnext := hrest i c hc
      rwa [Nat.add_assoc, Nat.add_comm 1] at hnext

theorem readsAt_append :
    ReadsAt read a (bs ++ cs) ↔ ReadsAt read a bs ∧ ReadsAt read (a + bs.length) cs := by
  induction bs generalizing a with
  | nil => exact ⟨fun h => ⟨readsAt_nil read a, h⟩, And.right⟩
  | cons b bs ih =>
    rw [List.cons_append, readsAt_cons, readsAt_cons, ih, List.length_cons, and_assoc, Nat.add_assoc,
      Nat.add_comm 1]

theorem ReadsAt.drop (h : ReadsAt read a bs) (k : ℕ) : ReadsAt read (a + k) (bs.drop k) := by
  intro i b hb
  rw [List.getElem?_drop] at hb
  rw [Nat.add_assoc]
  exact h (k + i) b hb

theorem ReadsAt.take (h : ReadsAt read a bs) (n : ℕ) : ReadsAt read a (bs.take n) := by
  intro i b hb
  rw [List.getElem?_take] at hb
  split at hb
  · exact h i b hb
  · exact nomatch hb

theorem ReadsAt.fromBytes (h : ReadsAt read a bs) :
    readNumber read bs.length a = some (Lib.fromBytes bs) := by
  induction bs generalizing a with
  | nil => rfl
  | cons b bs ih =>
    obtain ⟨hfirst, hrest⟩ := readsAt_cons.mp h
    simp only [List.length_cons, readNumber, hfirst, ih hrest, Option.bind_eq_bind, Option.bind_some,
      Lib.fromBytes]

theorem ReadsAt.number (h : ReadsAt read a bs) {k n : ℕ} (hk : k + n ≤ bs.length) :
    readNumber read n (a + k) = some (numberAt bs k n) := by
  have hread := ((h.drop k).take n).fromBytes
  rwa [List.length_take, List.length_drop, Nat.min_eq_left (by omega)] at hread

theorem ReadsAt.toBytes (h : ReadsAt read a (toBytes n v)) (hv : v < 256 ^ n) :
    readNumber read n a = some v := by
  have hread := h.fromBytes
  rwa [toBytes_length, fromBytes_toBytes hv] at hread

theorem ReadsAt.sum (h : ReadsAt read a bs) (sum : UInt8) :
    readSum read bs.length a sum = some (sum + byteSum bs) := by
  induction bs generalizing a sum with
  | nil => exact congrArg some (UInt8.add_zero sum).symm
  | cons b bs ih =>
    obtain ⟨hfirst, hrest⟩ := readsAt_cons.mp h
    simp only [List.length_cons, readSum, hfirst, ih hrest, Option.bind_eq_bind, Option.bind_some,
      byteSum, UInt8.add_assoc]

theorem ReadsAt.eq (h : ReadsAt read a bs) (htext : text.length ≤ bs.length) :
    readEq read text a = some (decide (text <+: bs)) := by
  induction text generalizing a bs with
  | nil => simp [readEq]
  | cons c text ih =>
    cases bs with
    | nil => exact absurd htext (by simp)
    | cons b bs =>
      obtain ⟨hfirst, hrest⟩ := readsAt_cons.mp h
      have hnext := ih hrest (Nat.le_of_succ_le_succ htext)
      simp only [readEq, hfirst, hnext, Option.bind_eq_bind, Option.bind_some, List.cons_prefix_cons]
      split_ifs with heq
      · simp [heq]
      · simp [Ne.symm heq]

end Reads

/-! ### Bytes in memory -/

section Bytes

def BytesAt (m : Memory) (a : ℕ) (bs : List UInt8) : Prop := ReadsAt (fun x => some (m x)) a bs

instance (m : Memory) (a : ℕ) (bs : List UInt8) : Decidable (BytesAt m a bs) :=
  inferInstanceAs (Decidable (ReadsAt _ a bs))

variable {m : Memory} {a n v : ℕ} {b : UInt8} {bs : List UInt8}

theorem bytesAt_cons : BytesAt m a (b :: bs) ↔ m a = b ∧ BytesAt m (a + 1) bs := by
  rw [BytesAt, readsAt_cons, Option.some.injEq]
  rfl

theorem readNumber_load (ha : a + n ≤ space) : readNumber (fun x => some (m x)) n a = some (m.load a n) := by
  induction n generalizing a with
  | zero => rfl
  | succ n ih =>
    simp only [readNumber, ih (show a + 1 + n ≤ space by omega), Option.bind_eq_bind, Option.bind_some,
      Memory.load, Nat.mod_eq_of_lt (show a < space by omega)]

theorem BytesAt.load_toBytes (h : BytesAt m a (toBytes n v)) (hv : v < 256 ^ n) (ha : a + n ≤ space) :
    m.load a n = v := by
  have hread := ReadsAt.toBytes h hv
  rw [readNumber_load ha] at hread
  exact Option.some.inj hread

theorem BytesAt.field (h : BytesAt m a (toBytes n v ++ bs)) (hv : v < 256 ^ n) (ha : a + n ≤ space) :
    m.load a n = v ∧ BytesAt m (a + n) bs := by
  obtain ⟨hnumber, hrest⟩ := readsAt_append.mp h
  rw [toBytes_length] at hrest
  exact ⟨BytesAt.load_toBytes hnumber hv ha, hrest⟩

end Bytes

end DosKernel.Lib
