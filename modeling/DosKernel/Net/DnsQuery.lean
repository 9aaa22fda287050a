import DosKernel.Lib.Loop
import DosKernel.Libc.Strings
import DosKernel.Net.DnsNames

/-! The message of `dns_send_query`. The text of the name is copied behind the place of the first
length byte, and a loop over the text puts a length in front of the first label and in the place
of every dot. The zero at the end of the name is the one that `strncpy` writes. -/

namespace DosKernel.Net

open Lib

/-! ### The code -/

/-- `sizeof(dns_header)` and `sizeof(dns_query)`. -/
def dnsHeaderSize : ℕ := 12

def dnsQuerySize : ℕ := 4

def dnsClassIn : ℕ := 1

def putBytes (m : ℕ → UInt8) (a : ℕ) (bs : List UInt8) : ℕ → UInt8 := fun i =>
  if a ≤ i then (bs[i - a]?).getD (m i) else m i

/-- `dns_header` of a query; of the flags only `rd` is set. -/
def dnsQueryHeader (dnsId : UInt16) : List UInt8 :=
  htons dnsId.toNat ++ htons 0x0100 ++ htons 1 ++ htons 0 ++ htons 0 ++ htons 0

/-- `domain_ptr`, `len` and the packet in the loop of `dns_send_query`. -/
structure NameEncoding where
  domainPtr : ℕ
  len : ℕ
  packet : ℕ → UInt8

/-- A pass of the loop, with `len` as the next pass finds it: it is set to -1 and counted up. -/
def encodeStep (domain : CString) (domainLength i : ℕ) (s : NameEncoding) : NameEncoding :=
  if i = domainLength ∨ domain i = 46 then
    { domainPtr := s.domainPtr + s.len + 1
      len := 0
      packet := Function.update s.packet s.domainPtr (UInt8.ofNat s.len) }
  else { s with len := s.len + 1 }

/-- The packet of `dns_send_query`; `malloc` gave it with the bytes `g`. -/
def dnsPacket (g : ℕ → UInt8) (dnsId : UInt16) (domain : CString) (type : ℤ) : ℕ → UInt8 :=
  let domainLength := domain.strlen
  let packet := putBytes g 0 (dnsQueryHeader dnsId)
  let packet := CString.within packet (dnsHeaderSize + 1) fun s => s.strncpy domain domainLength
  let packet :=
    (forRange (encodeStep domain domainLength) (domainLength + 1) 0 ⟨dnsHeaderSize, 0, packet⟩).packet
  putBytes packet (1 + dnsHeaderSize + domainLength + 1) (htons (type % 65536).toNat ++ htons dnsClassIn)

/-- The data that `dns_send_query` passes to `udp_send_packet`. -/
def dnsMessage (g : ℕ → UInt8) (dnsId : UInt16) (domain : CString) (type : ℤ) : List UInt8 :=
  bytesAt (dnsPacket g dnsId domain type) 0 (dnsHeaderSize + 1 + domain.strlen + 1 + 4)

/-- `dns_send_query`, with the new value of `dns_id`. -/
def dnsSendQuery (driver : Driver) (arpGetMac : Ip → Option Mac) (g : ℕ → UInt8) (dnsId : UInt16)
    (dnsServerIp : Ip) (domain : CString) (type : ℤ) : Option (Mac × List UInt8) × UInt16 :=
  (udpSendPacket driver arpGetMac driver.ip 43085 dnsServerIp 53 (dnsMessage g dnsId domain type),
    dnsId + 1)

/-! ### The loop -/

section Memory
variable {m : ℕ → UInt8} {a b : ℕ} {bs : List UInt8}

theorem putBytes_holds (m : ℕ → UInt8) (a : ℕ) (bs : List UInt8) : Holds (putBytes m a bs) a bs := by
  intro i b hb
  rw [putBytes, if_pos (Nat.le_add_right a i), Nat.add_sub_cancel_left, hb, Option.getD_some]

theorem putBytes_of_lt (h : b < a) : putBytes m a bs b = m b := if_neg (Nat.not_le.mpr h)

/-- The same bytes in a memory that agrees there. -/
theorem Holds.congr {m' : ℕ → UInt8} (h : Holds m a bs)
    (heq : ∀ i < bs.length, m' (a + i) = m (a + i)) : Holds m' a bs := by
  intro i b hb
  rw [heq i (List.getElem?_eq_some_iff.mp hb).1]
  exact h i b hb

end Memory

section Loop
variable {domain : CString} {domainLength i n ptr : ℕ} {m : ℕ → UInt8}

/-- The passes over the characters of a label only count. -/
theorem encode_passes {len : ℕ} (h : ∀ j < n, i + j ≠ domainLength ∧ domain (i + j) ≠ 46) :
    forRange (encodeStep domain domainLength) n i ⟨ptr, len, m⟩ = ⟨ptr, len + n, m⟩ := by
  induction n generalizing i len with
  | zero => rfl
  | succ n ih =>
    have hfirst := h 0 (Nat.succ_pos n)
    rw [Nat.add_zero] at hfirst
    have hstep : encodeStep domain domainLength i ⟨ptr, len, m⟩ = ⟨ptr, len + 1, m⟩ :=
      if_neg (not_or.mpr hfirst)
    rw [forRange, hstep, ih, Nat.add_assoc, Nat.add_comm 1 n]
    intro j hj
    rw [Nat.add_assoc, Nat.add_comm 1 j]
    exact h (j + 1) (Nat.succ_lt_succ hj)

/-- A label and what ends it: the length is stored in front of the label. -/
theorem encode_label (h : ∀ j < n, i + j ≠ domainLength ∧ domain (i + j) ≠ 46)
    (hend : i + n = domainLength ∨ domain (i + n) = 46) :
    forRange (encodeStep domain domainLength) (n + 1) i ⟨ptr, 0, m⟩ =
      ⟨ptr + n + 1, 0, Function.update m ptr (UInt8.ofNat n)⟩ := by
  rw [forRange_add, encode_passes h, Nat.zero_add]
  exact if_pos hend

/-- Behind the text of the last label the lengths stand in front of all labels. -/
theorem encode_labels {labels : List (List UInt8)} (hlabels : ∀ l ∈ labels, IsDnsLabel l)
    (hne : labels ≠ []) (hdomain : ∀ j < (dotted labels).length,
      domain (i + j) = (dotted labels).getD j 0)
    (hlength : domainLength = i + (dotted labels).length) (hm : Holds m (ptr + 1) (dotted labels)) :
    Holds (forRange (encodeStep domain domainLength) ((dotted labels).length + 1) i
      ⟨ptr, 0, m⟩).packet ptr (encodeLabels labels) ∧
    ∀ a, a < ptr ∨ ptr + (dotted labels).length < a →
      (forRange (encodeStep domain domainLength) ((dotted labels).length + 1) i
        ⟨ptr, 0, m⟩).packet a = m a := by
  induction labels generalizing i ptr m with
  | nil => exact absurd rfl hne
  | cons l ls ih =>
    rw [List.forall_mem_cons] at hlabels
    have hchars : ∀ j (hj : j < l.length), l[j] ≠ 46 := fun j hj =>
      (hlabels.1.2.2 _ (List.getElem_mem hj)).2
    by_cases hlast : ls = []
    · subst hlast
      simp only [dotted] at hdomain hlength hm ⊢
      rw [encode_label (fun j hj => ⟨by omega, ?_⟩) (Or.inl hlength.symm)]
      · constructor
        · rw [encodeLabels, encodeLabels, List.append_nil, holds_cons]
          refine ⟨Function.update_self _ _ _, hm.congr fun j _ => ?_⟩
          exact Function.update_of_ne (by omega) _ _
        · intro a ha
          exact Function.update_of_ne (by omega) _ _
      · rw [hdomain j hj, List.getD_eq_getElem _ _ hj]
        exact hchars j hj
    · rw [dotted_cons l hlast] at hdomain hlength hm ⊢
      rw [List.length_append, List.length_cons] at hdomain hlength ⊢
      rw [holds_append, holds_cons] at hm
      obtain ⟨hlabel, -, hrest⟩ := hm
      have hdot : domain (i + l.length) = 46 := by
        rw [hdomain _ (by omega), List.getD_append_right _ _ _ _ le_rfl, Nat.sub_self,
          List.getD_cons_zero]
      have hfirst : ∀ j < l.length, i + j ≠ domainLength ∧ domain (i + j) ≠ 46 := by
        intro j hj
        rw [hdomain j (by omega), List.getD_append _ _ _ _ hj, List.getD_eq_getElem _ _ hj]
        exact ⟨by omega, hchars j hj⟩
      have hothers : ∀ j < (dotted ls).length,
          domain (i + (l.length + 1) + j) = (dotted ls).getD j 0 := by
        intro j hj
        rw [Nat.add_assoc, hdomain _ (by omega), List.getD_append_right _ _ _ _ (by omega),
          show l.length + 1 + j - l.length = j + 1 by omega, List.getD_cons_succ]
      have hmoved : Holds (Function.update m ptr (UInt8.ofNat l.length)) (ptr + l.length + 1 + 1)
          (dotted ls) := by
        rw [show ptr + l.length + 1 + 1 = ptr + 1 + l.length + 1 by omega]
        exact hrest.congr fun j _ => Function.update_of_ne (by omega) _ _
      obtain ⟨hheld, hframe⟩ := ih hlabels.2 hlast hothers (by omega) hmoved
      rw [show l.length + ((dotted ls).length + 1) + 1 = l.length + 1 + ((dotted ls).length + 1) by
        omega, forRange_add, encode_label hfirst (Or.inr hdot)]
      constructor
      · rw [encodeLabels, List.cons_append, holds_cons, holds_append]
        refine ⟨?_, hlabel.congr fun j hj => ?_, ?_⟩
        · rw [hframe ptr (Or.inl (by omega)), Function.update_self]
        · rw [hframe _ (Or.inl (by omega)), Function.update_of_ne (by omega)]
        · rw [show ptr + 1 + l.length = ptr + l.length + 1 by omega]
          exact hheld
      · intro a ha
        rw [hframe a (by omega), Function.update_of_ne (by omega)]

end Loop

/-! ### The message -/

section Message
variable {domain : CString} {labels : List (List UInt8)}

theorem dotted_nonZero (h : ∀ l ∈ labels, IsDnsLabel l) : CString.NonZero (dotted labels) := by
  induction labels with
  | nil => simp [CString.NonZero, dotted]
  | cons l ls ih =>
    rw [List.forall_mem_cons] at h
    have hl : ∀ c ∈ l, c ≠ 0 := fun c hc => (h.1.2.2 c hc).1
    cases ls with
    | nil => exact hl
    | cons l' ls =>
      intro c hc
      rcases List.mem_append.mp hc with hc | hc
      · exact hl c hc
      · rcases List.mem_cons.mp hc with rfl | hc
        · decide
        · exact ih h.2 c hc

theorem putBytes_dnsHeader (g : ℕ → UInt8) (dnsId : UInt16) (f : CString → CString) :
    Holds (CString.within (putBytes g 0 (dnsQueryHeader dnsId)) (dnsHeaderSize + 1) f) 0
      (dnsQueryHeader dnsId) := by
  apply (putBytes_holds g 0 (dnsQueryHeader dnsId)).congr
  intro i hi
  have hlt : 0 + i < dnsHeaderSize + 1 := by
    rw [Nat.zero_add]
    exact Nat.lt_succ_of_lt hi
  exact CString.within_lt f hlt

/-- What `strncpy` copies, and the 0 that it writes. -/
theorem strncpy_holds {l : List UInt8} (s : CString) (k : ℕ) (h : domain.IsString l)
    (hl : CString.NonZero l) (hlen : l.length < word32) :
    Holds (CString.within s k fun s => s.strncpy domain l.length) k (l ++ [0]) := by
  have hcopy := CString.strncpy_isString (fun j => s (k + j)) h hl le_rfl hlen
  intro i b hb
  obtain ⟨hi, hget⟩ := List.getElem?_eq_some_iff.mp hb
  rw [List.length_append, List.length_singleton] at hi
  rw [CString.within_add, hcopy i (Nat.le_of_lt_succ hi), ← hget]
  rcases Nat.lt_or_ge i l.length with hlt | hge
  · rw [List.getD_eq_getElem _ _ hlt, List.getElem_append_left hlt]
  · rw [List.getD_eq_default _ _ hge, List.getElem_append_right hge]
    exact (List.getElem_singleton _).symm

theorem dnsMessage_eq (g : ℕ → UInt8) (dnsId : UInt16) (type : ℤ)
    (hlabels : ∀ l ∈ labels, IsDnsLabel l) (hne : labels ≠ []) (hlen : (dotted labels).length ≤ 253)
    (hdomain : domain.IsString (dotted labels)) :
    dnsMessage g dnsId domain type = dnsQueryHeader dnsId ++ (encodeName labels ++
      (htons (type % 65536).toNat ++ htons dnsClassIn)) := by
  have hnonZero := dotted_nonZero hlabels
  have hshort : (dotted labels).length < word32 := hlen.trans_lt (by decide)
  have hstrlen : domain.strlen = (dotted labels).length := hdomain.strlen_eq hnonZero hshort
  have hheader := putBytes_dnsHeader g dnsId fun s => s.strncpy domain (dotted labels).length
  have htext := strncpy_holds (putBytes g 0 (dnsQueryHeader dnsId)) (dnsHeaderSize + 1) hdomain
    hnonZero hshort
  rw [holds_append, holds_cons] at htext
  obtain ⟨hname, hzero, -⟩ := htext
  have hchars : ∀ j < (dotted labels).length, domain (0 + j) = (dotted labels).getD j 0 := by
    intro j hj
    rw [Nat.zero_add]
    exact hdomain j hj.le
  obtain ⟨hlabel, hframe⟩ := encode_labels hlabels hne hchars (Nat.zero_add _).symm hname
  have hencoded := encodeLabels_length hne
  unfold dnsMessage dnsPacket
  dsimp only
  rw [hstrlen]
  generalize hbefore : CString.within (putBytes g 0 (dnsQueryHeader dnsId)) (dnsHeaderSize + 1)
    (fun s => s.strncpy domain (dotted labels).length) = before at *
  generalize (forRange (encodeStep domain (dotted labels).length) ((dotted labels).length + 1) 0
    ⟨dnsHeaderSize, 0, before⟩).packet = packet at *
  have hmessage : Holds (putBytes packet (1 + dnsHeaderSize + (dotted labels).length + 1)
      (htons (type % 65536).toNat ++ htons dnsClassIn)) 0 (dnsQueryHeader dnsId ++ (encodeName labels ++
        (htons (type % 65536).toNat ++ htons dnsClassIn))) := by
    rw [holds_append, holds_append, encodeName, holds_append, holds_cons]
    rw [List.length_append, List.length_singleton, hencoded,
      show (dnsQueryHeader dnsId).length = 12 from rfl]
    unfold dnsHeaderSize at *
    refine ⟨hheader.congr fun i hi => ?_, ⟨hlabel.congr fun i hi => ?_, ?_, holds_nil _ _⟩, ?_⟩
    · have hi' : i < 12 := hi
      rw [putBytes_of_lt (by omega), hframe _ (Or.inl (by omega))]
    · rw [putBytes_of_lt (by omega)]
    · rw [putBytes_of_lt (by omega), hframe _ (Or.inr (by omega)),
        show 0 + 12 + ((dotted labels).length + 1) = 12 + 1 + (dotted labels).length by omega]
      exact hzero
    · rw [show 0 + 12 + ((dotted labels).length + 1 + 1) = 1 + 12 + (dotted labels).length + 1 by
        omega]
      exact putBytes_holds _ _ _
  have hlength : dnsHeaderSize + 1 + (dotted labels).length + 1 + 4 = (dnsQueryHeader dnsId ++
      (encodeName labels ++ (htons (type % 65536).toNat ++ htons dnsClassIn))).length := by
    simp only [encodeName, List.length_append, hencoded, List.length_singleton]
    simp only [dnsQueryHeader, dnsHeaderSize, List.length_append, htons_length]
    omega
  rw [hlength]
  exact bytesAt_eq hmessage

/-- Behind the header the message of `dns_send_query` has the name of the labels, the type and
the class in network order, and nothing else. -/
theorem dnsMessage_decodes (g : ℕ → UInt8) (dnsId : UInt16) (type : ℤ)
    (hlabels : ∀ l ∈ labels, IsDnsLabel l) (hne : labels ≠ []) (hlen : (dotted labels).length ≤ 253)
    (hdomain : domain.IsString (dotted labels)) :
    decodeName (dnsMessage g dnsId domain type).length
        ((dnsMessage g dnsId domain type).drop dnsHeaderSize) =
      some (labels, htons (type % 65536).toNat ++ htons dnsClassIn) := by
  have hencoded := encodeLabels_length hne
  have hcount : labels.length ≤ (encodeLabels labels).length := length_le_encodeLabels labels
  rw [dnsMessage_eq g dnsId type hlabels hne hlen hdomain]
  have hdrop : (dnsQueryHeader dnsId ++ (encodeName labels ++
      (htons (type % 65536).toNat ++ htons dnsClassIn))).drop dnsHeaderSize =
      encodeName labels ++ (htons (type % 65536).toNat ++ htons dnsClassIn) :=
    List.drop_left' rfl
  rw [hdrop]
  apply decodeName_encodeName hlabels
  simp only [encodeName, List.length_append]
  simp only [dnsQueryHeader, List.length_append, htons_length]
  omega

end Message

/-- The name `a.bc`. -/
theorem dnsMessage_decodes_example : decodeName
    (dnsMessage (fun _ => 7) 1 (fun i => [97, 46, 98, 99].getD i 0) 1).length
      ((dnsMessage (fun _ => 7) 1 (fun i => [97, 46, 98, 99].getD i 0) 1).drop dnsHeaderSize) =
    some ([[97], [98, 99]], [0, 1, 0, 1]) := by
  have hlabels : ∀ l ∈ ([[97], [98, 99]] : List (List UInt8)), IsDnsLabel l := by
    simp [IsDnsLabel]
  exact dnsMessage_decodes _ 1 1 hlabels (by simp) (by decide) fun i _ => rfl

end DosKernel.Net
