import DosKernel.Net.DnsNames
import DosKernel.Net.DnsResponse
import Mathlib.Data.List.TakeWhile

/-! The records of a DNS response and what is cached of them. A name ends with a zero or with a
pointer to the rest of it, and behind its name every record counts the bytes of its data. The parser
follows a pointer only in front of a name and only by its second byte, and it steps over no data but
an address. -/

namespace DosKernel.Net

open Lib Access

/-! ### Messages -/

/-- The labels of the name at a place, and the place behind it. -/
inductive NameAt (m : ℕ → UInt8) (n : ℕ) : (data : ℕ) → List (List UInt8) → (next : ℕ) → Prop
  | root {data : ℕ} (hdata : data < n) (hzero : m data = 0) : NameAt m n data [] (data + 1)
  | label {data next : ℕ} {labels : List (List UInt8)}
      (hlength : 1 ≤ (m data).toNat ∧ (m data).toNat ≤ 63)
      (hrest : NameAt m n (data + 1 + (m data).toNat) labels next) :
      NameAt m n data (bytesAt m (data + 1) (m data).toNat :: labels) next
  | pointer {data next : ℕ} {labels : List (List UInt8)} (hdata : data + 1 < n)
      (hpointer : 192 ≤ (m data).toNat)
      (htarget : NameAt m n (ntohs m data % 16384) labels next) : NameAt m n data labels (data + 2)

/-- A record: where it begins, the labels of its owner, and the place behind them. -/
structure DnsRecord where
  data : ℕ
  labels : List (List UInt8)
  body : ℕ

namespace DnsRecord

variable (m : ℕ → UInt8) (r : DnsRecord)

def type : ℕ := ntohs m r.body

def dataLength : ℕ := ntohs m (r.body + 8)

def address : Ip := ipAt m (r.body + 10)

def owner : List UInt8 := dotted r.labels

end DnsRecord

def QuestionsAt (m : ℕ → UInt8) (n : ℕ) : List (List (List UInt8)) → (data last : ℕ) → Prop
  | [], data, last => last = data
  | labels :: questions, data, last =>
    ∃ next, NameAt m n data labels next ∧ next + 4 ≤ n ∧ QuestionsAt m n questions (next + 4) last

def RecordsAt (m : ℕ → UInt8) (n : ℕ) : (data : ℕ) → List DnsRecord → Prop
  | _, [] => True
  | data, r :: records => r.data = data ∧ NameAt m n data r.labels r.body ∧
    (encodeName r.labels).length ≤ 255 ∧ r.body + 10 + r.dataLength m ≤ n ∧
    (r.type m = dnsTypeA → r.dataLength m = 4) ∧ RecordsAt m n (r.body + 10 + r.dataLength m) records

/-- A message of `n` bytes without an error, its header in host order, with its answers. -/
structure IsResponse (m : ℕ → UInt8) (n : ℕ) (questions : List (List (List UInt8)))
    (records : List DnsRecord) (last : ℕ) : Prop where
  header : 12 ≤ n
  rcode : word16 m 2 % 16 = dnsRcodeNoError
  questionCount : word16 m 4 = questions.length
  answerCount : word16 m 6 = records.length
  questions_at : QuestionsAt m n questions 12 last
  records_at : RecordsAt m n last records

/-- Names are looked up among others by comparing them. -/
instance lawfulBEq_name : LawfulBEq (List UInt8) := inferInstance

/-- The addresses to cache: those of the records of type A whose owner is not cached yet, as long as
the cache is not full. -/
def newAddresses (m : ℕ → UInt8) : List DnsRecord → (cached : List (List UInt8)) → List (List UInt8 × Ip)
  | [], _ => []
  | r :: records, cached =>
    if r.type m = dnsTypeA ∧ r.owner ∉ cached ∧ cached.length < dnsIpCacheSize then
      (r.owner, r.address m) :: newAddresses m records (cached ++ [r.owner])
    else newAddresses m records cached

/-- The cache behind `dns_handle_response` has the new addresses at its end. -/
def CachesAddresses (m : ℕ → UInt8) (records : List DnsRecord) (domain : CString)
    (cache : List DnsIpCacheEntry) : Prop :=
  ∃ fuel entries, (dnsHandleResponse m fuel domain cache).value = some (cache ++ entries) ∧
    entries.map (fun e => (e.domain, e.ip)) =
      newAddresses m records (cache.map DnsIpCacheEntry.domain)

/-! ### Messages that the parser reads as they are -/

inductive WrittenOut (m : ℕ → UInt8) (n : ℕ) : (data : ℕ) → List (List UInt8) → (next : ℕ) → Prop
  | root {data : ℕ} (hdata : data < n) (hzero : m data = 0) : WrittenOut m n data [] (data + 1)
  | label {data next : ℕ} {labels : List (List UInt8)}
      (hlength : 1 ≤ (m data).toNat ∧ (m data).toNat ≤ 63)
      (hrest : WrittenOut m n (data + 1 + (m data).toNat) labels next) :
      WrittenOut m n data (bytesAt m (data + 1) (m data).toNat :: labels) next

/-- The questions have names without pointers. -/
def PlainQuestions (m : ℕ → UInt8) (n : ℕ) : List (List (List UInt8)) → (data last : ℕ) → Prop
  | [], data, last => last = data
  | labels :: questions, data, last =>
    ∃ next, WrittenOut m n data labels next ∧ PlainQuestions m n questions (next + 4) last

/-- The owner is written out, or it is a pointer to a name below 256 that is written out. -/
def PlainOwner (m : ℕ → UInt8) (n : ℕ) (r : DnsRecord) : Prop :=
  WrittenOut m n r.data r.labels r.body ∨
    m r.data = 192 ∧ ∃ next, WrittenOut m n (m (r.data + 1)).toNat r.labels next

/-- The owners are plain; in front of an address the name buffer is empty and no label of the owner
has a zero; of the other records only the last has data, and an owner that has labels finds room in
the buffer. -/
def PlainRecords (m : ℕ → UInt8) (n : ℕ) : (text : List UInt8) → List DnsRecord → Prop
  | _, [] => True
  | text, r :: records => PlainOwner m n r ∧
    (if r.type m = dnsTypeA then text = [] ∧ ∀ l ∈ r.labels, CString.NonZero l
      else (r.labels = [] ∨ text.length + (encodeName r.labels).length ≤ 256) ∧
        (records = [] ∨ r.dataLength m = 0)) ∧
    PlainRecords m n [] records

/-! ### Names -/

section Names
variable {m : ℕ → UInt8} {n data next : ℕ} {labels : List (List UInt8)} {text : List UInt8}

theorem WrittenOut.nameAt (h : WrittenOut m n data labels next) : NameAt m n data labels next := by
  induction h with
  | root hdata hzero => exact .root hdata hzero
  | label hlength hrest ih => exact .label hlength ih

/-- A name behind the text in the buffer. -/
def joined (text : List UInt8) : List (List UInt8) → List UInt8
  | [] => text
  | l :: labels => joined (withDot text ++ l) labels

theorem withDot_length_le (text : List UInt8) : (withDot text).length ≤ text.length + 1 := by
  unfold withDot
  split_ifs
  · exact Nat.zero_le _
  · simp

/-- Behind a text the name stands with a dot in front of it. -/
theorem joined_of_ne_nil (htext : text ≠ []) (hlabels : ∀ l ∈ labels, l ≠ []) :
    joined text labels = if labels = [] then text else text ++ 46 :: dotted labels := by
  induction labels generalizing text with
  | nil => rfl
  | cons l labels ih =>
    rw [List.forall_mem_cons] at hlabels
    rw [joined, ih (List.append_ne_nil_of_right_ne_nil _ hlabels.1) hlabels.2, withDot,
      if_neg htext, if_neg (List.cons_ne_nil l labels)]
    cases labels with
    | nil => simp [dotted]
    | cons l' labels => simp [dotted]

/-- In an empty buffer the name is its text. -/
theorem joined_nil (hlabels : ∀ l ∈ labels, l ≠ []) : joined [] labels = dotted labels := by
  cases labels with
  | nil => rfl
  | cons l labels =>
    rw [List.forall_mem_cons] at hlabels
    rw [joined, withDot, if_pos rfl, List.nil_append, joined_of_ne_nil hlabels.1 hlabels.2]
    cases labels with
    | nil => rfl
    | cons l' labels => simp [dotted]

/-- A name that is written out fits where there is room for its labels. -/
theorem WrittenOut.fits (h : WrittenOut m n data labels next)
    (hroom : labels = [] ∨ (withDot text).length + (encodeLabels labels).length ≤ 256) :
    ∃ last text', next = last + 1 ∧ NameFits m n data text last text' ∧
      ((∀ l ∈ labels, CString.NonZero l) → text' = joined text labels) := by
  induction h generalizing text with
  | @root data hdata hzero => exact ⟨data, text, rfl, .ends hdata hzero, fun _ => rfl⟩
  | @label data next labels hlength hrest ih =>
    have hroom := hroom.resolve_left (List.cons_ne_nil _ _)
    have hbytes : (bytesAt m (data + 1) (m data).toNat).length = (m data).toNat := by simp [bytesAt]
    have hencode : (encodeLabels (bytesAt m (data + 1) (m data).toNat :: labels)).length =
        (m data).toNat + 1 + (encodeLabels labels).length := by
      rw [encodeLabels, List.length_append, List.length_cons, hbytes]
    have hcut : (withLabel m text (data + 1) (m data).toNat).length ≤
        (withDot text).length + (m data).toNat := by
      have hle := (List.takeWhile_sublist (l := bytesAt m (data + 1) (m data).toNat)
        fun c => decide (c ≠ 0)).length_le
      rw [withLabel, List.length_append]
      omega
    have hdotted := withDot_length_le (withLabel m text (data + 1) (m data).toNat)
    have hbehind : (withDot (withLabel m text (data + 1) (m data).toNat)).length +
        (encodeLabels labels).length ≤ 256 := by omega
    obtain ⟨last, text', hlast, hfits, htext'⟩ := ih (.inr hbehind)
    have hne : m data ≠ 0 := fun hzero => by
      rw [hzero] at hlength
      exact absurd hlength.1 (by decide)
    have hdot : text ≠ [] → text.length + 2 ≤ 256 := by
      intro htext
      rw [withDot, if_neg htext, List.length_append] at hroom
      simp only [List.length_singleton] at hroom
      omega
    refine ⟨last, text', hlast, .label (by have := hfits.last_spec; omega) hne hdot (by omega) hfits, ?_⟩
    intro hzero
    rw [List.forall_mem_cons] at hzero
    rw [htext' hzero.2, joined, withLabel,
      List.takeWhile_eq_self_iff.mpr fun c hc => decide_eq_true (hzero.1 c hc)]

end Names

/-! ### Questions, owners and records -/

section Records
variable {m : ℕ → UInt8} {n fuel data last : ℕ} {r : DnsRecord} {text : List UInt8}

theorem length_ne_zero {b : UInt8} (h : 1 ≤ b.toNat) : b ≠ 0 := by
  rintro rfl
  exact absurd h (by decide)

theorem NameEnds.last_spec (h : NameEnds m n data last) : data ≤ last ∧ last < n := by
  induction h with
  | ends hdata hzero => exact ⟨le_rfl, hdata⟩
  | label hdata hlength hrest ih => exact ⟨by omega, ih.2⟩

theorem WrittenOut.nameEnds {next : ℕ} {labels : List (List UInt8)}
    (h : WrittenOut m n data labels next) : ∃ last, next = last + 1 ∧ NameEnds m n data last := by
  induction h with
  | @root data hdata hzero => exact ⟨data, rfl, .ends hdata hzero⟩
  | @label data next labels hlength hrest ih =>
    obtain ⟨last, hlast, hends⟩ := ih
    obtain ⟨hle, hlt⟩ := hends.last_spec
    rw [Nat.add_assoc, Nat.add_comm 1] at hends
    exact ⟨last, hlast, .label (by omega) (length_ne_zero hlength.1) hends⟩

theorem PlainQuestions.questionsEnd {questions : List (List (List UInt8))}
    (h : PlainQuestions m n questions data last) : QuestionsEnd m n questions.length data last := by
  induction questions generalizing data with
  | nil => exact h
  | cons labels questions ih =>
    obtain ⟨next, hname, hrest⟩ := h
    obtain ⟨e, rfl, hends⟩ := hname.nameEnds
    exact ⟨e, hends, ih hrest⟩

/-- The first byte of a name that is written out is no pointer. -/
theorem WrittenOut.not_pointer {next : ℕ} {labels : List (List UInt8)}
    (h : WrittenOut m n data labels next) : data < n ∧ ¬ m data &&& 0xC0 ≠ 0 := by
  have hlow : ∀ k < 64, UInt8.ofNat k &&& 0xC0 = 0 := by decide
  obtain ⟨last, -, hends⟩ := h.nameEnds
  obtain ⟨hle, hlt⟩ := hends.last_spec
  refine ⟨by omega, not_not.mpr ?_⟩
  cases h with
  | root hdata hzero =>
    rw [hzero]
    rfl
  | label hlength hrest =>
    have hmask := hlow (m data).toNat (by omega)
    rwa [UInt8.ofNat_toNat] at hmask

theorem NameAt.behind_pointer {next : ℕ} {labels : List (List UInt8)}
    (h : NameAt m n data labels next) (hfirst : m data = 192) : data + 1 < n ∧ next = data + 2 := by
  cases h with
  | root hdata hzero => exact absurd (hzero.symm.trans hfirst) (by decide)
  | label hlength hrest =>
    rw [hfirst] at hlength
    exact absurd hlength.2 (by decide)
  | pointer hdata hpointer htarget => exact ⟨hdata, rfl⟩

/-- A plain owner fits where there is room for it. -/
theorem PlainOwner.fits (h : PlainOwner m n r) (hname : NameAt m n r.data r.labels r.body)
    (hroom : r.labels = [] ∨ (withDot text).length + (encodeLabels r.labels).length ≤ 256) :
    ∃ text', OwnerFits m n r.data text r.body text' ∧
      ((∀ l ∈ r.labels, CString.NonZero l) → text' = joined text r.labels) := by
  rcases h with hout | ⟨hfirst, next, hout⟩
  · obtain ⟨last, text', hnext, hfits, htext'⟩ := hout.fits hroom
    obtain ⟨hdata, hlow⟩ := hout.not_pointer
    refine ⟨text', ⟨hdata, ?_⟩, htext'⟩
    rw [if_neg hlow]
    exact ⟨last, hnext, hfits⟩
  · obtain ⟨last, text', -, hfits, htext'⟩ := hout.fits hroom
    have hpointer : m r.data &&& 0xC0 ≠ 0 := by
      rw [hfirst]
      decide
    have hbody := hname.behind_pointer hfirst
    refine ⟨text', ⟨by omega, ?_⟩, htext'⟩
    rw [if_pos hpointer]
    exact ⟨hbody.1, hbody.2, last, hfits⟩

theorem dotted_length_le (labels : List (List UInt8)) :
    (dotted labels).length ≤ (encodeLabels labels).length := by
  cases labels with
  | nil => exact le_rfl
  | cons l labels =>
    rw [encodeLabels_length (List.cons_ne_nil l labels)]
    exact Nat.le_succ _

theorem encodeName_length (labels : List (List UInt8)) :
    (encodeName labels).length = (encodeLabels labels).length + 1 := by simp [encodeName]

theorem NameAt.ne_nil {next : ℕ} {labels : List (List UInt8)} (h : NameAt m n data labels next) :
    ∀ l ∈ labels, l ≠ [] := by
  induction h with
  | root hdata hzero => exact fun l hl => absurd hl List.not_mem_nil
  | @label data next labels hlength hrest ih =>
    rw [List.forall_mem_cons]
    refine ⟨fun hnil => ?_, ih⟩
    have hlen := congrArg List.length hnil
    simp [bytesAt] at hlen
    omega
  | pointer hdata hpointer htarget ih => exact ih

theorem newAddresses_cons (m : ℕ → UInt8) (r : DnsRecord) (records : List DnsRecord)
    (cached : List (List UInt8)) : newAddresses m (r :: records) cached =
      newAddresses m [r] cached ++
        newAddresses m records (cached ++ (newAddresses m [r] cached).map Prod.fst) := by
  simp only [newAddresses]
  split_ifs
  · rfl
  · rw [List.map_nil, List.append_nil]
    rfl

theorem storeAnswer_new (id : ℕ) {domain : CString} {cache : List DnsIpCacheEntry}
    {Q : List DnsIpCacheEntry → Prop} (htype : r.type m = dnsTypeA) (htext : domain.text = r.owner)
    (hbody : r.body + 10 + 4 ≤ n) (howner : r.owner.length + 1 ≤ 256)
    (hQ : ∀ entries : List DnsIpCacheEntry, entries.map (fun e => (e.domain, e.ip)) =
      newAddresses m [r] (cache.map DnsIpCacheEntry.domain) → Q (cache ++ entries)) :
    Ensures (dnsSizes n) (storeAnswer m id r.body domain cache) Q := by
  rw [storeAnswer_ensures, htext]
  refine ⟨hbody, ?_⟩
  split_ifs with hstored
  · have hold : ¬ (r.type m = dnsTypeA ∧ r.owner ∉ cache.map DnsIpCacheEntry.domain ∧
        (cache.map DnsIpCacheEntry.domain).length < dnsIpCacheSize) := by
      rintro ⟨-, hnew, hlt⟩
      rcases hstored with hin | hfull
      · exact hnew hin
      · omega
    rw [← List.append_nil cache]
    apply hQ
    rw [newAddresses, if_neg hold]
    rfl
  · rw [not_or, not_le] at hstored
    refine ⟨howner, hQ _ ?_⟩
    rw [newAddresses, if_pos ⟨htype, hstored⟩]
    rfl

/-- The name of a plain record finds room in the buffer. -/
theorem PlainRecords.room {records : List DnsRecord} (h : PlainRecords m n text (r :: records))
    (hlimit : (encodeName r.labels).length ≤ 255) :
    r.labels = [] ∨ (withDot text).length + (encodeLabels r.labels).length ≤ 256 := by
  obtain ⟨-, hrecord, -⟩ := h
  rw [encodeName_length] at hlimit
  split_ifs at hrecord with ha
  · right
    rw [hrecord.1, withDot, if_pos rfl, List.length_nil]
    omega
  · refine hrecord.1.imp_right fun hroom => ?_
    have hle := withDot_length_le text
    rw [encodeName_length] at hroom
    omega

/-- Of plain records the parser caches the addresses. -/
theorem handleAnswers_plain (id : ℕ) {records : List DnsRecord} {s : DnsParse} (hn : n < word32)
    (hfuel : n < fuel) (hrecords : RecordsAt m n s.data records)
    (hplain : PlainRecords m n s.domain.text records) :
    Ensures (dnsSizes n) (handleAnswers m fuel id records.length s) fun s' =>
      ∃ entries, s'.cache = s.cache ++ entries ∧ entries.map (fun e => (e.domain, e.ip)) =
        newAddresses m records (s.cache.map DnsIpCacheEntry.domain) := by
  induction records generalizing s with
  | nil => exact (ensures_pure _ _).mpr ⟨[], (List.append_nil _).symm, rfl⟩
  | cons r records ih =>
    obtain ⟨hdata, hname, hlimit, hbody, haddress, hrecords⟩ := hrecords
    have hroom := hplain.room hlimit
    obtain ⟨howner, hrecord, hplain⟩ := hplain
    rw [← hdata] at hname
    obtain ⟨text', hfits, htext'⟩ := howner.fits hname hroom
    rw [hdata] at hfits
    obtain ⟨domain', rfl, hensures⟩ := hfits.ownerName hn hfuel rfl
    have hempty := text_update domain'
    rw [List.length_cons, handleAnswers, ensures_bind, newAddresses_cons]
    apply hensures
    rw [ensures_bind, ensures_touch]
    refine ⟨show r.body + 2 ≤ n by omega, ?_⟩
    change Ensures _ (if r.type m = dnsTypeA then _ else _) _
    split_ifs at hrecord ⊢ with htype
    · have htext : domain'.text = r.owner := by
        rw [htext' hrecord.2, hrecord.1, joined_nil hname.ne_nil]
        rfl
      rw [haddress htype] at hrecords hbody
      rw [ensures_bind]
      apply storeAnswer_new id htype htext hbody
      · have hle := dotted_length_le r.labels
        rw [encodeName_length] at hlimit
        change (dotted r.labels).length + 1 ≤ 256
        omega
      · intro entries hentries
        have hrest := ih (s := ⟨r.body + dnsAnswerSize + 4, Function.update domain' 0 0,
          s.cache ++ entries⟩) hrecords (by rwa [hempty])
        apply hrest.mono
        rintro s' ⟨entries', hcache, hentries'⟩
        refine ⟨entries ++ entries', by rw [hcache, List.append_assoc], ?_⟩
        rw [List.map_append, hentries', ← hentries, List.map_append, List.map_map]
        rfl
    · have hnone : newAddresses m [r] (s.cache.map DnsIpCacheEntry.domain) = [] := by
        rw [newAddresses, if_neg fun h => htype h.1]
        rfl
      rw [hnone, List.map_nil, List.append_nil, List.nil_append]
      rcases hrecord.2 with rfl | hlength
      · exact (ensures_pure _ _).mpr ⟨[], (List.append_nil _).symm, rfl⟩
      · rw [hlength] at hrecords
        exact ih hrecords (by rwa [hempty])

end Records

/-! ### Responses -/

/-- Of a response with plain questions and plain records the addresses are cached. -/
theorem cachesAddresses_of_plain {m : ℕ → UInt8} {n : UInt32}
    {questions : List (List (List UInt8))} {records : List DnsRecord} {last : ℕ}
    (h : IsResponse m n.toNat questions records last) (domain : CString)
    (cache : List DnsIpCacheEntry) (hquestions : PlainQuestions m n.toNat questions 12 last)
    (hrecords : PlainRecords m n.toNat domain.text records) :
    CachesAddresses m records domain cache := by
  have hn : n.toNat < word32 := n.toNat_lt
  have hfuel := Nat.lt_succ_self n.toNat
  have hheader := h.header
  have hanswers := handleAnswers_plain (word16 m 0) (s := ⟨last, domain, cache⟩) hn hfuel
    h.records_at hrecords
  have hparse : Ensures (dnsSizes n.toNat) (dnsHandleResponse m (n.toNat + 1) domain cache)
      fun result => ∃ entries, result = cache ++ entries ∧ entries.map (fun e => (e.domain, e.ip)) =
        newAddresses m records (cache.map DnsIpCacheEntry.domain) := by
    rw [dnsHandleResponse, ensures_bind, ensures_touch, if_neg (not_not.mpr h.rcode), ensures_bind,
      ensures_touch, ensures_bind, ensures_touch, ensures_bind, h.questionCount, h.answerCount]
    refine ⟨show 2 + 2 ≤ n.toNat by omega, show 4 + 2 ≤ n.toNat by omega,
      show 6 + 2 ≤ n.toNat by omega, hquestions.questionsEnd.skipQuestions hfuel ?_⟩
    rw [ensures_bind]
    exact hanswers.mono fun s hs => (ensures_pure _ _).mpr hs
  obtain ⟨-, result, hvalue, entries, rfl, hentries⟩ := hparse
  exact ⟨n.toNat + 1, entries, hvalue, hentries⟩

/-- A question for the name `a`, and an answer that points at it. -/
theorem cachesAddresses_of_plain_question : CachesAddresses
    (fun i => [7, 0, 0, 128, 1, 0, 1, 0, 0, 0, 0, 0, 1, 97, 0, 0, 1, 0, 1, 192, 12, 0, 1, 0, 1, 0, 0, 0, 60, 0,
      4, 10, 0, 0, 1].getD i 0) [⟨19, [[97]], 21⟩] (fun _ => 0) [] := by
  have hname : WrittenOut (fun i => [7, 0, 0, 128, 1, 0, 1, 0, 0, 0, 0, 0, 1, 97, 0, 0, 1, 0, 1, 192,
      12, 0, 1, 0, 1, 0, 0, 0, 60, 0, 4, 10, 0, 0, 1].getD i 0) 35 12 [[97]] 15 :=
    .label (by decide) (.root (by decide) (by decide))
  have hresponse : IsResponse (fun i => [7, 0, 0, 128, 1, 0, 1, 0, 0, 0, 0, 0, 1, 97, 0, 0, 1, 0, 1, 192,
      12, 0, 1, 0, 1, 0, 0, 0, 60, 0, 4, 10, 0, 0, 1].getD i 0) (UInt32.toNat 35) [[[97]]]
      [⟨19, [[97]], 21⟩] 19 :=
    { header := by decide
      rcode := by decide
      questionCount := by decide
      answerCount := by decide
      questions_at := ⟨15, hname.nameAt, by decide, rfl⟩
      records_at := ⟨rfl, .pointer (by decide) (by decide) hname.nameAt, by decide, by decide,
        fun _ => rfl, trivial⟩ }
  apply cachesAddresses_of_plain hresponse
  · exact ⟨15, hname, rfl⟩
  · have hnonZero : ∀ l ∈ [[(97 : UInt8)]], ∀ c ∈ l, c ≠ 0 := by simp
    refine ⟨.inr ⟨by decide, 15, hname⟩, ?_, trivial⟩
    rw [if_pos (by decide)]
    exact ⟨rfl, hnonZero⟩

/-- Behind a record of type NS with the root as its data, the address of the root is not found. -/
theorem address_behind_data_lost : IsResponse
    (fun i => [7, 0, 0, 128, 0, 0, 2, 0, 0, 0, 0, 0, 0, 0, 2, 0, 1, 0, 0, 0, 60, 0, 1, 0, 0, 0, 1, 0, 1, 0, 0,
      0, 60, 0, 4, 10, 0, 0, 1].getD i 0) 39 [] [⟨12, [], 13⟩, ⟨24, [], 25⟩] 12 ∧ ¬ CachesAddresses
    (fun i => [7, 0, 0, 128, 0, 0, 2, 0, 0, 0, 0, 0, 0, 0, 2, 0, 1, 0, 0, 0, 60, 0, 1, 0, 0, 0, 1, 0, 1, 0, 0,
      0, 60, 0, 4, 10, 0, 0, 1].getD i 0) [⟨12, [], 13⟩, ⟨24, [], 25⟩] (fun _ => 0) [] := by
  constructor
  · exact
      { header := by decide
        rcode := by decide
        questionCount := by decide
        answerCount := by decide
        questions_at := rfl
        records_at := ⟨rfl, .root (by decide) (by decide), by decide, by decide, by decide, rfl,
          .root (by decide) (by decide), by decide, by decide, fun _ => rfl, trivial⟩ }
  · rintro ⟨fuel, entries, hvalue, hentries⟩
    cases fuel with
    | zero => exact nomatch (show none = some ([] ++ entries) from hvalue)
    | succ fuel =>
      have hnone := Option.some.inj hvalue
      rw [List.nil_append] at hnone
      rw [← hnone] at hentries
      exact absurd hentries (by decide)

end DosKernel.Net
