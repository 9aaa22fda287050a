import DosKernel.Lib.Accesses
import DosKernel.Libc.Strings
import DosKernel.Net.Checksums

/-! Parsing a DNS response. The bytes of the datagram, the name buffer on the stack and the name in
a cache entry are buffers of their own. No length or count in the message is compared with the size
of the datagram, and no name with the size of the name buffer. -/

namespace DosKernel.Net

open Lib Access

/-- What the parser reads and where it writes names. -/
inductive DnsBuffer
  | datagram
  | domain
  | cachedDomain

/-- `dns_ip_cache_entry`, with the characters of its domain. -/
structure DnsIpCacheEntry where
  id : ℕ
  domain : List UInt8
  ip : Ip
  ttl : ℕ

/-- `data`, `domain` and the cache in the loop over the answers. -/
structure DnsParse where
  data : ℕ
  domain : CString
  cache : List DnsIpCacheEntry

/-! ### The code -/

def dnsIpCacheSize : ℕ := 16

/-- `DNS_RCODE_NO_ERROR` and `DNS_TYPE_A`. -/
def dnsRcodeNoError : ℕ := 0

def dnsTypeA : ℕ := 1

def dnsAnswerSize : ℕ := 10

/-- The loop over the labels of a question. -/
def skipName (m : ℕ → UInt8) : (fuel data : ℕ) → Access DnsBuffer ℕ
  | 0, _ => diverge
  | fuel + 1, data => do
    let length ← touch .datagram (m data) data 1
    if length = 0 then pure data else skipName m fuel (data + (length.toNat + 1))

def skipQuestions (m : ℕ → UInt8) (fuel : ℕ) : (count data : ℕ) → Access DnsBuffer ℕ
  | 0, data => pure data
  | count + 1, data => do
    let last ← skipName m fuel data
    skipQuestions m fuel count (last + 1 + 2 + 2)

/-- `if (strlen(domain) > 0) strncat(domain, ".", 1)`. -/
def appendDot (domain : CString) : Access DnsBuffer CString :=
  if 0 < domain.strlen then touch .domain (domain.strncat CString.dot 1) domain.strlen 2
  else pure domain

/-- `strncat(domain, data, length)`, which looks for the end of the string at `data` first. -/
def appendLabel (m : ℕ → UInt8) (domain : CString) (data length : ℕ) : Access DnsBuffer CString := do
  touch .datagram () data (CString.strlen (fun i => m (data + i)) + 1)
  touch .domain (domain.strncat (fun i => m (data + i)) length) domain.strlen (length + 1)

/-- The loop over the labels of a name: the place of its last byte, and the buffer. -/
def appendName (m : ℕ → UInt8) : (fuel data : ℕ) → CString → Access DnsBuffer (ℕ × CString)
  | 0, _, _ => diverge
  | fuel + 1, data, domain => do
    let length ← touch .datagram (m data) data 1
    if length = 0 then pure (data, domain)
    else do
      let domain ← appendDot domain
      let domain ← appendLabel m domain (data + 1) length.toNat
      appendName m fuel (data + 1 + length.toNat) domain

/-- `(*data & ~0xC0UL << 8UL) | *(data + 1)`: the shift comes before the conjunction. -/
def dnsOffset (first second : UInt8) : ℕ := (first.toNat &&& 0xFFFF3F00) ||| second.toNat

/-- The name that an answer begins with: the place behind it, and the buffer. -/
def ownerName (m : ℕ → UInt8) (fuel data : ℕ) (domain : CString) :
    Access DnsBuffer (ℕ × CString) := do
  let first ← touch .datagram (m data) data 1
  if first &&& 0xC0 ≠ 0 then do
    let second ← touch .datagram (m (data + 1)) (data + 1) 1
    let r ← appendName m fuel (dnsOffset first second) domain
    pure (data + 2, r.2)
  else do
    let r ← appendName m fuel data domain
    pure (r.1 + 1, r.2)

/-- The address of an answer goes into the cache, unless the name is there or the cache is full. -/
def storeAnswer (m : ℕ → UInt8) (id answer : ℕ) (domain : CString) (cache : List DnsIpCacheEntry) :
    Access DnsBuffer (List DnsIpCacheEntry) := do
  let ip ← touch .datagram (ipAt m (answer + dnsAnswerSize)) (answer + dnsAnswerSize) 4
  if domain.text ∈ cache.map DnsIpCacheEntry.domain then pure cache
  else if cache.length < dnsIpCacheSize then do
    touch .cachedDomain () 0 (domain.strlen + 1)
    let ttl ← touch .datagram (ntohl m (answer + 4)) (answer + 4) 4
    pure (cache ++ [⟨id, domain.text, ip, ttl⟩])
  else pure cache

/-- The loop over the answers; the buffer is emptied behind each of them. -/
def handleAnswers (m : ℕ → UInt8) (fuel id : ℕ) : (count : ℕ) → DnsParse → Access DnsBuffer DnsParse
  | 0, s => pure s
  | count + 1, s => do
    let r ← ownerName m fuel s.data s.domain
    let type ← touch .datagram (ntohs m r.1) r.1 2
    if type = dnsTypeA then do
      let cache ← storeAnswer m id r.1 r.2 s.cache
      handleAnswers m fuel id count ⟨r.1 + dnsAnswerSize + 4, Function.update r.2 0 0, cache⟩
    else
      handleAnswers m fuel id count ⟨r.1 + dnsAnswerSize, Function.update r.2 0 0, s.cache⟩

/-- `dns_handle_response`, with what `domain` holds on the stack. -/
def dnsHandleResponse (m : ℕ → UInt8) (fuel : ℕ) (domain : CString) (cache : List DnsIpCacheEntry) :
    Access DnsBuffer (List DnsIpCacheEntry) := do
  let flags ← touch .datagram (word16 m 2) 2 2
  if flags % 16 ≠ dnsRcodeNoError then pure cache
  else do
    let questionCount ← touch .datagram (word16 m 4) 4 2
    let answerCount ← touch .datagram (word16 m 6) 6 2
    let data ← skipQuestions m fuel questionCount 12
    let s ← handleAnswers m fuel (word16 m 0) answerCount ⟨data, domain, cache⟩
    pure s.cache

/-- The datagram with the six fields of its header in host order. -/
def hostHeader (m : ℕ → UInt8) : ℕ → UInt8 := fun i =>
  if i < 12 then if i % 2 = 0 then m (i + 1) else m (i - 1) else m i

/-- `dns_udp_listener`, with the cache that it leaves. -/
def dnsUdpListener (m : ℕ → UInt8) (fuel : ℕ) (domain : CString) (cache : List DnsIpCacheEntry) :
    Access DnsBuffer (List DnsIpCacheEntry) := do
  let m ← touch .datagram (hostHeader m) 0 12
  if (word16 m 2).testBit 15 then dnsHandleResponse m fuel domain cache else pure cache

/-- The sizes of the buffers for a datagram of `n` bytes. -/
def dnsSizes (n : ℕ) : DnsBuffer → ℕ
  | .datagram => n
  | .domain => 256
  | .cachedDomain => 256

/-- Parsing ends, and touches nothing outside the buffers. -/
def ParsesInside (m : ℕ → UInt8) (n : ℕ) (domain : CString) (cache : List DnsIpCacheEntry) : Prop :=
  ∃ fuel, Ensures (dnsSizes n) (dnsUdpListener m fuel domain cache) fun _ => True

/-! ### Messages that fit -/

/-- The name at a place has its last byte, a zero, at `last`, and all its lengths are inside the
datagram. -/
inductive NameEnds (m : ℕ → UInt8) (n : ℕ) : (data last : ℕ) → Prop
  | ends {data : ℕ} (hdata : data < n) (hzero : m data = 0) : NameEnds m n data data
  | label {data last : ℕ} (hdata : data < n) (hlength : m data ≠ 0)
      (hrest : NameEnds m n (data + ((m data).toNat + 1)) last) : NameEnds m n data last

def QuestionsEnd (m : ℕ → UInt8) (n : ℕ) : (count data last : ℕ) → Prop
  | 0, data, last => last = data
  | count + 1, data, last => ∃ e, NameEnds m n data e ∧ QuestionsEnd m n count (e + 1 + 2 + 2) last

/-- A name and the dot in front of the next label. -/
def withDot (text : List UInt8) : List UInt8 := if text = [] then [] else text ++ [46]

/-- A name with one label more, which is cut off at a zero. -/
def withLabel (m : ℕ → UInt8) (text : List UInt8) (data length : ℕ) : List UInt8 :=
  withDot text ++ (bytesAt m data length).takeWhile (· ≠ 0)

/-- The name at a place ends inside the datagram, and in a buffer of 256 bytes there is room for it
behind `text`, which it makes `text'`. -/
inductive NameFits (m : ℕ → UInt8) (n : ℕ) : (data : ℕ) → (text : List UInt8) → (last : ℕ) →
    (text' : List UInt8) → Prop
  | ends {data : ℕ} {text : List UInt8} (hdata : data < n) (hzero : m data = 0) :
      NameFits m n data text data text
  | label {data last : ℕ} {text text' : List UInt8} (hdata : data < n) (hlength : m data ≠ 0)
      (hdot : text ≠ [] → text.length + 2 ≤ 256)
      (hroom : (withDot text).length + ((m data).toNat + 1) ≤ 256)
      (hrest : NameFits m n (data + 1 + (m data).toNat)
        (withLabel m text (data + 1) (m data).toNat) last text') : NameFits m n data text last text'

/-- The name of an answer: written out, or at the offset in the second byte. -/
def OwnerFits (m : ℕ → UInt8) (n data : ℕ) (text : List UInt8) (next : ℕ) (text' : List UInt8) : Prop :=
  data < n ∧ if m data &&& 0xC0 ≠ 0 then
    data + 1 < n ∧ next = data + 2 ∧ ∃ last, NameFits m n (m (data + 1)).toNat text last text'
  else ∃ last, next = last + 1 ∧ NameFits m n data text last text'

/-- The answers fit: their names, their types, and for those of type A the addresses. -/
def AnswersFit (m : ℕ → UInt8) (n : ℕ) :
    (count data : ℕ) → (text : List UInt8) → (cached : List (List UInt8)) → Prop
  | 0, _, _, _ => True
  | count + 1, data, text, cached => ∃ next text', OwnerFits m n data text next text' ∧ next + 2 ≤ n ∧
    if ntohs m next = dnsTypeA then
      next + dnsAnswerSize + 4 ≤ n ∧
        if text' ∈ cached ∨ dnsIpCacheSize ≤ cached.length then
          AnswersFit m n count (next + dnsAnswerSize + 4) [] cached
        else text'.length + 1 ≤ 256 ∧
          AnswersFit m n count (next + dnsAnswerSize + 4) [] (cached ++ [text'])
    else AnswersFit m n count (next + dnsAnswerSize) [] cached

/-- A datagram whose header is complete and whose questions and answers fit, if it is a response
without an error. -/
def ResponseFits (m : ℕ → UInt8) (n : ℕ) (text : List UInt8) (cached : List (List UInt8)) : Prop :=
  12 ≤ n ∧ ((ntohs m 2).testBit 15 = true → ntohs m 2 % 16 = dnsRcodeNoError →
    ∃ data, QuestionsEnd (hostHeader m) n (ntohs m 4) 12 data ∧
      AnswersFit (hostHeader m) n (ntohs m 6) data text cached)

/-! ### Names -/

section Names
variable {m : ℕ → UInt8} {n fuel data last : ℕ}

theorem skipName_ends {Q : ℕ → Prop} (h : Ensures (dnsSizes n) (skipName m fuel data) Q) :
    ∃ last, NameEnds m n data last ∧ Q last := by
  induction fuel generalizing data with
  | zero => exact absurd h (not_ensures_diverge Q)
  | succ fuel ih =>
    rw [skipName, ensures_bind, ensures_touch, ensures_ite] at h
    obtain ⟨hdata, hrest⟩ := h
    split_ifs at hrest with hzero
    · exact ⟨data, .ends hdata hzero, (ensures_pure _ _).mp hrest⟩
    · obtain ⟨last, hlast, hQ⟩ := ih hrest
      exact ⟨last, .label hdata hzero hlast, hQ⟩

theorem NameEnds.skipName {Q : ℕ → Prop} (h : NameEnds m n data last) (hfuel : n < data + fuel)
    (hQ : Q last) : Ensures (dnsSizes n) (skipName m fuel data) Q := by
  induction h generalizing fuel with
  | @ends data hdata hzero =>
    obtain ⟨fuel, rfl⟩ : ∃ k, fuel = k + 1 := ⟨fuel - 1, by omega⟩
    rw [Net.skipName, ensures_bind, ensures_touch, if_pos hzero, ensures_pure]
    exact ⟨hdata, hQ⟩
  | @label data last hdata hlength hrest ih =>
    obtain ⟨fuel, rfl⟩ : ∃ k, fuel = k + 1 := ⟨fuel - 1, by omega⟩
    rw [Net.skipName, ensures_bind, ensures_touch, if_neg hlength]
    exact ⟨hdata, ih (by omega) hQ⟩

def dottedBuffer (domain : CString) : CString :=
  if 0 < domain.strlen then domain.strncat CString.dot 1 else domain

theorem appendDot_ensures (domain : CString) (Q : CString → Prop) :
    Ensures (dnsSizes n) (appendDot domain) Q ↔
      (domain.text ≠ [] → domain.text.length + 2 ≤ 256) ∧ Q (dottedBuffer domain) := by
  have htext : domain.text ≠ [] ↔ 0 < domain.strlen := by
    rw [← List.length_pos_iff, CString.text_length]
  unfold appendDot dottedBuffer
  rw [ensures_ite, ensures_touch, ensures_pure, htext, CString.text_length]
  split_ifs with hpos
  · simp only [hpos, forall_const]
    rfl
  · simp only [hpos, false_implies, true_and]

theorem dottedBuffer_text {domain : CString}
    (h : domain.text ≠ [] → domain.text.length + 2 ≤ 256) :
    (dottedBuffer domain).text = withDot domain.text := by
  have hdot : (CString.chars CString.dot 1).takeWhile (· ≠ 0) = [46] := by decide
  have hlength := domain.text_length
  unfold dottedBuffer withDot
  split_ifs with hpos hnil hnil
  · rw [hnil] at hlength
    exact absurd hlength (by simp; omega)
  · have hroom := h hnil
    have hword : word32 = 4294967296 := rfl
    rw [CString.strncat_text (by omega), hdot]
  · exact hnil
  · exact absurd (List.length_pos_iff.mpr hnil) (by omega)

theorem appendLabel_ensures (domain : CString) (length : ℕ) (Q : CString → Prop) :
    Ensures (dnsSizes n) (appendLabel m domain data length) Q ↔
      data + (CString.strlen (fun i => m (data + i)) + 1) ≤ n ∧
        domain.text.length + (length + 1) ≤ 256 ∧ Q (domain.strncat (fun i => m (data + i)) length) := by
  rw [appendLabel, ensures_bind, ensures_touch, ensures_touch, CString.text_length]
  rfl

theorem appendLabel_text {domain : CString} {text : List UInt8} {length : ℕ}
    (hdomain : domain.text = withDot text) (hroom : (withDot text).length + (length + 1) ≤ 256) :
    (domain.strncat (fun i => m (data + i)) length).text = withLabel m text data length := by
  have hlength := domain.text_length
  have hword : word32 = 4294967296 := rfl
  rw [hdomain] at hlength
  rw [CString.strncat_text (by omega), hdomain]
  rfl

theorem appendName_fits {domain : CString} {Q : ℕ × CString → Prop}
    (h : Ensures (dnsSizes n) (appendName m fuel data domain) Q) :
    ∃ last domain', NameFits m n data domain.text last domain'.text ∧ Q (last, domain') := by
  induction fuel generalizing data domain with
  | zero => exact absurd h (not_ensures_diverge Q)
  | succ fuel ih =>
    rw [appendName, ensures_bind, ensures_touch, ensures_ite] at h
    obtain ⟨hdata, hrest⟩ := h
    split_ifs at hrest with hzero
    · exact ⟨data, domain, .ends hdata hzero, (ensures_pure _ _).mp hrest⟩
    · rw [ensures_bind, appendDot_ensures, ensures_bind, appendLabel_ensures] at hrest
      obtain ⟨hdot, -, hroom, hnext⟩ := hrest
      have hdotted := dottedBuffer_text hdot
      rw [hdotted] at hroom
      obtain ⟨last, domain', hlast, hQ⟩ := ih hnext
      rw [appendLabel_text hdotted hroom] at hlast
      exact ⟨last, domain', .label hdata hzero hdot hroom hlast, hQ⟩

theorem NameFits.last_spec {text text' : List UInt8} (h : NameFits m n data text last text') :
    data ≤ last ∧ last < n ∧ m last = 0 := by
  induction h with
  | ends hdata hzero => exact ⟨le_rfl, hdata, hzero⟩
  | label hdata hlength hdot hroom hrest ih => exact ⟨by omega, ih.2⟩

/-- Looking for the end of a string stops at the latest at the end of the name. -/
theorem strlen_within {k : ℕ} (hk : k ≤ last) (hlast : last < n) (hn : n < word32)
    (hzero : m last = 0) : k + (CString.strlen (fun i => m (k + i)) + 1) ≤ n := by
  obtain ⟨j, rfl⟩ := Nat.exists_eq_add_of_le hk
  have hend : (fun i => m (k + i)) j = 0 := hzero
  have hle : CString.strlen (fun i => m (k + i)) ≤ j := by
    unfold CString.strlen
    exact CString.strlenFrom_le hend (Nat.zero_le j) (by omega)
  omega

theorem NameFits.appendName {text text' : List UInt8} (h : NameFits m n data text last text')
    (hn : n < word32) (hfuel : n < data + fuel) {domain : CString} (hdomain : domain.text = text) :
    ∃ domain' : CString, domain'.text = text' ∧ ∀ Q : ℕ × CString → Prop, Q (last, domain') →
      Ensures (dnsSizes n) (appendName m fuel data domain) Q := by
  induction h generalizing fuel domain with
  | @ends data text hdata hzero =>
    obtain ⟨fuel, rfl⟩ : ∃ k, fuel = k + 1 := ⟨fuel - 1, by omega⟩
    refine ⟨domain, hdomain, fun Q hQ => ?_⟩
    rw [Net.appendName, ensures_bind, ensures_touch, if_pos hzero, ensures_pure]
    exact ⟨hdata, hQ⟩
  | @label data last text text' hdata hlength hdot hroom hrest ih =>
    obtain ⟨fuel, rfl⟩ : ∃ k, fuel = k + 1 := ⟨fuel - 1, by omega⟩
    obtain ⟨hle, hlast, hzero⟩ := hrest.last_spec
    rw [← hdomain] at hdot
    have hdotted := dottedBuffer_text hdot
    rw [hdomain] at hdotted
    obtain ⟨domain', htext', hensures⟩ := ih (show n < data + 1 + (m data).toNat + fuel by omega)
      (appendLabel_text hdotted hroom)
    refine ⟨domain', htext', fun Q hQ => ?_⟩
    rw [Net.appendName, ensures_bind, ensures_touch, if_neg hlength, ensures_bind, appendDot_ensures,
      ensures_bind, appendLabel_ensures, hdotted]
    exact ⟨hdata, hdot, strlen_within (by omega) hlast hn hzero, hroom, hensures Q hQ⟩

theorem dnsOffset_eq (first second : UInt8) : dnsOffset first second = second.toNat := by
  have hmask : ∀ k < 256, k &&& 0xFFFF3F00 = 0 := by decide +kernel
  unfold dnsOffset
  rw [hmask first.toNat first.toNat_lt, Nat.zero_or]

theorem ownerName_fits {domain : CString} {Q : ℕ × CString → Prop}
    (h : Ensures (dnsSizes n) (ownerName m fuel data domain) Q) :
    ∃ next domain', OwnerFits m n data domain.text next domain'.text ∧ Q (next, domain') := by
  rw [ownerName, ensures_bind, ensures_touch, ensures_ite] at h
  obtain ⟨hdata, hrest⟩ := h
  split_ifs at hrest with hpointer
  · simp only [ensures_bind, ensures_touch, dnsOffset_eq] at hrest
    obtain ⟨hsecond, hrest⟩ := hrest
    obtain ⟨last, domain', hname, hQ⟩ := appendName_fits hrest
    rw [ensures_pure] at hQ
    refine ⟨data + 2, domain', ⟨hdata, ?_⟩, hQ⟩
    rw [if_pos hpointer]
    exact ⟨hsecond, rfl, last, hname⟩
  · rw [ensures_bind] at hrest
    obtain ⟨last, domain', hname, hQ⟩ := appendName_fits hrest
    rw [ensures_pure] at hQ
    refine ⟨last + 1, domain', ⟨hdata, ?_⟩, hQ⟩
    rw [if_neg hpointer]
    exact ⟨last, rfl, hname⟩

theorem OwnerFits.ownerName {next : ℕ} {text text' : List UInt8}
    (h : OwnerFits m n data text next text') (hn : n < word32) (hfuel : n < fuel)
    {domain : CString} (hdomain : domain.text = text) :
    ∃ domain' : CString, domain'.text = text' ∧ ∀ Q : ℕ × CString → Prop, Q (next, domain') →
      Ensures (dnsSizes n) (ownerName m fuel data domain) Q := by
  obtain ⟨hdata, hrest⟩ := h
  split_ifs at hrest with hpointer
  · obtain ⟨hsecond, rfl, last, hname⟩ := hrest
    obtain ⟨domain', htext', hensures⟩ := hname.appendName hn (hfuel.trans_le (Nat.le_add_left _ _)) hdomain
    refine ⟨domain', htext', fun Q hQ => ?_⟩
    rw [Net.ownerName, ensures_bind, ensures_touch, if_pos hpointer, ensures_bind, ensures_touch,
      ensures_bind, dnsOffset_eq]
    exact ⟨hdata, hsecond, hensures _ ((ensures_pure _ _).mpr hQ)⟩
  · obtain ⟨last, rfl, hname⟩ := hrest
    obtain ⟨domain', htext', hensures⟩ := hname.appendName hn (hfuel.trans_le (Nat.le_add_left _ _)) hdomain
    refine ⟨domain', htext', fun Q hQ => ?_⟩
    rw [Net.ownerName, ensures_bind, ensures_touch, if_neg hpointer, ensures_bind]
    exact ⟨hdata, hensures _ ((ensures_pure _ _).mpr hQ)⟩

end Names

/-! ### Questions and answers -/

section Answers
variable {m : ℕ → UInt8} {n fuel count data last : ℕ}

theorem skipQuestions_ends {Q : ℕ → Prop}
    (h : Ensures (dnsSizes n) (skipQuestions m fuel count data) Q) :
    ∃ last, QuestionsEnd m n count data last ∧ Q last := by
  induction count generalizing data with
  | zero => exact ⟨data, rfl, (ensures_pure _ _).mp h⟩
  | succ count ih =>
    rw [skipQuestions, ensures_bind] at h
    obtain ⟨e, hname, hrest⟩ := skipName_ends h
    obtain ⟨last, hlast, hQ⟩ := ih hrest
    exact ⟨last, ⟨e, hname, hlast⟩, hQ⟩

theorem QuestionsEnd.skipQuestions {Q : ℕ → Prop} (h : QuestionsEnd m n count data last)
    (hfuel : n < fuel) (hQ : Q last) :
    Ensures (dnsSizes n) (skipQuestions m fuel count data) Q := by
  induction count generalizing data with
  | zero =>
    obtain rfl : last = data := h
    exact (ensures_pure _ _).mpr hQ
  | succ count ih =>
    obtain ⟨e, hname, hrest⟩ := h
    rw [Net.skipQuestions, ensures_bind]
    exact hname.skipName (by omega) (ih hrest)

theorem storeAnswer_ensures (id answer : ℕ) (domain : CString) (cache : List DnsIpCacheEntry)
    (Q : List DnsIpCacheEntry → Prop) :
    Ensures (dnsSizes n) (storeAnswer m id answer domain cache) Q ↔
      answer + dnsAnswerSize + 4 ≤ n ∧
        if domain.text ∈ cache.map DnsIpCacheEntry.domain ∨
            dnsIpCacheSize ≤ (cache.map DnsIpCacheEntry.domain).length then Q cache
        else domain.text.length + 1 ≤ 256 ∧ Q (cache ++ [⟨id, domain.text,
          ipAt m (answer + dnsAnswerSize), ntohl m (answer + 4)⟩]) := by
  rw [storeAnswer, ensures_bind, ensures_touch, ensures_ite, ensures_ite, ensures_pure,
    CString.text_length, List.length_map]
  apply and_congr_right
  intro hanswer
  have hsize : dnsAnswerSize = 10 := rfl
  have hin : answer + dnsAnswerSize + 4 ≤ n := hanswer
  by_cases hknown : domain.text ∈ cache.map DnsIpCacheEntry.domain
  · rw [if_pos hknown, if_pos (Or.inl hknown)]
  · rw [if_neg hknown]
    by_cases hfull : cache.length < dnsIpCacheSize
    · rw [if_pos hfull, if_neg (by rintro (h | h) <;> [exact hknown h; omega]), ensures_bind,
        ensures_touch, ensures_bind, ensures_touch, ensures_pure]
      have httl : answer + 4 + 4 ≤ dnsSizes n .datagram := show answer + 4 + 4 ≤ n by omega
      rw [and_iff_right httl, Nat.zero_add]
      rfl
    · rw [if_neg hfull, if_pos (Or.inr (Nat.not_lt.mp hfull))]

/-- The buffer behind an answer holds the empty string. -/
theorem text_update (domain : CString) : CString.text (Function.update domain 0 0) = [] := by
  have hzero := CString.strlen_zero (s := Function.update domain 0 0) (Function.update_self _ _ _)
  exact List.eq_nil_of_length_eq_zero (by rw [CString.text_length, hzero])

theorem handleAnswers_fits {id : ℕ} {s : DnsParse} {Q : DnsParse → Prop}
    (h : Ensures (dnsSizes n) (handleAnswers m fuel id count s) Q) :
    AnswersFit m n count s.data s.domain.text (s.cache.map DnsIpCacheEntry.domain) := by
  induction count generalizing s with
  | zero => exact trivial
  | succ count ih =>
    rw [handleAnswers, ensures_bind] at h
    obtain ⟨next, domain', howner, hrest⟩ := ownerName_fits h
    rw [ensures_bind, ensures_touch, ensures_ite] at hrest
    obtain ⟨htype, hrest⟩ := hrest
    refine ⟨next, domain'.text, howner, htype, ?_⟩
    split_ifs at hrest ⊢ with ha hstored
    · rw [ensures_bind, storeAnswer_ensures, if_pos hstored] at hrest
      have hfit := ih hrest.2
      rw [text_update] at hfit
      exact ⟨hrest.1, hfit⟩
    · rw [ensures_bind, storeAnswer_ensures, if_neg hstored] at hrest
      have hfit := ih hrest.2.2
      rw [text_update, List.map_append] at hfit
      exact ⟨hrest.1, hrest.2.1, hfit⟩
    · have hfit := ih hrest
      rwa [text_update] at hfit

theorem AnswersFit.handleAnswers {s : DnsParse} (id : ℕ) (hn : n < word32) (hfuel : n < fuel)
    (h : AnswersFit m n count s.data s.domain.text (s.cache.map DnsIpCacheEntry.domain)) :
    Ensures (dnsSizes n) (handleAnswers m fuel id count s) fun _ => True := by
  induction count generalizing s with
  | zero => exact (ensures_pure _ _).mpr trivial
  | succ count ih =>
    obtain ⟨next, text', howner, htype, hrest⟩ := h
    obtain ⟨domain', rfl, hensures⟩ := howner.ownerName hn hfuel rfl
    have hempty := text_update domain'
    rw [Net.handleAnswers, ensures_bind]
    apply hensures
    rw [ensures_bind, ensures_touch, ensures_ite]
    refine ⟨htype, ?_⟩
    split_ifs at hrest ⊢ with ha hstored
    · rw [ensures_bind, storeAnswer_ensures, if_pos hstored]
      refine ⟨hrest.1, ih ?_⟩
      rw [hempty]
      exact hrest.2
    · rw [ensures_bind, storeAnswer_ensures, if_neg hstored]
      refine ⟨hrest.1, hrest.2.1, ih ?_⟩
      rw [hempty, List.map_append]
      exact hrest.2.2
    · apply ih
      rw [hempty]
      exact hrest

end Answers

/-! ### The listener -/

theorem word16_hostHeader (m : ℕ → UInt8) {a : ℕ} (ha : a % 2 = 0) (hlt : a < 12) :
    word16 (hostHeader m) a = ntohs m a := by
  have hfirst : hostHeader m a = m (a + 1) := by
    rw [hostHeader, if_pos hlt, if_pos ha]
  have hsecond : hostHeader m (a + 1) = m a := by
    rw [hostHeader, if_pos (by omega), if_neg (by omega), Nat.add_sub_cancel]
  rw [word16, ntohs, hfirst, hsecond, Nat.add_comm]

theorem parsesInside_fits {m : ℕ → UInt8} {n : ℕ} {domain : CString} {cache : List DnsIpCacheEntry}
    (h : ParsesInside m n domain cache) :
    ResponseFits m n domain.text (cache.map DnsIpCacheEntry.domain) := by
  obtain ⟨fuel, h⟩ := h
  rw [dnsUdpListener, ensures_bind, ensures_touch, ensures_ite] at h
  obtain ⟨hheader, hrest⟩ := h
  refine ⟨hheader, fun hqr hcode => ?_⟩
  rw [word16_hostHeader m rfl (by omega), if_pos hqr, dnsHandleResponse, ensures_bind, ensures_touch,
    word16_hostHeader m rfl (by omega), if_neg (not_not.mpr hcode), ensures_bind, ensures_touch,
    word16_hostHeader m rfl (by omega), ensures_bind, ensures_touch,
    word16_hostHeader m rfl (by omega), ensures_bind] at hrest
  obtain ⟨-, -, -, hrest⟩ := hrest
  obtain ⟨data, hquestions, hanswers⟩ := skipQuestions_ends hrest
  rw [ensures_bind] at hanswers
  exact ⟨data, hquestions, handleAnswers_fits hanswers⟩

theorem ResponseFits.parsesInside {m : ℕ → UInt8} {n : ℕ} {domain : CString}
    {cache : List DnsIpCacheEntry} (hn : n < word32)
    (h : ResponseFits m n domain.text (cache.map DnsIpCacheEntry.domain)) :
    ParsesInside m n domain cache := by
  obtain ⟨hheader, hrest⟩ := h
  refine ⟨n + 1, ?_⟩
  have hflags : 2 + 2 ≤ dnsSizes n .datagram := show 2 + 2 ≤ n by omega
  have hquestion : 4 + 2 ≤ dnsSizes n .datagram := show 4 + 2 ≤ n by omega
  have hanswer : 6 + 2 ≤ dnsSizes n .datagram := show 6 + 2 ≤ n by omega
  rw [dnsUdpListener, ensures_bind, ensures_touch, ensures_ite, word16_hostHeader m rfl (by omega),
    ensures_pure]
  refine ⟨hheader, ?_⟩
  split_ifs with hqr
  · rw [dnsHandleResponse, ensures_bind, ensures_touch, word16_hostHeader m rfl (by omega),
      ensures_ite, ensures_pure]
    refine ⟨hflags, ?_⟩
    split_ifs with hcode
    obtain ⟨data, hquestions, hanswers⟩ := hrest hqr (not_not.mp hcode)
    rw [ensures_bind, ensures_touch, word16_hostHeader m rfl (by omega), ensures_bind,
      ensures_touch, word16_hostHeader m rfl (by omega), ensures_bind]
    refine ⟨hquestion, hanswer, hquestions.skipQuestions (Nat.lt_succ_self n) ?_⟩
    rw [ensures_bind]
    exact (hanswers.handleAnswers _ hn (Nat.lt_succ_self n)).mono
      fun s _ => (ensures_pure _ _).mpr trivial

/-- A response is parsed inside the buffers exactly if it fits. -/
theorem parsesInside_iff (m : ℕ → UInt8) (n : UInt32) (domain : CString)
    (cache : List DnsIpCacheEntry) : ParsesInside m n.toNat domain cache ↔
      ResponseFits m n.toNat domain.text (cache.map DnsIpCacheEntry.domain) :=
  ⟨parsesInside_fits, ResponseFits.parsesInside n.toNat_lt⟩

/-- A response that ends with its header, which counts a question. -/
theorem missing_question_read : ¬ ParsesInside
    (fun i => [0, 1, 0x80, 0, 0, 1, 0, 0, 0, 0, 0, 0].getD i 0) 12 (fun _ => 0) [] := by
  intro h
  obtain ⟨-, hrest⟩ := parsesInside_fits h
  obtain ⟨data, ⟨e, hname, -⟩, -⟩ := hrest (by decide) (by decide)
  cases hname with
  | ends hdata hzero => exact absurd hdata (lt_irrefl 12)
  | label hdata hlength hrest => exact absurd hdata (lt_irrefl 12)

end DosKernel.Net
