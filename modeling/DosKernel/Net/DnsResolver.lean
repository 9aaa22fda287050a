import DosKernel.Lib.FirstValues
import DosKernel.Net.DnsQuery
import DosKernel.Net.DnsRecords

/-! The resolver. `dns_query_ipv4` looks a name up in the cache, and if it is not there it sends a
question and looks again and again while responses come in. Nothing leaves the cache: a name keeps
the address that was announced for it first, if it is one of the first 16 names. -/

namespace DosKernel.Net

open Lib Access

/-! ### The code -/

/-- A datagram for `dns_udp_listener`, with what the stack holds where the name buffer is. -/
structure Datagram where
  bytes : ℕ → UInt8
  size : ℕ
  stack : CString

/-- The cache behind `dns_udp_listener`; `none` if it is still in a loop. -/
def listen (cache : List DnsIpCacheEntry) (d : Datagram) : Option (List DnsIpCacheEntry) :=
  (dnsUdpListener d.bytes (d.size + 1) d.stack cache).value

/-- The loop over the cache in `dns_query_ipv4`. -/
def findCached (cache : List DnsIpCacheEntry) (domain : CString) : Option Ip :=
  (cache.find? fun e => e.domain = domain.text).map DnsIpCacheEntry.ip

/-- The rounds of `for (int t = 0; t < timeout; t += 10)`. -/
def rounds (timeout : ℤ) : ℕ := ((timeout + 9) / 10).toNat

/-- These rounds: datagrams come during `timer_wait`. -/
def awaitFrom (domain : CString) (arrivals : ℕ → List Datagram) :
    (rounds t : ℕ) → List DnsIpCacheEntry → Option (Option Ip × List DnsIpCacheEntry)
  | 0, _, cache => some (none, cache)
  | rounds + 1, t, cache => do
    let cache ← (arrivals t).foldlM listen cache
    match findCached cache domain with
    | some ip => some (some ip, cache)
    | none => awaitFrom domain arrivals rounds (t + 1) cache

/-- A call of `dns_query_ipv4`: its arguments, the ARP list, the memory that `malloc` gives, and
what comes while it waits. -/
structure Query where
  domain : CString
  timeout : ℤ
  arpGetMac : Ip → Option Mac
  garbage : ℕ → UInt8
  arrivals : ℕ → List Datagram

/-- The cache, `dns_id`, what the queries have returned and the packets that were sent. -/
structure Resolver where
  cache : List DnsIpCacheEntry
  dnsId : UInt16
  results : List (Option Ip)
  sent : List (Mac × List UInt8)

def dnsInit : Resolver := ⟨[], 1, [], []⟩

section Code
variable (driver : Driver) (server : Ip)

def dnsQueryIpv4 (q : Query) (s : Resolver) : Option Resolver :=
  match findCached s.cache q.domain with
  | some ip => some { s with results := s.results ++ [some ip] }
  | none =>
    let r := dnsSendQuery driver q.arpGetMac q.garbage s.dnsId server q.domain dnsTypeA
    match r.1 with
    | none => some { s with dnsId := r.2, results := s.results ++ [none] }
    | some packet =>
      (awaitFrom q.domain q.arrivals (rounds q.timeout) 0 s.cache).map fun w =>
        ⟨w.2, r.2, s.results ++ [w.1], s.sent ++ [packet]⟩

inductive ResolverStep
  | datagram (d : Datagram)
  | query (q : Query)

def resolverStep (s : Resolver) : ResolverStep → Option Resolver
  | .datagram d => (listen s.cache d).map fun cache => { s with cache := cache }
  | .query q => dnsQueryIpv4 driver server q s

end Code

/-! ### What is announced -/

/-- The names and addresses in the records of type A. -/
def announcements (m : ℕ → UInt8) (records : List DnsRecord) : List (List UInt8 × Ip) :=
  (records.filter fun r => r.type m = dnsTypeA).map fun r => (r.owner, r.address m)

/-- A response that the parser reads as it is, or a message from which it takes nothing. -/
inductive Announces (d : Datagram) : List (List UInt8 × Ip) → Prop
  | query (h : (word16 (hostHeader d.bytes) 2).testBit 15 = false) : Announces d []
  | failure (h : word16 (hostHeader d.bytes) 2 % 16 ≠ dnsRcodeNoError) : Announces d []
  | response {questions : List (List (List UInt8))} {records : List DnsRecord} {last : ℕ}
      (hsize : d.size < word32) (hqr : (word16 (hostHeader d.bytes) 2).testBit 15 = true)
      (h : IsResponse (hostHeader d.bytes) d.size questions records last)
      (hquestions : PlainQuestions (hostHeader d.bytes) d.size questions 12 last)
      (hrecords : PlainRecords (hostHeader d.bytes) d.size d.stack.text records) :
      Announces d (announcements (hostHeader d.bytes) records)

/-- What is known of a name: the first address, if fewer than 16 other names came before. -/
def knownAddress (heard : List (List UInt8 × Ip)) (name : List UInt8) : Option Ip :=
  if keysBefore name heard < dnsIpCacheSize then firstValue name heard else none

/-- All that was announced, the results, and the names that were asked for, each with the host that
the question went to. -/
structure Lookups where
  heard : List (List UInt8 × Ip)
  results : List (Option Ip)
  asked : List (Mac × List UInt8)

/-- The host that a packet for an address goes to. -/
def route (driver : Driver) (arpGetMac : Ip → Option Mac) (ip : Ip) : Option Mac :=
  if ip = Vector.replicate 4 255 then some (Vector.replicate 6 255)
  else if ipv4IsCidrSubnet ip driver.ip driver.netmask ∧ arpGetMac ip = none then none
  else arpGetMac driver.gateway

section Abstract
variable (announced : Datagram → List (List UInt8 × Ip))

/-- Waiting until a name is known. -/
def awaitKnown (name : List UInt8) (arrivals : ℕ → List Datagram) :
    (rounds t : ℕ) → List (List UInt8 × Ip) → Option Ip × List (List UInt8 × Ip)
  | 0, _, heard => (none, heard)
  | rounds + 1, t, heard =>
    let heard := heard ++ (arrivals t).flatMap announced
    match knownAddress heard name with
    | some ip => (some ip, heard)
    | none => awaitKnown name arrivals rounds (t + 1) heard

def heardStep (driver : Driver) (server : Ip) (a : Lookups) : ResolverStep → Lookups
  | .datagram d => { a with heard := a.heard ++ announced d }
  | .query q =>
    match knownAddress a.heard q.domain.text with
    | some ip => { a with results := a.results ++ [some ip] }
    | none =>
      match route driver q.arpGetMac server with
      | none => { a with results := a.results ++ [none] }
      | some mac =>
        let w := awaitKnown announced q.domain.text q.arrivals (rounds q.timeout) 0 a.heard
        ⟨w.2, a.results ++ [w.1], a.asked ++ [(mac, q.domain.text)]⟩

/-- The datagrams announce what they are said to announce, and a query is for a name of labels that
are separated by dots. -/
def Expected : ResolverStep → Prop
  | .datagram d => Announces d (announced d)
  | .query q => (∃ labels, labels ≠ [] ∧ (∀ l ∈ labels, IsDnsLabel l) ∧
      (dotted labels).length ≤ 253 ∧ q.domain.IsString (dotted labels)) ∧
      ∀ t, ∀ d ∈ q.arrivals t, Announces d (announced d)

end Abstract

/-- A packet with a question for the address of a name. -/
def AsksFor (driver : Driver) (server : Ip) (packet asked : Mac × List UInt8) : Prop :=
  packet.1 = asked.1 ∧ ∃ message labels, (∀ l ∈ labels, IsDnsLabel l) ∧ dotted labels = asked.2 ∧
    decodeName message.length (message.drop dnsHeaderSize) =
      some (labels, htons dnsTypeA ++ htons dnsClassIn) ∧
    packet.2 = ipv4Packet driver.ip server ipProtocolUdp
      (udpPacket driver.ip 43085 server 53 message) message

/-! ### The cache is a table of first addresses -/

def tableOf (cache : List DnsIpCacheEntry) : List (List UInt8 × Ip) :=
  cache.map fun e => (e.domain, e.ip)

section Table
variable {m : ℕ → UInt8} {cache : List DnsIpCacheEntry} {heard : List (List UInt8 × Ip)}

theorem findCached_eq (cache : List DnsIpCacheEntry) (domain : CString) :
    findCached cache domain = firstValue domain.text (tableOf cache) := by
  rw [findCached, firstValue, tableOf, List.find?_map, Option.map_map]
  rfl

/-- The new addresses of a message are added one after the other. -/
theorem add_announcements (m : ℕ → UInt8) (records : List DnsRecord) (table : List (List UInt8 × Ip)) :
    table ++ newAddresses m records (table.map Prod.fst) =
      (announcements m records).foldl (addFirst dnsIpCacheSize) table := by
  induction records generalizing table with
  | nil => exact List.append_nil table
  | cons r records ih =>
    by_cases htype : r.type m = dnsTypeA
    · have hcons : announcements m (r :: records) = (r.owner, r.address m) :: announcements m records := by
        rw [announcements, List.filter_cons_of_pos (by simpa using htype)]
        rfl
      rw [hcons, List.foldl_cons, newAddresses]
      by_cases hnew : r.owner ∉ table.map Prod.fst ∧ table.length < dnsIpCacheSize
      · have hadd : addFirst dnsIpCacheSize table (r.owner, r.address m) =
            table ++ [(r.owner, r.address m)] := if_pos hnew
        have hrest := ih (table ++ [(r.owner, r.address m)])
        rw [List.map_append, List.append_assoc] at hrest
        rw [List.length_map, if_pos ⟨htype, hnew⟩, hadd]
        exact hrest
      · have hadd : addFirst dnsIpCacheSize table (r.owner, r.address m) = table := if_neg hnew
        rw [List.length_map, if_neg fun h => hnew h.2, hadd]
        exact ih table
    · have hcons : announcements m (r :: records) = announcements m records := by
        rw [announcements, List.filter_cons_of_neg (by simpa using htype)]
        rfl
      rw [hcons, newAddresses, if_neg fun h => htype h.1]
      exact ih table

theorem listen_response {d : Datagram} {questions : List (List (List UInt8))} {records : List DnsRecord}
    {last : ℕ} (hsize : d.size < word32) (hqr : (word16 (hostHeader d.bytes) 2).testBit 15 = true)
    (h : IsResponse (hostHeader d.bytes) d.size questions records last)
    (hquestions : PlainQuestions (hostHeader d.bytes) d.size questions 12 last)
    (hrecords : PlainRecords (hostHeader d.bytes) d.size d.stack.text records)
    (cache : List DnsIpCacheEntry) : ∃ cache', listen cache d = some cache' ∧ tableOf cache' =
      (announcements (hostHeader d.bytes) records).foldl (addFirst dnsIpCacheSize) (tableOf cache) := by
  have hfuel := Nat.lt_succ_self d.size
  have hheader := h.header
  have hanswers := handleAnswers_plain (word16 (hostHeader d.bytes) 0) (s := ⟨last, d.stack, cache⟩)
    hsize hfuel h.records_at hrecords
  have hparse : Ensures (dnsSizes d.size) (dnsUdpListener d.bytes (d.size + 1) d.stack cache)
      fun result => ∃ entries, result = cache ++ entries ∧ tableOf entries =
        newAddresses (hostHeader d.bytes) records (cache.map DnsIpCacheEntry.domain) := by
    rw [dnsUdpListener, ensures_bind, ensures_touch, if_pos hqr, dnsHandleResponse, ensures_bind,
      ensures_touch, if_neg (not_not.mpr h.rcode), ensures_bind, ensures_touch, ensures_bind,
      ensures_touch, ensures_bind, h.questionCount, h.answerCount]
    refine ⟨show 0 + 12 ≤ d.size by omega, show 2 + 2 ≤ d.size by omega,
      show 4 + 2 ≤ d.size by omega, show 6 + 2 ≤ d.size by omega,
      hquestions.questionsEnd.skipQuestions hfuel ?_⟩
    rw [ensures_bind]
    exact hanswers.mono fun s hs => (ensures_pure _ _).mpr hs
  obtain ⟨-, result, hvalue, entries, rfl, hentries⟩ := hparse
  refine ⟨cache ++ entries, hvalue, ?_⟩
  have hkeys : cache.map DnsIpCacheEntry.domain = (tableOf cache).map Prod.fst := by
    rw [tableOf, List.map_map]
    rfl
  rw [hkeys] at hentries
  rw [← add_announcements, ← hentries]
  exact List.map_append

/-- What a datagram announces comes into the table. -/
theorem listen_spec {d : Datagram} {pairs : List (List UInt8 × Ip)} (h : Announces d pairs)
    (cache : List DnsIpCacheEntry) : ∃ cache', listen cache d = some cache' ∧
      tableOf cache' = pairs.foldl (addFirst dnsIpCacheSize) (tableOf cache) := by
  cases h with
  | query h =>
    refine ⟨cache, ?_, rfl⟩
    change (if (word16 (hostHeader d.bytes) 2).testBit 15 then
      dnsHandleResponse (hostHeader d.bytes) (d.size + 1) d.stack cache else pure cache).value = some cache
    rw [if_neg (by rw [h]; decide)]
    rfl
  | failure h =>
    refine ⟨cache, ?_, rfl⟩
    change (if (word16 (hostHeader d.bytes) 2).testBit 15 then
      dnsHandleResponse (hostHeader d.bytes) (d.size + 1) d.stack cache else pure cache).value = some cache
    have hnone : (dnsHandleResponse (hostHeader d.bytes) (d.size + 1) d.stack cache).value = some cache := by
      rw [dnsHandleResponse]
      change (if word16 (hostHeader d.bytes) 2 % 16 ≠ dnsRcodeNoError then pure cache
        else _ : Access DnsBuffer (List DnsIpCacheEntry)).value = some cache
      rw [if_pos h]
      rfl
    split_ifs
    · exact hnone
    · rfl
  | response hsize hqr h hquestions hrecords =>
    exact listen_response hsize hqr h hquestions hrecords cache

def Caches (cache : List DnsIpCacheEntry) (heard : List (List UInt8 × Ip)) : Prop :=
  tableOf cache = firstTable dnsIpCacheSize heard

theorem Caches.findCached (h : Caches cache heard) (domain : CString) :
    findCached cache domain = knownAddress heard domain.text := by
  rw [findCached_eq, h]
  exact (firstTable_spec dnsIpCacheSize heard).2 domain.text

theorem Caches.listen (h : Caches cache heard) {d : Datagram} {pairs : List (List UInt8 × Ip)}
    (hd : Announces d pairs) : ∃ cache', listen cache d = some cache' ∧ Caches cache' (heard ++ pairs) := by
  obtain ⟨cache', hlisten, htable⟩ := listen_spec hd cache
  refine ⟨cache', hlisten, ?_⟩
  rw [Caches, htable, h, firstTable, firstTable, List.foldl_append]

end Table

/-! ### Waiting -/

section Waiting
variable {announced : Datagram → List (List UInt8 × Ip)} {cache : List DnsIpCacheEntry}
  {heard : List (List UInt8 × Ip)}

theorem Caches.listens (h : Caches cache heard) (ds : List Datagram)
    (hds : ∀ d ∈ ds, Announces d (announced d)) : ∃ cache', ds.foldlM Net.listen cache = some cache' ∧
      Caches cache' (heard ++ ds.flatMap announced) := by
  induction ds generalizing cache heard with
  | nil => exact ⟨cache, rfl, by rwa [List.flatMap_nil, List.append_nil]⟩
  | cons d ds ih =>
    rw [List.forall_mem_cons] at hds
    obtain ⟨cache', hlisten, hcaches⟩ := h.listen hds.1
    obtain ⟨cache'', hrest, hcaches'⟩ := ih hcaches hds.2
    refine ⟨cache'', ?_, ?_⟩
    · rw [List.foldlM_cons, hlisten]
      exact hrest
    · rw [List.flatMap_cons, ← List.append_assoc]
      exact hcaches'

/-- The rounds end when the name is known, or when the time is over. -/
theorem Caches.await (h : Caches cache heard) (domain : CString) {arrivals : ℕ → List Datagram}
    (harrivals : ∀ t, ∀ d ∈ arrivals t, Announces d (announced d)) (rounds t : ℕ) :
    ∃ cache', awaitFrom domain arrivals rounds t cache =
        some ((awaitKnown announced domain.text arrivals rounds t heard).1, cache') ∧
      Caches cache' (awaitKnown announced domain.text arrivals rounds t heard).2 := by
  induction rounds generalizing t cache heard with
  | zero => exact ⟨cache, rfl, h⟩
  | succ rounds ih =>
    obtain ⟨cache', hlisten, hcaches⟩ := h.listens (arrivals t) (harrivals t)
    have hfind := hcaches.findCached domain
    simp only [awaitFrom, awaitKnown, hlisten, Option.bind_eq_bind, Option.bind_some, hfind]
    cases knownAddress (heard ++ (arrivals t).flatMap announced) domain.text with
    | some ip => exact ⟨cache', rfl, hcaches⟩
    | none => exact ih hcaches (t + 1)

end Waiting

/-! ### Runs -/

section Runs
variable {driver : Driver} {server : Ip} {announced : Datagram → List (List UInt8 × Ip)} {s : Resolver}
  {a : Lookups}

theorem dnsSendQuery_eq (q : Query) (dnsId : UInt16) : (dnsSendQuery driver q.arpGetMac q.garbage dnsId
      server q.domain dnsTypeA).1 = (route driver q.arpGetMac server).map fun mac =>
    (mac, ipv4Packet driver.ip server ipProtocolUdp (udpPacket driver.ip 43085 server 53
      (dnsMessage q.garbage dnsId q.domain dnsTypeA)) (dnsMessage q.garbage dnsId q.domain dnsTypeA)) := by
  rw [dnsSendQuery, udpSendPacket, ipv4SendPacket, route]
  split_ifs
  · rfl
  · rfl
  · rfl

theorem asksFor_query {q : Query} (hq : Expected announced (.query q)) (dnsId : UInt16) (mac : Mac) :
    AsksFor driver server
      (mac, ipv4Packet driver.ip server ipProtocolUdp (udpPacket driver.ip 43085 server 53
        (dnsMessage q.garbage dnsId q.domain dnsTypeA)) (dnsMessage q.garbage dnsId q.domain dnsTypeA))
      (mac, q.domain.text) := by
  obtain ⟨⟨labels, hne, hlabels, hlength, hdomain⟩, -⟩ := hq
  have hshort : (dotted labels).length < word32 := hlength.trans_lt (by decide)
  have hencoded := encodeLabels_length hne
  have hcount : labels.length ≤ (encodeLabels labels).length := length_le_encodeLabels labels
  refine ⟨rfl, dnsMessage q.garbage dnsId q.domain dnsTypeA, labels, hlabels,
    (hdomain.text_eq (dotted_nonZero hlabels) hshort).symm, ?_, rfl⟩
  rw [dnsMessage_eq q.garbage dnsId _ hlabels hne hlength hdomain]
  have hdrop : (dnsQueryHeader dnsId ++ (encodeName labels ++ (htons dnsTypeA ++ htons dnsClassIn))).drop
      dnsHeaderSize = encodeName labels ++ (htons dnsTypeA ++ htons dnsClassIn) := List.drop_left' rfl
  have htype : ((dnsTypeA : ℤ) % 65536).toNat = dnsTypeA := by decide
  rw [htype, hdrop]
  apply decodeName_encodeName hlabels
  simp only [encodeName, List.length_append, List.length_singleton]
  omega

/-- The resolver has heard what was announced, has returned the same, and has asked for the same
names. -/
structure Knows (driver : Driver) (server : Ip) (s : Resolver) (a : Lookups) : Prop where
  caches : Caches s.cache a.heard
  results : s.results = a.results
  asked : List.Forall₂ (AsksFor driver server) s.sent a.asked

theorem Knows.step (h : Knows driver server s a) {o : ResolverStep} (ho : Expected announced o) :
    ∃ s', resolverStep driver server s o = some s' ∧
      Knows driver server s' (heardStep announced driver server a o) := by
  cases o with
  | datagram d =>
    obtain ⟨cache', hlisten, hcaches⟩ := h.caches.listen ho
    refine ⟨{ s with cache := cache' }, ?_, hcaches, h.results, h.asked⟩
    rw [resolverStep, hlisten]
    rfl
  | query q =>
    have hfind := h.caches.findCached q.domain
    simp only [resolverStep, dnsQueryIpv4, heardStep, hfind, dnsSendQuery_eq]
    cases knownAddress a.heard q.domain.text with
    | some ip => exact ⟨_, rfl, h.caches, congrArg (· ++ [some ip]) h.results, h.asked⟩
    | none =>
      cases route driver q.arpGetMac server with
      | none => exact ⟨_, rfl, h.caches, congrArg (· ++ [none]) h.results, h.asked⟩
      | some mac =>
        obtain ⟨cache', hawait, hcaches⟩ := h.caches.await q.domain ho.2 (rounds q.timeout) 0
        refine ⟨_, congrArg (Option.map _) hawait, hcaches, congrArg (· ++ [_]) h.results, ?_⟩
        exact List.rel_append h.asked (.cons (asksFor_query ho s.dnsId mac) .nil)

/-- In every run of responses and queries no call hangs, the queries return the address that came
first with their name, and only names that were not known are asked for. -/
theorem resolver_keeps_first (driver : Driver) (server : Ip) (steps : List ResolverStep)
    (h : ∀ o ∈ steps, Expected announced o) : ∃ s, steps.foldlM (resolverStep driver server) dnsInit = some s ∧
      s.results = (steps.foldl (heardStep announced driver server) ⟨[], [], []⟩).results ∧
      List.Forall₂ (AsksFor driver server) s.sent
        (steps.foldl (heardStep announced driver server) ⟨[], [], []⟩).asked := by
  have hrun : ∀ (steps : List ResolverStep) (s : Resolver) (a : Lookups), (∀ o ∈ steps, Expected announced o) →
      Knows driver server s a → ∃ s', steps.foldlM (resolverStep driver server) s = some s' ∧
        Knows driver server s' (steps.foldl (heardStep announced driver server) a) := by
    intro steps
    induction steps with
    | nil => exact fun s a _ hs => ⟨s, rfl, hs⟩
    | cons o steps ih =>
      intro s a hsteps hs
      rw [List.forall_mem_cons] at hsteps
      obtain ⟨s', hstep, hs'⟩ := hs.step hsteps.1
      obtain ⟨t, hrest, ht⟩ := ih s' _ hsteps.2 hs'
      refine ⟨t, ?_, ht⟩
      rw [List.foldlM_cons, hstep]
      exact hrest
  obtain ⟨s, hs, hknows⟩ := hrun steps dnsInit ⟨[], [], []⟩ h ⟨rfl, rfl, .nil⟩
  exact ⟨s, hs, hknows.results, hknows.asked⟩

end Runs

/-- A response in network order: a question for the name `a`, and an answer that points at it. -/
def responseBytes : ℕ → UInt8 := fun i =>
  [0, 7, 128, 0, 0, 1, 0, 1, 0, 0, 0, 0, 1, 97, 0, 0, 1, 0, 1, 192, 12, 0, 1, 0, 1, 0, 0, 0, 60, 0, 4, 10,
    0, 0, 1].getD i 0

def responseExample : Datagram := ⟨responseBytes, 35, fun _ => 0⟩

theorem responseExample_announces :
    Announces responseExample [([97], ipAt (hostHeader responseBytes) 31)] := by
  have hname : WrittenOut (hostHeader responseBytes) 35 12 [[97]] 15 :=
    .label (by decide) (.root (by decide) (by decide))
  have hresponse : IsResponse (hostHeader responseBytes) 35 [[[97]]] [⟨19, [[97]], 21⟩] 19 :=
    { header := by decide
      rcode := by decide
      questionCount := by decide
      answerCount := by decide
      questions_at := ⟨15, hname.nameAt, by decide, rfl⟩
      records_at := ⟨rfl, .pointer (by decide) (by decide) hname.nameAt, by decide, by decide,
        fun _ => rfl, trivial⟩ }
  have hrecords : PlainRecords (hostHeader responseBytes) 35 [] [⟨19, [[97]], 21⟩] := by
    have hnonZero : ∀ l ∈ [[(97 : UInt8)]], ∀ c ∈ l, c ≠ 0 := by simp
    refine ⟨.inr ⟨by decide, 15, hname⟩, ?_, trivial⟩
    rw [if_pos (by decide)]
    exact ⟨rfl, hnonZero⟩
  have hplain : PlainQuestions (hostHeader responseBytes) 35 [[[97]]] 12 19 := ⟨15, hname, rfl⟩
  exact Announces.response (d := responseExample) (by decide) (by decide) hresponse hplain hrecords

/-- A query during which the response comes. -/
def queryExample : Query where
  domain := fun i => [97].getD i 0
  timeout := 10
  arpGetMac := fun _ => some (Vector.replicate 6 2)
  garbage := fun _ => 0
  arrivals := fun _ => [responseExample]

def driverExample : Driver :=
  ⟨Vector.replicate 4 10, Vector.replicate 4 255, Vector.replicate 4 11⟩

/-- The second query for the name returns the address without a question. -/
theorem resolver_keeps_first_twice : ∃ s, [.query queryExample, .query queryExample].foldlM
      (resolverStep driverExample (Vector.replicate 4 11)) dnsInit = some s ∧
    s.results = [some (ipAt (hostHeader responseBytes) 31), some (ipAt (hostHeader responseBytes) 31)] ∧
    s.sent.length = 1 := by
  have hexpected : ∀ o ∈ [ResolverStep.query queryExample, .query queryExample],
      Expected (fun _ => [([97], ipAt (hostHeader responseBytes) 31)]) o := by
    intro o ho
    obtain rfl : o = .query queryExample := by simpa using ho
    refine ⟨⟨[[97]], by decide, by simp [IsDnsLabel], by decide, fun i _ => rfl⟩, fun t d hd => ?_⟩
    rw [List.mem_singleton.mp hd]
    exact responseExample_announces
  have hname : queryExample.domain.text = [97] := by
    have hstring : CString.IsString queryExample.domain [97] := fun i _ => rfl
    exact hstring.text_eq (by decide) (by decide)
  obtain ⟨s, hrun, hresults, hasked⟩ := resolver_keeps_first driverExample (Vector.replicate 4 11) _
    hexpected
  refine ⟨s, hrun, ?_, ?_⟩
  · rw [hresults]
    simp only [List.foldl, heardStep, hname]
    decide +kernel
  · rw [hasked.length_eq]
    simp only [List.foldl, heardStep, hname]
    decide +kernel

end DosKernel.Net
