import DosKernel.Lib.History
import DosKernel.Net.Connect

/-! The numbers of a TCP connection. `tcp_send_packet` takes the next value of the counter
`syn_c` for a segment whose `seq` argument is 0: for every SYN, for the request of
`http_send_request`, and for the answer to a segment that acknowledges 0. The
acknowledgement number of the request is what `tcp_syn` read from its cache, where
`tcp_receive_packet` put the acknowledgement number of the SYN-ACK. -/

namespace DosKernel.Net

open Lib

/-- What `tcp_receive_packet` reads of a segment with a right checksum: a SYN-ACK, or
another one, whose data the listener of the port accepts or not. -/
inductive Arrival
  | synAck (port seq ack : ℕ)
  | segment (port ack : ℕ) (accepted fin : Bool)

/-- Segments on the wire: the SYN of a call, a SYN-ACK that arrives, and the request of a
call, with their numbers. -/
inductive Numbered
  | syn (id seq : ℕ)
  | synAck (port seq ack : ℕ)
  | data (id port seq ack : ℕ)
  deriving DecidableEq

/-- The connections: the calls of `tcp_syn`, the counter `syn_c`, and the calls of
`http_send_request` whose `tcp_syn` has returned `true`, with their port and `ack`. -/
structure Conns where
  tcp : Tcp
  synC : ℕ
  requests : ℕ → Option (ℕ × ℕ)
  wire : List Numbered

/-! ### The code -/

def nextSeq (n : ℕ) : ℕ := (n + 1) % 4294967296

/-- The sequence number that `tcp_send_packet` puts into a segment, and `syn_c` after it. -/
def tcpSendSeq (synC seq : ℕ) : ℕ × ℕ := if seq = 0 then (synC, nextSeq synC) else (seq, synC)

/-- The `seq` arguments of the answers that `tcp_receive_packet` sends: the acknowledgement
number of the segment. -/
def Arrival.answers : Arrival → List ℕ
  | .synAck _ _ ack => [ack]
  | .segment _ ack accepted fin => (if accepted then [ack] else []) ++ if fin then [ack] else []

/-- What the segment does to `tcp_syn_cache`. -/
def Arrival.verdict : Arrival → Verdict
  | .synAck port _ ack => .synAck port ack
  | .segment port _ _ fin => .segment port fin

/-- What `tcp_receive_packet` does with the segment. -/
def connReceive (s : Conns) (a : Arrival) : Conns :=
  { s with
    tcp := tcpReceive s.tcp a.verdict
    synC := a.answers.foldl (fun synC seq => (tcpSendSeq synC seq).2) s.synC
    wire := s.wire ++ match a with | .synAck port seq ack => [.synAck port seq ack] | _ => [] }

/-- The SYN of a call, which may not get out. -/
def connSyn (s : Conns) (id port : ℕ) (sent : Bool) : Conns :=
  let r := tcpSendSeq s.synC 0
  { s with
    tcp := tcpSynSend s.tcp id port sent
    synC := r.2
    wire := if sent then s.wire ++ [.syn id r.1] else s.wire }

/-- `tcp_syn` looks into its cache; when it returns `true` the request is next. -/
def connPoll (s : Conns) (id port : ℕ) : Conns :=
  let hit := (search s.tcp.currTcpSyn fun i =>
    (s.tcp.tcpSynCache i).port = port ∧ (s.tcp.tcpSynCache i).syn).1
  { s with
    tcp := tcpSynPoll s.tcp id port
    requests := Function.update s.requests id (hit.map fun i => (port, (s.tcp.tcpSynCache i).ack)) }

/-- The request of `http_send_request`. -/
def httpSendRequest (s : Conns) (id port ack : ℕ) : Conns :=
  let r := tcpSendSeq s.synC 0
  { s with
    synC := r.2
    requests := Function.update s.requests id none
    wire := s.wire ++ [.data id port r.1 ack] }

inductive ConnOp
  | start (port : ℕ)
  | send (id : ℕ) (sent : Bool)
  | receive (a : Arrival)
  | poll (id : ℕ)
  | timeout (id : ℕ)
  | request (id : ℕ)

/-- The steps; a call takes those of its phase. -/
def Conns.step (s : Conns) : ConnOp → Option Conns
  | .start port => some { s with tcp := tcpSynRegister s.tcp port }
  | .send id sent =>
    match s.tcp.calls id with
    | some (port, .registered) => some (connSyn s id port sent)
    | _ => none
  | .receive a => some (connReceive s a)
  | .poll id =>
    match s.tcp.calls id with
    | some (port, .waiting _) => some (connPoll s id port)
    | _ => none
  | .timeout id =>
    match s.tcp.calls id with
    | some (port, .waiting _) => some { s with tcp := tcpSynReturn s.tcp id port none }
    | _ => none
  | .request id =>
    match s.requests id with
    | some (port, ack) => some (httpSendRequest s id port ack)
    | none => none

def connsInit : Conns := ⟨tcpInit, 0, fun _ => none, []⟩

/-! ### Right numbers -/

/-- The SYN of the call has number `n`, and a SYN-ACK with number `q` has acknowledged it. -/
def Shaken (id port n q : ℕ) : List Numbered → Prop :=
  Precedes (.syn id n) (.synAck port q (nextSeq n))

/-- The request of a connection goes on where the handshake ended. -/
def GoesOn (before : List Numbered) (e : Numbered) : Prop :=
  ∀ id port seq ack, e = .data id port seq ack → ∀ n q, Shaken id port n q before →
    seq = nextSeq n ∧ ack = nextSeq q

/-- The call is between its SYN and its request. -/
def Conns.Pending (s : Conns) (id port : ℕ) : Prop :=
  (∃ sent, s.tcp.calls id = some (port, .waiting sent)) ∨ ∃ ack, s.requests id = some (port, ack)

/-- A call begins while there is room in the cache. A SYN is sent while no entry with its
port is marked and no other call is between its SYN and its request. Meanwhile no segment
that is answered acknowledges 0, and a SYN-ACK for the port acknowledges the SYN and has
the number of the SYN. -/
def InTurn (s : Conns) : ConnOp → Prop
  | .start _ => s.tcp.currTcpSyn < tcpSynCacheSize
  | .send id _ => (∀ id' port, ¬ s.Pending id' port) ∧
    ∀ port phase, s.tcp.calls id = some (port, phase) → ¬ s.tcp.Marked port
  | .receive a => ∀ id port, s.Pending id port → (∀ r ∈ a.answers, r ≠ 0) ∧
    ∀ q ack, a = .synAck port q ack → ∀ n, .syn id n ∈ s.wire → ack = nextSeq n ∧ q = n
  | _ => True

/-! ### Runs -/

/-- What holds in such runs. At most one call is between its SYN and its request, and
`syn_c` and every acknowledgement number kept for it follow the number of its SYN. -/
structure Paired (s : Conns) : Prop where
  numbered : EachEvent GoesOn s.wire
  single : ∀ id id' port port', s.Pending id port → s.Pending id' port' → id = id'
  counter : ∀ id port n, s.Pending id port → .syn id n ∈ s.wire → s.synC = nextSeq n
  marked : ∀ id port sent n, s.tcp.calls id = some (port, .waiting sent) → .syn id n ∈ s.wire →
    ∀ i < s.tcp.currTcpSyn, (s.tcp.tcpSynCache i).port = port →
      (s.tcp.tcpSynCache i).syn = true → (s.tcp.tcpSynCache i).ack = nextSeq n
  taken : ∀ id port ack n, s.requests id = some (port, ack) → .syn id n ∈ s.wire →
    ack = nextSeq n
  shaken : ∀ id port n q, s.Pending id port → Shaken id port n q s.wire → q = n
  fresh : ∀ id n, .syn id n ∈ s.wire → id < s.tcp.currTcpSyn ∧
    ∀ port, s.tcp.calls id ≠ some (port, .registered)
  calls_lt : ∀ id, s.tcp.currTcpSyn ≤ id → s.tcp.calls id = none
  requests_none : ∀ id, s.tcp.calls id ≠ none ∨ s.tcp.currTcpSyn ≤ id → s.requests id = none

theorem paired_init : Paired connsInit := by
  refine ⟨eachEvent_nil _, ?_, ?_, ?_, ?_, ?_, ?_, fun _ _ => rfl, fun _ _ => rfl⟩ <;>
    simp [connsInit, tcpInit, Conns.Pending]

section Paired
variable {s : Conns} {id port n q : ℕ}

theorem shaken_concat {l : List Numbered} {e : Numbered} : Shaken id port n q (l ++ [e]) ↔
    Shaken id port n q l ∨ .syn id n ∈ l ∧ e = .synAck port q (nextSeq n) := precedes_concat

theorem Paired.register (h : Paired s) (port : ℕ) :
    Paired { s with tcp := tcpSynRegister s.tcp port } := by
  have hpending : ∀ id p, ({ s with tcp := tcpSynRegister s.tcp port } : Conns).Pending id p →
      s.Pending id p := by
    rintro id p (⟨sent, hcall⟩ | hreq)
    · exact .inl ⟨sent, tcpSynRegister_waiting hcall⟩
    · exact .inr hreq
  refine ⟨h.numbered, fun id id' p p' h1 h2 => h.single id id' p p' (hpending _ _ h1) (hpending _ _ h2),
    fun id p n hp => h.counter id p n (hpending _ _ hp), ?_, h.taken,
    fun id p n q hp => h.shaken id p n q (hpending _ _ hp), ?_, ?_, ?_⟩
  · intro id p sent n hcall hn i hi hport hsyn
    rcases eq_or_ne i s.tcp.currTcpSyn with rfl | hne
    · simp [tcpSynRegister] at hsyn
    · simp only [tcpSynRegister, Function.update_of_ne hne] at hi hport hsyn ⊢
      exact h.marked id p sent n (tcpSynRegister_waiting hcall) hn i (by omega) hport hsyn
  · intro id n hn
    obtain ⟨hlt, hreg⟩ := h.fresh id n hn
    refine ⟨by simp only [tcpSynRegister]; omega, fun p => ?_⟩
    simpa only [tcpSynRegister, Function.update_of_ne hlt.ne] using hreg p
  · intro id hid
    simp only [tcpSynRegister] at hid ⊢
    rw [Function.update_of_ne (by omega)]
    exact h.calls_lt id (by omega)
  · intro id hid
    rcases eq_or_ne id s.tcp.currTcpSyn with rfl | hne
    · exact h.requests_none _ (.inr le_rfl)
    · simp only [tcpSynRegister, Function.update_of_ne hne] at hid
      exact h.requests_none id (hid.imp_right fun hle => by omega)

/-- After its SYN a call is the only one between SYN and request. -/
theorem Paired.send (h : Paired s) (sent : Bool) (hcall : s.tcp.calls id = some (port, .registered))
    (halone : ∀ id' port', ¬ s.Pending id' port') (hclear : ¬ s.tcp.Marked port) :
    Paired (connSyn s id port sent) := by
  have hreq : ∀ id' p ack, s.requests id' ≠ some (p, ack) := fun id' p ack hr =>
    halone id' p (.inr ⟨ack, hr⟩)
  have hother : ∀ id' p sent', id' ≠ id →
      (connSyn s id port sent).tcp.calls id' ≠ some (p, .waiting sent') := by
    intro id' p sent' hne hcall'
    simp only [connSyn, tcpSynSend, Function.update_of_ne hne] at hcall'
    exact halone id' p (.inl ⟨sent', hcall'⟩)
  have hpending : ∀ id' p, (connSyn s id port sent).Pending id' p → id' = id := by
    rintro id' p (⟨sent', hcall'⟩ | ⟨ack, hr⟩)
    · by_contra hne
      exact hother id' p sent' hne hcall'
    · exact absurd hr (hreq id' p ack)
  -- the only SYN of the call is the one that was sent last
  have hsyn : ∀ n, .syn id n ∉ s.wire := fun n hn => (h.fresh id n hn).2 port hcall
  have hwire : ∀ e, e ∈ (connSyn s id port sent).wire → e ∈ s.wire ∨ e = .syn id s.synC := by
    intro e he
    cases sent with
    | false => exact .inl he
    | true => simpa [connSyn, tcpSendSeq] using he
  refine ⟨?_, fun id₁ id₂ p₁ p₂ h1 h2 => (hpending _ _ h1).trans (hpending _ _ h2).symm, ?_, ?_, ?_,
    ?_, ?_, ?_, ?_⟩
  · cases sent with
    | false => exact h.numbered
    | true => exact eachEvent_concat.mpr ⟨h.numbered, fun _ _ _ _ he => by cases he⟩
  · intro id' p n hp hn
    obtain rfl := hpending id' p hp
    rcases hwire _ hn with hn | hn
    · exact absurd hn (hsyn n)
    · obtain ⟨-, rfl⟩ := Numbered.syn.inj hn
      rfl
  · intro id' p sent' n hcall' hn i hi hport hmark
    obtain rfl : id' = id := by
      by_contra hne
      exact hother id' p sent' hne hcall'
    simp only [connSyn, tcpSynSend, Function.update_self, Option.some.injEq, Prod.mk.injEq]
      at hcall'
    exact absurd ⟨i, hi, hport.trans hcall'.1.symm, hmark⟩ hclear
  · intro id' p ack n hr
    exact absurd hr (hreq id' p ack)
  · intro id' p n q hp hshaken
    obtain rfl := hpending id' p hp
    cases sent with
    | false => exact absurd hshaken.mem_left (hsyn n)
    | true =>
      rcases shaken_concat.mp hshaken with hold | ⟨-, he⟩
      · exact absurd hold.mem_left (hsyn n)
      · cases he
  · intro id' n hn
    have hlt : id < s.tcp.currTcpSyn := by
      by_contra hle
      rw [h.calls_lt id (by omega)] at hcall
      cases hcall
    rcases eq_or_ne id' id with rfl | hne
    · exact ⟨hlt, by simp [connSyn, tcpSynSend]⟩
    · rcases hwire _ hn with hn | hn
      · simpa only [connSyn, tcpSynSend, Function.update_of_ne hne] using h.fresh id' n hn
      · exact absurd (Numbered.syn.inj hn).1 hne
  · intro id' hid
    have hne : id' ≠ id := by
      rintro rfl
      rw [h.calls_lt id' hid] at hcall
      cases hcall
    simpa only [connSyn, tcpSynSend, Function.update_of_ne hne] using h.calls_lt id' hid
  · intro id' hid
    cases hr : s.requests id' with
    | none => exact hr
    | some r => exact absurd hr (hreq id' r.1 r.2)

/-- A call that goes on: what it was waiting for stays right. -/
theorem Paired.settle (h : Paired s) {tcp : Tcp} {requests : ℕ → Option (ℕ × ℕ)}
    (hcache : tcp.tcpSynCache = s.tcp.tcpSynCache) (hcurr : tcp.currTcpSyn = s.tcp.currTcpSyn)
    (hcalls : ∀ id, tcp.calls id = s.tcp.calls id ∨ tcp.calls id = none)
    (hrequests : ∀ id, requests id = s.requests id ∨ requests id = none ∨
      ∃ port sent i, s.tcp.calls id = some (port, .waiting sent) ∧ i < s.tcp.currTcpSyn ∧
        (s.tcp.tcpSynCache i).port = port ∧ (s.tcp.tcpSynCache i).syn = true ∧
        requests id = some (port, (s.tcp.tcpSynCache i).ack) ∧ tcp.calls id = none) :
    Paired { s with tcp := tcp, requests := requests } := by
  have hwaiting : ∀ {id r}, tcp.calls id = some r → s.tcp.calls id = some r := by
    intro id r hcall
    rcases hcalls id with heq | hnone
    · exact heq ▸ hcall
    · rw [hnone] at hcall
      cases hcall
  have hpending : ∀ id p, ({ s with tcp := tcp, requests := requests } : Conns).Pending id p →
      s.Pending id p := by
    rintro id p (⟨sent, hcall⟩ | ⟨ack, hr⟩)
    · exact .inl ⟨sent, hwaiting hcall⟩
    · dsimp only at hr
      rcases hrequests id with heq | hnone | ⟨port, sent, i, hcall, -, -, -, heq, -⟩
      · exact .inr ⟨ack, heq ▸ hr⟩
      · rw [hnone] at hr
        cases hr
      · rw [heq] at hr
        obtain ⟨rfl, -⟩ := Prod.mk.inj (Option.some.inj hr)
        exact .inl ⟨sent, hcall⟩
  refine ⟨h.numbered, fun id id' p p' h1 h2 => h.single id id' p p' (hpending _ _ h1) (hpending _ _ h2),
    fun id p n hp => h.counter id p n (hpending _ _ hp), ?_, ?_,
    fun id p n q hp => h.shaken id p n q (hpending _ _ hp), ?_, ?_, ?_⟩
  · intro id p sent n hcall hn
    dsimp only
    rw [hcache, hcurr]
    exact h.marked id p sent n (hwaiting hcall) hn
  · intro id p ack n hr hn
    dsimp only at hr
    rcases hrequests id with heq | hnone | ⟨port, sent, i, hcall, hi, hport, hsyn, heq, -⟩
    · exact h.taken id p ack n (heq ▸ hr) hn
    · rw [hnone] at hr
      cases hr
    · rw [heq] at hr
      obtain ⟨-, rfl⟩ := Prod.mk.inj (Option.some.inj hr)
      exact h.marked id port sent n hcall hn i hi hport hsyn
  · intro id n hn
    obtain ⟨hlt, hreg⟩ := h.fresh id n hn
    exact ⟨hcurr ▸ hlt, fun p hcall => hreg p (hwaiting hcall)⟩
  · intro id hid
    rcases hcalls id with heq | hnone
    · exact heq.trans (h.calls_lt id (hcurr ▸ hid))
    · exact hnone
  · intro id hid
    dsimp only at hid ⊢
    rw [hcurr] at hid
    have hid' : s.tcp.calls id ≠ none ∨ s.tcp.currTcpSyn ≤ id := by
      refine hid.imp_left fun hcall hnone => ?_
      rcases hcalls id with heq | hnone'
      · exact hcall (heq.trans hnone)
      · exact hcall hnone'
    rcases hrequests id with heq | hnone | ⟨port, sent, i, hcall, hi, hport, hsyn, heq, hdone⟩
    · exact heq.trans (h.requests_none id hid')
    · exact hnone
    · rcases hid with hcall' | hle
      · exact absurd hdone hcall'
      · rw [h.calls_lt id hle] at hcall
        cases hcall

theorem Paired.poll (h : Paired s) {sent : Bool}
    (hcall : s.tcp.calls id = some (port, .waiting sent)) : Paired (connPoll s id port) := by
  rw [connPoll, tcpSynPoll]
  split
  · rename_i i hi
    obtain ⟨hlt, hentry⟩ := search_hit hi
    have hentry' : (s.tcp.tcpSynCache i).port = port ∧ (s.tcp.tcpSynCache i).syn = true := by
      simpa using hentry
    rw [hi]
    refine h.settle rfl rfl (fun id' => ?_) fun id' => ?_
    · rcases eq_or_ne id' id with rfl | hne
      · exact .inr (Function.update_self ..)
      · exact .inl (Function.update_of_ne hne ..)
    · rcases eq_or_ne id' id with rfl | hne
      · exact .inr (.inr ⟨port, sent, i, hcall, hlt, hentry'.1, hentry'.2, Function.update_self ..,
          Function.update_self ..⟩)
      · exact .inl (Function.update_of_ne hne ..)
  · rename_i hi
    rw [hi]
    refine h.settle rfl rfl (fun id' => .inl rfl) fun id' => ?_
    rcases eq_or_ne id' id with rfl | hne
    · exact .inr (.inl (Function.update_self ..))
    · exact .inl (Function.update_of_ne hne ..)

theorem Paired.timeout (h : Paired s) (id port : ℕ) :
    Paired { s with tcp := tcpSynReturn s.tcp id port none } := by
  refine h.settle rfl rfl (fun id' => ?_) fun _ => .inl rfl
  rcases eq_or_ne id' id with rfl | hne
  · exact .inr (Function.update_self ..)
  · exact .inl (Function.update_of_ne hne ..)

/-- The request has the next number after the SYN, and acknowledges the number after that
of the SYN-ACK. -/
theorem Paired.request (h : Paired s) {ack : ℕ} (hr : s.requests id = some (port, ack)) :
    Paired (httpSendRequest s id port ack) := by
  have hpend : s.Pending id port := .inr ⟨ack, hr⟩
  have hdone : ∀ id' p, ¬ (httpSendRequest s id port ack).Pending id' p := by
    rintro id' p (⟨sent, hcall⟩ | ⟨ack', hr'⟩)
    · obtain rfl := h.single id' id p port (.inl ⟨sent, hcall⟩) hpend
      have hnone := h.requests_none id' (.inl (by rw [show s.tcp.calls id' = _ from hcall]; simp))
      rw [hr] at hnone
      cases hnone
    · rcases eq_or_ne id' id with rfl | hne
      · simp [httpSendRequest] at hr'
      · simp only [httpSendRequest, Function.update_of_ne hne] at hr'
        exact hne (h.single id' id p port (.inr ⟨ack', hr'⟩) hpend)
  refine ⟨eachEvent_concat.mpr ⟨h.numbered, ?_⟩, fun id₁ _ p₁ _ h1 _ => absurd h1 (hdone id₁ p₁),
    fun id' p _ hp => absurd hp (hdone id' p), ?_, ?_, fun id' p _ _ hp => absurd hp (hdone id' p),
    ?_, h.calls_lt, ?_⟩
  · intro id' p seq ack' he n q hshaken
    obtain ⟨rfl, rfl, rfl, rfl⟩ := Numbered.data.inj he
    have hn := hshaken.mem_left
    refine ⟨?_, ?_⟩
    · rw [tcpSendSeq, if_pos rfl, h.counter id port n hpend hn]
    · rw [h.shaken id port n q hpend hshaken, h.taken id port ack n hr hn]
  · intro id' p sent n hcall hn
    exact absurd (.inl ⟨sent, hcall⟩) (hdone id' p)
  · intro id' p ack' n hr'
    exact absurd (.inr ⟨ack', hr'⟩) (hdone id' p)
  · intro id' n hn
    have hn' : .syn id' n ∈ s.wire := by simpa [httpSendRequest] using hn
    exact h.fresh id' n hn'
  · intro id' hid
    rcases eq_or_ne id' id with rfl | hne
    · exact Function.update_self ..
    · simpa only [httpSendRequest, Function.update_of_ne hne] using h.requests_none id' hid

theorem foldl_tcpSendSeq {l : List ℕ} (hl : ∀ r ∈ l, r ≠ 0) (synC : ℕ) :
    l.foldl (fun synC seq => (tcpSendSeq synC seq).2) synC = synC := by
  induction l with
  | nil => rfl
  | cons r l ih =>
    rw [List.foldl_cons, tcpSendSeq, if_neg (hl r List.mem_cons_self)]
    exact ih fun r' hr' => hl r' (List.mem_cons_of_mem r hr')

/-- A segment changes no more than the entry of its port: a SYN-ACK marks it with its
acknowledgement number, and nothing else marks it. -/
theorem connReceive_tcp (s : Conns) (a : Arrival) :
    (connReceive s a).tcp.calls = s.tcp.calls ∧
      (connReceive s a).tcp.currTcpSyn = s.tcp.currTcpSyn ∧
      ∀ i, ((connReceive s a).tcp.tcpSynCache i).syn = true →
        (connReceive s a).tcp.tcpSynCache i = s.tcp.tcpSynCache i ∨
        ∃ q, a = .synAck (s.tcp.tcpSynCache i).port q ((connReceive s a).tcp.tcpSynCache i).ack ∧
          ((connReceive s a).tcp.tcpSynCache i).port = (s.tcp.tcpSynCache i).port := by
  cases a with
  | synAck port q ack =>
    obtain ⟨cache, hchange, hcache⟩ := changeFirst_spec s.tcp port true ack
    simp only [connReceive, Arrival.verdict, tcpReceive, hchange]
    refine ⟨trivial, trivial, fun i _ => ?_⟩
    rcases hcache i with heq | ⟨hport, heq⟩
    · exact .inl heq
    · refine .inr ⟨q, ?_⟩
      simp only [heq, hport, and_self]
  | segment port ack accepted fin =>
    cases fin with
    | false => exact ⟨rfl, rfl, fun _ _ => .inl rfl⟩
    | true =>
      obtain ⟨cache, hchange, hcache⟩ := changeFirst_spec s.tcp port false 0
      simp only [connReceive, Arrival.verdict, tcpReceive, hchange]
      refine ⟨trivial, trivial, fun i hsyn => ?_⟩
      rcases hcache i with heq | ⟨-, heq⟩
      · exact .inl heq
      · simp [heq] at hsyn

/-- Answers with a number of their own leave `syn_c` alone. -/
theorem connReceive_synC {a : Arrival} (ha : ∀ r ∈ a.answers, r ≠ 0) :
    (connReceive s a).synC = s.synC := foldl_tcpSendSeq ha s.synC

theorem connReceive_wire (s : Conns) (a : Arrival) : (connReceive s a).wire = s.wire ∨
    ∃ port q ack, a = .synAck port q ack ∧ (connReceive s a).wire = s.wire ++ [.synAck port q ack] := by
  cases a with
  | synAck port q ack => exact .inr ⟨port, q, ack, rfl, rfl⟩
  | segment port ack accepted fin => exact .inl (List.append_nil _)

/-- A segment that arrives in turn has the numbers that are due. -/
theorem Paired.receive (h : Paired s) {a : Arrival} (hturn : InTurn s (.receive a)) :
    Paired (connReceive s a) := by
  obtain ⟨hcalls, hcurr, hcache⟩ := connReceive_tcp s a
  have hsyn : ∀ id n, .syn id n ∈ (connReceive s a).wire → .syn id n ∈ s.wire := by
    intro id n hn
    rcases connReceive_wire s a with hw | ⟨port, q, ack, -, hw⟩
    · exact hw ▸ hn
    · rw [hw] at hn
      simpa using hn
  have hpending : ∀ id p, (connReceive s a).Pending id p → s.Pending id p := by
    rintro id p (⟨sent, hcall⟩ | hr)
    · exact .inl ⟨sent, hcalls ▸ hcall⟩
    · exact .inr hr
  refine ⟨?_, fun id id' p p' h1 h2 => h.single id id' p p' (hpending _ _ h1) (hpending _ _ h2),
    ?_, ?_, fun id p ack n hr hn => h.taken id p ack n hr (hsyn id n hn), ?_, ?_, ?_, ?_⟩
  · rcases connReceive_wire s a with hw | ⟨port, q, ack, -, hw⟩
    · exact hw ▸ h.numbered
    · rw [hw]
      exact eachEvent_concat.mpr ⟨h.numbered, fun _ _ _ _ he => by cases he⟩
  · intro id p n hp hn
    rw [connReceive_synC (hturn id p (hpending id p hp)).1]
    exact h.counter id p n (hpending id p hp) (hsyn id n hn)
  · intro id p sent n hcall hn i hi hport hmark
    rw [hcalls] at hcall
    rw [hcurr] at hi
    rcases hcache i hmark with heq | ⟨q, ha, hport'⟩
    · rw [heq] at hport hmark ⊢
      exact h.marked id p sent n hcall (hsyn id n hn) i hi hport hmark
    · rw [← hport', hport] at ha
      exact ((hturn id p (.inl ⟨sent, hcall⟩)).2 q _ ha n (hsyn id n hn)).1
  · intro id p n q hp hshaken
    rcases connReceive_wire s a with hw | ⟨port, q', ack, ha, hw⟩
    · exact h.shaken id p n q (hpending id p hp) (hw ▸ hshaken)
    · rw [hw] at hshaken
      rcases shaken_concat.mp hshaken with hold | ⟨hn, he⟩
      · exact h.shaken id p n q (hpending id p hp) hold
      · obtain ⟨rfl, rfl, rfl⟩ := Numbered.synAck.inj he
        exact ((hturn id _ (hpending id _ hp)).2 _ _ ha n hn).2
  · intro id n hn
    rw [hcurr, hcalls]
    exact h.fresh id n (hsyn id n hn)
  · rw [hcurr, hcalls]
    exact h.calls_lt
  · rw [hcurr, hcalls]
    exact h.requests_none

theorem Paired.step (h : Paired s) {o : ConnOp} (hturn : InTurn s o) {s' : Conns}
    (hs : s.step o = some s') : Paired s' := by
  cases o with
  | start port =>
    obtain rfl := Option.some.inj hs
    exact h.register port
  | send id sent =>
    rw [Conns.step] at hs
    split at hs
    · rename_i port hcall
      obtain rfl := Option.some.inj hs
      exact h.send sent hcall hturn.1 (hturn.2 port _ hcall)
    · cases hs
  | receive a =>
    obtain rfl := Option.some.inj hs
    exact h.receive hturn
  | poll id =>
    rw [Conns.step] at hs
    split at hs
    · rename_i port sent hcall
      obtain rfl := Option.some.inj hs
      exact h.poll hcall
    · cases hs
  | timeout id =>
    rw [Conns.step] at hs
    split at hs
    · rename_i port sent hcall
      obtain rfl := Option.some.inj hs
      exact h.timeout id port
    · cases hs
  | request id =>
    rw [Conns.step] at hs
    split at hs
    · rename_i port ack hr
      obtain rfl := Option.some.inj hs
      exact h.request hr
    · cases hs

end Paired

/-- In every run whose steps are in turn the requests go on where their handshakes ended. -/
theorem handshake_numbers {os : List ConnOp} {t : Conns}
    (h : Run Conns.step InTurn connsInit os t) : EachEvent GoesOn t.wire :=
  (h.invariant (fun _ _ _ hp hturn hs => hp.step hturn hs) paired_init).numbered

/-- The connection of `http_send_request` when its SYN is out, and when a server whose first
number is `q` has answered. -/
def synOut : Conns := connSyn { connsInit with tcp := tcpSynRegister tcpInit 10101 } 0 10101 true

def answeredBy (q : ℕ) : Conns := connReceive synOut (.synAck 10101 q 1)

def requested (q : ℕ) : Conns := httpSendRequest (connPoll (answeredBy q) 0 10101) 0 10101 1

/-- A server that starts with the number of the SYN. -/
theorem handshake_numbers_equal :
    (requested 0).wire = [.syn 0 0, .synAck 10101 0 1, .data 0 10101 1 1] ∧
    EachEvent GoesOn (requested 0).wire := by
  have hrun : Run Conns.step InTurn connsInit
      [.start 10101, .send 0 true, .receive (.synAck 10101 0 1), .poll 0, .request 0]
      (requested 0) := by
    refine .cons (show 0 < 16 by decide) rfl (.cons ⟨?_, ?_⟩ rfl (.cons ?_ rfl
      (.cons trivial rfl (.cons trivial rfl (.nil _)))))
    · rintro id port (⟨sent, hcall⟩ | ⟨ack, hr⟩)
      · rcases eq_or_ne id 0 with rfl | hid
        · simp [connsInit, tcpSynRegister, tcpInit] at hcall
        · simp [connsInit, tcpSynRegister, tcpInit, hid] at hcall
      · simp [connsInit] at hr
    · rintro port phase - ⟨i, hi, -, hsyn⟩
      obtain rfl : i = 0 := by
        simp only [tcpSynRegister, connsInit, tcpInit] at hi
        omega
      simp [tcpSynRegister, connsInit, tcpInit] at hsyn
    · intro id port _
      refine ⟨by simp [Arrival.answers], fun q ack ha n hn => ?_⟩
      obtain ⟨-, rfl, rfl⟩ := Arrival.synAck.inj ha
      have hn' : Numbered.syn id n = .syn 0 0 := List.mem_singleton.mp hn
      obtain ⟨-, rfl⟩ := Numbered.syn.inj hn'
      exact ⟨by decide, rfl⟩
  exact ⟨by decide, handshake_numbers hrun⟩

/-- Any other server gets its acknowledgement wrong: the request acknowledges 1, not 8. -/
theorem handshake_wrong_ack :
    ¬ ∀ (os : List ConnOp) (t : Conns), Run Conns.step Anything connsInit os t →
      EachEvent GoesOn t.wire := by
  intro h
  have hrun : Run Conns.step Anything connsInit
      [.start 10101, .send 0 true, .receive (.synAck 10101 7 1), .poll 0, .request 0]
      (requested 7) :=
    .cons trivial rfl (.cons trivial rfl (.cons trivial rfl (.cons trivial rfl
      (.cons trivial rfl (.nil _)))))
  have hwire : (requested 7).wire = [.syn 0 0, .synAck 10101 7 1] ++ .data 0 10101 1 1 :: [] := by
    decide
  have hack := (h _ _ hrun _ _ _ hwire 0 10101 1 1 rfl 0 7 ⟨[], [], [], rfl⟩).2
  exact absurd hack (by decide)

end DosKernel.Net
