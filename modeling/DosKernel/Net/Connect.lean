import DosKernel.Lib.History
import DosKernel.Lib.Runs
import DosKernel.Net.Receive

/-! Opening TCP connections. `tcp_syn` appends an entry for its local port to
`tcp_syn_cache`, sends the SYN and then looks again and again for a marked entry with that
port; a received SYN-ACK marks the first entry with its port. Calls run at the same time,
and segments arrive between any two of their steps. -/

namespace DosKernel.Net

open Lib

/-- `tcp_syn_cache_entry`. -/
structure SynEntry where
  port : ℕ
  syn : Bool
  ack : ℕ

def tcpSynCacheSize : ℕ := 16

/-- Where a call of `tcp_syn` is: its entry is in the cache, or `tcp_send_packet` is over,
which may have failed to find the hardware address. -/
inductive Phase
  | registered
  | waiting (sent : Bool)
  deriving DecidableEq

/-- What happened: the SYN of a call was sent, a SYN-ACK arrived for a port, or a call
with a port returned, with the acknowledgement number if it returned `true`. -/
inductive TcpEvent
  | syn (id : ℕ)
  | synAck (port : ℕ)
  | returned (id port : ℕ) (ack : Option ℕ)
  deriving DecidableEq

/-- `tcp_syn_cache` and `curr_tcp_syn`, the calls of `tcp_syn` in progress under the number
of their entry, each with its port, and a log of what happened and of the indices used. -/
structure Tcp where
  tcpSynCache : ℕ → SynEntry
  currTcpSyn : ℕ
  calls : ℕ → Option (ℕ × Phase)
  history : List TcpEvent
  log : List ℕ

/-! ### The code -/

/-- The loop over the first `n` entries, left at the first one that qualifies, and the
indices read. -/
def search (n : ℕ) (p : ℕ → Bool) : Option ℕ × List ℕ :=
  let hit := (List.range n).find? p
  (hit, (List.range n).take (hit.elim n (· + 1)))

/-- The first lines of `tcp_syn`. -/
def tcpSynRegister (s : Tcp) (port : ℕ) : Tcp :=
  { s with
    tcpSynCache := Function.update s.tcpSynCache s.currTcpSyn ⟨port, false, 0⟩
    currTcpSyn := s.currTcpSyn + 1
    calls := Function.update s.calls s.currTcpSyn (some (port, .registered))
    log := s.log ++ [s.currTcpSyn] }

/-- The call of `tcp_send_packet` in `tcp_syn`. -/
def tcpSynSend (s : Tcp) (id port : ℕ) (sent : Bool) : Tcp :=
  { s with
    calls := Function.update s.calls id (some (port, .waiting sent))
    history := if sent then s.history ++ [.syn id] else s.history }

def tcpSynReturn (s : Tcp) (id port : ℕ) (ack : Option ℕ) : Tcp :=
  { s with
    calls := Function.update s.calls id none
    history := s.history ++ [.returned id port ack] }

/-- One pass of the loop in `tcp_syn`, after a wait. -/
def tcpSynPoll (s : Tcp) (id port : ℕ) : Tcp :=
  let r := search s.currTcpSyn fun i => (s.tcpSynCache i).port = port ∧ (s.tcpSynCache i).syn
  let s' := { s with log := s.log ++ r.2 }
  match r.1 with
  | some i => tcpSynReturn s' id port (some (s.tcpSynCache i).ack)
  | none => s'

/-- The loops of `tcp_receive_packet` over the cache: the first entry with the port is
changed. -/
def changeFirst (s : Tcp) (port : ℕ) (syn : Bool) (ack : ℕ) : Tcp :=
  let r := search s.currTcpSyn fun i => (s.tcpSynCache i).port = port
  let s' := { s with log := s.log ++ r.2 }
  match r.1 with
  | some i =>
    { s' with
      tcpSynCache :=
        Function.update s.tcpSynCache i { s.tcpSynCache i with syn := syn, ack := ack } }
  | none => s'

/-- What a received frame does to the cache. -/
def tcpReceive (s : Tcp) : Verdict → Tcp
  | .synAck port ack =>
    { changeFirst s port true ack with history := s.history ++ [.synAck port] }
  | .segment port true => changeFirst s port false 0
  | _ => s

/-- A call begins, its SYN is sent or not, a frame arrives, a call looks for its entry,
or its time is over. -/
inductive TcpOp
  | start (port : ℕ)
  | send (id : ℕ) (sent : Bool)
  | receive (verdict : Verdict)
  | poll (id : ℕ)
  | timeout (id : ℕ)

/-- The steps; a call takes those of its phase. -/
def Tcp.step (s : Tcp) : TcpOp → Option Tcp
  | .start port => some (tcpSynRegister s port)
  | .send id sent =>
    match s.calls id with
    | some (port, .registered) => some (tcpSynSend s id port sent)
    | _ => none
  | .receive verdict => some (tcpReceive s verdict)
  | .poll id =>
    match s.calls id with
    | some (port, .waiting _) => some (tcpSynPoll s id port)
    | _ => none
  | .timeout id =>
    match s.calls id with
    | some (port, .waiting _) => some (tcpSynReturn s id port none)
    | _ => none

/-- The state after `tcp_init`. -/
def tcpInit : Tcp := ⟨fun _ => ⟨0, false, 0⟩, 0, fun _ => none, [], []⟩

/-! ### Truthful calls -/

/-- A SYN-ACK for the port came after the SYN of the call. -/
def Answered (id port : ℕ) (history : List TcpEvent) : Prop :=
  ∃ as bs cs, history = as ++ .syn id :: (bs ++ .synAck port :: cs)

/-- Every call that returned `true` had been answered. -/
def Truthful (history : List TcpEvent) : Prop :=
  ∀ pre post id port ack, history = pre ++ .returned id port (some ack) :: post →
    Answered id port pre

def Tcp.Marked (s : Tcp) (port : ℕ) : Prop :=
  ∃ i < s.currTcpSyn, (s.tcpSynCache i).port = port ∧ (s.tcpSynCache i).syn = true

/-- A call begins while there is room in the cache, no entry with its port is marked when
its SYN is due, and no SYN-ACK arrives for a port with a waiting call whose SYN was not
sent. -/
def Orderly (s : Tcp) : TcpOp → Prop
  | .start _ => s.currTcpSyn < tcpSynCacheSize
  | .send id _ => ∀ port phase, s.calls id = some (port, phase) → ¬ s.Marked port
  | .receive (.synAck port _) => ∀ id sent, s.calls id = some (port, .waiting sent) → sent = true
  | _ => True

section History
variable {history : List TcpEvent} {id port : ℕ}

theorem answered_iff : Answered id port history ↔ Precedes (.syn id) (.synAck port) history :=
  Iff.rfl

theorem Answered.append (h : Answered id port history) (es : List TcpEvent) :
    Answered id port (history ++ es) :=
  Precedes.append (answered_iff.mp h) es

theorem answered_of_mem (h : TcpEvent.syn id ∈ history) (port : ℕ) :
    Answered id port (history ++ [.synAck port]) :=
  answered_iff.mpr (precedes_concat.mpr (.inr ⟨h, rfl⟩))

theorem truthful_iff : Truthful history ↔ EachEvent (fun before e =>
    ∀ id port ack, e = .returned id port (some ack) → Answered id port before) history := by
  constructor
  · rintro h pre post e hsplit id port ack rfl
    exact h pre post id port ack hsplit
  · intro h pre post id port ack hsplit
    exact h pre post _ hsplit id port ack rfl

theorem Truthful.concat (h : Truthful history) {e : TcpEvent}
    (he : ∀ id port ack, e = .returned id port (some ack) → Answered id port history) :
    Truthful (history ++ [e]) :=
  truthful_iff.mpr (eachEvent_concat.mpr ⟨truthful_iff.mp h, he⟩)

end History

theorem search_log_lt {n i : ℕ} {p : ℕ → Bool} (h : i ∈ (search n p).2) : i < n :=
  List.mem_range.mp (List.mem_of_mem_take h)

theorem search_hit {n i : ℕ} {p : ℕ → Bool} (h : (search n p).1 = some i) :
    i < n ∧ p i = true :=
  ⟨List.mem_range.mp (List.mem_of_find?_eq_some h), List.find?_some h⟩

/-- A call that begins is not waiting yet. -/
theorem tcpSynRegister_waiting {s : Tcp} {port id p : ℕ} {sent : Bool}
    (h : (tcpSynRegister s port).calls id = some (p, .waiting sent)) :
    s.calls id = some (p, .waiting sent) := by
  rcases eq_or_ne id s.currTcpSyn with rfl | hid
  · simp [tcpSynRegister] at h
  · simpa only [tcpSynRegister, Function.update_of_ne hid] using h

/-- The search is logged, and the first entry with the port is changed, if there is one. -/
theorem changeFirst_spec (s : Tcp) (port : ℕ) (syn : Bool) (ack : ℕ) :
    ∃ cache, changeFirst s port syn ack = { s with
        tcpSynCache := cache
        log := s.log ++ (search s.currTcpSyn fun i => (s.tcpSynCache i).port = port).2 } ∧
      ∀ i, cache i = s.tcpSynCache i ∨
        (s.tcpSynCache i).port = port ∧ cache i = ⟨port, syn, ack⟩ := by
  rw [changeFirst]
  dsimp only
  split
  · rename_i i hi
    have hport : (s.tcpSynCache i).port = port := by simpa using (search_hit hi).2
    refine ⟨_, rfl, fun j => ?_⟩
    rcases eq_or_ne j i with rfl | hne
    · refine .inr ⟨hport, ?_⟩
      simp only [Function.update_self, hport]
    · exact .inl (Function.update_of_ne hne ..)
  · exact ⟨s.tcpSynCache, rfl, fun _ => .inl rfl⟩

/-! ### Runs -/

/-- What holds in orderly runs: the indices are inside the cache, the calls that returned
were truthful, and a waiting call with a marked port is answered. -/
structure Steady (s : Tcp) : Prop where
  curr : s.currTcpSyn ≤ tcpSynCacheSize
  log : ∀ i ∈ s.log, i < tcpSynCacheSize
  truthful : Truthful s.history
  sent : ∀ id port, s.calls id = some (port, .waiting true) → .syn id ∈ s.history
  answered : ∀ id port sent, s.calls id = some (port, .waiting sent) → s.Marked port →
    Answered id port s.history

theorem steady_init : Steady tcpInit := by
  refine ⟨Nat.zero_le _, by simp [tcpInit], ?_, by simp [tcpInit], by simp [tcpInit]⟩
  exact truthful_iff.mpr (eachEvent_nil _)

section Steady
variable {s : Tcp}

theorem Steady.log_search (h : Steady s) (p : ℕ → Bool) :
    ∀ i ∈ s.log ++ (search s.currTcpSyn p).2, i < tcpSynCacheSize := by
  intro i hi
  rcases List.mem_append.mp hi with hi | hi
  · exact h.log i hi
  · exact (search_log_lt hi).trans_le h.curr

theorem Steady.register (h : Steady s) (port : ℕ) (hroom : s.currTcpSyn < tcpSynCacheSize) :
    Steady (tcpSynRegister s port) := by
  have hmarked : ∀ p, (tcpSynRegister s port).Marked p → s.Marked p := by
    rintro p ⟨i, hi, hport, hsyn⟩
    rcases eq_or_ne i s.currTcpSyn with rfl | hne
    · simp [tcpSynRegister] at hsyn
    · simp only [tcpSynRegister, Function.update_of_ne hne] at hi hport hsyn
      exact ⟨i, by omega, hport, hsyn⟩
  refine ⟨hroom, ?_, h.truthful, fun id p hcall => h.sent id p (tcpSynRegister_waiting hcall),
    fun id p sent hcall hm => h.answered id p sent (tcpSynRegister_waiting hcall) (hmarked p hm)⟩
  intro i hi
  rcases List.mem_append.mp hi with hi | hi
  · exact h.log i hi
  · rw [List.mem_singleton.mp hi]
    exact hroom

theorem Steady.send (h : Steady s) {id port : ℕ} (sent : Bool) (hclear : ¬ s.Marked port) :
    Steady (tcpSynSend s id port sent) := by
  have hhistory : ∃ es, (tcpSynSend s id port sent).history = s.history ++ es := by
    cases sent with
    | false => exact ⟨[], (List.append_nil _).symm⟩
    | true => exact ⟨[.syn id], rfl⟩
  obtain ⟨es, hes⟩ := hhistory
  refine ⟨h.curr, h.log, ?_, fun id' p hcall => ?_, fun id' p sent' hcall hm => ?_⟩
  · cases sent with
    | false => exact h.truthful
    | true => exact h.truthful.concat fun _ _ _ he => by cases he
  · rcases eq_or_ne id' id with rfl | hid
    · simp only [tcpSynSend, Function.update_self, Option.some.injEq, Prod.mk.injEq,
        Phase.waiting.injEq] at hcall
      obtain ⟨-, rfl⟩ := hcall
      exact List.mem_append_right _ (List.mem_singleton_self _)
    · simp only [tcpSynSend, Function.update_of_ne hid] at hcall
      rw [hes]
      exact List.mem_append_left _ (h.sent id' p hcall)
  · rcases eq_or_ne id' id with rfl | hid
    · simp only [tcpSynSend, Function.update_self, Option.some.injEq, Prod.mk.injEq] at hcall
      exact absurd (hcall.1 ▸ hm) hclear
    · simp only [tcpSynSend, Function.update_of_ne hid] at hcall
      rw [hes]
      exact (h.answered id' p sent' hcall hm).append es

/-- A call that returns `true` was answered. -/
theorem Steady.returned (h : Steady s) (id port : ℕ) (ack : Option ℕ)
    (hack : ack.isSome → Answered id port s.history) : Steady (tcpSynReturn s id port ack) := by
  have hcalls : ∀ id' p sent, (tcpSynReturn s id port ack).calls id' = some (p, .waiting sent) →
      s.calls id' = some (p, .waiting sent) := by
    intro id' p sent hcall
    rcases eq_or_ne id' id with rfl | hid
    · simp [tcpSynReturn] at hcall
    · simpa only [tcpSynReturn, Function.update_of_ne hid] using hcall
  refine ⟨h.curr, h.log, ?_, fun id' p hcall => ?_, fun id' p sent hcall hm => ?_⟩
  · refine h.truthful.concat fun id' port' ack' he => ?_
    obtain ⟨rfl, rfl, rfl⟩ := TcpEvent.returned.inj he
    exact hack rfl
  · exact List.mem_append_left _ (h.sent id' p (hcalls id' p true hcall))
  · exact (h.answered id' p sent (hcalls id' p sent hcall) hm).append _

theorem Steady.poll (h : Steady s) {id port : ℕ} {sent : Bool}
    (hcall : s.calls id = some (port, .waiting sent)) : Steady (tcpSynPoll s id port) := by
  have hlogged : Steady { s with log := s.log ++ (search s.currTcpSyn fun i =>
      (s.tcpSynCache i).port = port ∧ (s.tcpSynCache i).syn).2 } :=
    ⟨h.curr, h.log_search _, h.truthful, h.sent, h.answered⟩
  rw [tcpSynPoll]
  split
  · rename_i i hi
    obtain ⟨hlt, hentry⟩ := search_hit hi
    refine hlogged.returned id port _ fun _ => h.answered id port sent hcall ⟨i, hlt, ?_⟩
    simpa using hentry
  · exact hlogged

/-- The search stays inside the cache, and only an entry with the port is newly marked. -/
theorem Steady.change (h : Steady s) (port : ℕ) (syn : Bool) (ack : ℕ) :
    ∃ cache log, changeFirst s port syn ack = { s with tcpSynCache := cache, log := log } ∧
      (∀ i ∈ log, i < tcpSynCacheSize) ∧
      ∀ p, Tcp.Marked { s with tcpSynCache := cache, log := log } p →
        s.Marked p ∨ (p = port ∧ syn = true) := by
  obtain ⟨cache, heq, hcache⟩ := changeFirst_spec s port syn ack
  refine ⟨cache, _, heq, h.log_search _, ?_⟩
  rintro p ⟨i, hi, hp, hsyn⟩
  rcases hcache i with hsame | ⟨-, hentry⟩
  · simp only [hsame] at hp hsyn
    exact .inl ⟨i, hi, hp, hsyn⟩
  · simp only [hentry] at hp hsyn
    exact .inr ⟨hp.symm, hsyn⟩

theorem Steady.receive (h : Steady s) (verdict : Verdict)
    (horderly : Orderly s (.receive verdict)) : Steady (tcpReceive s verdict) := by
  cases verdict with
  | synAck port ack =>
    obtain ⟨cache, log, heq, hlog, hmarked⟩ := h.change port true ack
    rw [tcpReceive, heq]
    refine ⟨h.curr, hlog, ?_, fun id p hcall => ?_, fun id p sent hcall hm => ?_⟩
    · exact h.truthful.concat fun _ _ _ he => by cases he
    · exact List.mem_append_left _ (h.sent id p hcall)
    · rcases hmarked p hm with hold | ⟨rfl, -⟩
      · exact (h.answered id p sent hcall hold).append _
      · -- every call that waits on the port has sent its SYN
        obtain rfl := horderly id sent hcall
        exact answered_of_mem (h.sent id p hcall) p
  | segment port fin =>
    cases fin with
    | false => exact h
    | true =>
      obtain ⟨cache, log, heq, hlog, hmarked⟩ := h.change port false 0
      rw [tcpReceive, heq]
      refine ⟨h.curr, hlog, h.truthful, h.sent, fun id p sent hcall hm => ?_⟩
      rcases hmarked p hm with hold | ⟨-, hfalse⟩
      · exact h.answered id p sent hcall hold
      · cases hfalse
  | ignored => exact h
  | arp => exact h
  | badChecksum => exact h
  | udp port => exact h

theorem Steady.step (h : Steady s) {o : TcpOp} (horderly : Orderly s o) {s' : Tcp}
    (hs : s.step o = some s') : Steady s' := by
  cases o with
  | start port =>
    obtain rfl := Option.some.inj hs
    exact h.register port horderly
  | send id sent =>
    rw [Tcp.step] at hs
    split at hs
    · rename_i port hcall
      obtain rfl := Option.some.inj hs
      exact h.send sent (horderly port _ hcall)
    · cases hs
  | receive verdict =>
    obtain rfl := Option.some.inj hs
    exact h.receive verdict horderly
  | poll id =>
    rw [Tcp.step] at hs
    split at hs
    · rename_i port sent hcall
      obtain rfl := Option.some.inj hs
      exact h.poll hcall
    · cases hs
  | timeout id =>
    rw [Tcp.step] at hs
    split at hs
    · rename_i port sent hcall
      obtain rfl := Option.some.inj hs
      exact h.returned id port none (by simp)
    · cases hs

end Steady

/-- In every orderly run a call returns `true` only after a SYN-ACK for its port that came
after its own SYN, and every index used is inside the cache. -/
theorem connect_truthful {os : List TcpOp} {t : Tcp} (h : Run Tcp.step Orderly tcpInit os t) :
    Truthful t.history ∧ ∀ i ∈ t.log, i < tcpSynCacheSize := by
  have hsteady : Steady t := h.invariant (fun _ _ _ hs ho hstep => hs.step ho hstep) steady_init
  exact ⟨hsteady.truthful, hsteady.log⟩

/-- The state of a call on port 1000 when its SYN is out, and when a SYN-ACK has come. -/
def connecting : Tcp := tcpSynSend (tcpSynRegister tcpInit 1000) 0 1000 true

def connected : Tcp := tcpReceive connecting (.synAck 1000 7)

/-- A call whose SYN-ACK arrives in time returns `true`. -/
theorem connect_truthful_once :
    (tcpSynPoll connected 0 1000).history =
      [.syn 0, .synAck 1000, .returned 0 1000 (some 7)] ∧
    Truthful (tcpSynPoll connected 0 1000).history := by
  have hrun : Run Tcp.step Orderly tcpInit
      [.start 1000, .send 0 true, .receive (.synAck 1000 7), .poll 0]
      (tcpSynPoll connected 0 1000) := by
    refine .cons (show 0 < 16 by decide) rfl (.cons ?_ rfl (.cons ?_ rfl (.cons trivial rfl (.nil _))))
    · rintro port phase - ⟨i, hi, -, hsyn⟩
      obtain rfl : i = 0 := by
        simp only [tcpSynRegister, tcpInit] at hi
        omega
      simp [tcpSynRegister, tcpInit] at hsyn
    · intro id sent hcall
      rcases eq_or_ne id 0 with rfl | hid
      · simpa [tcpSynSend, eq_comm] using hcall
      · simp [tcpSynSend, tcpSynRegister, tcpInit, hid] at hcall
  exact ⟨by decide, (connect_truthful hrun).1⟩

/-- A second call on the port finds the mark of the first one, right after its SYN. -/
theorem connect_stale :
    ¬ ∀ (os : List TcpOp) (t : Tcp), Run Tcp.step Anything tcpInit os t →
      Truthful t.history ∧ ∀ i ∈ t.log, i < tcpSynCacheSize := by
  intro h
  have hrun : Run Tcp.step Anything tcpInit
      [.start 1000, .send 0 true, .receive (.synAck 1000 7), .poll 0,
        .start 1000, .send 1 true, .poll 1]
      (tcpSynPoll (tcpSynSend (tcpSynRegister (tcpSynPoll connected 0 1000) 1000) 1 1000 true) 1
        1000) := by
    exact .cons trivial rfl (.cons trivial rfl (.cons trivial rfl (.cons trivial rfl
      (.cons trivial rfl (.cons trivial rfl (.cons trivial rfl (.nil _)))))))
  have htruthful := (h _ _ hrun).1
  have hhistory : (tcpSynPoll (tcpSynSend (tcpSynRegister (tcpSynPoll connected 0 1000) 1000) 1
      1000 true) 1 1000).history = [.syn 0, .synAck 1000, .returned 0 1000 (some 7), .syn 1] ++
        .returned 1 1000 (some 7) :: [] := by decide
  obtain ⟨as, bs, cs, hpre⟩ := htruthful _ _ 1 1000 7 hhistory
  -- the SYN of the second call is the last event before the return
  match as, hpre with
  | [], hpre => simp at hpre
  | [_], hpre => simp at hpre
  | [_, _], hpre => simp at hpre
  | [_, _, _], hpre => simp at hpre
  | _ :: _ :: _ :: _ :: _, hpre => simp at hpre

end DosKernel.Net
