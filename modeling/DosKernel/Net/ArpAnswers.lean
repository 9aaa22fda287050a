import DosKernel.Net.Arp

/-! What `arp_get_mac` answers. As long as the replies fit into the array, the list is only
appended to and searched from the front, so an address keeps the MAC of its first reply. -/

namespace DosKernel.Net

/-! ### The entries of the cache -/

/-- What a packet adds to the list. -/
def ArpPacket.answer (packet : ArpPacket) : Option ArpMap :=
  if packet.opcode = arpOpReply then some ⟨packet.senderIp, packet.senderMac⟩ else none

/-- The replies among some packets, in the order of their arrival. -/
def answers (packets : List ArpPacket) : List ArpMap := packets.filterMap ArpPacket.answer

def ArpCache.entries (s : ArpCache) : List ArpMap := (List.range s.currArp).map s.arpList

/-- The MAC of the first entry for an address. -/
def mapping (entries : List ArpMap) (ip : Ip) : Option Mac :=
  (entries.find? fun m => m.ip = ip).map ArpMap.mac

/-- The MAC of the last entry for an address. -/
def latestMapping (entries : List ArpMap) (ip : Ip) : Option Mac := mapping entries.reverse ip

theorem mapping_append (ms ns : List ArpMap) (ip : Ip) :
    mapping (ms ++ ns) ip = (mapping ms ip).or (mapping ns ip) := by
  unfold mapping
  rw [List.find?_append]
  cases ms.find? fun m => m.ip = ip <;> simp

theorem mapping_cons (m : ArpMap) (ms : List ArpMap) (ip : Ip) :
    mapping (m :: ms) ip = if m.ip = ip then some m.mac else mapping ms ip := by
  unfold mapping
  split_ifs with hip <;> simp [hip]

theorem answers_append (ps qs : List ArpPacket) : answers (ps ++ qs) = answers ps ++ answers qs :=
  List.filterMap_append

section Cache
variable (driver : Driver) (s : ArpCache) (ip : Ip)

@[simp] theorem entries_length : s.entries.length = s.currArp := by simp [ArpCache.entries]

theorem answers_length (packets : List ArpPacket) : (answers packets).length = replies packets := by
  induction packets with
  | nil => rfl
  | cons packet packets ih =>
    rw [← List.singleton_append, answers_append, replies_append, List.length_append, ih,
      replies_singleton]
    by_cases hreply : packet.opcode = arpOpReply <;> simp [answers, ArpPacket.answer, hreply]

/-- A reply that fits into the array is a new entry at its end. -/
theorem entries_reply (packet : ArpPacket) (hroom : s.currArp < arpListLength) :
    (arpProcessReply s packet).entries = s.entries ++ [⟨packet.senderIp, packet.senderMac⟩] := by
  have hsize : arpListLength < arpListSize := by decide
  rw [arpProcessReply, if_pos (hroom.trans hsize), ArpCache.push, if_pos hroom]
  simp only [ArpCache.entries, List.range_succ, List.map_append, List.map_singleton,
    Function.update_self]
  congr 1
  apply List.map_congr_left
  intro i hi
  exact Function.update_of_ne (List.mem_range.mp hi).ne _ _

theorem entries_receive (packet : ArpPacket) (hroom : s.currArp + replies [packet] ≤ arpListLength) :
    (arpReceivePacket driver s packet).1.entries = s.entries ++ answers [packet] := by
  rw [replies_singleton] at hroom
  unfold arpReceivePacket answers
  by_cases hreply : packet.opcode = arpOpReply
  · have hother : packet.opcode ≠ arpOpRequest := by
      rw [hreply]
      decide
    rw [if_pos hreply] at hroom
    rw [if_neg hother, if_pos hreply, entries_reply s packet hroom]
    simp [ArpPacket.answer, hreply]
  · have hanswer : [packet].filterMap ArpPacket.answer = [] := by simp [ArpPacket.answer, hreply]
    rw [if_neg hreply, hanswer, List.append_nil]
    split_ifs <;> rfl

/-- The replies among the packets are appended when all of them fit. -/
theorem entries_receiveAll (packets : List ArpPacket)
    (hroom : s.currArp + replies packets ≤ arpListLength) :
    (receiveAll driver s packets).entries = s.entries ++ answers packets := by
  induction packets generalizing s with
  | nil => simp [receiveAll, answers]
  | cons packet packets ih =>
    rw [← List.singleton_append, replies_append] at hroom
    have hfirst := entries_receive driver s packet (by omega)
    have hcurr := congrArg List.length hfirst
    rw [List.length_append, entries_length, entries_length, answers_length] at hcurr
    rw [← List.singleton_append, answers_append, ← List.append_assoc, ← hfirst]
    exact ih (arpReceivePacket driver s packet).1 (by omega)

theorem receiveAll_append (ps qs : List ArpPacket) :
    receiveAll driver s (ps ++ qs) = receiveAll driver (receiveAll driver s ps) qs :=
  List.foldl_append

/-- The list and the counter are the same; only what was read of them is not. -/
structure Same (s s' : ArpCache) : Prop where
  arpList : s'.arpList = s.arpList
  currArp : s'.currArp = s.currArp
  overrun : s'.overrun = s.overrun

theorem Same.refl : Same s s := ⟨rfl, rfl, rfl⟩

variable {s} in
theorem Same.trans {s' s'' : ArpCache} (h : Same s s') (h' : Same s' s'') : Same s s'' :=
  ⟨h'.arpList.trans h.arpList, h'.currArp.trans h.currArp, h'.overrun.trans h.overrun⟩

variable {s} in
theorem Same.entries {s' : ArpCache} (h : Same s s') : s'.entries = s.entries := by
  rw [ArpCache.entries, ArpCache.entries, h.arpList, h.currArp]

variable {s} in
theorem Same.receive {s' : ArpCache} (h : Same s s') (packet : ArpPacket) :
    Same (arpReceivePacket driver s packet).1 (arpReceivePacket driver s' packet).1 := by
  obtain ⟨arpList, currArp, log, overrun⟩ := s
  obtain ⟨arpList', currArp', log', overrun'⟩ := s'
  obtain ⟨hlist, hcurr, hover⟩ := h
  dsimp only at hlist hcurr hover
  subst hlist hcurr hover
  unfold arpReceivePacket arpProcessReply ArpCache.push
  split_ifs <;> exact ⟨rfl, rfl, rfl⟩

variable {s} in
theorem Same.receiveAll {s' : ArpCache} (h : Same s s') (packets : List ArpPacket) :
    Same (receiveAll driver s packets) (receiveAll driver s' packets) := by
  induction packets generalizing s s' with
  | nil => exact h
  | cons packet packets ih => exact ih (h.receive driver packet)

theorem lookup_same : Same s (lookup s ip).2 := ⟨rfl, rfl, rfl⟩

/-- The packets have been received, and the list was searched in between. -/
def After (packets : List ArpPacket) (s' : ArpCache) : Prop :=
  Same (receiveAll driver s packets) s'

variable {s driver} in
theorem After.append {s' : ArpCache} {ps : List ArpPacket} (h : After driver s ps s')
    (qs : List ArpPacket) : Same (receiveAll driver s (ps ++ qs)) (receiveAll driver s' qs) := by
  rw [receiveAll_append]
  exact Same.receiveAll driver h qs

variable {s driver} in
theorem After.trans {s' s'' : ArpCache} {ps qs : List ArpPacket} (h : After driver s ps s')
    (h' : After driver s' qs s'') : After driver s (ps ++ qs) s'' := (h.append qs).trans h'

theorem scan_eq (arpList : ℕ → ArpMap) (left i : ℕ) :
    (scan arpList ip left i).1 = mapping ((List.range left).map fun j => arpList (i + j)) ip := by
  induction left generalizing i with
  | zero => rfl
  | succ left ih =>
    rw [List.range_succ_eq_map, List.map_cons, List.map_map, mapping_cons, scan]
    dsimp only [Nat.add_zero]
    split_ifs with hip
    · rfl
    · have hshift : ((fun j => arpList (i + j)) ∘ Nat.succ) = fun j => arpList (i + 1 + j) := by
        funext j
        exact congrArg arpList (by omega)
      rw [hshift]
      exact ih (i + 1)

theorem lookup_eq : (lookup s ip).1 = mapping s.entries ip := by
  have hscan := scan_eq ip s.arpList s.currArp 0
  simp only [Nat.zero_add] at hscan
  exact hscan

@[simp] theorem lookup_entries : (lookup s ip).2.entries = s.entries := rfl

@[simp] theorem lookup_currArp : (lookup s ip).2.currArp = s.currArp := rfl

/-! ### The waits -/

/-- The entries after `k` of the rounds. -/
def known (rounds : List (List ArpPacket)) (k : ℕ) : List ArpMap :=
  (receiveAll driver s (rounds.take k).flatten).entries

/-- An address is in the cache after `k` rounds and was not before. -/
structure Learns (rounds : List (List ArpPacket)) (k : ℕ) : Prop where
  le : k ≤ rounds.length
  before : ∀ j < k, mapping (known driver s rounds j) ip = none
  found : mapping (known driver s rounds k) ip ≠ none

@[simp] theorem known_zero (rounds : List (List ArpPacket)) :
    known driver s rounds 0 = s.entries := by simp [known, receiveAll]

/-- The first round is received, and then the others. -/
theorem known_succ (round : List ArpPacket) (rounds : List (List ArpPacket)) (k : ℕ) :
    known driver s (round :: rounds) (k + 1) =
      known driver (receiveAll driver (lookup s ip).2 round) rounds k := by
  have hfirst : After driver s round (receiveAll driver (lookup s ip).2 round) :=
    (lookup_same s ip).receiveAll driver round
  unfold known
  rw [List.take_succ_cons, List.flatten_cons]
  exact (hfirst.append (rounds.take k).flatten).entries.symm

theorem arpGetMac_of_some {mac : Mac} (rounds : List (List ArpPacket))
    (h : mapping s.entries ip = some mac) :
    arpGetMac driver ip rounds s = (some mac, (lookup s ip).2, rounds) := by
  rw [← lookup_eq] at h
  simp only [arpGetMac, h]

theorem arpGetMac_nil (h : mapping s.entries ip = none) :
    arpGetMac driver ip [] s = (none, (lookup s ip).2, []) := by
  rw [← lookup_eq] at h
  simp only [arpGetMac, h, waitForMac]

/-- Not found: a round arrives, and the call is as one made after it. -/
theorem arpGetMac_cons (round : List ArpPacket) (rounds : List (List ArpPacket))
    (h : mapping s.entries ip = none) : arpGetMac driver ip (round :: rounds) s =
      arpGetMac driver ip rounds (receiveAll driver (lookup s ip).2 round) := by
  rw [← lookup_eq] at h
  simp only [arpGetMac, h, waitForMac]

/-- `arp_get_mac` answers in the first round after which the address is in the cache. -/
theorem arpGetMac_learns {rounds : List (List ArpPacket)} {k : ℕ}
    (h : Learns driver s ip rounds k) :
    ∃ s', arpGetMac driver ip rounds s = (mapping (known driver s rounds k) ip, s', rounds.drop k) ∧
      After driver s (rounds.take k).flatten s' := by
  induction k generalizing s rounds with
  | zero =>
    obtain ⟨mac, hmac⟩ := Option.ne_none_iff_exists'.mp h.found
    rw [known_zero] at hmac ⊢
    rw [hmac]
    exact ⟨_, arpGetMac_of_some driver s ip rounds hmac, lookup_same s ip⟩
  | succ k ih =>
    cases rounds with
    | nil => exact absurd h.le (Nat.not_succ_le_zero k)
    | cons round rounds =>
      have hnone := h.before 0 (Nat.succ_pos k)
      rw [known_zero] at hnone
      rw [arpGetMac_cons driver s ip round rounds hnone, known_succ driver s ip]
      have hrest : Learns driver (receiveAll driver (lookup s ip).2 round) ip rounds k := by
        constructor
        · exact Nat.succ_le_succ_iff.mp h.le
        · intro j hj
          rw [← known_succ]
          exact h.before (j + 1) (Nat.succ_lt_succ hj)
        · rw [← known_succ]
          exact h.found
      obtain ⟨s', heq, hs'⟩ := ih _ hrest
      exact ⟨s', heq, After.trans ((lookup_same s ip).receiveAll driver round) hs'⟩

theorem arpGetMac_fails {rounds : List (List ArpPacket)}
    (h : ∀ k ≤ rounds.length, mapping (known driver s rounds k) ip = none) :
    ∃ s', arpGetMac driver ip rounds s = (none, s', []) ∧ After driver s rounds.flatten s' := by
  induction rounds generalizing s with
  | nil =>
    have hnone := h 0 le_rfl
    rw [known_zero] at hnone
    exact ⟨_, arpGetMac_nil driver s ip hnone, lookup_same s ip⟩
  | cons round rounds ih =>
    have hnone := h 0 (Nat.zero_le _)
    rw [known_zero] at hnone
    rw [arpGetMac_cons driver s ip round rounds hnone]
    have hrest : ∀ k ≤ rounds.length,
        mapping (known driver (receiveAll driver (lookup s ip).2 round) rounds k) ip = none := by
      intro k hk
      rw [← known_succ]
      exact h (k + 1) (Nat.succ_le_succ hk)
    obtain ⟨s', heq, hs'⟩ := ih _ hrest
    exact ⟨s', heq, After.trans ((lookup_same s ip).receiveAll driver round) hs'⟩

theorem learns_or_fails (rounds : List (List ArpPacket)) :
    (∃ k, Learns driver s ip rounds k) ∨
      ∀ k ≤ rounds.length, mapping (known driver s rounds k) ip = none := by
  classical
  by_cases h : ∃ k, k ≤ rounds.length ∧ mapping (known driver s rounds k) ip ≠ none
  · left
    have hfirst := Nat.find_spec h
    refine ⟨Nat.find h, hfirst.1, fun j hj => ?_, hfirst.2⟩
    by_contra hfound
    exact Nat.find_min h hj ⟨hj.le.trans hfirst.1, hfound⟩
  · right
    intro k hk
    by_contra hfound
    exact h ⟨k, hk, hfound⟩

theorem Learns.unique {rounds : List (List ArpPacket)} {k l : ℕ}
    (hk : Learns driver s ip rounds k) (hl : Learns driver s ip rounds l) : k = l := by
  rcases Nat.lt_trichotomy k l with hlt | heq | hlt
  · exact absurd (hl.before k hlt) hk.found
  · exact heq
  · exact absurd (hk.before l hlt) hl.found

/-- After an event all its packets have been received. -/
theorem after_event (e : ArpEvent) : After driver s e.packets (e.run driver s) := by
  cases e with
  | arrival packet => exact Same.refl _
  | getMac ip rounds =>
    simp only [ArpEvent.run, ArpEvent.packets]
    rcases learns_or_fails driver s ip rounds with ⟨k, hk⟩ | hfails
    · obtain ⟨s', heq, hs'⟩ := arpGetMac_learns driver s ip hk
      have hall := hs'.append (rounds.drop k).flatten
      rw [← List.flatten_append, List.take_append_drop] at hall
      rw [heq]
      exact hall
    · obtain ⟨s', heq, hs'⟩ := arpGetMac_fails driver s ip hfails
      rw [heq]
      exact hs'

theorem after_runEvents (es : List ArpEvent) :
    After driver s (es.flatMap ArpEvent.packets) (runEvents driver s es) := by
  induction es generalizing s with
  | nil => exact Same.refl s
  | cons e es ih =>
    rw [List.flatMap_cons]
    exact (after_event driver s e).trans (ih _)

end Cache

/-! ### The latest reply -/

section Run
variable (driver : Driver) (es : List ArpEvent) (ip : Ip) (rounds : List (List ArpPacket))

/-- The replies of a run, and of the first `k` waits of a call after it. -/
def repliesBy (k : ℕ) : List ArpMap :=
  answers (es.flatMap ArpEvent.packets ++ (rounds.take k).flatten)

theorem repliesBy_mono {j k : ℕ} (h : j ≤ k) :
    (repliesBy es rounds j).length ≤ (repliesBy es rounds k).length := by
  obtain ⟨i, rfl⟩ := Nat.exists_eq_add_of_le h
  simp only [repliesBy, answers_append, List.length_append, List.take_add, List.flatten_append]
  omega

theorem known_run (overrun : Overrun) (k : ℕ) :
    known driver (runEvents driver (arpInit overrun) es) rounds k =
      (receiveAll driver (arpInit overrun)
        (es.flatMap ArpEvent.packets ++ (rounds.take k).flatten)).entries :=
  ((after_runEvents driver (arpInit overrun) es).append (rounds.take k).flatten).entries

/-- Up to ten replies are all in the list. -/
theorem known_run_of_le (overrun : Overrun) {k : ℕ}
    (h : (repliesBy es rounds k).length ≤ arpListLength) :
    known driver (runEvents driver (arpInit overrun) es) rounds k = repliesBy es rounds k := by
  rw [repliesBy, answers_length] at h
  have hempty : (arpInit overrun).currArp = 0 := rfl
  have hentries := entries_receiveAll driver (arpInit overrun)
    (es.flatMap ArpEvent.packets ++ (rounds.take k).flatten) (by omega)
  rw [known_run, hentries]
  rfl

/-- A store behind the array that leaves one entry, with another MAC. -/
def clobber (ip : Ip) (mac : Mac) : Overrun := fun _ _ _ => (fun _ => ⟨ip, mac⟩, 1)

/-- After `n` replies: more than ten leave the entry of `clobber` at the front. -/
structure Clobbered (mac : Mac) (n : ℕ) (s : ArpCache) : Prop where
  overrun : s.overrun = clobber ip mac
  curr : n ≤ arpListLength → s.currArp = n
  front : arpListLength < n → 0 < s.currArp ∧ s.arpList 0 = ⟨ip, mac⟩

variable {ip} in
theorem Clobbered.reply {mac : Mac} {n : ℕ} {s : ArpCache} (h : Clobbered ip mac n s)
    (packet : ArpPacket) : Clobbered ip mac (n + 1) (arpProcessReply s packet) := by
  have hsize : arpListLength < arpListSize := by decide
  have hpos : 0 < arpListLength := by decide
  rw [arpProcessReply]
  split_ifs with hroom
  · rw [ArpCache.push]
    split_ifs with hinside
    · refine ⟨h.overrun, fun hn => congrArg (· + 1) (h.curr (by omega)), fun hn => ?_⟩
      rcases Nat.lt_or_ge arpListLength n with hmore | hn'
      · obtain ⟨hfront, hentry⟩ := h.front hmore
        exact ⟨Nat.succ_pos _, (Function.update_of_ne hfront.ne _ _).trans hentry⟩
      · have hcurr := h.curr hn'
        omega
    · rw [h.overrun]
      refine ⟨rfl, fun hn => ?_, fun _ => ⟨Nat.one_pos, rfl⟩⟩
      have hcurr := h.curr (by omega)
      omega
  · refine ⟨h.overrun, fun hn => ?_, fun hn => ?_⟩
    · have hcurr := h.curr (by omega)
      omega
    · rcases Nat.lt_or_ge arpListLength n with hmore | hn'
      · exact h.front hmore
      · have hcurr := h.curr hn'
        omega

/-- More than ten replies can leave an address mapped to any MAC. -/
theorem known_clobbered (mac : Mac) {k : ℕ}
    (h : arpListLength < (repliesBy es rounds k).length) :
    mapping (known driver (runEvents driver (arpInit (clobber ip mac)) es) rounds k) ip =
      some mac := by
  rw [repliesBy, answers_length] at h
  have hstart : Clobbered ip mac 0 (arpInit (clobber ip mac)) :=
    ⟨rfl, fun _ => rfl, fun hn => absurd hn (Nat.not_lt_zero _)⟩
  have hall := counted_receiveAll driver (fun h packet => h.reply packet) hstart
    (es.flatMap ArpEvent.packets ++ (rounds.take k).flatten)
  rw [Nat.zero_add] at hall
  obtain ⟨hpos, hentry⟩ := hall.front h
  rw [known_run, ArpCache.entries, ← Nat.succ_pred_eq_of_pos hpos, List.range_succ_eq_map,
    List.map_cons, mapping_cons, hentry, if_pos rfl]

variable {es ip rounds}

/-- The first wait after which an address is known, with at most ten replies until then. -/
theorem learns_of_replies {k : ℕ} (overrun : Overrun) (hk : k ≤ rounds.length)
    (hfit : (repliesBy es rounds k).length ≤ arpListLength)
    (hbefore : ∀ j < k, mapping (repliesBy es rounds j) ip = none) {mac : Mac}
    (hmac : mapping (repliesBy es rounds k) ip = some mac) :
    Learns driver (runEvents driver (arpInit overrun) es) ip rounds k := by
  refine ⟨hk, fun j hj => ?_, ?_⟩
  · rw [known_run_of_le driver es rounds overrun ((repliesBy_mono es rounds hj.le).trans hfit)]
    exact hbefore j hj
  · rw [known_run_of_le driver es rounds overrun hfit, hmac]
    exact Option.some_ne_none mac

variable (es ip rounds)

theorem exists_ne_some_mac (answer : Option Mac) : ∃ mac : Mac, answer ≠ some mac := by
  by_contra hall
  push Not at hall
  have hzero := hall (Vector.replicate 6 0)
  rw [hall (Vector.replicate 6 1)] at hzero
  exact absurd hzero (by decide)

variable {es ip rounds} in
/-- If the first wait with more than ten replies comes before any answer, the call returns what a
store behind the array left. -/
theorem arpGetMac_clobbered (mac : Mac) {l : ℕ} (hl : l ≤ rounds.length)
    (hmore : arpListLength < (repliesBy es rounds l).length)
    (hfew : ∀ j < l, (repliesBy es rounds j).length ≤ arpListLength)
    (hbefore : ∀ j < l, mapping (repliesBy es rounds j) ip = none) :
    ∃ s', arpGetMac driver ip rounds (runEvents driver (arpInit (clobber ip mac)) es) =
      (some mac, s', rounds.drop l) := by
  have hknown := known_clobbered driver es ip rounds mac hmore
  have hlearns : Learns driver (runEvents driver (arpInit (clobber ip mac)) es) ip rounds l := by
    refine ⟨hl, fun j hj => ?_, by rw [hknown]; exact Option.some_ne_none mac⟩
    rw [known_run_of_le driver es rounds _ (hfew j hj)]
    exact hbefore j hj
  obtain ⟨s', heq, -⟩ := arpGetMac_learns driver _ ip hlearns
  rw [hknown] at heq
  exact ⟨s', heq⟩

variable {es ip rounds} in
/-- With at most ten replies in the waits without an answer, what the call knew before its answer
are the replies. -/
theorem Learns.mapping_before {overrun : Overrun} {k : ℕ}
    (hk : Learns driver (runEvents driver (arpInit overrun) es) ip rounds k)
    (hfit : ∀ j < k, (∀ i < j, mapping (repliesBy es rounds i) ip = none) →
      (repliesBy es rounds j).length ≤ arpListLength) :
    ∀ j < k, mapping (repliesBy es rounds j) ip = none := by
  intro j
  induction j using Nat.strong_induction_on with
  | _ j ih =>
    intro hj
    have hle := hfit j hj fun i hi => ih i hi (hi.trans hj)
    rw [← known_run_of_le driver es rounds overrun hle]
    exact hk.before j hj

/-- Whatever a store behind the array does, the answer of `arp_get_mac` is the MAC of the most
recent reply: this is so exactly when, up to the wait in which the first reply from the address
comes, at most ten replies come in all, and the first reply from the address has the MAC of the
most recent one at that moment. -/
theorem arpGetMac_latest_iff :
    (∀ overrun mac s' left,
      arpGetMac driver ip rounds (runEvents driver (arpInit overrun) es) = (some mac, s', left) →
      latestMapping (repliesBy es rounds (rounds.length - left.length)) ip = some mac) ↔
    ∀ k ≤ rounds.length, (∀ j < k, mapping (repliesBy es rounds j) ip = none) →
      (repliesBy es rounds k).length ≤ arpListLength ∧
      ∀ mac, mapping (repliesBy es rounds k) ip = some mac →
        latestMapping (repliesBy es rounds k) ip = some mac := by
  classical
  constructor
  · intro h k hk hbefore
    have hfit : (repliesBy es rounds k).length ≤ arpListLength := by
      by_contra hmore
      -- the first wait after which there are more than ten, and a MAC that is not the latest
      have hex : ∃ l, arpListLength < (repliesBy es rounds l).length := ⟨k, not_le.mp hmore⟩
      have hlk : Nat.find hex ≤ k := Nat.find_min' hex (not_le.mp hmore)
      obtain ⟨mac, hmac⟩ :=
        exists_ne_some_mac (latestMapping (repliesBy es rounds (Nat.find hex)) ip)
      obtain ⟨s', heq⟩ := arpGetMac_clobbered driver mac (hlk.trans hk) (Nat.find_spec hex)
        (fun j hj => not_lt.mp (Nat.find_min hex hj)) fun j hj => hbefore j (hj.trans_le hlk)
      have hlatest := h (clobber ip mac) mac s' _ heq
      rw [List.length_drop, Nat.sub_sub_self (hlk.trans hk)] at hlatest
      exact hmac hlatest
    refine ⟨hfit, fun mac hmac => ?_⟩
    obtain ⟨s', heq, -⟩ := arpGetMac_learns driver _ ip
      (learns_of_replies driver listGoesOn hk hfit hbefore hmac)
    rw [known_run_of_le driver es rounds listGoesOn hfit, hmac] at heq
    have hlatest := h listGoesOn mac s' _ heq
    rwa [List.length_drop, Nat.sub_sub_self hk] at hlatest
  · intro h overrun mac s' left heq
    rcases learns_or_fails driver (runEvents driver (arpInit overrun) es) ip rounds with
      ⟨k, hk⟩ | hfails
    · obtain ⟨s'', hanswer, -⟩ := arpGetMac_learns driver _ ip hk
      rw [hanswer, Prod.mk.injEq, Prod.mk.injEq] at heq
      obtain ⟨hmac, -, rfl⟩ := heq
      have hbefore := hk.mapping_before driver fun j hj hnone => (h j (hj.le.trans hk.le) hnone).1
      obtain ⟨hfit, hlatest⟩ := h k hk.le hbefore
      rw [known_run_of_le driver es rounds overrun hfit] at hmac
      rw [List.length_drop, Nat.sub_sub_self hk.le]
      exact hlatest mac hmac
    · obtain ⟨s'', hanswer, -⟩ := arpGetMac_fails driver _ ip hfails
      rw [hanswer] at heq
      exact absurd (Prod.mk.inj heq).1 (by simp)

end Run

/-- An address that moves to another card. -/
theorem arpGetMac_outdated :
    ¬ ∀ (driver : Driver) (es : List ArpEvent) (ip : Ip) (rounds : List (List ArpPacket)),
      ∀ overrun mac s' left,
        arpGetMac driver ip rounds (runEvents driver (arpInit overrun) es) = (some mac, s', left) →
        latestMapping (repliesBy es rounds (rounds.length - left.length)) ip = some mac := by
  intro h
  let ip : Ip := Vector.replicate 4 0
  have hmac := h ⟨ip, ip, ip⟩
    [.arrival ⟨2, Vector.replicate 6 1, ip, ip⟩, .arrival ⟨2, Vector.replicate 6 2, ip, ip⟩] ip []
    listGoesOn (Vector.replicate 6 1) _ [] rfl
  exact absurd hmac (by decide)

end DosKernel.Net
