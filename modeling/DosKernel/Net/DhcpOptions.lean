import DosKernel.Lib.Reading
import DosKernel.Net.Dhcp

/-! The two loops over the options of a DHCP reply, with what they read. Both take every code but
255 for one with a length byte, the pad 0 as well, and both read a code before they compare its
place with the end of the array. -/

namespace DosKernel.Net

open Lib Reading

/-! ### The code -/

/-- The loop over the options, as both functions have it. Its body says whether it goes on. -/
def optionLoop {σ : Type} (options : ℕ → UInt8) (body : ℕ → σ → Reading (Bool × σ)) :
    (fuel op : ℕ) → σ → Reading σ
  | 0, _, s => pure s
  | fuel + 1, op, s => do
    let code ← touch (options op) op 1
    if code = dhcpOptionEnd then pure s
    else if 312 ≤ op then pure s
    else do
      let r ← body op s
      if r.1 then do
        let length ← touch (options (op + 1)) (op + 1) 1
        optionLoop options body fuel (op + (length.toNat + 2)) r.2
      else pure r.2

/-- The codes whose four bytes `dhcp_process_ack` takes. -/
def ackKnows (code : UInt8) : Bool :=
  code = dhcpOptionSubnetMask ∨ code = dhcpOptionRouter ∨ code = dhcpOptionDnsServer ∨
    code = dhcpOptionLeaseTime

/-- `op[2]` to `op[5]` are read for a code that is known. -/
def readValue (options : ℕ → UInt8) (op : ℕ) : Reading Unit :=
  if ackKnows (options op) then touch () (op + 2) 4 else pure ()

/-- The body of the loop in `dhcp_process_ack`. -/
def ackBody (options : ℕ → UInt8) (op : ℕ) (c : Ipv4Config) : Reading (Bool × Ipv4Config) := do
  readValue options op
  pure (true, applyOption options c op)

/-- `dhcp_process_ack`, with its reads of the options. -/
def dhcpProcessAckReading (c : Ipv4Config) (packet : DhcpPacket) : Reading Ipv4Config :=
  optionLoop packet.options (ackBody packet.options) 157 0
    { c with ip := packet.yiaddr, gateway := packet.giaddr }

/-- The message type at a place, if the listener acts on it. -/
def messageAt (options : ℕ → UInt8) (op : ℕ) : Option DhcpMessage :=
  if options op = dhcpOptionMessageType then
    if options (op + 2) = dhcpOpOffer then some .offer
    else if options (op + 2) = dhcpOpAck then some .ack
    else none
  else none

/-- `op[2]` is read for a message type. -/
def readMessage (options : ℕ → UInt8) (op : ℕ) : Reading Unit :=
  if options op = dhcpOptionMessageType then touch () (op + 2) 1 else pure ()

/-- The body of the loop in `dhcp_udp_listener`. -/
def listenerBody (options : ℕ → UInt8) (op : ℕ) (s : Option DhcpMessage) :
    Reading (Bool × Option DhcpMessage) := do
  readMessage options op
  pure ((messageAt options op).isNone, (messageAt options op).or s)

/-- The loop of `dhcp_udp_listener`, with its reads of the options. -/
def dhcpMessageReading (packet : DhcpPacket) : Reading (Option DhcpMessage) :=
  if packet.op = dhcpBootOpReply then
    optionLoop packet.options (listenerBody packet.options) 157 0 none
  else pure none

/-! ### What the options are -/

/-- The options of RFC 2132 from a place on: 0 is a pad of one byte, 255 the end, and any other
code is followed by a length byte and that many bytes. The walk is over at an option that
`stop` holds of. -/
def rfcOptions (options : ℕ → UInt8) (stop : ℕ → Bool) (op : ℕ) : List ℕ :=
  if 312 ≤ op then []
  else if options op = dhcpOptionEnd then []
  else if options op = 0 then rfcOptions options stop (op + 1)
  else if stop op then [op]
  else op :: rfcOptions options stop (op + ((options (op + 1)).toNat + 2))
termination_by 312 - op

/-- The places that a loop gives to its body. -/
def walked (options : ℕ → UInt8) (stop : ℕ → Bool) : (fuel op : ℕ) → List ℕ
  | 0, _ => []
  | fuel + 1, op =>
    if options op = dhcpOptionEnd then []
    else if 312 ≤ op then []
    else if stop op then [op]
    else op :: walked options stop fuel (op + ((options (op + 1)).toNat + 2))

/-- What a body does: where it stops, and how many bytes of an option the pass over it reads. -/
structure BodyReads {σ : Type} (options : ℕ → UInt8) (body : ℕ → σ → Reading (Bool × σ))
    (stop : ℕ → Bool) (needs : ℕ → ℕ) : Prop where
  stops : ∀ op s, (body op s).value.1 = !stop op
  inside : ∀ op s n, op < n → ((body op s).Inside n ∧ (stop op = false → op + 2 ≤ n) ↔
    op + needs op ≤ n)
  pad : ∀ op, options op = 0 → stop op = false ∧ needs op = 2

/-- From a place on there are only codes 0, each at the place that the byte behind the last one
leads to, and an end inside the array. -/
inductive QuietFrom (options : ℕ → UInt8) : ℕ → Prop
  | ends {op : ℕ} (hop : op < 312) (hend : options op = dhcpOptionEnd) : QuietFrom options op
  | pad {op : ℕ} (hop : op + 2 ≤ 312) (hpad : options op = 0)
      (hrest : QuietFrom options (op + ((options (op + 1)).toNat + 2))) : QuietFrom options op

/-- From a place on the options end inside the array, each of them has inside the array what is
read of it, and the pads come in pairs, but for one before the end. -/
inductive PairedPads (options : ℕ → UInt8) (stop : ℕ → Bool) (needs : ℕ → ℕ) : ℕ → Prop
  | ends {op : ℕ} (hop : op < 312) (hend : options op = dhcpOptionEnd) :
      PairedPads options stop needs op
  | stops {op : ℕ} (hop : op < 312) (hneeds : op + needs op ≤ 312) (hend : options op ≠ dhcpOptionEnd)
      (hcode : options op ≠ 0) (hstop : stop op = true) : PairedPads options stop needs op
  | option {op : ℕ} (hop : op < 312) (hneeds : op + needs op ≤ 312)
      (hend : options op ≠ dhcpOptionEnd) (hcode : options op ≠ 0) (hstop : stop op = false)
      (hrest : PairedPads options stop needs (op + ((options (op + 1)).toNat + 2))) :
      PairedPads options stop needs op
  | pads {op : ℕ} (hop : op + 2 ≤ 312) (hpad : options op = 0) (hsecond : options (op + 1) = 0)
      (hrest : PairedPads options stop needs (op + 2)) : PairedPads options stop needs op
  | lastPad {op : ℕ} (hop : op + 2 ≤ 312) (hpad : options op = 0)
      (hsecond : options (op + 1) = dhcpOptionEnd) (hrest : QuietFrom options (op + 257)) :
      PairedPads options stop needs op

/-! ### The loops -/

section Loop
variable {σ : Type} {options : ℕ → UInt8} {body : ℕ → σ → Reading (Bool × σ)} {stop : ℕ → Bool}
  {needs : ℕ → ℕ}

/-- A pass of the loop, and the reads of the others. -/
theorem optionLoop_inside (hbody : BodyReads options body stop needs) (fuel op : ℕ) (s : σ) :
    ∃ s', (optionLoop options body (fuel + 1) op s).Inside 312 ↔
      op < 312 ∧ (options op ≠ dhcpOptionEnd → op + needs op ≤ 312 ∧
        (stop op = false →
          (optionLoop options body fuel (op + ((options (op + 1)).toNat + 2)) s').Inside 312)) := by
  refine ⟨(body op s).value.2, ?_⟩
  have hstops := hbody.stops op s
  rw [optionLoop]
  simp only [inside_bind, inside_touch, inside_ite, inside_pure, hstops, implies_true, and_true,
    true_and, Bool.not_eq_true', Nat.succ_le_iff]
  constructor
  · rintro ⟨hop, hrest⟩
    refine ⟨hop, fun hend => ?_⟩
    obtain ⟨hinside, hnext⟩ := hrest hend (Nat.not_le.mpr hop)
    have hneeds := (hbody.inside op s 312 hop).mp
      ⟨hinside, fun hstop => Nat.succ_le_of_lt (hnext hstop).1⟩
    exact ⟨hneeds, fun hstop => (hnext hstop).2⟩
  · rintro ⟨hop, hrest⟩
    refine ⟨hop, fun hend _ => ?_⟩
    obtain ⟨hneeds, hnext⟩ := hrest hend
    obtain ⟨hinside, htwo⟩ := (hbody.inside op s 312 hop).mpr hneeds
    exact ⟨hinside, fun hstop => ⟨Nat.lt_of_succ_le (htwo hstop), hnext hstop⟩⟩

theorem walked_ge (options : ℕ → UInt8) (stop : ℕ → Bool) (fuel op : ℕ) :
    ∀ p ∈ walked options stop fuel op, op ≤ p := by
  induction fuel generalizing op with
  | zero => exact fun p hp => absurd hp List.not_mem_nil
  | succ fuel ih =>
    intro p hp
    rw [walked] at hp
    split_ifs at hp
    · exact absurd hp List.not_mem_nil
    · exact absurd hp List.not_mem_nil
    · exact (List.mem_singleton.mp hp).ge
    · rcases List.mem_cons.mp hp with rfl | hp
      · exact le_rfl
      · have hge := ih _ p hp
        omega

theorem rfcOptions_option {op : ℕ} (hop : op < 312) (hend : options op ≠ dhcpOptionEnd)
    (hcode : options op ≠ 0) : rfcOptions options stop op =
      if stop op then [op] else op :: rfcOptions options stop (op + ((options (op + 1)).toNat + 2)) := by
  rw [rfcOptions, if_neg (Nat.not_le.mpr hop), if_neg hend, if_neg hcode]

theorem rfcOptions_end {op : ℕ} (hend : options op = dhcpOptionEnd) :
    rfcOptions options stop op = [] := by
  rw [rfcOptions, if_pos hend, ite_self]

theorem rfcOptions_pad {op : ℕ} (hop : op < 312) (hpad : options op = 0) :
    rfcOptions options stop op = rfcOptions options stop (op + 1) := by
  have hend : options op ≠ dhcpOptionEnd := by
    rw [hpad]
    decide
  rw [rfcOptions, if_neg (Nat.not_le.mpr hop), if_neg hend, if_pos hpad]

theorem quietFrom_end_iff {op : ℕ} (hend : options op = dhcpOptionEnd) :
    QuietFrom options op ↔ op < 312 := by
  constructor
  · intro hquiet
    cases hquiet with
    | ends hop => exact hop
    | pad hop => omega
  · exact fun hop => .ends hop hend

theorem quietFrom_pad_iff {op : ℕ} (hpad : options op = 0) : QuietFrom options op ↔
    op + 2 ≤ 312 ∧ QuietFrom options (op + ((options (op + 1)).toNat + 2)) := by
  constructor
  · intro hquiet
    cases hquiet with
    | ends hop hend => exact absurd (hpad.symm.trans hend) (by decide)
    | pad hop _ hrest => exact ⟨hop, hrest⟩
  · rintro ⟨hop, hrest⟩
    exact .pad hop hpad hrest

/-- A pass over a pad, of which the body reads no more than code and length. -/
theorem walked_pad {fuel op : ℕ} (hop : op < 312) (hpad : options op = 0) (hstop : stop op = false) :
    (walked options stop (fuel + 1) op).filter (fun p => options p ≠ 0) =
      (walked options stop fuel (op + ((options (op + 1)).toNat + 2))).filter fun p => options p ≠ 0 := by
  have hend : options op ≠ dhcpOptionEnd := by
    rw [hpad]
    decide
  rw [walked, if_neg hend, if_neg (Nat.not_le.mpr hop), hstop]
  exact List.filter_cons_of_neg (by simp [hpad])

theorem walked_option {fuel op : ℕ} (hop : op < 312) (hend : options op ≠ dhcpOptionEnd)
    (hcode : options op ≠ 0) : (walked options stop (fuel + 1) op).filter (fun p => options p ≠ 0) =
      op :: if stop op then [] else
        (walked options stop fuel (op + ((options (op + 1)).toNat + 2))).filter fun p => options p ≠ 0 := by
  rw [walked, if_neg hend, if_neg (Nat.not_le.mpr hop)]
  split_ifs
  · exact List.filter_cons_of_pos (by simpa using hcode)
  · exact List.filter_cons_of_pos (by simpa using hcode)

/-- A loop that reads inside the array and sees no option. -/
theorem optionLoop_quiet_iff (hbody : BodyReads options body stop needs) {fuel op : ℕ} {s : σ}
    (hpos : 0 < fuel) (hfuel : 314 ≤ op + 2 * fuel) :
    (optionLoop options body fuel op s).Inside 312 ∧
        (walked options stop fuel op).filter (fun p => options p ≠ 0) = [] ↔
      QuietFrom options op := by
  induction fuel generalizing op s with
  | zero => exact absurd hpos (lt_irrefl 0)
  | succ fuel ih =>
    obtain ⟨s', hinside⟩ := optionLoop_inside hbody fuel op s
    rw [hinside]
    by_cases hend : options op = dhcpOptionEnd
    · rw [quietFrom_end_iff hend, walked, if_pos hend]
      simp only [hend, List.filter_nil, and_true, not_true_eq_false, ne_eq, false_implies]
    by_cases hpad : options op = 0
    · obtain ⟨hstop, hneeds⟩ := hbody.pad op hpad
      simp only [quietFrom_pad_iff hpad, hstop, hneeds, forall_const]
      constructor
      · rintro ⟨⟨hop, hrest⟩, hnone⟩
        obtain ⟨htwo, hnext⟩ := hrest hend
        rw [walked_pad hop hpad hstop] at hnone
        exact ⟨htwo, (ih (by omega) (by omega)).mp ⟨hnext, hnone⟩⟩
      · rintro ⟨htwo, hrest⟩
        obtain ⟨hnext, hnone⟩ := (ih (by omega) (by omega)).mpr hrest
        rw [walked_pad (by omega) hpad hstop]
        exact ⟨⟨by omega, fun _ => ⟨htwo, hnext⟩⟩, hnone⟩
    · constructor
      · rintro ⟨⟨hop, -⟩, hnone⟩
        rw [walked_option hop hend hpad] at hnone
        exact absurd hnone (List.cons_ne_nil _ _)
      · intro hquiet
        cases hquiet with
        | ends hop hend' => exact absurd hend' hend
        | pad htwo hpad' => exact absurd hpad' hpad

/-- A loop takes the option behind a single pad for the length of the pad, and passes it over. -/
theorem pad_before_option {fuel op next : ℕ} (hop : op + 1 < 312) (hend : options (op + 1) ≠ dhcpOptionEnd)
    (hcode : options (op + 1) ≠ 0) (hnext : op + 2 ≤ next) :
    (walked options stop fuel next).filter (fun p => options p ≠ 0) ≠
      rfcOptions options stop (op + 1) := by
  intro heq
  have hmem : op + 1 ∈ rfcOptions options stop (op + 1) := by
    rw [rfcOptions_option hop hend hcode]
    split_ifs <;> simp
  rw [← heq] at hmem
  have hge := walked_ge options stop fuel next (op + 1) (List.mem_of_mem_filter hmem)
  omega

theorem pairedPads_end_iff {op : ℕ} (hend : options op = dhcpOptionEnd) :
    PairedPads options stop needs op ↔ op < 312 := by
  constructor
  · intro hpaired
    cases hpaired <;> omega
  · exact fun hop => .ends hop hend

theorem pairedPads_pad_iff {op : ℕ} (hpad : options op = 0) : PairedPads options stop needs op ↔
    op + 2 ≤ 312 ∧ (options (op + 1) = 0 ∧ PairedPads options stop needs (op + 2) ∨
      options (op + 1) = dhcpOptionEnd ∧ QuietFrom options (op + 257)) := by
  constructor
  · intro hpaired
    cases hpaired with
    | ends hop hend => exact absurd (hpad.symm.trans hend) (by decide)
    | stops hop hneeds hend hcode => exact absurd hpad hcode
    | option hop hneeds hend hcode => exact absurd hpad hcode
    | pads hop _ hsecond hrest => exact ⟨hop, .inl ⟨hsecond, hrest⟩⟩
    | lastPad hop _ hsecond hrest => exact ⟨hop, .inr ⟨hsecond, hrest⟩⟩
  · rintro ⟨hop, ⟨hsecond, hrest⟩ | ⟨hsecond, hrest⟩⟩
    · exact .pads hop hpad hsecond hrest
    · exact .lastPad hop hpad hsecond hrest

theorem pairedPads_option_iff {op : ℕ} (hend : options op ≠ dhcpOptionEnd) (hcode : options op ≠ 0) :
    PairedPads options stop needs op ↔ op < 312 ∧ op + needs op ≤ 312 ∧
      (stop op = false → PairedPads options stop needs (op + ((options (op + 1)).toNat + 2))) := by
  constructor
  · intro hpaired
    cases hpaired with
    | ends hop hend' => exact absurd hend' hend
    | stops hop hneeds _ _ hstop => exact ⟨hop, hneeds, fun hgoes => by simp [hstop] at hgoes⟩
    | option hop hneeds _ _ hstop hrest => exact ⟨hop, hneeds, fun _ => hrest⟩
    | pads hop hpad => exact absurd hpad hcode
    | lastPad hop hpad => exact absurd hpad hcode
  · rintro ⟨hop, hneeds, hrest⟩
    by_cases hstop : stop op = true
    · exact .stops hop hneeds hend hcode hstop
    · have hgoes : stop op = false := Bool.eq_false_iff.mpr hstop
      exact .option hop hneeds hend hcode hgoes (hrest hgoes)

/-- A loop that reads inside the array and sees the options of RFC 2132. -/
theorem optionLoop_paired_iff (hbody : BodyReads options body stop needs) {fuel op : ℕ} {s : σ}
    (hpos : 0 < fuel) (hfuel : 314 ≤ op + 2 * fuel) :
    (optionLoop options body fuel op s).Inside 312 ∧
        (walked options stop fuel op).filter (fun p => options p ≠ 0) = rfcOptions options stop op ↔
      PairedPads options stop needs op := by
  induction fuel generalizing op s with
  | zero => exact absurd hpos (lt_irrefl 0)
  | succ fuel ih =>
    obtain ⟨s', hinside⟩ := optionLoop_inside hbody fuel op s
    rw [hinside]
    by_cases hend : options op = dhcpOptionEnd
    · rw [pairedPads_end_iff hend, rfcOptions_end hend, walked, if_pos hend]
      simp only [hend, List.filter_nil, and_true, not_true_eq_false, ne_eq, false_implies]
    by_cases hpad : options op = 0
    · obtain ⟨hstop, hneeds⟩ := hbody.pad op hpad
      simp only [pairedPads_pad_iff hpad, hstop, hneeds, forall_const]
      have hzero : op + ((0 : UInt8).toNat + 2) = op + 2 := rfl
      have hlast : op + (dhcpOptionEnd.toNat + 2) = op + 257 := rfl
      constructor
      · rintro ⟨⟨hop, hrest⟩, heq⟩
        obtain ⟨htwo, hnext⟩ := hrest hend
        rw [walked_pad hop hpad hstop, rfcOptions_pad hop hpad] at heq
        refine ⟨htwo, ?_⟩
        by_cases hsecond : options (op + 1) = 0
        · rw [rfcOptions_pad (by omega) hsecond, hsecond, hzero] at heq
          rw [hsecond, hzero] at hnext
          exact .inl ⟨hsecond, (ih (by omega) (by omega)).mp ⟨hnext, heq⟩⟩
        · by_cases hsecondEnd : options (op + 1) = dhcpOptionEnd
          · rw [rfcOptions_end hsecondEnd, hsecondEnd, hlast] at heq
            rw [hsecondEnd, hlast] at hnext
            exact .inr ⟨hsecondEnd, (optionLoop_quiet_iff hbody (by omega) (by omega)).mp ⟨hnext, heq⟩⟩
          · exact absurd heq (pad_before_option (by omega) hsecondEnd hsecond (by omega))
      · rintro ⟨htwo, ⟨hsecond, hrest⟩ | ⟨hsecond, hrest⟩⟩
        · obtain ⟨hnext, heq⟩ := (ih (by omega) (by omega)).mpr hrest
          rw [walked_pad (by omega) hpad hstop, rfcOptions_pad (by omega) hpad,
            rfcOptions_pad (by omega) hsecond, hsecond, hzero]
          exact ⟨⟨by omega, fun _ => ⟨htwo, hnext⟩⟩, heq⟩
        · obtain ⟨hnext, heq⟩ :=
            (optionLoop_quiet_iff hbody (show 0 < fuel by omega) (by omega)).mpr hrest
          rw [walked_pad (by omega) hpad hstop, rfcOptions_pad (by omega) hpad, rfcOptions_end hsecond,
            hsecond, hlast]
          exact ⟨⟨by omega, fun _ => ⟨htwo, hnext⟩⟩, heq⟩
    · rw [pairedPads_option_iff hend hpad]
      by_cases hop : op < 312
      · rw [walked_option hop hend hpad, rfcOptions_option hop hend hpad]
        by_cases hstop : stop op = true
        · simp only [hstop, if_true, and_true, hop, true_and, hend, ne_eq, not_false_eq_true,
            forall_const, Bool.true_eq_false, false_implies]
        · have hgoes : stop op = false := Bool.eq_false_iff.mpr hstop
          simp only [hgoes, Bool.false_eq_true, if_false, List.cons.injEq, true_and, forall_const]
          constructor
          · rintro ⟨⟨-, hrest⟩, heq⟩
            obtain ⟨hneeds, hnext⟩ := hrest hend
            have htwo := ((hbody.inside op s 312 hop).mpr hneeds).2 hgoes
            exact ⟨hop, hneeds, (ih (by omega) (by omega)).mp ⟨hnext, heq⟩⟩
          · rintro ⟨-, hneeds, hrest⟩
            have htwo := ((hbody.inside op s 312 hop).mpr hneeds).2 hgoes
            obtain ⟨hnext, heq⟩ := (ih (by omega) (by omega)).mpr hrest
            exact ⟨⟨hop, fun _ => ⟨hneeds, hnext⟩⟩, heq⟩
      · exact iff_of_false (fun h => hop h.1.1) fun h => hop h.1

end Loop

/-! ### The two functions -/

section Functions
variable (options : ℕ → UInt8)

def listenerStops (op : ℕ) : Bool := (messageAt options op).isSome

/-- The bytes from an option on that the listener reads. -/
def listenerNeeds (op : ℕ) : ℕ := if options op = dhcpOptionMessageType then 3 else 2

/-- The bytes from an option on that `dhcp_process_ack` reads. -/
def ackNeeds (op : ℕ) : ℕ := if ackKnows (options op) then 6 else 2

theorem ackBody_reads : BodyReads options (ackBody options) (fun _ => false) (ackNeeds options) := by
  constructor
  · intro op c
    rfl
  · intro op c n hop
    unfold ackBody readValue ackNeeds
    by_cases hknown : ackKnows (options op) = true
    · simp only [inside_bind, inside_touch, inside_pure, hknown, if_true, forall_const, and_true]
      omega
    · simp only [inside_bind, inside_pure, hknown, forall_const, and_true, true_and,
        Bool.false_eq_true, if_false]
  · intro op hpad
    rw [ackNeeds, hpad]
    exact ⟨rfl, rfl⟩

theorem listenerBody_reads :
    BodyReads options (listenerBody options) (listenerStops options) (listenerNeeds options) := by
  constructor
  · intro op s
    exact (Option.not_isSome (messageAt options op)).symm
  · intro op s n hop
    unfold listenerBody readMessage listenerNeeds listenerStops
    by_cases htype : options op = dhcpOptionMessageType
    · simp only [inside_bind, inside_touch, inside_pure, htype, if_true, and_true]
      omega
    · simp only [inside_bind, inside_pure, htype, messageAt, if_false, forall_const, and_true,
        true_and, Option.isSome_none]
  · intro op hpad
    have htype : options op ≠ dhcpOptionMessageType := by
      rw [hpad]
      decide
    rw [listenerStops, listenerNeeds, messageAt, if_neg htype, if_neg htype]
    exact ⟨rfl, rfl⟩

theorem optionLoop_ack (fuel op : ℕ) (c : Ipv4Config) :
    (optionLoop options (ackBody options) fuel op c).value =
      (optionPlaces options fuel op).foldl (applyOption options) c := by
  induction fuel generalizing op c with
  | zero => rfl
  | succ fuel ih =>
    rw [optionLoop, optionPlaces, value_bind]
    split_ifs
    · rfl
    · rfl
    · rw [List.foldl_cons, ← ih]
      rfl

theorem optionLoop_listener (fuel op : ℕ) :
    (optionLoop options (listenerBody options) fuel op none).value =
      (optionPlaces options fuel op).findSome? (messageAt options) := by
  induction fuel generalizing op with
  | zero => rfl
  | succ fuel ih =>
    rw [optionLoop, optionPlaces, value_bind]
    split_ifs
    · rfl
    · rfl
    · rw [List.findSome?_cons, ← ih, value_bind]
      have hbody : (listenerBody options op none).value =
          ((messageAt options op).isNone, messageAt options op) := by
        exact congrArg (Prod.mk _) Option.or_none
      rw [hbody]
      cases messageAt options op <;> rfl

end Functions

/-- The results are those of the functions. -/
theorem dhcpProcessAckReading_value (c : Ipv4Config) (packet : DhcpPacket) :
    (dhcpProcessAckReading c packet).value = dhcpProcessAck c packet := optionLoop_ack _ _ _ _

theorem dhcpMessageReading_value (packet : DhcpPacket) :
    (dhcpMessageReading packet).value = dhcpMessage packet := by
  unfold dhcpMessageReading dhcpMessage
  split_ifs
  · exact optionLoop_listener _ _ _
  · rfl

/-- The listener reads inside the options, and those that it looks at are the ones of RFC 2132,
up to the message that it takes. -/
def ListenerFollowsRfc (packet : DhcpPacket) : Prop :=
  (dhcpMessageReading packet).Inside 312 ∧
    (walked packet.options (listenerStops packet.options) 157 0).filter
        (fun op => packet.options op ≠ 0) =
      rfcOptions packet.options (listenerStops packet.options) 0

/-- `dhcp_process_ack` reads inside the options, and those that it looks at are the ones of
RFC 2132. -/
def AckFollowsRfc (c : Ipv4Config) (packet : DhcpPacket) : Prop :=
  (dhcpProcessAckReading c packet).Inside 312 ∧
    (walked packet.options (fun _ => false) 157 0).filter (fun op => packet.options op ≠ 0) =
      rfcOptions packet.options (fun _ => false) 0

/-- The two functions follow RFC 2132 exactly when the options end inside the array, have what is
read of them inside it, and pads come in pairs, but for one before the end. -/
theorem dhcp_options_iff (c : Ipv4Config) (packet : DhcpPacket) (hreply : packet.op = dhcpBootOpReply) :
    (ListenerFollowsRfc packet ↔ PairedPads packet.options (listenerStops packet.options)
      (listenerNeeds packet.options) 0) ∧
    (AckFollowsRfc c packet ↔ PairedPads packet.options (fun _ => false)
      (ackNeeds packet.options) 0) := by
  constructor
  · unfold ListenerFollowsRfc dhcpMessageReading
    rw [if_pos hreply]
    exact optionLoop_paired_iff (listenerBody_reads packet.options) (by decide) (by decide)
  · exact optionLoop_paired_iff (ackBody_reads packet.options) (by decide) (by decide)

def paddedOffer : DhcpPacket where
  op := dhcpBootOpReply
  xid := dhcpXid
  yiaddr := Vector.replicate 4 10
  siaddr := Vector.replicate 4 10
  giaddr := Vector.replicate 4 0
  options op := [0, 0x35, 1, 2, 0xff].getD op 0

def unconfigured : Ipv4Config :=
  ⟨Vector.replicate 4 0, Vector.replicate 4 0, Vector.replicate 4 0, Vector.replicate 4 0, 0⟩

theorem dhcp_options_iff_paddedOffer : paddedOffer.op = dhcpBootOpReply ∧
    (ListenerFollowsRfc paddedOffer ↔ PairedPads paddedOffer.options
      (listenerStops paddedOffer.options) (listenerNeeds paddedOffer.options) 0) :=
  ⟨rfl, (dhcp_options_iff unconfigured paddedOffer rfl).1⟩

theorem offer_behind_pad :
    ¬ ∀ (c : Ipv4Config) (packet : DhcpPacket), packet.op = dhcpBootOpReply →
      ListenerFollowsRfc packet ∧ AckFollowsRfc c packet := by
  intro h
  have hack := (h unconfigured paddedOffer rfl).2
  have hpaired := (optionLoop_paired_iff (ackBody_reads paddedOffer.options) (by decide)
    (by decide)).mp hack
  cases hpaired with
  | ends hop hend => exact absurd hend (by decide)
  | stops hop hneeds hend hcode => exact hcode rfl
  | option hop hneeds hend hcode => exact hcode rfl
  | pads hop hpad hsecond => exact absurd hsecond (by decide)
  | lastPad hop hpad hsecond => exact absurd hsecond (by decide)

end DosKernel.Net
