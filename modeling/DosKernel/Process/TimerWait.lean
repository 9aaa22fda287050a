import DosKernel.Process.Timer

/-! `timer_wait`. The deadline is the counter plus a number of milliseconds, and the counter goes up
by 100 in the ten milliseconds between two interrupts. The comparison is unsigned: a deadline behind
the end of the counter has passed at once, and one just in front of the end can be stepped over, so
that the counter goes around before it is met. -/

namespace DosKernel

/-! ### The code -/

/-- The loop of `timer_wait` from halt `i` on, `n` interrupts of the timer after the start of the
kernel. A halt ends at an interrupt, which `timer` tells to be one of the timer or not. -/
def timerWaitFrom (calls : ℕ → Kernel × Registers) (timer : ℕ → Bool) (elapsedTicks : BitVec 32) :
    (fuel i n : ℕ) → Option ℕ
  | 0, _, _ => none
  | fuel + 1, i, n =>
    if timerTicks calls n < elapsedTicks then
      timerWaitFrom calls timer elapsedTicks fuel (i + 1) (if timer i then n + 1 else n)
    else some n

/-- `timer_wait`, called after `start` interrupts of the timer: the number of them when it returns. -/
def timerWait (calls : ℕ → Kernel × Registers) (timer : ℕ → Bool) (fuel start ms : ℕ) : Option ℕ :=
  timerWaitFrom calls timer (timerTicks calls start + BitVec.ofNat 32 ms) fuel 0 start

/-- The interrupts of the timer do not stop. -/
def KeepsTicking (timer : ℕ → Bool) : Prop := ∀ i, ∃ j, i ≤ j ∧ timer j = true

/-- The wait ends, and with an interrupt every ten milliseconds it has then lasted for `ms` of them. -/
def WaitsLongEnough (calls : ℕ → Kernel × Registers) (start ms : ℕ) : Prop :=
  ∀ timer, KeepsTicking timer →
    (∃ fuel n, timerWait calls timer fuel start ms = some n) ∧
      ∀ fuel n, timerWait calls timer fuel start ms = some n → ms ≤ 10 * (n - start)

/-- The interrupts that a deadline takes that the counter steps over before it goes around. -/
def interruptsAround (ms : ℕ) : ℕ := (ms - 1) / 100 + 42949673 * ((ms - 1) % 100 / 4 + 1)

/-- Nothing is to be waited for. Or the deadline is in front of the end of the counter, and either
one interrupt reaches it and is enough, or no interrupt reaches it before the counter goes around. -/
def DeadlineSuffices (ticks ms : ℕ) : Prop :=
  ms = 0 ∨
    if ticks + 100 * ((ms + 99) / 100) < word32 then ms ≤ 10
    else ticks + ms ≤ word32 - 4 ∧ ms ≤ 10 * interruptsAround ms

instance (ticks ms : ℕ) : Decidable (DeadlineSuffices ticks ms) := by
  unfold DeadlineSuffices
  infer_instance

/-! ### The loop -/

section Loop
variable {calls : ℕ → Kernel × Registers} {timer : ℕ → Bool} {deadline : BitVec 32}
  {fuel i n m : ℕ}

/-- The loop ends with the first interrupt after which the deadline has passed. -/
theorem timerWaitFrom_some (h : timerWaitFrom calls timer deadline fuel i n = some m) :
    n ≤ m ∧ ¬ timerTicks calls m < deadline ∧ ∀ k, n ≤ k → k < m → timerTicks calls k < deadline := by
  induction fuel generalizing i n with
  | zero => cases h
  | succ fuel ih =>
    rw [timerWaitFrom] at h
    split_ifs at h with hlt htimer
    · obtain ⟨hle, hend, hbefore⟩ := ih h
      refine ⟨by omega, hend, fun k hk hkm => ?_⟩
      rcases Nat.eq_or_lt_of_le hk with rfl | hk
      · exact hlt
      · exact hbefore k hk hkm
    · exact ih h
    · obtain rfl := Option.some.inj h
      exact ⟨le_rfl, hlt, fun k hk hkm => absurd hkm (Nat.not_lt.mpr hk)⟩

/-- A halt without an interrupt of the timer only takes time. -/
theorem timerWaitFrom_idle (d : ℕ) (hidle : ∀ j, i ≤ j → j < i + d → timer j = false)
    (hlt : timerTicks calls n < deadline) :
    timerWaitFrom calls timer deadline (fuel + d) i n =
      timerWaitFrom calls timer deadline fuel (i + d) n := by
  induction d generalizing i with
  | zero => rfl
  | succ d ih =>
    rw [← Nat.add_assoc, timerWaitFrom, if_pos hlt, hidle i le_rfl (by omega), if_neg (by decide),
      ih fun j hj hj' => hidle j (by omega) (by omega), Nat.add_right_comm i 1 d, Nat.add_assoc i d 1]

theorem timerWaitFrom_exists (htimer : KeepsTicking timer) (hle : n ≤ m)
    (hm : ¬ timerTicks calls m < deadline) :
    ∃ fuel k, timerWaitFrom calls timer deadline fuel i n = some k := by
  obtain ⟨d, rfl⟩ := Nat.exists_eq_add_of_le hle
  induction d generalizing i n with
  | zero => exact ⟨1, n, if_neg hm⟩
  | succ d ih =>
    by_cases hlt : timerTicks calls n < deadline
    · -- the first halt that the timer ends
      obtain ⟨j, ⟨hij, hj⟩, hfirst⟩ : ∃ j, (i ≤ j ∧ timer j = true) ∧
          ∀ k < j, ¬ (i ≤ k ∧ timer k = true) :=
        ⟨Nat.find (htimer i), Nat.find_spec (htimer i), fun k hk => Nat.find_min (htimer i) hk⟩
      obtain ⟨e, rfl⟩ := Nat.exists_eq_add_of_le hij
      have hnext : n + (d + 1) = n + 1 + d := by omega
      rw [hnext] at hm
      obtain ⟨fuel, k, hk⟩ := ih (i := i + e + 1) (by omega) hm
      refine ⟨fuel + 1 + e, k, ?_⟩
      rw [timerWaitFrom_idle e (fun k hik hk => ?_) hlt, timerWaitFrom, if_pos hlt, hj, if_pos rfl, hk]
      exact Bool.eq_false_iff.mpr fun htrue => hfirst k hk ⟨hik, htrue⟩
    · exact ⟨1, n, if_neg hlt⟩

/-- What a wait is, told by the first interrupt after which the deadline has passed. -/
theorem waitsLongEnough_of_first {start ms : ℕ} (hle : start ≤ m)
    (hm : ¬ timerTicks calls m < timerTicks calls start + BitVec.ofNat 32 ms)
    (hbefore : ∀ k, start ≤ k → k < m →
      timerTicks calls k < timerTicks calls start + BitVec.ofNat 32 ms) :
    WaitsLongEnough calls start ms ↔ ms ≤ 10 * (m - start) := by
  have hunique : ∀ timer fuel n, timerWait calls timer fuel start ms = some n → n = m := by
    intro timer fuel n hn
    obtain ⟨hstart, hend, hfirst⟩ := timerWaitFrom_some hn
    rcases Nat.lt_trichotomy n m with hlt | heq | hgt
    · exact absurd (hbefore n hstart hlt) hend
    · exact heq
    · exact absurd (hfirst m hle hgt) hm
  constructor
  · intro h
    have hticking : KeepsTicking fun _ => true := fun i => ⟨i, le_rfl, rfl⟩
    obtain ⟨⟨fuel, n, hn⟩, hlong⟩ := h _ hticking
    have := hlong fuel n hn
    rwa [hunique _ _ _ hn] at this
  · intro h timer htimer
    refine ⟨timerWaitFrom_exists htimer hle hm, fun fuel n hn => ?_⟩
    rwa [hunique _ _ _ hn]

/-- A deadline that no interrupt reaches is waited for without an end. -/
theorem not_waitsLongEnough_of_never {start ms : ℕ}
    (h : ∀ k, timerTicks calls k < timerTicks calls start + BitVec.ofNat 32 ms) :
    ¬ WaitsLongEnough calls start ms := by
  intro hwait
  obtain ⟨⟨fuel, n, hn⟩, -⟩ := hwait (fun _ => true) fun i => ⟨i, le_rfl, rfl⟩
  exact (timerWaitFrom_some hn).2.1 (h n)

end Loop

/-! ### The counter -/

section Counter
variable {calls : ℕ → Kernel × Registers} {start ms t n : ℕ}

theorem timerTicks_add (calls : ℕ → Kernel × Registers) (start n : ℕ) :
    (timerTicks calls (start + n)).toNat = ((timerTicks calls start).toNat + 100 * n) % word32 := by
  rw [timerTicks_eq, timerTicks_eq, BitVec.toNat_ofNat, BitVec.toNat_ofNat, Nat.mul_add]
  exact (Nat.mod_add_mod _ _ _).symm

theorem timerTicks_dvd (calls : ℕ → Kernel × Registers) (start : ℕ) :
    4 ∣ (timerTicks calls start).toNat := by
  rw [timerTicks_eq, BitVec.toNat_ofNat]
  omega

theorem before_deadline_iff (hms : ms < 2147483648) :
    timerTicks calls (start + n) < timerTicks calls start + BitVec.ofNat 32 ms ↔
      ((timerTicks calls start).toNat + 100 * n) % word32 <
        ((timerTicks calls start).toNat + ms) % word32 := by
  rw [BitVec.lt_def, timerTicks_add, BitVec.toNat_add, BitVec.toNat_ofNat,
    Nat.mod_eq_of_lt (show ms < 2 ^ 32 by omega)]
  rfl

/-- Until the counter goes around, it grows towards the deadline. -/
theorem before_deadline (hsum : t + ms < word32) (hn : 100 * n < ms) :
    (t + 100 * n) % word32 < (t + ms) % word32 := by
  rw [Nat.mod_eq_of_lt hsum, Nat.mod_eq_of_lt (by omega)]
  omega

/-- The places of the counter in front of the end: a counter that has stepped over a deadline there
comes 4 closer to the end each time that it goes around. -/
theorem around_lt (hpos : 0 < ms) (hsum : t + ms < word32)
    (hover : word32 ≤ t + 100 * ((ms + 99) / 100)) (hn : n < interruptsAround ms) :
    (t + 100 * n) % word32 < (t + ms) % word32 := by
  unfold interruptsAround at hn
  rw [Nat.mod_eq_of_lt hsum]
  have hdiv := Nat.div_add_mod (t + 100 * n) word32
  have hmod := Nat.mod_lt (t + 100 * n) (show 0 < word32 by decide)
  generalize (t + 100 * n) / word32 = q at hdiv
  generalize (t + 100 * n) % word32 = v at hdiv hmod
  by_contra hge
  unfold word32 at *
  have hrounds : q ≤ (ms - 1) % 100 / 4 := by omega
  obtain ⟨k, hk⟩ : ∃ k : ℤ, (n : ℤ) = k + 42949673 * q := ⟨n - 42949673 * q, by omega⟩
  omega

theorem around_ge (hpos : 0 < ms) (hdvd : 4 ∣ t) (hsum : t + ms ≤ word32 - 4) :
    ¬ (t + 100 * interruptsAround ms) % word32 < (t + ms) % word32 := by
  have hlast : t + 100 * interruptsAround ms =
      t + 100 * ((ms - 1) / 100) + 4 * ((ms - 1) % 100 / 4 + 1) +
        word32 * ((ms - 1) % 100 / 4 + 1) := by
    unfold interruptsAround word32
    omega
  unfold word32 at *
  rw [hlast, Nat.add_mul_mod_self_left, Nat.mod_eq_of_lt (by omega),
    Nat.mod_eq_of_lt (show t + ms < 4294967296 by omega)]
  omega

/-- The counter is a multiple of 4, so it never comes to the last three values. -/
theorem before_last_values (hms : ms < 2147483648)
    (hsum : (timerTicks calls start).toNat + ms < word32)
    (hlast : word32 - 4 < (timerTicks calls start).toNat + ms) :
    timerTicks calls n < timerTicks calls start + BitVec.ofNat 32 ms := by
  have hdvd := timerTicks_dvd calls n
  have hlt : (timerTicks calls n).toNat < word32 := (timerTicks calls n).isLt
  rw [BitVec.lt_def, BitVec.toNat_add, BitVec.toNat_ofNat,
    Nat.mod_eq_of_lt (show ms < 2 ^ 32 by omega)]
  change _ < (_ + ms) % word32
  rw [Nat.mod_eq_of_lt hsum]
  unfold word32 at *
  omega

/-- A wait is as long as the first interrupt says that leaves the deadline behind. -/
theorem waitsLongEnough_iff_first (hms : ms < 2147483648)
    (hend : ¬ ((timerTicks calls start).toNat + 100 * n) % word32 <
      ((timerTicks calls start).toNat + ms) % word32)
    (hbefore : ∀ k < n, ((timerTicks calls start).toNat + 100 * k) % word32 <
      ((timerTicks calls start).toNat + ms) % word32) :
    WaitsLongEnough calls start ms ↔ ms ≤ 10 * n := by
  have hsub : start + n - start = n := Nat.add_sub_cancel_left _ _
  rw [waitsLongEnough_of_first (Nat.le_add_right start n), hsub]
  · rwa [before_deadline_iff hms]
  · intro k hk hkn
    obtain ⟨j, rfl⟩ := Nat.exists_eq_add_of_le hk
    exact (before_deadline_iff hms).mpr (hbefore j (by omega))

/-- Nothing is waited for when the deadline has passed at once. -/
theorem waitsLongEnough_passed (hms : ms < 2147483648)
    (hend : ¬ (timerTicks calls start).toNat <
      ((timerTicks calls start).toNat + ms) % word32) :
    WaitsLongEnough calls start ms ↔ ms = 0 := by
  have hlt : (timerTicks calls start).toNat < word32 := (timerTicks calls start).isLt
  rw [waitsLongEnough_iff_first (n := 0) hms, Nat.mul_zero, Nat.le_zero]
  · rwa [Nat.mul_zero, Nat.add_zero, Nat.mod_eq_of_lt hlt]
  · exact fun k hk => absurd hk (Nat.not_lt_zero k)

/-- A hundredth of the milliseconds, and not a tenth, are the interrupts that are waited for. -/
theorem waitsLongEnough_reached (hms : ms < 2147483648)
    (hreach : (timerTicks calls start).toNat + 100 * ((ms + 99) / 100) < word32) :
    WaitsLongEnough calls start ms ↔ ms ≤ 10 := by
  rw [waitsLongEnough_iff_first (n := (ms + 99) / 100) hms]
  · constructor <;> intro <;> omega
  · rw [Nat.mod_eq_of_lt hreach, Nat.mod_eq_of_lt (by omega)]
    omega
  · exact fun k hk => before_deadline (by omega) (by omega)

theorem waitsLongEnough_around (hms : ms < 2147483648) (hpos : 0 < ms)
    (hover : word32 ≤ (timerTicks calls start).toNat + 100 * ((ms + 99) / 100))
    (hsum : (timerTicks calls start).toNat + ms < word32) :
    WaitsLongEnough calls start ms ↔
      (timerTicks calls start).toNat + ms ≤ word32 - 4 ∧ ms ≤ 10 * interruptsAround ms := by
  by_cases hlast : (timerTicks calls start).toNat + ms ≤ word32 - 4
  · rw [and_iff_right hlast]
    exact waitsLongEnough_iff_first hms (around_ge hpos (timerTicks_dvd calls start) hlast)
      fun k hk => around_lt hpos hsum hover hk
  · refine iff_of_false (not_waitsLongEnough_of_never fun k => ?_) fun h => hlast h.1
    exact before_last_values hms hsum (Nat.not_le.mp hlast)

end Counter

/-- A wait lasts for as long as it should exactly if the deadline suffices. -/
theorem timerWait_iff (calls : ℕ → Kernel × Registers) (start ms : ℕ) (hms : ms < 2147483648) :
    WaitsLongEnough calls start ms ↔ DeadlineSuffices (timerTicks calls start).toNat ms := by
  have hlt : (timerTicks calls start).toNat < word32 := (timerTicks calls start).isLt
  unfold DeadlineSuffices
  rcases Nat.eq_zero_or_pos ms with rfl | hpos
  · have hend : ¬ (timerTicks calls start).toNat < ((timerTicks calls start).toNat + 0) % word32 := by
      rw [Nat.add_zero, Nat.mod_eq_of_lt hlt]
      exact lt_irrefl _
    exact iff_of_true ((waitsLongEnough_passed hms hend).mpr rfl) (.inl rfl)
  · rw [or_iff_right (Nat.pos_iff_ne_zero.mp hpos)]
    split_ifs with hreach
    · exact waitsLongEnough_reached hms hreach
    · rw [Nat.not_lt] at hreach
      rcases Nat.lt_or_ge ((timerTicks calls start).toNat + ms) word32 with hsum | hsum
      · exact waitsLongEnough_around hms hpos hreach hsum
      · -- the deadline is behind the end of the counter
        have hend : ¬ (timerTicks calls start).toNat <
            ((timerTicks calls start).toNat + ms) % word32 := by
          unfold word32 at *
          omega
        rw [waitsLongEnough_passed hms hend]
        exact iff_of_false (by omega) fun h => by unfold word32 at *; omega

theorem timerWait_iff_ten : WaitsLongEnough (fun _ => (twoProcesses, .zero)) 0 10 :=
  (timerWait_iff _ 0 10 (by decide)).mpr (by decide)

/-- A second is over after the tenth interrupt, a tenth of a second after the call. -/
theorem second_too_short : ¬ ∀ (calls : ℕ → Kernel × Registers) (start ms : ℕ), ms < 2147483648 →
    WaitsLongEnough calls start ms := by
  intro h
  have hticks :
      (timerTicks (fun _ => (twoProcesses, .zero)) 0).toNat + 100 * ((1000 + 99) / 100) < word32 := by
    decide
  have hwait := (waitsLongEnough_reached (by decide) hticks).mp (h _ 0 1000 (by decide))
  exact absurd hwait (by decide)

end DosKernel
