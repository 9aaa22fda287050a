import DosKernel.Process.Switching

/-! The timer interrupt. `timer_ticks` is a signed 32-bit counter that goes up by 100;
the processes are switched when it is a multiple of 1000. As 1000 does not divide `2^32`,
the multiples are missed from the first wrap of the counter until it comes back to
where it began, after `2^30` interrupts. -/

namespace DosKernel

/-- The test of `timer_irq_handler`, made on the counter it has incremented. -/
def callsRoundRobin (ticks : BitVec 32) : Bool := ticks.toInt.tmod 1000 = 0

/-- `timer_irq_handler`: the counter, and what `process_round_robin` does if it is
called. -/
def timerIrqHandler (ticks : BitVec 32) (k : Kernel) (r : Registers) :
    BitVec 32 × Kernel × Registers :=
  let ticks := ticks + 100
  (ticks, if callsRoundRobin ticks then processRoundRobin k r else (k, r))

/-- The counter after `n` interrupts, each in any state of the kernel. -/
def timerTicks (calls : ℕ → Kernel × Registers) : ℕ → BitVec 32
  | 0 => 0
  | n + 1 => (timerIrqHandler (timerTicks calls n) (calls n).1 (calls n).2).1

theorem timerTicks_eq (calls : ℕ → Kernel × Registers) (n : ℕ) :
    timerTicks calls n = BitVec.ofNat 32 (100 * n) := by
  induction n with
  | zero => rfl
  | succ n ih =>
    rw [timerTicks, timerIrqHandler, ih, show 100 * (n + 1) = 100 * n + 100 by omega,
      BitVec.ofNat_add]
    rfl

/-- The `n`-th interrupt switches when `n`, counted from the nearest multiple of `2^30`,
is a multiple of 10 and not too far from it. -/
theorem callsRoundRobin_timerTicks (calls : ℕ → Kernel × Registers) (n : ℕ) :
    callsRoundRobin (timerTicks calls n) = true ↔
      n % 1073741824 ≤ 21474836 ∧ n % 1073741824 % 10 = 0 ∨
      1052266988 ≤ n % 1073741824 ∧ n % 1073741824 % 10 = 4 := by
  have hsigned : ∃ w : ℤ, (timerTicks calls n).toInt = 100 * (n : ℤ) - 4294967296 * w ∧
      -2147483648 ≤ (timerTicks calls n).toInt ∧ (timerTicks calls n).toInt < 2147483648 := by
    rw [timerTicks_eq, BitVec.toInt_ofNat']
    have hdiv := Int.bmod_add_bdiv (100 * n : ℕ) (2 ^ 32)
    have hle := Int.le_bmod (x := (100 * n : ℕ)) (m := 2 ^ 32) (by decide)
    have hlt := Int.bmod_lt (x := (100 * n : ℕ)) (m := 2 ^ 32) (by decide)
    refine ⟨Int.bdiv (100 * n : ℕ) (2 ^ 32), ?_, ?_, ?_⟩
    · push_cast at *
      omega
    · push_cast at *
      omega
    · push_cast at *
      omega
  obtain ⟨w, hw, hle, hlt⟩ := hsigned
  rw [callsRoundRobin, decide_eq_true_eq, ← Int.dvd_iff_tmod_eq_zero, hw]
  rw [hw] at hle hlt
  obtain ⟨d, hd⟩ : ∃ d, n = 1073741824 * d + n % 1073741824 := ⟨n / 1073741824, by omega⟩
  have hlow : n % 1073741824 < 1073741824 := Nat.mod_lt _ (by decide)
  generalize n % 1073741824 = y at hd hlow ⊢
  -- The counter has gone around `w` times; 25 times are `2^30` interrupts.
  constructor
  · rintro ⟨c, hc⟩
    obtain ⟨j, rfl⟩ : ∃ j, w = 25 * j := ⟨w / 25, by omega⟩
    obtain rfl | rfl : j = d ∨ j = d + 1 := by omega
    · left
      omega
    · right
      omega
  · rintro (⟨hy, hy'⟩ | ⟨hy, hy'⟩)
    · obtain rfl : w = 25 * d := by omega
      exact ⟨y / 10, by omega⟩
    · obtain rfl : w = 25 * (d + 1) := by omega
      exact ⟨((y : ℤ) - 1073741824) / 10, by omega⟩

/-- Of the ten interrupts after the `n`-th one calls `process_round_robin`, exactly for
the `n` near a multiple of `2^30`. -/
theorem preempted_within_ten_iff (calls : ℕ → Kernel × Registers) (n : ℕ) :
    (∃ m, n < m ∧ m ≤ n + 10 ∧ callsRoundRobin (timerTicks calls m) = true) ↔
      n % 1073741824 < 21474830 ∨ 1052266984 ≤ n % 1073741824 := by
  simp only [callsRoundRobin_timerTicks]
  have hmod : ∀ i ≤ 10, (n + i) % 1073741824 = n % 1073741824 + i ∨
      (n + i) % 1073741824 + 1073741824 = n % 1073741824 + i := by
    intro i hi
    omega
  constructor
  · rintro ⟨m, hm, hm', h⟩
    obtain ⟨i, rfl⟩ : ∃ i, m = n + i := ⟨m - n, by omega⟩
    have hi := hmod i (by omega)
    omega
  · rintro (h | h)
    · obtain ⟨i, hi, hi', h10⟩ : ∃ i, 1 ≤ i ∧ i ≤ 10 ∧ (n % 1073741824 + i) % 10 = 0 :=
        ⟨10 - n % 1073741824 % 10, by omega, by omega, by omega⟩
      have hm := hmod i hi'
      exact ⟨n + i, by omega, by omega, .inl ⟨by omega, by omega⟩⟩
    · obtain ⟨i, hi, hi', h10⟩ : ∃ i, 1 ≤ i ∧ i ≤ 10 ∧ (n % 1073741824 + i) % 10 = 4 :=
        ⟨(13 - n % 1073741824 % 10) % 10 + 1, by omega, by omega, by omega⟩
      refine ⟨n + i, by omega, by omega, ?_⟩
      rcases hmod i hi' with hm | hm
      · exact .inr ⟨by omega, by omega⟩
      · exact .inl ⟨by omega, by omega⟩

/-- After interrupt 21474830 the counter wraps, and the next ten interrupts switch nothing. -/
theorem not_preempted_after_wrap : ¬ ∃ m, 21474830 < m ∧ m ≤ 21474840 ∧
    callsRoundRobin (timerTicks (fun _ => (twoProcesses, .zero)) m) = true := by
  rintro ⟨m, hm, hm', h⟩
  rw [callsRoundRobin_timerTicks] at h
  have hmod : m % 1073741824 = m := Nat.mod_eq_of_lt (by omega)
  omega

end DosKernel
