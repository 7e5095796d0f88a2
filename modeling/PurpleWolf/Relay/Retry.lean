import PurpleWolf.Relay.Config
import PurpleWolf.Relay.Sink

/-! # The retry schedule (`subscribers/retry.rs`)

The delay before a retry grows by powers of two up to a cap, and is then jittered.  A shift
by the width of the type or more would panic, which is modelled by `none`; the multiplication
saturates.  The jitter is drawn and applied with floating point numbers, so it is a
parameter.

The exponent stops at `MAX_SHIFT`.  `capped_spec` says for which attempts the delay is that of
an exponential which goes on, and that machine words are never in the way. -/

namespace PurpleWolf.Relay

/-- `1u64 << shift` -/
def oneShl64 (shift : ℕ) : Option ℕ := if shift < 64 then some (2 ^ shift) else none

/-- `u64::saturating_mul` -/
def saturatingMul (a b : ℕ) : ℕ := min (a * b) Dlq.U64_MAX

structure RetrySchedule where
  baseDelayMs : ℕ
  maxDelayMs : ℕ

namespace RetrySchedule

def fromConfig (c : Config.RetryConfig) : RetrySchedule := ⟨c.baseDelayMs, c.maxDelayMs⟩

/-- The delay in milliseconds before it is jittered. -/
def capped (s : RetrySchedule) (attempt : ℕ) : Option ℕ :=
  let shift := min attempt 20
  (oneShl64 shift).map fun factor => min (saturatingMul s.baseDelayMs factor) s.maxDelayMs

/-- `RetrySchedule::next_delay`, in milliseconds. -/
def nextDelay (jitter : ℕ → ℕ) (s : RetrySchedule) (attempt : ℕ) : Option ℕ :=
  if s.baseDelayMs = 0 ∨ s.maxDelayMs = 0 then some 0 else (s.capped attempt).map jitter

theorem capped_eq (s : RetrySchedule) (attempt : ℕ) :
    s.capped attempt = some (min (saturatingMul s.baseDelayMs (2 ^ min attempt 20)) s.maxDelayMs) := by
  have hshift : min attempt 20 < 64 := by omega
  unfold capped oneShl64
  simp only [if_pos hshift, Option.map_some]

/-- **A delay is always found.** -/
theorem nextDelay_isSome (jitter : ℕ → ℕ) (s : RetrySchedule) (attempt : ℕ) : (s.nextDelay jitter attempt).isSome := by
  unfold nextDelay
  rw [capped_eq]
  split_ifs <;> rfl

/-! ### The exponential -/

/-- Where the exponent stops. -/
def MAX_SHIFT : ℕ := 20

/-- The delay of an exponential back-off whose exponent goes on. -/
def exponential (s : RetrySchedule) (attempt : ℕ) : ℕ := min (s.baseDelayMs * 2 ^ attempt) s.maxDelayMs

variable {s : RetrySchedule}

theorem exponential_mono {m n : ℕ} (h : m ≤ n) : s.exponential m ≤ s.exponential n := by
  unfold exponential
  have hpow : 2 ^ m ≤ 2 ^ n := Nat.pow_le_pow_right (by decide) h
  have hmul := Nat.mul_le_mul_left s.baseDelayMs hpow
  omega

/-- The product saturates only above the cap. -/
theorem capped_eq_exponential (hmax : s.maxDelayMs ≤ Dlq.U64_MAX) (attempt : ℕ) :
    s.capped attempt = some (s.exponential (min attempt MAX_SHIFT)) := by
  have hsaturated : min (saturatingMul s.baseDelayMs (2 ^ min attempt 20)) s.maxDelayMs =
      min (s.baseDelayMs * 2 ^ min attempt 20) s.maxDelayMs := by
    unfold saturatingMul
    omega
  rw [capped_eq, hsaturated]
  rfl

/-- Stopping the exponent is without effect up to the stop, and where the cap is reached. -/
theorem exponential_stopped_iff (hpos : 0 < s.baseDelayMs) (attempt : ℕ) :
    s.exponential (min attempt MAX_SHIFT) = s.exponential attempt ↔
      attempt ≤ MAX_SHIFT ∨ s.maxDelayMs ≤ s.baseDelayMs * 2 ^ MAX_SHIFT := by
  obtain hle | hlt := le_or_gt attempt MAX_SHIFT
  · rw [min_eq_left hle]
    exact iff_of_true rfl (Or.inl hle)
  · rw [min_eq_right hlt.le]
    have hpow : 2 ^ MAX_SHIFT < 2 ^ attempt := Nat.pow_lt_pow_right (by decide) hlt
    have hmul := Nat.mul_lt_mul_of_pos_left hpow hpos
    unfold exponential
    constructor
    · intro heq
      right
      omega
    · rintro (hle | hcap)
      · omega
      · omega

/-- **The delay before it is jittered**, for a validated configuration: that of an exponential
whose exponent stops at `MAX_SHIFT`.  So it is found for every attempt, does not fall, is that
of the exponential itself exactly up to the stop or if the cap is reached there, and it is the
cap once the stopped exponential reaches it. -/
theorem capped_spec {os : Config.Os} {cfg : Config} {resolved : Config.Resolved} {c : Config.SubscriberConfig}
    (h : Config.validate os cfg = .ok resolved) (hc : c ∈ cfg.subscribers) (hpos : 0 < c.retry.baseDelayMs)
    (hmax : c.retry.maxDelayMs ≤ Dlq.U64_MAX) :
    let s := fromConfig c.retry
    s.baseDelayMs ≤ s.maxDelayMs ∧
      (∀ attempt, s.capped attempt = some (min (s.baseDelayMs * 2 ^ min attempt 20) s.maxDelayMs)) ∧
      (∀ attempt, s.capped attempt = some (min (s.baseDelayMs * 2 ^ attempt) s.maxDelayMs) ↔
        attempt ≤ 20 ∨ s.maxDelayMs ≤ s.baseDelayMs * 2 ^ 20) ∧
      (∀ m n, m ≤ n → ∀ d ∈ s.capped m, ∀ d' ∈ s.capped n, d ≤ d') ∧
      ∀ attempt, s.maxDelayMs ≤ s.baseDelayMs * 2 ^ min attempt 20 → s.capped attempt = some s.maxDelayMs := by
  intro s
  have hvalid := (Config.validate_eq_ok h).1.subscribers c hc
  have hcapped : ∀ attempt, s.capped attempt = some (s.exponential (min attempt MAX_SHIFT)) :=
    fun attempt => capped_eq_exponential hmax attempt
  refine ⟨hvalid.delays, hcapped, ?_, ?_, ?_⟩
  · intro attempt
    rw [hcapped, Option.some.injEq]
    exact exponential_stopped_iff hpos attempt
  · intro m n hmn d hd d' hd'
    rw [hcapped, Option.mem_some_iff] at hd hd'
    rw [← hd, ← hd']
    exact exponential_mono (by omega)
  · intro attempt hreached
    rw [hcapped]
    unfold exponential
    exact congrArg some (min_eq_right hreached)

/-- The defaults: half a second, up to ten minutes. -/
theorem capped_spec_default :
    let os : Config.Os := ⟨fun _ => some "hmac".toList, fun _ => .error [], none, id⟩
    let c : Config.SubscriberConfig :=
      { id := "siem".toList, url := "https://siem".toList, secretEnv := some "KEY".toList }
    (∃ resolved, Config.validate os { sources := [.stdin], subscribers := [c] } = .ok resolved) ∧
      (fromConfig c.retry).capped 3 = some (min (500 * 2 ^ min 3 20) 600000) := by
  intro os c
  have hvalid : ∃ resolved, Config.validate os { sources := [.stdin], subscribers := [c] } = .ok resolved := ⟨_, rfl⟩
  obtain ⟨resolved, hresolved⟩ := hvalid
  have hspec := capped_spec hresolved List.mem_cons_self (by decide) (by decide)
  exact ⟨⟨resolved, hresolved⟩, hspec.2.1 3⟩

/-- From one millisecond up to thirty-five minutes: the delay stops at half of that. -/
theorem capped_stops :
    let os : Config.Os := ⟨fun _ => some "hmac".toList, fun _ => .error [], none, id⟩
    let c : Config.SubscriberConfig := {
      id := "siem".toList, url := "https://siem".toList, secretEnv := some "KEY".toList
      retry := { baseDelayMs := 1, maxDelayMs := 2 ^ 21 } }
    (∃ resolved, Config.validate os { sources := [.stdin], subscribers := [c] } = .ok resolved) ∧
      0 < c.retry.baseDelayMs ∧ c.retry.baseDelayMs ≤ c.retry.maxDelayMs ∧
      (fromConfig c.retry).capped 21 ≠ some (min (c.retry.baseDelayMs * 2 ^ 21) c.retry.maxDelayMs) := by
  intro os c
  exact ⟨⟨_, rfl⟩, by decide, by decide, by decide⟩

end RetrySchedule

end PurpleWolf.Relay
