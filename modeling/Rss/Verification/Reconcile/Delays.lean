import Rss.Model.Reconcile.Policy
import Rss.Verification.Messaging.Delays

/-! # Retry delays

The window a delay is drawn from, and that no step of its computation leaves the range of a
machine word. -/

namespace Rss.Reconcile

open Rss.Messaging.Consumer (durationMax RetryPolicy SubscriptionBackoffPolicy)

/-! ### Validated policies -/

/-- The milliseconds of a day. -/
def dayMillis : ℕ := 86400000

theorem validDuration_iff {d : ℕ} :
    validDuration d = true ↔ ∃ m, d = fromMillis m ∧ 0 < m ∧ m ≤ dayMillis := by
  unfold validDuration subsecNanos fromMillis dayMillis
  simp only [Bool.and_eq_true, decide_eq_true_eq, ne_eq]
  constructor
  · intro h
    obtain ⟨⟨hpos, hday⟩, hwhole⟩ := h
    exact ⟨d / 1000000, by omega, by omega, by omega⟩
  · intro h
    obtain ⟨m, rfl, hpos, hday⟩ := h
    omega

/-- What validation leaves of the backoff: whole milliseconds, of at most a day. -/
structure Window (p : Policy) (initial ceiling : ℕ) : Prop where
  backoff : p.backoff = fromMillis initial
  cap : p.cap = fromMillis ceiling
  pos : 0 < initial
  le : initial ≤ ceiling
  day : ceiling ≤ dayMillis

theorem Policy.exists_window {c : PolicyConfig} {p : Policy} (h : Policy.tryFrom c = .ok p) :
    ∃ initial ceiling, c.initialBackoff = fromMillis initial ∧
      c.maxBackoff = fromMillis ceiling ∧ Window p initial ceiling := by
  unfold tryFrom at h
  split at h
  · cases h
  · rename_i hvalid
    cases h
    simp only [Bool.or_eq_true, Bool.not_eq_true', decide_eq_true_eq, not_or,
      Bool.not_eq_false] at hvalid
    obtain ⟨⟨⟨⟨-, hall⟩, -⟩, horder⟩, -⟩ := hvalid
    have hbackoff := List.all_eq_true.mp hall c.initialBackoff (by simp)
    have hcap := List.all_eq_true.mp hall c.maxBackoff (by simp)
    obtain ⟨initial, hinitial, hpos, -⟩ := validDuration_iff.mp hbackoff
    obtain ⟨ceiling, hmax, -, hday⟩ := validDuration_iff.mp hcap
    refine ⟨initial, ceiling, hinitial, hmax, hinitial, hmax, hpos, ?_, hday⟩
    unfold fromMillis at *
    omega

/-! ### The end of the window -/

/-- The shift and the saturations of the source stand for the power itself. -/
theorem Window.upper_eq {p : Policy} {initial ceiling : ℕ} (h : Window p initial ceiling)
    (failures : ℕ) :
    p.upper failures = fromMillis (min ceiling (initial * 2 ^ max failures 1)) := by
  have hmax : fromMillis ceiling ≤ durationMax := by
    have hfull : fromMillis dayMillis ≤ durationMax := by decide
    exact Nat.le_trans (Nat.mul_le_mul_right _ h.day) hfull
  have hmove : fromMillis initial * shiftedOne (max failures 1) =
      fromMillis (initial * shiftedOne (max failures 1)) := by
    unfold fromMillis
    ring
  have hpower : min ceiling (initial * shiftedOne (max failures 1)) =
      min ceiling (initial * 2 ^ max failures 1) := by
    unfold shiftedOne
    split
    · rfl
    · rename_i hlong
      have hbits : 2 ^ 32 ≤ 2 ^ max failures 1 := Nat.pow_le_pow_right (by decide) (by omega)
      have hcapped : dayMillis ≤ 2 ^ 32 - 1 := by decide
      have hfirst : 2 ^ 32 - 1 ≤ initial * (2 ^ 32 - 1) := Nat.le_mul_of_pos_left _ h.pos
      have hsecond : 2 ^ max failures 1 ≤ initial * 2 ^ max failures 1 :=
        Nat.le_mul_of_pos_left _ h.pos
      have hday := h.day
      rw [Nat.min_eq_left (by omega), Nat.min_eq_left (by omega)]
  unfold Policy.upper saturatingMul
  rw [h.backoff, h.cap, Nat.min_assoc, Nat.min_eq_right hmax, hmove, Nat.min_comm, ← hpower]
  exact Nat.mul_min_mul_right ceiling (initial * shiftedOne (max failures 1)) 1000000

theorem shiftedOne_mono {n m : ℕ} (h : n ≤ m) : shiftedOne n ≤ shiftedOne m := by
  unfold shiftedOne
  split
  · split
    · exact Nat.pow_le_pow_right (by decide) h
    · have hpower : 2 ^ n ≤ 2 ^ 31 := Nat.pow_le_pow_right (by decide) (by omega)
      omega
  · split
    · omega
    · exact Nat.le_refl _

/-- The window never shrinks from its end. -/
theorem Policy.upper_mono (p : Policy) {n m : ℕ} (h : n ≤ m) : p.upper n ≤ p.upper m := by
  have hfactor : shiftedOne (max n 1) ≤ shiftedOne (max m 1) := shiftedOne_mono (by omega)
  have hproduct := Nat.mul_le_mul_left p.backoff hfactor
  unfold upper saturatingMul
  omega

/-! ### One delay -/

/-- Whole milliseconds of at most a day are counted without an overflow. -/
theorem wholeMillis_fromMillis {m : ℕ} (h : m ≤ dayMillis) : wholeMillis (fromMillis m) = some m := by
  have hday : dayMillis < 2 ^ 64 := by decide
  have hseconds : asSecs (fromMillis m) = m / 1000 := by
    unfold asSecs fromMillis
    omega
  have hmillis : subsecMillis (fromMillis m) = m % 1000 := by
    unfold subsecMillis subsecNanos fromMillis
    omega
  have hmul : checkedMul 64 (m / 1000) 1000 = some (m / 1000 * 1000) :=
    checkedMul_eq_some.mpr ⟨rfl, by omega⟩
  have hsum : m / 1000 * 1000 + m % 1000 = m := Nat.div_add_mod' m 1000
  unfold wholeMillis
  rw [hseconds, hmillis, hmul, Option.bind_eq_bind, Option.bind_some,
    checkedAdd_of_lt (by omega), hsum]

theorem divCeil_two (n : ℕ) : divCeil n 2 = (n + 1) / 2 := by
  unfold divCeil
  split <;> omega

/-- The delay exists and lies in the window, whatever the hasher answers. -/
theorem Window.retryDelay {Target : Type} {p : Policy} {initial ceiling : ℕ}
    (h : Window p initial ceiling) (hasher : Target → UInt32 → UInt64) (target : Target)
    (failures : UInt32) {upper : ℕ}
    (hupper : upper = min ceiling (initial * 2 ^ max failures.toNat 1)) :
    ∃ millis, p.retryDelay hasher target failures = some (fromMillis millis) ∧
      max initial (divCeil upper 2) ≤ millis ∧ millis ≤ upper := by
  have hpower : 0 < 2 ^ max failures.toNat 1 := Nat.two_pow_pos _
  have hgrown : initial ≤ initial * 2 ^ max failures.toNat 1 := Nat.le_mul_of_pos_right _ hpower
  have hfloor : initial ≤ upper := by
    have hle := h.le
    omega
  have hday : upper ≤ dayMillis := Nat.le_trans (by omega) h.day
  have hword : dayMillis < 2 ^ 63 := by decide
  obtain ⟨lower, hlower⟩ : ∃ lower, lower = max initial (divCeil upper 2) := ⟨_, rfl⟩
  have hle : lower ≤ upper := by
    rw [hlower, divCeil_two]
    have hpos := h.pos
    omega
  have hspread : checkedSub upper lower = some (upper - lower) := if_pos hle
  have hwidth : checkedAdd 64 (upper - lower) 1 = some (upper - lower + 1) :=
    checkedAdd_of_lt (by omega)
  obtain ⟨offset, hoffset⟩ : ∃ offset, offset =
    (hasher target failures).toNat % (upper - lower + 1) := ⟨_, rfl⟩
  have hrem : checkedRem (hasher target failures).toNat (upper - lower + 1) = some offset := by
    rw [hoffset]
    exact if_neg (Nat.succ_ne_zero _)
  have hlt : offset < upper - lower + 1 := hoffset ▸ Nat.mod_lt _ (Nat.succ_pos _)
  have hmillis : checkedAdd 64 lower offset = some (lower + offset) := checkedAdd_of_lt (by omega)
  refine ⟨lower + offset, ?_, hlower ▸ Nat.le_add_right _ _, by omega⟩
  unfold Policy.retryDelay
  rw [h.upper_eq, ← hupper, h.backoff, wholeMillis_fromMillis hday,
    wholeMillis_fromMillis (Nat.le_trans hfloor hday)]
  simp only [Option.bind_eq_bind, Option.bind_some, ← hlower, hspread, hwidth, hrem, hmillis]

/-! ### All delays -/

/-- Reconcile draws every delay of a validated policy from its window, whose end does not decrease,
and the two doubling loops of the messaging runtime are the capped power. -/
theorem retry_delays_bounded :
    (∀ (Target : Type) (config : PolicyConfig) (p : Policy), Policy.tryFrom config = .ok p →
      ∃ initial ceiling, config.initialBackoff = fromMillis initial ∧
        config.maxBackoff = fromMillis ceiling ∧
        ∀ (hasher : Target → UInt32 → UInt64) (target : Target) (failures : UInt32),
          ∃ upper millis, upper = min ceiling (initial * 2 ^ max failures.toNat 1) ∧
            p.retryDelay hasher target failures = some (fromMillis millis) ∧
            max initial ((upper + 1) / 2) ≤ millis ∧ millis ≤ upper ∧ initial ≤ millis ∧
            millis ≤ ceiling ∧ p.upper failures.toNat = fromMillis upper ∧
            ∀ more : UInt32, failures ≤ more → p.upper failures.toNat ≤ p.upper more.toNat) ∧
    (∀ (p : RetryPolicy) (n : ℕ), p.delayAfter n = min p.cap (p.base * 2 ^ (n - 1))) ∧
    ∀ (p : SubscriptionBackoffPolicy) (n : ℕ),
      p.delayAfter n = min p.cap (p.base * 2 ^ (n - 1)) := by
  refine ⟨fun Target config p hp => ?_, RetryPolicy.delayAfter_eq,
    SubscriptionBackoffPolicy.delayAfter_eq⟩
  obtain ⟨initial, ceiling, hinitial, hceiling, hwindow⟩ := Policy.exists_window hp
  refine ⟨initial, ceiling, hinitial, hceiling, fun hasher target failures => ?_⟩
  obtain ⟨millis, hdelay, hlower, hupper⟩ := hwindow.retryDelay hasher target failures rfl
  rw [divCeil_two] at hlower
  refine ⟨_, millis, rfl, hdelay, hlower, hupper, by omega, by omega, hwindow.upper_eq _, ?_⟩
  intro more hmore
  exact p.upper_mono (UInt32.le_iff_toNat_le.mp hmore)

/-- Five seconds that double up to a minute. -/
def minute : PolicyConfig :=
  ⟨2, fromMillis 1000, fromMillis 1000, fromMillis 1, fromMillis 1000, fromMillis 5000,
    fromMillis 60000, 1000⟩

/-- The delays after the fourth failure. -/
theorem retry_delays_bounded_minute :
    ∃ p : Policy, Policy.tryFrom minute = .ok p ∧
      ∀ hasher : Unit → UInt32 → UInt64, ∃ millis,
        p.retryDelay hasher () 4 = some (fromMillis millis) ∧ 30000 ≤ millis ∧ millis ≤ 60000 := by
  obtain ⟨p, hp⟩ : ∃ p, Policy.tryFrom minute = .ok p := ⟨_, rfl⟩
  refine ⟨p, hp, fun hasher => ?_⟩
  obtain ⟨initial, ceiling, hinitial, hceiling, hdraw⟩ := retry_delays_bounded.1 Unit minute p hp
  have hfirst : initial = 5000 := Nat.eq_of_mul_eq_mul_right (by decide) hinitial.symm
  have hlast : ceiling = 60000 := Nat.eq_of_mul_eq_mul_right (by decide) hceiling.symm
  subst hfirst hlast
  obtain ⟨upper, millis, hupper, hdelay, hlower, hle, -⟩ := hdraw hasher () 4
  have hwindow : upper = 60000 := by
    rw [hupper]
    decide
  exact ⟨millis, hdelay, by omega, by omega⟩

end Rss.Reconcile
