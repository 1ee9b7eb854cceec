import Rss.Model.Messaging.Relay
import Mathlib.Data.List.Sort

/-! # Relay attempts fit their lease

Closed forms of the two halves of an attempt, the bounds on the cutoffs that follow from its
readings, and the account that a batch gives of its claims. -/

namespace Rss.Messaging.Relay

open Rss.Messaging.Consumer (MessagingErrorKind capped durationMax)

variable {ρ α β : Type}

/-! ### Budgets -/

theorem checkComponent_eq_ok {duration : ℕ} (h : checkComponent duration = .ok ()) :
    0 < duration ∧ duration ≤ deliveryBudgetMax := by
  unfold checkComponent at h
  split at h
  · cases h
  · split at h
    · cases h
    · split at h
      · cases h
      · omega

namespace DeliveryBudget

variable (b : DeliveryBudget)

theorem required_le : b.publishTimeout + b.settleTimeout + b.safetyMargin ≤ durationMax := by
  have hp := (checkComponent_eq_ok b.publish_ok).2
  have hs := (checkComponent_eq_ok b.settle_ok).2
  have hm := (checkComponent_eq_ok b.safety_ok).2
  simp only [durationMax, deliveryBudgetMax] at *
  omega

/-- A budget in range never saturates. -/
theorem requiredBudget_eq :
    b.requiredBudget = b.publishTimeout + b.settleTimeout + b.safetyMargin := by
  have h := b.required_le
  simp only [requiredBudget, durationSaturatingAdd]
  omega

theorem canStartAttempt_iff {remaining : ℕ} : b.canStartAttempt remaining = true ↔
    b.publishTimeout + b.settleTimeout + b.safetyMargin < remaining := by
  simp [canStartAttempt, requiredBudget_eq]

/-- A budget is what its constructor accepts. -/
theorem new_self : new b.leaseTtl b.publishTimeout b.settleTimeout b.safetyMargin = .ok b := by
  have h := b.required_le
  have hadd : (durationAdd b.publishTimeout b.settleTimeout).bind
      (fun value => durationAdd value b.safetyMargin) =
        some (b.publishTimeout + b.settleTimeout + b.safetyMargin) := by
    have hfirst : durationAdd b.publishTimeout b.settleTimeout =
        some (b.publishTimeout + b.settleTimeout) := if_pos (by omega)
    rw [hfirst]
    exact if_pos h
  unfold new
  split <;>
    simp_all [b.lease_ok, b.publish_ok, b.settle_ok, b.safety_ok, b.required_lt]

end DeliveryBudget

/-- A cutoff inside the horizon is capped at the cap from now. -/
theorem capped_eq_min {horizon cutoff now cap : ℕ} (h : cutoff ≤ horizon) :
    capped horizon cutoff now cap = min cutoff (now + cap) := by
  unfold capped
  split <;> omega

/-! ### Calls that a part starts -/

/-- A part of an attempt only adds calls, each of which satisfies `P`. -/
def Starts (P : Call ρ → Prop) (m : RelayM ρ α) : Prop :=
  ∀ calls, ∃ new, (m.run.run calls).run.2 = calls ++ new ∧ ∀ c ∈ new, P c

theorem Starts.pure {P : Call ρ → Prop} (a : α) : Starts P (pure a : RelayM ρ α) :=
  fun calls => ⟨[], (List.append_nil calls).symm, by simp⟩

theorem Starts.throw {P : Call ρ → Prop} (e : MessagingErrorKind) :
    Starts P (throw e : RelayM ρ α) :=
  fun calls => ⟨[], (List.append_nil calls).symm, by simp⟩

theorem Starts.lift {P : Call ρ → Prop} (a : Except MessagingErrorKind α) :
    Starts P (liftExcept a : RelayM ρ α) := by
  cases a with
  | ok a => exact Starts.pure a
  | error e => exact Starts.throw e

theorem run_bind (m : RelayM ρ α) (f : α → RelayM ρ β) (calls : List (Call ρ)) :
    ((m >>= f).run.run calls).run = match (m.run.run calls).run with
      | (.ok a, calls') => ((f a).run.run calls').run
      | (.error e, calls') => (.error e, calls') := by
  change (ExceptT.bindCont f ((m.run.run calls).run.1) : StateM _ _).run
    (m.run.run calls).run.2 = _
  rcases (m.run.run calls).run with ⟨e | a, calls'⟩
  · rfl
  · rfl

/-- A handler that returns a value, whatever the failure, keeps the calls made before it. -/
theorem run_tryCatch (m : RelayM ρ α) (a : α) (calls : List (Call ρ)) :
    ((tryCatch m fun _ => pure a : RelayM ρ α).run.run calls).run =
      (.ok (match (m.run.run calls).run.1 with | .ok a' => a' | .error _ => a),
        (m.run.run calls).run.2) := by
  change ((ExceptT.tryCatch m fun _ => pure a).run.run calls).run = _
  simp only [ExceptT.tryCatch, ExceptT.run_mk, StateT.run_bind, Id.run_bind]
  rcases hrun : (m.run.run calls).run with ⟨e | a', calls'⟩
  · change (StateT.run m calls).run = _ at hrun
    rw [hrun]
    rfl
  · change (StateT.run m calls).run = _ at hrun
    rw [hrun]
    rfl

theorem Starts.bind {P : Call ρ → Prop} {m : RelayM ρ α} {f : α → RelayM ρ β}
    (hm : Starts P m) (hf : ∀ a, Starts P (f a)) : Starts P (m >>= f) := by
  intro calls
  rw [run_bind]
  obtain ⟨new, hnew, hP⟩ := hm calls
  rcases hr : (m.run.run calls).run with ⟨e | a, calls'⟩
  · rw [hr] at hnew
    exact ⟨new, hnew, hP⟩
  · rw [hr] at hnew
    obtain ⟨more, hmore, hQ⟩ := hf a calls'
    refine ⟨new ++ more, ?_, ?_⟩
    · change calls' = calls ++ new at hnew
      rw [hmore, hnew, List.append_assoc]
    · intro c hc
      rcases List.mem_append.mp hc with hc | hc
      · exact hP c hc
      · exact hQ c hc

/-- The calls of the publisher and of the settlement. -/
def Call.delivers : Call ρ → Bool
  | .leaseStatus _ _ | .extend _ _ => false
  | .publish _ _ | .settle _ _ _ => true

def Call.settles : Call ρ → Bool
  | .settle _ _ _ => true
  | _ => false

namespace Attempt

variable (x : Attempt ρ)

theorem run_within (at' : Reading) (cutoff : ℕ) (start : ℕ → Call ρ) (answer : Option α)
    (calls : List (Call ρ)) : ((x.within at' cutoff start answer).run.run calls).run =
      if cutoff ≤ x.clock at' then (.error .deadlineElapsed, calls)
      else (okOr answer .deadlineElapsed, calls ++ [start (cutoff - x.clock at')]) := by
  have hiff : x.operationDeadline at' cutoff = 0 ↔ cutoff ≤ x.clock at' := Nat.sub_eq_zero_iff_le
  unfold within
  by_cases h : cutoff ≤ x.clock at'
  · rw [if_pos (hiff.mpr h), if_pos h]
    rfl
  · rw [if_neg (hiff.not.mpr h), if_neg h]
    cases answer with
    | none => rfl
    | some a => rfl

theorem run_request (at' : Reading) (cutoff : ℕ) (start : ℕ → Call ρ)
    (answer : Option (Except MessagingErrorKind α)) (calls : List (Call ρ)) :
    ((x.request at' cutoff start answer).run.run calls).run =
      if cutoff ≤ x.clock at' then (.error .deadlineElapsed, calls)
      else ((okOr answer .deadlineElapsed).bind id,
        calls ++ [start (cutoff - x.clock at')]) := by
  rw [request, run_bind, run_within]
  by_cases h : cutoff ≤ x.clock at'
  · simp only [if_pos h]
  · simp only [if_neg h]
    rcases answer with _ | _ | a
    · rfl
    · rfl
    · rfl

theorem starts_request {P : Call ρ → Prop} {at' : Reading} {cutoff : ℕ} {start : ℕ → Call ρ}
    (answer : Option (Except MessagingErrorKind α)) (h : ∀ timeout, P (start timeout)) :
    Starts P (x.request at' cutoff start answer) := by
  intro calls
  rw [run_request]
  split
  · exact ⟨[], (List.append_nil calls).symm, by simp⟩
  · exact ⟨[_], rfl, by simpa using h _⟩

/-- Confirming a claim never publishes or settles. -/
theorem starts_hold (budget : DeliveryBudget) :
    Starts (fun c => c.delivers = false) (x.hold budget) := by
  refine Starts.bind (Starts.lift _) fun leaseDeadline => ?_
  refine Starts.bind (x.starts_request _ fun _ => rfl) fun lease => ?_
  cases lease with
  | lost => exact Starts.pure _
  | held remaining deliveryRemaining =>
      refine Starts.bind (Starts.lift _) fun extendDeadline => ?_
      exact x.starts_request _ fun _ => rfl

/-! ### The second half -/

/-- A publication is started: the window is open, the budget fits and the cutoff is ahead. -/
def Publishes (budget : DeliveryBudget) (remaining : ℕ) (deliveryRemaining : Option ℕ)
    (attemptDeadline : ℕ) : Prop :=
  deliveryRemaining ≠ some 0 ∧
    budget.canStartAttempt (x.deliveryBudget remaining deliveryRemaining) = true ∧
    x.clock .publishCall < x.publishDeadline budget attemptDeadline

instance (budget : DeliveryBudget) (remaining : ℕ) (deliveryRemaining : Option ℕ)
    (attemptDeadline : ℕ) :
    Decidable (x.Publishes budget remaining deliveryRemaining attemptDeadline) :=
  inferInstanceAs (Decidable (_ ∧ _))

/-- The settlement an attempt decides on. -/
def settlement (budget : DeliveryBudget) (remaining : ℕ) (deliveryRemaining : Option ℕ)
    (attemptDeadline : ℕ) : OutboxSettlement ρ :=
  if deliveryRemaining = some 0 then .deadLetter
  else if x.Publishes budget remaining deliveryRemaining attemptDeadline then
    intoSettlement (x.publish.getD deadlineElapsedPublishOutcome)
  else .retry

def publishCalls (budget : DeliveryBudget) (remaining : ℕ) (deliveryRemaining : Option ℕ)
    (attemptDeadline : ℕ) : List (Call ρ) :=
  if x.Publishes budget remaining deliveryRemaining attemptDeadline then
    [.publish (x.publishDeadline budget attemptDeadline)
      (x.publishDeadline budget attemptDeadline - x.clock .publishCall)]
  else []

theorem run_publishOutcome (cutoff : ℕ) (calls : List (Call ρ)) :
    ((x.publishOutcome cutoff).run.run calls).run =
      if cutoff ≤ x.clock .publishCall then (.ok deadlineElapsedPublishOutcome, calls)
      else (.ok (x.publish.getD deadlineElapsedPublishOutcome),
        calls ++ [.publish cutoff (cutoff - x.clock .publishCall)]) := by
  rw [publishOutcome, run_tryCatch, run_within]
  by_cases h : cutoff ≤ x.clock .publishCall
  · simp only [if_pos h]
  · simp only [if_neg h]
    cases x.publish with
    | none => rfl
    | some outcome => rfl

theorem run_chooseSettlement (budget : DeliveryBudget) (remaining : ℕ)
    (deliveryRemaining : Option ℕ) (attemptDeadline : ℕ) (calls : List (Call ρ)) :
    ((x.chooseSettlement budget remaining deliveryRemaining attemptDeadline).run.run calls).run =
      (.ok (x.settlement budget remaining deliveryRemaining attemptDeadline),
        calls ++ x.publishCalls budget remaining deliveryRemaining attemptDeadline) := by
  unfold chooseSettlement settlement publishCalls Publishes
  by_cases hexpired : deliveryRemaining = some 0
  · simp [hexpired]
  · by_cases hfits : budget.canStartAttempt (x.deliveryBudget remaining deliveryRemaining) = true
    · rw [if_neg hexpired, if_pos hfits, run_bind, run_publishOutcome]
      by_cases hcut : x.publishDeadline budget attemptDeadline ≤ x.clock .publishCall
      · simp [hexpired, hfits, hcut, intoSettlement, deadlineElapsedPublishOutcome]
      · simp [hexpired, hfits, hcut, not_le.mp hcut]
    · simp [hexpired, hfits]

theorem run_deliver {budget : DeliveryBudget} {remaining attemptDeadline : ℕ}
    {deliveryRemaining : Option ℕ}
    (h : x.attemptDeadline budget remaining = some attemptDeadline) (calls : List (Call ρ)) :
    ((x.deliver budget remaining deliveryRemaining).run.run calls).run =
      let settlement := x.settlement budget remaining deliveryRemaining attemptDeadline
      let cutoff := x.settlementDeadline budget attemptDeadline
      let calls := calls ++ x.publishCalls budget remaining deliveryRemaining attemptDeadline
      if cutoff ≤ x.clock .settlementCall then (.error .deadlineElapsed, calls)
      else (((okOr x.settle .deadlineElapsed).bind id).map fun _ => settlement.disposition,
        calls ++ [.settle settlement cutoff (cutoff - x.clock .settlementCall)]) := by
  have hlift : liftExcept (okOr (x.attemptDeadline budget remaining) MessagingErrorKind.invariant) =
      (pure attemptDeadline : RelayM ρ ℕ) := by rw [h]; rfl
  rw [deliver, hlift, pure_bind, run_bind, run_chooseSettlement]
  dsimp only
  rw [run_bind, run_request]
  by_cases hcut : x.settlementDeadline budget attemptDeadline ≤ x.clock .settlementCall
  · simp only [if_pos hcut]
  · simp only [if_neg hcut]
    rcases x.settle with _ | _ | _
    · rfl
    · rfl
    · rfl

theorem run_deliver_none {budget : DeliveryBudget} {remaining : ℕ} {deliveryRemaining : Option ℕ}
    (h : x.attemptDeadline budget remaining = none) (calls : List (Call ρ)) :
    ((x.deliver budget remaining deliveryRemaining).run.run calls).run =
      (.error .invariant, calls) := by
  have hlift : liftExcept (okOr (x.attemptDeadline budget remaining) MessagingErrorKind.invariant) =
      (throw .invariant : RelayM ρ ℕ) := by rw [h]; rfl
  rw [deliver, hlift, run_bind]
  rfl

/-! ### Readings of one attempt -/

/-- The readings never go back. -/
def NonDecreasing : Prop := ∀ r s : Reading, r.order ≤ s.order → x.clock r ≤ x.clock s

/-- From the elapsed reading to the attempt deadline less than the safety margin passes. -/
def Steady (budget : DeliveryBudget) : Prop :=
  x.clock .attemptDeadline < x.clock .elapsed + budget.safetyMargin

/-- The lease that the extension reported, counted from the start of its call. -/
def expiry (remaining : ℕ) : ℕ := x.clock .extendStarted + remaining

/-- The extension confirmed the claim with what it reported. -/
def Held (budget : DeliveryBudget) (remaining : ℕ) (deliveryRemaining : Option ℕ) : Prop :=
  ((x.hold budget).run.run []).run.1 = .ok (.held remaining deliveryRemaining)

variable {x} {budget : DeliveryBudget} {remaining attemptDeadline : ℕ}
  {deliveryRemaining : Option ℕ}

theorem fromTimeout_eq_some {at' : Reading} {timeout cutoff : ℕ} :
    x.fromTimeout at' timeout = some cutoff ↔
      cutoff = x.clock at' + timeout ∧ cutoff ≤ x.horizon := by
  unfold fromTimeout
  split <;> simp_all [eq_comm]

theorem settlementDeadline_eq (h : x.attemptDeadline budget remaining = some attemptDeadline) :
    x.settlementDeadline budget attemptDeadline =
      min attemptDeadline (x.clock .settlementCap + budget.settleTimeout) :=
  capped_eq_min (fromTimeout_eq_some.mp h).2

theorem publishDeadline_eq (h : x.attemptDeadline budget remaining = some attemptDeadline) :
    x.publishDeadline budget attemptDeadline =
      min attemptDeadline (x.clock .publishCap + budget.publishTimeout) :=
  capped_eq_min (fromTimeout_eq_some.mp h).2

theorem deliveryBudget_le_leaseLeft :
    x.deliveryBudget remaining deliveryRemaining ≤ x.leaseLeft remaining := by
  unfold deliveryBudget
  cases deliveryRemaining with
  | none => exact le_rfl
  | some value => exact min_le_right _ _

/-- An attempt starts to publish only with room for the whole budget. -/
theorem Publishes.room (hclock : x.NonDecreasing)
    (h : x.Publishes budget remaining deliveryRemaining attemptDeadline) :
    x.clock .elapsed + (budget.publishTimeout + budget.settleTimeout + budget.safetyMargin) <
      x.expiry remaining := by
  have hfits := budget.canStartAttempt_iff.mp h.2.1
  have hleft : x.deliveryBudget remaining deliveryRemaining ≤ x.leaseLeft remaining :=
    deliveryBudget_le_leaseLeft
  have hround := hclock .extendStarted .elapsed (by decide)
  simp only [leaseLeft, elapsed, expiry] at *
  omega

/-- The same room is left in a delivery window. -/
theorem Publishes.window {value : ℕ} (hclock : x.NonDecreasing)
    (h : x.Publishes budget remaining (some value) attemptDeadline) :
    x.clock .elapsed + (budget.publishTimeout + budget.settleTimeout + budget.safetyMargin) <
      x.clock .extendStarted + value := by
  have hfits := budget.canStartAttempt_iff.mp h.2.1
  have hround := hclock .extendStarted .elapsed (by decide)
  simp only [deliveryBudget, elapsed] at hfits
  omega

/-- While more than the margin is left, the attempt deadline keeps clear of the expiry. -/
theorem attemptDeadline_cases (hclock : x.NonDecreasing) (hsteady : x.Steady budget)
    (h : x.attemptDeadline budget remaining = some attemptDeadline) :
    attemptDeadline ≤ x.expiry remaining ∨ attemptDeadline = x.clock .attemptDeadline := by
  have had := (fromTimeout_eq_some.mp h).1
  have hround := hclock .extendStarted .elapsed (by decide)
  simp only [Steady, leaseLeft, elapsed, expiry] at *
  omega

/-- A publication that runs until its cutoff leaves the settlement its time, less what passed
between the attempt deadline and the cap of the publication. -/
theorem Publishes.reserve (hclock : x.NonDecreasing)
    (h : x.attemptDeadline budget remaining = some attemptDeadline)
    (hp : x.Publishes budget remaining deliveryRemaining attemptDeadline)
    (hfull : x.publishDeadline budget attemptDeadline ≤ x.clock .settlementCap) :
    x.publishDeadline budget attemptDeadline + budget.settleTimeout ≤
      x.settlementDeadline budget attemptDeadline +
        (x.clock .publishCap - x.clock .attemptDeadline) := by
  have had := (fromTimeout_eq_some.mp h).1
  have hroom := hp.room hclock
  have hround := hclock .extendStarted .elapsed (by decide)
  have hcap := hclock .attemptDeadline .publishCap (by decide)
  rw [publishDeadline_eq h] at hfull ⊢
  rw [settlementDeadline_eq h]
  simp only [leaseLeft, elapsed, expiry] at *
  omega

/-! ### The whole attempt -/

/-- The calls of a confirmed attempt whose cutoff the clock can express. -/
def deliveryCalls (x : Attempt ρ) (budget : DeliveryBudget) (remaining : ℕ)
    (deliveryRemaining : Option ℕ) (attemptDeadline : ℕ) : List (Call ρ) :=
  x.publishCalls budget remaining deliveryRemaining attemptDeadline ++
    if x.settlementDeadline budget attemptDeadline ≤ x.clock .settlementCall then []
    else [.settle (x.settlement budget remaining deliveryRemaining attemptDeadline)
      (x.settlementDeadline budget attemptDeadline)
      (x.settlementDeadline budget attemptDeadline - x.clock .settlementCall)]

theorem run_of_held (h : x.Held budget remaining deliveryRemaining) :
    ∃ before : List (Call ρ), (∀ c ∈ before, c.delivers = false) ∧ x.run budget =
      (((x.deliver budget remaining deliveryRemaining).run.run before).run.1.map some,
        ((x.deliver budget remaining deliveryRemaining).run.run before).run.2) := by
  obtain ⟨before, hcalls, hbefore⟩ := x.starts_hold budget []
  refine ⟨before, hbefore, ?_⟩
  have hrun : ((x.hold budget).run.run []).run =
      (.ok (.held remaining deliveryRemaining), before) :=
    Prod.ext h hcalls
  rw [run, relayClaim, run_bind, hrun]
  dsimp only
  rw [run_bind]
  rcases ((x.deliver budget remaining deliveryRemaining).run.run before).run with ⟨e | d, calls⟩
  · rfl
  · rfl

/-- A claim that was not confirmed is never published or settled. -/
theorem calls_of_not_held (h : ∀ remaining deliveryRemaining,
    ¬ x.Held budget remaining deliveryRemaining) :
    ∀ c ∈ (x.run budget).2, c.delivers = false := by
  obtain ⟨before, hcalls, hbefore⟩ := x.starts_hold budget []
  have hrun : (x.run budget).2 = before := by
    rw [run, relayClaim, run_bind]
    rcases hr : ((x.hold budget).run.run []).run with ⟨e | lease, calls⟩
    · simpa [hr] using hcalls
    · cases lease with
      | lost => simpa [hr] using hcalls
      | held remaining deliveryRemaining =>
          exact (h remaining deliveryRemaining (by rw [Held, hr])).elim
  rw [hrun]
  exact hbefore

theorem calls_of_held (h : x.Held budget remaining deliveryRemaining) :
    ∃ before : List (Call ρ), (∀ c ∈ before, c.delivers = false) ∧ (x.run budget).2 =
      before ++ match x.attemptDeadline budget remaining with
        | none => []
        | some attemptDeadline =>
            x.deliveryCalls budget remaining deliveryRemaining attemptDeadline := by
  obtain ⟨before, hbefore, hrun⟩ := run_of_held h
  refine ⟨before, hbefore, ?_⟩
  rw [hrun]
  cases had : x.attemptDeadline budget remaining with
  | none => rw [run_deliver_none x had, List.append_nil]
  | some attemptDeadline =>
      rw [run_deliver x had]
      dsimp only [deliveryCalls]
      split
      · rw [List.append_nil]
      · rw [List.append_assoc]

/-- What a confirmed attempt does inside its lease, over the calls it starts. -/
structure FitsLease (x : Attempt ρ) (budget : DeliveryBudget) (remaining : ℕ)
    (deliveryRemaining : Option ℕ) (calls : List (Call ρ)) : Prop where
  publish_room : ∀ cutoff timeout, .publish cutoff timeout ∈ calls →
    x.clock .elapsed + (budget.publishTimeout + budget.settleTimeout + budget.safetyMargin) <
      x.expiry remaining
  publish_cutoff : ∀ cutoff timeout, .publish cutoff timeout ∈ calls →
    cutoff ≤ x.expiry remaining
  settle_cutoff : ∀ settlement cutoff timeout, .settle settlement cutoff timeout ∈ calls →
    cutoff ≤ x.expiry remaining
  settlement_cutoff : ∀ attemptDeadline,
    x.attemptDeadline budget remaining = some attemptDeadline →
      x.settlementDeadline budget attemptDeadline ≤
        max (x.expiry remaining) (x.clock .attemptDeadline)
  reserve : ∀ cutoff timeout, .publish cutoff timeout ∈ calls → cutoff ≤ x.clock .settlementCap →
    ∃ attemptDeadline, x.attemptDeadline budget remaining = some attemptDeadline ∧
      cutoff + budget.settleTimeout ≤ x.settlementDeadline budget attemptDeadline +
        (x.clock .publishCap - x.clock .attemptDeadline)
  settle_once : calls.countP Call.settles ≤ 1
  settles_iff : (∃ settlement cutoff timeout, .settle settlement cutoff timeout ∈ calls) ↔
    ∃ attemptDeadline, x.attemptDeadline budget remaining = some attemptDeadline ∧
      x.clock .settlementCall < x.settlementDeadline budget attemptDeadline
  deadLetter_iff : ∀ settlement cutoff timeout, .settle settlement cutoff timeout ∈ calls →
    (settlement = .deadLetter ↔ deliveryRemaining = some 0 ∨
      (∃ cutoff timeout, .publish cutoff timeout ∈ calls) ∧
        ∃ outcome, x.publish = some outcome ∧ intoSettlement outcome = .deadLetter)
  retry : ∀ settlement cutoff timeout, .settle settlement cutoff timeout ∈ calls →
    deliveryRemaining ≠ some 0 → (∀ cutoff timeout, .publish cutoff timeout ∉ calls) →
      settlement = .retry

section calls

variable {before : List (Call ρ)} (hbefore : ∀ c ∈ before, c.delivers = false)

include hbefore

theorem mem_publish {cutoff timeout : ℕ} : .publish cutoff timeout ∈
      before ++ x.deliveryCalls budget remaining deliveryRemaining attemptDeadline ↔
    x.Publishes budget remaining deliveryRemaining attemptDeadline ∧
      cutoff = x.publishDeadline budget attemptDeadline ∧
      timeout = cutoff - x.clock .publishCall := by
  have hnot : (.publish cutoff timeout : Call ρ) ∉ before := fun h => by simpa [Call.delivers] using hbefore _ h
  unfold deliveryCalls publishCalls
  split <;> split <;> simp_all

theorem mem_settle {settlement : OutboxSettlement ρ} {cutoff timeout : ℕ} :
    .settle settlement cutoff timeout ∈
      before ++ x.deliveryCalls budget remaining deliveryRemaining attemptDeadline ↔
    x.clock .settlementCall < x.settlementDeadline budget attemptDeadline ∧
      settlement = x.settlement budget remaining deliveryRemaining attemptDeadline ∧
      cutoff = x.settlementDeadline budget attemptDeadline ∧
      timeout = cutoff - x.clock .settlementCall := by
  have hnot : (.settle settlement cutoff timeout : Call ρ) ∉ before :=
    fun h => by simpa [Call.delivers] using hbefore _ h
  unfold deliveryCalls publishCalls
  split <;> split <;> simp_all

theorem countP_settles_before : before.countP Call.settles = 0 := by
  rw [List.countP_eq_zero]
  intro c hc
  have hc := hbefore c hc
  cases c <;> simp_all [Call.delivers, Call.settles]

theorem countP_settles : (before ++ x.deliveryCalls budget remaining deliveryRemaining
    attemptDeadline).countP Call.settles ≤ 1 := by
  unfold deliveryCalls publishCalls
  rw [List.countP_append, countP_settles_before hbefore]
  split <;> split <;> simp [Call.settles]

end calls

theorem settlement_eq_deadLetter :
    x.settlement budget remaining deliveryRemaining attemptDeadline = .deadLetter ↔
      deliveryRemaining = some 0 ∨
        x.Publishes budget remaining deliveryRemaining attemptDeadline ∧
          ∃ outcome, x.publish = some outcome ∧ intoSettlement outcome = .deadLetter := by
  unfold settlement
  by_cases hexpired : deliveryRemaining = some 0
  · simp [hexpired]
  · by_cases hp : x.Publishes budget remaining deliveryRemaining attemptDeadline
    · cases hout : x.publish with
      | none => simp [hexpired, hp, deadlineElapsedPublishOutcome, intoSettlement]
      | some outcome => simp [hexpired, hp]
    · simp [hexpired, hp]

theorem fitsLease (hclock : x.NonDecreasing) (hsteady : x.Steady budget)
    (h : x.Held budget remaining deliveryRemaining) :
    x.FitsLease budget remaining deliveryRemaining (x.run budget).2 := by
  obtain ⟨before, hbefore, hcalls⟩ := calls_of_held h
  rw [hcalls]
  cases had : x.attemptDeadline budget remaining with
  | none =>
      change x.FitsLease budget remaining deliveryRemaining (before ++ [])
      rw [List.append_nil]
      have hpublish (cutoff timeout : ℕ) : (.publish cutoff timeout : Call ρ) ∉ before :=
        fun h => by simpa [Call.delivers] using hbefore _ h
      have hsettle (settlement : OutboxSettlement ρ) (cutoff timeout : ℕ) :
          .settle settlement cutoff timeout ∉ before :=
        fun h => by simpa [Call.delivers] using hbefore _ h
      constructor
      case settle_once => exact (countP_settles_before hbefore).trans_le zero_le_one
      all_goals simp_all
  | some attemptDeadline =>
      constructor
      case publish_room =>
        intro cutoff timeout hmem
        exact ((mem_publish hbefore).mp hmem).1.room hclock
      case publish_cutoff =>
        intro cutoff timeout hmem
        obtain ⟨hp, rfl, -⟩ := (mem_publish hbefore).mp hmem
        have hroom := hp.room hclock
        rw [publishDeadline_eq had]
        rcases attemptDeadline_cases hclock hsteady had with hle | heq
        · omega
        · simp only [Steady] at hsteady
          omega
      case settle_cutoff =>
        intro settlement cutoff timeout hmem
        obtain ⟨hlt, -, rfl, -⟩ := (mem_settle hbefore).mp hmem
        have hlater := hclock .attemptDeadline .settlementCall (by decide)
        rw [settlementDeadline_eq had] at hlt ⊢
        rcases attemptDeadline_cases hclock hsteady had with hle | heq
        · omega
        · omega
      case settlement_cutoff =>
        intro attemptDeadline' had'
        rw [settlementDeadline_eq had']
        rcases attemptDeadline_cases hclock hsteady had' with hle | heq
        · omega
        · omega
      case reserve =>
        intro cutoff timeout hmem hfull
        obtain ⟨hp, rfl, -⟩ := (mem_publish hbefore).mp hmem
        exact ⟨attemptDeadline, had, hp.reserve hclock had hfull⟩
      case settle_once => exact countP_settles hbefore
      case settles_iff => simp [mem_settle hbefore, had]
      case deadLetter_iff =>
        intro settlement cutoff timeout hmem
        obtain ⟨-, rfl, -, -⟩ := (mem_settle hbefore).mp hmem
        simp [settlement_eq_deadLetter, mem_publish hbefore]
      case retry =>
        intro settlement cutoff timeout hmem hopen hnone
        obtain ⟨-, rfl, -, -⟩ := (mem_settle hbefore).mp hmem
        have hp : ¬ x.Publishes budget remaining deliveryRemaining attemptDeadline :=
          fun hp => hnone _ _ ((mem_publish hbefore).mpr ⟨hp, rfl, rfl⟩)
        simp [Attempt.settlement, hopen, hp]

end Attempt

/-! ### The account of a batch -/

def errorOf : Result → Option MessagingErrorKind
  | .error error => some error
  | .ok _ => none

/-- A report over some results beside the first error met before them. -/
theorem foldl_tally (results : List Result) (report : RelayReport)
    (first : Option MessagingErrorKind) :
    results.foldl tally (report, first) =
      (⟨report.claimed, report.published + results.count (.ok (some .published)),
        report.retried + results.count (.ok (some .retry)),
        report.deadLettered + results.count (.ok (some .deadLetter)),
        report.fenced + results.count (.ok none)⟩, first <|> results.findSome? errorOf) := by
  induction results generalizing report first with
  | nil => simp
  | cons result results ih =>
      rcases result with error | _ | _ | _ | _
      · cases first <;> simp [tally, ih, errorOf, List.findSome?_cons]
      all_goals simp [tally, ih, errorOf, List.findSome?_cons, Nat.add_assoc, Nat.add_comm 1]

theorem reportOf_eq (results : List Result) : reportOf results =
    match results.findSome? errorOf with
    | some error => .error error
    | none => .ok ⟨results.length, results.count (.ok (some .published)),
        results.count (.ok (some .retry)), results.count (.ok (some .deadLetter)),
        results.count (.ok none)⟩ := by
  rw [reportOf, foldl_tally]
  cases results.findSome? errorOf with
  | none => simp
  | some error => simp

theorem length_eq_counts {results : List Result} (h : results.findSome? errorOf = none) :
    results.length = results.count (.ok (some .published)) +
      results.count (.ok (some .retry)) + results.count (.ok (some .deadLetter)) +
      results.count (.ok none) := by
  induction results with
  | nil => simp
  | cons result results ih =>
      rw [List.findSome?_cons] at h
      rcases result with error | _ | _ | _ | _
      · simp [errorOf] at h
      all_goals
        have hrest := ih h
        simp
        omega

namespace Batch

variable (b : Batch ρ)

/-- Whatever the order in which the attempts end, their results are read in claim order. -/
theorem results_eq (budget : DeliveryBudget) (claims : List (Attempt ρ)) :
    b.results budget claims = claims.map fun x => (x.run budget).1 := by
  let indexed := (claims.map fun x => (x.run budget).1).zipIdx
  have hperm : ((b.complete indexed).mergeSort fun r s => r.2 ≤ s.2).Perm indexed :=
    (List.mergeSort_perm _ _).trans (b.complete_perm indexed)
  have hsorted : ((b.complete indexed).mergeSort fun r s => r.2 ≤ s.2).Pairwise
      fun r s : Result × ℕ => decide (r.2 ≤ s.2) = true :=
    List.pairwise_mergeSort
      (fun r s t hrs hst => by simp only [decide_eq_true_eq] at *; exact hrs.trans hst)
      (fun r s => by simpa using le_total r.2 s.2) _
  have hindexed : indexed.Pairwise fun r s : Result × ℕ => decide (r.2 ≤ s.2) = true := by
    simp only [decide_eq_true_eq]
    rw [← List.pairwise_map (f := Prod.snd) (R := (· ≤ ·)), List.zipIdx_map_snd]
    exact List.pairwise_le_range'
  -- A place belongs to one claim, so equal places are equal results.
  have hunique (r s : Result × ℕ) (hr : r ∈ indexed) (hs : s ∈ indexed) (h : r.2 = s.2) :
      r = s := by
    have hr' := List.mem_zipIdx_iff_getElem?.mp hr
    have hs' := List.mem_zipIdx_iff_getElem?.mp hs
    rw [h, hs'] at hr'
    exact Prod.ext (Option.some.inj hr').symm h
  have heq : (b.complete indexed).mergeSort (fun r s => r.2 ≤ s.2) = indexed := by
    refine List.Perm.eq_of_pairwise ?_ hsorted hindexed hperm
    intro r s hr hs hrs hsr
    have hrs := of_decide_eq_true hrs
    have hsr := of_decide_eq_true hsr
    exact hunique r s (hperm.mem_iff.mp hr) hs (le_antisymm hrs hsr)
  rw [results, heq]
  exact List.zipIdx_map_fst ..

theorem relayOnce_eq {budget : DeliveryBudget} {claims : List (Attempt ρ)}
    (h : b.claimed budget = .ok claims) :
    b.relayOnce budget = reportOf (claims.map fun x => (x.run budget).1) := by
  rw [relayOnce, h, ← b.results_eq]
  rfl

end Batch

/-- Every attempt of every batch fits the lease its extension reported, and a batch answers
with an exact account of its claims or with their first error. -/
theorem relay_fits_lease (budget : DeliveryBudget) :
    (∀ x : Attempt ρ, x.NonDecreasing → x.Steady budget →
      (∀ remaining deliveryRemaining, x.Held budget remaining deliveryRemaining →
        x.FitsLease budget remaining deliveryRemaining (x.run budget).2) ∧
      ((∀ remaining deliveryRemaining, ¬ x.Held budget remaining deliveryRemaining) →
        ∀ c ∈ (x.run budget).2, c.delivers = false)) ∧
    ∀ b : Batch ρ, ∀ claims, b.claimed budget = .ok claims →
      match (claims.map fun x => (x.run budget).1).findSome? errorOf with
      | some error => b.relayOnce budget = .error error
      | none => ∃ report, b.relayOnce budget = .ok report ∧ report.claimed = claims.length ∧
          report.claimed =
            report.published + report.retried + report.deadLettered + report.fenced := by
  constructor
  · intro x hclock hsteady
    refine ⟨fun remaining deliveryRemaining h => Attempt.fitsLease hclock hsteady h, ?_⟩
    exact Attempt.calls_of_not_held
  · intro b claims hclaims
    rw [b.relayOnce_eq hclaims, reportOf_eq]
    cases herror : (claims.map fun x => (x.run budget).1).findSome? errorOf with
    | some error => rfl
    | none => exact ⟨_, rfl, by simp, length_eq_counts herror⟩

/-- A millisecond for each part of the work. -/
def tight : DeliveryBudget :=
  ⟨4000000, 1000000, 1000000, 1000000, rfl, rfl, rfl, rfl, by decide⟩

/-- The lease ends with the answer of the extension, and the clock moves once after that. -/
def exhausted : Attempt Unit where
  clock := fun r => if r.order ≤ 6 then 0 else 1
  horizon := 1000000000000000000
  leaseStatus := some (.ok (.held 5 none))
  extend := some (.ok (.held 0 none))
  publish := none
  settle := some (.ok ())

/-- A publication that runs to its cutoff after a late cap. -/
def squeezed : Attempt Unit where
  clock := fun r => if r.order ≤ 7 then 0 else if r.order ≤ 9 then 5 else 1000005
  horizon := 1000000000000000000
  leaseStatus := some (.ok (.held 5 none))
  extend := some (.ok (.held 3000001 none))
  publish := none
  settle := some (.ok ())

/-- A publication that is confirmed at once. -/
def confirmed : Attempt Unit where
  clock := fun _ => 0
  horizon := 1000000000000000000
  leaseStatus := some (.ok (.held 5 none))
  extend := some (.ok (.held 4000000 none))
  publish := some (.confirmed ())
  settle := some (.ok ())

/-- A claim whose lease is lost before its attempt. -/
def lapsed : Attempt Unit := { confirmed with leaseStatus := some (.ok .lost) }

theorem exhausted_nonDecreasing : exhausted.NonDecreasing := by
  intro r s h
  simp only [exhausted]
  split <;> split <;> omega

theorem squeezed_nonDecreasing : squeezed.NonDecreasing := by
  intro r s h
  simp only [squeezed]
  grind

/-- A batch whose attempts end in the other order is reported as it is claimed, and one with an
attempt that fails answers with the error. -/
theorem relay_fits_lease_squeezed :
    squeezed.FitsLease tight 3000001 none (squeezed.run tight).2 ∧
      (∃ report, Batch.relayOnce ⟨0, 0, 5000000, some (.ok [squeezed, confirmed, lapsed]),
        List.reverse, List.reverse_perm⟩ tight = .ok report ∧ report.claimed = 3 ∧
          report = ⟨3, 1, 1, 0, 1⟩) ∧
      ∃ error, Batch.relayOnce ⟨0, 0, 5000000, some (.ok [squeezed, exhausted]), id,
        fun _ => .refl _⟩ tight = .error error := by
  have h := @relay_fits_lease Unit tight
  have hsteady : squeezed.Steady tight := by
    unfold Attempt.Steady
    decide
  have hfailed := h.2 ⟨0, 0, 5000000, some (.ok [squeezed, exhausted]), id, fun _ => .refl _⟩
    [squeezed, exhausted] rfl
  obtain ⟨report, hreport, hclaimed, -⟩ := h.2 ⟨0, 0, 5000000,
    some (.ok [squeezed, confirmed, lapsed]), List.reverse, List.reverse_perm⟩
    [squeezed, confirmed, lapsed] rfl
  have heq := hreport
  rw [Batch.relayOnce_eq _ rfl] at heq
  cases heq
  exact ⟨(h.1 squeezed squeezed_nonDecreasing hsteady).1 _ _ rfl, ⟨_, hreport, hclaimed, rfl⟩, _,
    hfailed⟩

/-- An attempt whose lease is used up computes a settlement cutoff after the expiry and starts
no settlement, and a late cap takes from the time of the settlement although no time passed
before the attempt deadline. -/
theorem attempt_outlives_lease :
    (exhausted.NonDecreasing ∧ exhausted.Steady tight ∧ exhausted.Held tight 0 none ∧
      exhausted.attemptDeadline tight 0 = some 1 ∧
      exhausted.expiry 0 < exhausted.settlementDeadline tight 1 ∧
      ∀ c ∈ (exhausted.run tight).2, c.settles = false) ∧
    squeezed.NonDecreasing ∧ squeezed.Held tight 3000001 none ∧
      squeezed.attemptDeadline tight 3000001 = some 2000001 ∧
      .publish 1000005 1000000 ∈ (squeezed.run tight).2 ∧
      squeezed.settlementDeadline tight 2000001 +
        (squeezed.clock .attemptDeadline - squeezed.clock .elapsed) <
          1000005 + tight.settleTimeout := by
  refine ⟨⟨exhausted_nonDecreasing, by unfold Attempt.Steady; decide, rfl, rfl, by decide, ?_⟩,
    squeezed_nonDecreasing, rfl, rfl, ?_, by decide⟩
  · have hrun : (exhausted.run tight).2 = [.leaseStatus 1000000 1000000,
        .extend 1000000 1000000] := rfl
    simp [hrun, Call.settles]
  · have hrun : (squeezed.run tight).2 = [.leaseStatus 1000000 1000000,
        .extend 1000000 1000000, .publish 1000005 1000000,
        .settle .retry 2000001 999996] := rfl
    simp [hrun]

end Rss.Messaging.Relay
