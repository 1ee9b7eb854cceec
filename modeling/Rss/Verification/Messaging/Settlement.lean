import Rss.Library.Runs
import Rss.Model.Messaging.Consumer

/-! # Settling a delivery

What the events so far justify at each point of `consume_once`: the broker's decision, the next
attempt, and how the delivery ends. -/

namespace Rss.Messaging.Consumer

open Rss.Messaging.Inbox (RejectKind Disposition)

variable {x : Execution} {s s' : State} {a : Event} {labels : List Event}

/-! ### Endings -/

/-- The settlement handle is used or let go. -/
def Event.ends : Event → Bool
  | .settle _ | .abandon | .dropped | .deadlines false => true
  | _ => false

/-- The handle was used. -/
def Event.uses : Event → Bool
  | .settle _ | .abandon => true
  | _ => false

/-- The handle is gone. -/
def Control.ended : Control → Bool
  | .settling _ | .abandoning _ | .done _ => true
  | _ => false

theorem ended_finalizeOutcome (o : TransactionOutcome) :
    (finalizeOutcome o).ended = false := by cases o <;> rfl

theorem ended_afterClaim (b : VerifiedConsumerBinding)
    (r : Except MessagingErrorKind IdempotencyDisposition) : (afterClaim b r).ended = false := by
  unfold afterClaim
  split
  · rfl
  · rfl
  · split <;> rfl
  · rfl

theorem ended_afterExtend (policy : LeaseRenewalPolicy)
    (r : Except MessagingErrorKind LeaseStatus) : (afterExtend policy r).ended = false := by
  unfold afterExtend
  split
  · split <;> rfl
  · rfl
  · rfl

theorem ended_afterRelease (r : Except MessagingErrorKind Unit) :
    (afterRelease r).ended = false := by cases r <;> rfl

theorem ended_afterFlow {resume : Flow → Control} (h : ∀ f, (resume f).ended = false)
    (next : Flow ⊕ TransactionOutcome) : (afterFlow resume next).ended = false := by
  cases next with
  | inl flow => exact h flow
  | inr outcome => exact ended_finalizeOutcome outcome

theorem ended_afterRenewal (flow : Flow) (next : Renewal ⊕ RenewalExit) :
    (afterRenewal flow next).ended = false := by
  unfold afterRenewal
  split <;> rfl

/-- The loops never use the handle. -/
theorem FlowStep.not_ends {p : RetryPolicy} {horizon cutoff now : ℕ} {f : Flow}
    {next : Flow ⊕ TransactionOutcome} (h : FlowStep p horizon cutoff now f a next) :
    a.ends = false := by cases h <;> rfl

theorem RenewalStep.not_ends {horizon cutoff now : ℕ} {r : Renewal}
    {next : Renewal ⊕ RenewalExit} (h : RenewalStep horizon cutoff now r a next) :
    a.ends = false := by cases h <;> rfl

/-- A move that ends the delivery starts before its end, any other keeps its side. -/
theorem Move.ended {now operation settlement : ℕ} {c c' : Control}
    (h : Move x now operation settlement c a c') :
    (a.ends = true ∧ c.ended = false ∧ c'.ended = true) ∨
      (a.ends = false ∧ c'.ended = c.ended) := by
  cases h with
  | overflow | settleLate | settle | abandonLate | abandon => exact .inl ⟨rfl, rfl, rfl⟩
  | flow moved => exact .inr ⟨moved.not_ends, ended_afterFlow (fun _ => rfl) _⟩
  | renewal moved => exact .inr ⟨moved.not_ends, ended_afterRenewal _ _⟩
  | alone moved => exact .inr ⟨moved.not_ends, ended_afterFlow (fun _ => rfl) _⟩
  | claimLate | claimed => exact .inr ⟨rfl, ended_afterClaim _ _⟩
  | extendLate | extended => exact .inr ⟨rfl, ended_afterExtend _ _⟩
  | releaseLate | released => exact .inr ⟨rfl, ended_afterRelease _⟩
  | _ => exact .inr ⟨rfl, rfl⟩

theorem Step.ended (h : Step x s a s') :
    (a.ends = true ∧ s.control.ended = false ∧ s'.control.ended = true) ∨
      (a.ends = false ∧ s'.control.ended = s.control.ended) := by
  cases h with
  | deadlines here => exact .inr ⟨rfl, by simp [here, Control.ended]⟩
  | move moved => exact moved.ended
  | pass => exact .inr ⟨rfl, rfl⟩

/-- A delivery ends at most once, and has ended when it is done. -/
theorem countP_ends {now : ℕ} (h : Runs (Step x) (State.initial now) labels s) :
    labels.countP Event.ends = if s.control.ended then 1 else 0 := by
  induction h with
  | nil => rfl
  | snoc _ hstep ih =>
      rw [List.countP_append, ih]
      rcases hstep.ended with ⟨ha, hs, hs'⟩ | ⟨ha, hsame⟩
      · simp [ha, hs, hs']
      · simp [ha, hsame]

/-! ### Decisions -/

/-- The consumer identity and fingerprint of the delivered message. -/
def Execution.binding (x : Execution) : VerifiedConsumerBinding :=
  ⟨⟨x.message.tenantId, x.group, x.message.id, x.message.contract⟩, x.message.fingerprint⟩

/-- Ingress binds exactly what was delivered. -/
theorem verifyIngress_eq_ok {verdict : Except EnvelopeValidationFailure VerifiedIngress}
    {b : VerifiedConsumerBinding}
    (h : verifyIngress verdict x.group x.subscription x.message = .ok b) : b = x.binding := by
  unfold verifyIngress at h
  split at h
  · cases h
  · split at h
    · cases h
    · rename_i hsame
      simp only [Bool.or_eq_true, decide_eq_true_eq, not_or, not_not, ne_eq] at hsame
      obtain ⟨⟨⟨⟨-, htenant⟩, hid⟩, hcontract⟩, -⟩ := hsame
      rw [← Except.ok.inj h, htenant, hid, hcontract]
      rfl

/-- A terminal result of this delivery, reported by its own transaction or found in the inbox. -/
def Concluded (x : Execution) (labels : List Event) (d : Disposition) : Prop :=
  ∃ receipt : TerminalReceipt, receipt.disposition = d ∧
    (.reported (.committed receipt) ∈ labels ∨
      (.claimed (.ok (.terminal receipt)) ∈ labels ∧ receipt.matches x.binding = true))

/-- What must have happened before a decision is sent. -/
def Authorized (x : Execution) (labels : List Event) : SettlementKind → Prop
  | .acknowledge => Concluded x labels .succeeded
  | .reject =>
      (∃ reason, .verified (.error reason) ∈ labels) ∨
      (∃ receipt : TerminalReceipt, .claimed (.ok (.terminal receipt)) ∈ labels ∧
        receipt.matches x.binding = false) ∨
      ∃ kind, Concluded x labels (.rejected kind)
  | .requeue => .claimed (.ok .inProgress) ∈ labels ∨ .released (.ok ()) ∈ labels

theorem Concluded.mono {labels' : List Event} {d : Disposition} (h : Concluded x labels d)
    (hsub : labels ⊆ labels') : Concluded x labels' d := by
  obtain ⟨receipt, hd, hreported | ⟨hclaimed, hmatches⟩⟩ := h
  · exact ⟨receipt, hd, .inl (hsub hreported)⟩
  · exact ⟨receipt, hd, .inr ⟨hsub hclaimed, hmatches⟩⟩

theorem Authorized.mono {labels' : List Event} {kind : SettlementKind}
    (h : Authorized x labels kind) (hsub : labels ⊆ labels') : Authorized x labels' kind := by
  cases kind with
  | acknowledge => exact Concluded.mono h hsub
  | requeue => exact h.imp (fun h => hsub h) (fun h => hsub h)
  | reject =>
      refine h.imp (fun ⟨reason, h⟩ => ⟨reason, hsub h⟩) (Or.imp ?_ ?_)
      · rintro ⟨receipt, hclaimed, hmatches⟩
        exact ⟨receipt, hsub hclaimed, hmatches⟩
      · rintro ⟨kind, hconcluded⟩
        exact ⟨kind, hconcluded.mono hsub⟩

theorem Concluded.authorizes {d : Disposition} (h : Concluded x labels d) :
    Authorized x labels (settlementForDisposition d) := by
  cases d with
  | succeeded => exact h
  | rejected kind => exact .inr (.inr ⟨kind, h⟩)

/-- The evidence a point of the machine rests on. -/
structure Justified (x : Execution) (labels : List Event) (c : Control) : Prop where
  bound : ∀ b, c = .claimCall b ∨ c = .claiming b → b = x.binding
  authorized : ∀ kind d, c = .settleCall kind d → Authorized x labels kind

theorem Justified.mono {labels' : List Event} {c : Control} (h : Justified x labels c)
    (hsub : labels ⊆ labels') : Justified x labels' c :=
  ⟨h.bound, fun kind d hc => (h.authorized kind d hc).mono hsub⟩

/-- A point that neither claims nor settles needs no evidence. -/
theorem Justified.of_free {c : Control} (hclaim : ∀ b, c ≠ .claimCall b ∧ c ≠ .claiming b)
    (hsettle : ∀ kind d, c ≠ .settleCall kind d) : Justified x labels c :=
  ⟨fun b h => absurd h (not_or.mpr (hclaim b)), fun kind d h => absurd h (hsettle kind d)⟩

theorem Justified.finalizeOutcome {o : TransactionOutcome} (h : .reported o ∈ labels) :
    Justified x labels (finalizeOutcome o) := by
  cases o with
  | committed receipt =>
      refine ⟨by simp [Consumer.finalizeOutcome], ?_⟩
      rintro kind d ⟨⟩
      exact Concluded.authorizes ⟨receipt, rfl, .inl h⟩
  | _ => exact .of_free (by simp [Consumer.finalizeOutcome]) (by simp [Consumer.finalizeOutcome])

theorem Justified.afterClaim {r : Except MessagingErrorKind IdempotencyDisposition}
    (h : .claimed r ∈ labels) : Justified x labels (afterClaim x.binding r) := by
  match r with
  | .error kind => exact .of_free (by simp [Consumer.afterClaim]) (by simp [Consumer.afterClaim])
  | .ok .acquired => exact .of_free (by simp [Consumer.afterClaim]) (by simp [Consumer.afterClaim])
  | .ok .inProgress =>
      refine ⟨by simp [Consumer.afterClaim], ?_⟩
      rintro kind d ⟨⟩
      exact .inl h
  | .ok (.terminal receipt) =>
      cases hmatches : receipt.matches x.binding with
      | true =>
          simp only [Consumer.afterClaim, validateTerminal, hmatches, if_true]
          refine ⟨by simp, ?_⟩
          rintro kind d ⟨⟩
          exact Concluded.authorizes ⟨receipt, rfl, .inr ⟨h, hmatches⟩⟩
      | false =>
          simp only [Consumer.afterClaim, validateTerminal, hmatches]
          refine ⟨by simp, ?_⟩
          rintro kind d ⟨⟩
          exact .inr (.inl ⟨receipt, h, hmatches⟩)

/-! ### Attempts -/

def Event.isExecuted : Event → Bool
  | .executed => true
  | _ => false

/-- How many transactions were started. -/
def executions (labels : List Event) : ℕ := labels.countP Event.isExecuted

/-- The last transaction started, if any, was reported as transient and without effect. -/
def Resolved (labels : List Event) : Prop :=
  ∀ before after : List Event, labels = before ++ .executed :: after → .executed ∉ after →
    ∃ o, .reported o ∈ after ∧ o.mayRetry = true

theorem executions_snoc (labels : List Event) (a : Event) :
    executions (labels ++ [a]) = executions labels + if a.isExecuted then 1 else 0 := by
  cases h : a.isExecuted <;> simp [executions, List.countP_append, h]

/-- A last label that starts no transaction belongs to what follows the last one started. -/
theorem split_snoc {before after : List Event} (h : labels ++ [a] = before ++ .executed :: after)
    (ha : a.isExecuted = false) :
    ∃ rest, after = rest ++ [a] ∧ labels = before ++ .executed :: rest := by
  rcases List.eq_nil_or_concat after with rfl | ⟨rest, last, rfl⟩
  · obtain ⟨-, hlast⟩ := List.append_inj' h rfl
    obtain rfl := List.singleton_inj.mp hlast
    cases ha
  · rw [List.concat_eq_append, ← List.cons_append, ← List.append_assoc] at h
    obtain ⟨hlabels, hlast⟩ := List.append_inj' h rfl
    obtain rfl := List.singleton_inj.mp hlast
    exact ⟨rest, List.concat_eq_append, hlabels⟩

theorem Resolved.nil : Resolved [] := by
  intro before after h
  simp at h

theorem Resolved.snoc (h : Resolved labels) (ha : a.isExecuted = false) :
    Resolved (labels ++ [a]) := by
  intro before after hsplit hnone
  obtain ⟨rest, rfl, hlabels⟩ := split_snoc hsplit ha
  obtain ⟨o, ho, hretry⟩ := h before rest hlabels (fun hmem => hnone (by simp [hmem]))
  exact ⟨o, by simp [ho], hretry⟩

/-- A transient report resolves whatever was started. -/
theorem Resolved.of_reported {o : TransactionOutcome} (ho : o.mayRetry = true) :
    Resolved (labels ++ [.reported o]) := by
  intro before after hsplit _
  obtain ⟨rest, rfl, -⟩ := split_snoc hsplit rfl
  exact ⟨o, by simp, ho⟩

def Flow.attempt : Flow → ℕ
  | .entering n | .calling n | .executing n | .backingOff n _ | .arming n _ | .resting n _ _
  | .sleeping n _ _ => n

/-- The report a further attempt is being prepared after. -/
def Flow.report : Flow → Option TransactionOutcome
  | .backingOff _ o | .arming _ o | .resting _ o _ | .sleeping _ o _ => some o
  | _ => none

/-- How many transactions the loop may have started. -/
def Flow.started : Flow → ℕ
  | .entering n | .calling n => n - 1
  | f => f.attempt

def Flow.isExecuting : Flow → Bool
  | .executing _ => true
  | _ => false

structure Flow.Sound (p : RetryPolicy) (labels : List Event) (f : Flow) : Prop where
  attempt_pos : 0 < f.attempt
  attempt_le : f.attempt ≤ p.maxAttempts
  retry : ∀ o ∈ f.report, o.mayRetry = true ∧ nextAttempt f.attempt ≤ p.maxAttempts
  started : executions labels ≤ f.started
  resolved : f.isExecuting = false → Resolved labels

theorem Flow.Sound.executions_le {p : RetryPolicy} {f : Flow} (h : f.Sound p labels) :
    executions labels ≤ p.maxAttempts := by
  have hstarted : f.started ≤ f.attempt := by
    cases f <;> simp [Flow.started, Flow.attempt]
  exact (h.started.trans hstarted).trans h.attempt_le

theorem Flow.Sound.enter {p : RetryPolicy} (h : executions labels = 0) (hr : Resolved labels) :
    (Flow.entering 1).Sound p labels :=
  ⟨Nat.one_pos, p.attempts_pos, by simp [Flow.report], by simp [Flow.started, h], fun _ => hr⟩

/-- An outcome with which the loop returns: just reported, or without effect. -/
def Returns (labels : List Event) (o : TransactionOutcome) : Prop :=
  .reported o ∈ labels ∨ ∃ failure, o = .notStarted failure ∨ o = .rolledBack failure

theorem Returns.of_mayRetry {o : TransactionOutcome} (h : o.mayRetry = true) : Returns labels o := by
  unfold TransactionOutcome.mayRetry at h
  split at h
  · exact .inr ⟨_, .inl rfl⟩
  · exact .inr ⟨_, .inr rfl⟩
  · cases h

/-- After a report the loop prepares the next attempt or returns it. -/
theorem Flow.Sound.judge {p : RetryPolicy} {n : ℕ} {o : TransactionOutcome} (hpos : 0 < n)
    (hle : n ≤ p.maxAttempts) (hstarted : executions labels ≤ n) :
    (∀ f ∈ (Flow.judge p n o).getLeft?, f.Sound p (labels ++ [.reported o])) ∧
      ∀ o' ∈ (Flow.judge p n o).getRight?, o' = o := by
  unfold Flow.judge
  split
  · exact ⟨by simp, by simp⟩
  · rename_i hretry
    simp only [Bool.or_eq_true, not_or, Bool.not_eq_true, Bool.not_eq_false'] at hretry
    refine ⟨?_, by simp⟩
    rintro f ⟨⟩
    refine ⟨hpos, hle, ?_, ?_, fun _ => .of_reported hretry.1⟩
    · rintro _ ⟨⟩
      exact ⟨hretry.1, of_decide_eq_true hretry.2⟩
    · simpa [executions_snoc, Event.isExecuted, Flow.started, Flow.attempt] using hstarted

/-- Between two reports the loop keeps its attempt. -/
theorem Flow.Sound.internal {p : RetryPolicy} {f f' : Flow} (h : f.Sound p labels)
    (hf : f.isExecuting = false) (hattempt : f'.attempt = f.attempt)
    (hreport : f'.report = f.report) (hstarted : f'.started = f.started) :
    f'.Sound p (labels ++ [.internal]) where
  attempt_pos := hattempt ▸ h.attempt_pos
  attempt_le := hattempt ▸ h.attempt_le
  retry := by
    rw [hreport, hattempt]
    exact h.retry
  started := by
    rw [executions_snoc, hstarted]
    exact h.started
  resolved _ := (h.resolved hf).snoc rfl

theorem nextAttempt_eq {p : RetryPolicy} {n : ℕ} (h : n ≤ p.maxAttempts) :
    nextAttempt n = n + 1 := by
  have := p.attempts_le
  simp only [nextAttempt]
  omega

theorem FlowStep.sound {p : RetryPolicy} {horizon cutoff now : ℕ} {f : Flow}
    {next : Flow ⊕ TransactionOutcome} (hstep : FlowStep p horizon cutoff now f a next)
    (h : f.Sound p labels) :
    (∀ f' ∈ next.getLeft?, f'.Sound p (labels ++ [a])) ∧
      (∀ o ∈ next.getRight?, Returns (labels ++ [a]) o) ∧
      executions (labels ++ [a]) ≤ p.maxAttempts := by
  have hle : a.isExecuted = false → executions (labels ++ [a]) ≤ p.maxAttempts := by
    intro ha
    simpa [executions_snoc, ha] using h.executions_le
  have hjudge : ∀ {n : ℕ} {o : TransactionOutcome}, f.attempt = n → f.started ≤ n →
      a = .reported o → next = Flow.judge p n o →
      (∀ f' ∈ next.getLeft?, f'.Sound p (labels ++ [a])) ∧
        (∀ o ∈ next.getRight?, Returns (labels ++ [a]) o) ∧
        executions (labels ++ [a]) ≤ p.maxAttempts := by
    rintro n o rfl hn rfl rfl
    have hjudged := @Flow.Sound.judge labels p f.attempt o h.attempt_pos h.attempt_le
      (h.started.trans hn)
    refine ⟨hjudged.1, fun o' ho' => ?_, hle rfl⟩
    obtain rfl := hjudged.2 o' ho'
    exact .inl (by simp)
  cases hstep with
  | expire late => exact ⟨by simp, by simp [Returns], hle rfl⟩
  | enter early =>
      refine ⟨?_, by simp, hle rfl⟩
      rintro _ ⟨⟩
      exact h.internal rfl rfl rfl rfl
  | refuse late => exact hjudge rfl (Nat.sub_le _ _) rfl rfl
  | @call n early =>
      have hone : executions (labels ++ [.executed]) ≤ n := by
        have hstarted : executions labels ≤ n - 1 := h.started
        have hpos : 0 < n := h.attempt_pos
        simp only [executions_snoc, Event.isExecuted, if_true]
        omega
      refine ⟨?_, by simp, hone.trans h.attempt_le⟩
      rintro _ ⟨⟩
      exact ⟨h.attempt_pos, h.attempt_le, by simp [Flow.report], hone, by simp [Flow.isExecuting]⟩
  | answer outcome => exact hjudge rfl le_rfl rfl rfl
  | timeout late => exact hjudge rfl le_rfl rfl rfl
  | exhausted short =>
      refine ⟨by simp, ?_, hle rfl⟩
      rintro _ ⟨⟩
      exact .of_mayRetry (h.retry _ rfl).1
  | again enough =>
      refine ⟨?_, by simp, hle rfl⟩
      rintro _ ⟨⟩
      exact h.internal rfl rfl rfl rfl
  | arm =>
      refine ⟨?_, by simp, hle rfl⟩
      rintro _ ⟨⟩
      exact h.internal rfl rfl rfl rfl
  | restless late =>
      refine ⟨by simp, ?_, hle rfl⟩
      rintro _ ⟨⟩
      exact .of_mayRetry (h.retry _ rfl).1
  | rest early =>
      refine ⟨?_, by simp, hle rfl⟩
      rintro _ ⟨⟩
      exact h.internal rfl rfl rfl rfl
  | overslept late =>
      refine ⟨by simp, ?_, hle rfl⟩
      rintro _ ⟨⟩
      exact .of_mayRetry (h.retry _ rfl).1
  | @woken n outcome wake due =>
      have hnext : nextAttempt n = n + 1 := nextAttempt_eq h.attempt_le
      refine ⟨?_, by simp, hle rfl⟩
      rintro _ ⟨⟩
      refine ⟨by simp [Flow.attempt, hnext], (h.retry _ rfl).2, by simp [Flow.report], ?_,
        fun _ => (h.resolved rfl).snoc rfl⟩
      have hstarted : executions labels ≤ n := h.started
      simpa [executions_snoc, Event.isExecuted, Flow.started, hnext] using hstarted

theorem RenewalStep.not_executed {horizon cutoff now : ℕ} {r : Renewal}
    {next : Renewal ⊕ RenewalExit} (h : RenewalStep horizon cutoff now r a next) :
    a.isExecuted = false := by cases h <;> rfl

/-! ### Points of the machine -/

/-- The transaction loop, where it runs. -/
def Control.flow? : Control → Option Flow
  | .racing f _ | .alone f => some f
  | _ => none

/-- Before the race. -/
def Control.early : Control → Bool
  | .starting | .verifying | .claimCall _ | .claiming _ | .extendCall | .extending => true
  | _ => false

structure Paced (x : Execution) (labels : List Event) (c : Control) : Prop where
  executions_le : executions labels ≤ x.retry.maxAttempts
  fresh : c.early = true → executions labels = 0 ∧ Resolved labels
  flow : ∀ f, c.flow? = some f → f.Sound x.retry labels

/-- A frame rule: a label that starts nothing, and a point that is no earlier and runs the loop
as before. -/
theorem Paced.snoc {c c' : Control} (h : Paced x labels c) (ha : a.isExecuted = false)
    (hearly : c'.early = true → c.early = true)
    (hflow : ∀ f, c'.flow? = some f → f.Sound x.retry (labels ++ [a])) :
    Paced x (labels ++ [a]) c' where
  executions_le := by simpa [executions_snoc, ha] using h.executions_le
  fresh he := by
    obtain ⟨hzero, hresolved⟩ := h.fresh (hearly he)
    exact ⟨by simp [executions_snoc, ha, hzero], hresolved.snoc ha⟩
  flow := hflow

theorem Flow.Sound.snoc {p : RetryPolicy} {f : Flow} (h : f.Sound p labels)
    (ha : a.isExecuted = false) : f.Sound p (labels ++ [a]) where
  attempt_pos := h.attempt_pos
  attempt_le := h.attempt_le
  retry := h.retry
  started := by simpa [executions_snoc, ha] using h.started
  resolved hf := (h.resolved hf).snoc ha

theorem finalizeOutcome_flow (o : TransactionOutcome) :
    (finalizeOutcome o).flow? = none ∧ (finalizeOutcome o).early = false := by
  cases o <;> exact ⟨rfl, rfl⟩

theorem afterClaim_flow (b : VerifiedConsumerBinding)
    (r : Except MessagingErrorKind IdempotencyDisposition) : (afterClaim b r).flow? = none := by
  unfold afterClaim
  split
  · rfl
  · rfl
  · split <;> rfl
  · rfl

/-- An outcome without effect leads to the release of the claim, any other was reported. -/
theorem Justified.of_returns {o : TransactionOutcome} (h : Returns labels o) :
    Justified x labels (Consumer.finalizeOutcome o) := by
  rcases h with hreported | ⟨failure, rfl | rfl⟩
  · exact .finalizeOutcome hreported
  · exact .of_free (by simp [Consumer.finalizeOutcome]) (by simp [Consumer.finalizeOutcome])
  · exact .of_free (by simp [Consumer.finalizeOutcome]) (by simp [Consumer.finalizeOutcome])

/-- A step of the transaction loop, in the race or alone. -/
theorem FlowStep.afterFlow {horizon cutoff now : ℕ} {f : Flow} {next : Flow ⊕ TransactionOutcome}
    {resume : Flow → Control} (hstep : FlowStep x.retry horizon cutoff now f a next)
    (h : f.Sound x.retry labels)
    (hresume : ∀ f, (resume f).flow? = some f ∧ (resume f).early = false ∧
      (∀ b, resume f ≠ .claimCall b ∧ resume f ≠ .claiming b) ∧
      ∀ kind d, resume f ≠ .settleCall kind d) :
    Justified x (labels ++ [a]) (Consumer.afterFlow resume next) ∧
      Paced x (labels ++ [a]) (Consumer.afterFlow resume next) := by
  obtain ⟨hsound, hreturns, hle⟩ := hstep.sound h
  cases next with
  | inl f' =>
      obtain ⟨hflow, hearly, hclaim, hsettle⟩ := hresume f'
      refine ⟨.of_free hclaim hsettle, hle, ?_, ?_⟩
      · simp [Consumer.afterFlow, hearly]
      · rintro g hg
        obtain rfl : f' = g := by simpa [Consumer.afterFlow, hflow] using hg
        exact hsound f' rfl
  | inr o =>
      refine ⟨.of_returns (hreturns o rfl), hle, ?_, ?_⟩
      · simp [Consumer.afterFlow, (finalizeOutcome_flow o).2]
      · simp [Consumer.afterFlow, (finalizeOutcome_flow o).1]

/-- A point that claims nothing, settles nothing and runs no loop. -/
theorem inv_of_quiet {c c' : Control} (h : Paced x labels c) (ha : a.isExecuted = false)
    (hearly : c'.early = true → c.early = true) (hflow : c'.flow? = none)
    (hclaim : ∀ b, c' ≠ .claimCall b ∧ c' ≠ .claiming b)
    (hsettle : ∀ kind d, c' ≠ .settleCall kind d) :
    Justified x (labels ++ [a]) c' ∧ Paced x (labels ++ [a]) c' :=
  ⟨.of_free hclaim hsettle, h.snoc ha hearly (by simp [hflow])⟩

theorem inv_of_abandon {c : Control} {result : Return} (h : Paced x labels c)
    (ha : a.isExecuted = false) :
    Justified x (labels ++ [a]) (.abandonCall result) ∧
      Paced x (labels ++ [a]) (.abandonCall result) :=
  inv_of_quiet h ha (by simp [Control.early]) rfl (by simp) (by simp)

theorem Move.inv {now operation settlement : ℕ} {c c' : Control}
    (hmove : Move x now operation settlement c a c') (hj : Justified x labels c)
    (hp : Paced x labels c) : Justified x (labels ++ [a]) c' ∧ Paced x (labels ++ [a]) c' := by
  cases hmove with
  | verify verdict accepted =>
      refine ⟨⟨?_, by simp⟩, hp.snoc rfl (fun _ => rfl) (by simp [Control.flow?])⟩
      rintro b (⟨⟨⟩⟩ | h)
      · exact verifyIngress_eq_ok accepted
      · cases h
  | reject verdict refused =>
      refine ⟨⟨by simp, ?_⟩, hp.snoc rfl (by simp [Control.early]) (by simp [Control.flow?])⟩
      rintro kind d ⟨⟩
      exact .inl ⟨_, List.mem_append_right _ (List.mem_singleton_self _)⟩
  | claimLate late => exact inv_of_abandon hp rfl
  | @claim binding early =>
      refine ⟨⟨?_, by simp⟩, hp.snoc rfl (fun _ => rfl) (by simp [Control.flow?])⟩
      rintro b (h | ⟨⟨⟩⟩)
      · cases h
      · exact hj.bound binding (.inl rfl)
  | @claimed binding result =>
      obtain rfl := hj.bound binding (.inr rfl)
      exact ⟨.afterClaim (by simp), hp.snoc rfl (fun _ => rfl) (by simp [afterClaim_flow])⟩
  | extendLate late => exact inv_of_abandon hp rfl
  | extend early => exact inv_of_quiet hp rfl (fun _ => rfl) rfl (by simp) (by simp)
  | @extended policy result =>
      unfold afterExtend
      split
      · split
        · refine ⟨.of_free (by simp) (by simp), hp.snoc rfl (by simp [Control.early]) ?_⟩
          rintro f ⟨⟩
          obtain ⟨hzero, hresolved⟩ := hp.fresh rfl
          exact .enter (by simp [executions_snoc, hzero, Event.isExecuted]) (hresolved.snoc rfl)
        · exact inv_of_abandon hp rfl
      · exact inv_of_abandon hp rfl
      · exact inv_of_abandon hp rfl
  | flow moved => exact moved.afterFlow (hp.flow _ rfl) (fun f => ⟨rfl, rfl, by simp, by simp⟩)
  | alone moved => exact moved.afterFlow (hp.flow _ rfl) (fun f => ⟨rfl, rfl, by simp, by simp⟩)
  | @renewal flow renewal a next moved =>
      have ha := moved.not_executed
      have hflow := (hp.flow flow rfl).snoc ha
      unfold afterRenewal
      split
      · refine ⟨.of_free (by simp) (by simp), hp.snoc ha (by simp [Control.early]) ?_⟩
        rintro f ⟨⟩
        exact hflow
      · refine ⟨.of_free (by simp) (by simp), hp.snoc ha (by simp [Control.early]) ?_⟩
        rintro f ⟨⟩
        exact hflow
      · exact inv_of_abandon hp ha
      · exact inv_of_abandon hp ha
  | releaseLate late => exact inv_of_abandon hp rfl
  | released result =>
      cases result with
      | ok u =>
          refine ⟨⟨by simp [afterRelease], ?_⟩,
            hp.snoc rfl (by simp [afterRelease, Control.early]) (by simp [afterRelease, Control.flow?])⟩
          rintro kind d ⟨⟩
          exact .inr (by simp)
      | error kind => exact inv_of_abandon hp rfl
  | _ => exact inv_of_quiet hp rfl (by simp [Control.early]) rfl (by simp) (by simp)

theorem Step.inv (hstep : Step x s a s') (hj : Justified x labels s.control)
    (hp : Paced x labels s.control) :
    Justified x (labels ++ [a]) s'.control ∧ Paced x (labels ++ [a]) s'.control := by
  cases hstep with
  | deadlines here =>
      rw [here] at hp
      exact inv_of_quiet hp rfl (fun _ => rfl) rfl (by simp) (by simp)
  | move moved => exact moved.inv hj hp
  | pass => exact ⟨hj.mono (by simp), hp.snoc rfl id (fun f hf => (hp.flow f hf).snoc rfl)⟩

/-- The evidence and the pace of every point a delivery reaches. -/
theorem inv_of_runs {now : ℕ} (h : Runs (Step x) (State.initial now) labels s) :
    Justified x labels s.control ∧ Paced x labels s.control := by
  induction h with
  | nil => exact ⟨.of_free (by simp [State.initial]) (by simp [State.initial]),
      Nat.zero_le _, fun _ => ⟨rfl, .nil⟩, by simp [State.initial, Control.flow?]⟩
  | snoc _ hstep ih => exact hstep.inv ih.1 ih.2

/-! ### Uncertain outcomes -/

/-- Outcomes after which nothing is known or owned. -/
def TransactionOutcome.uncertain : TransactionOutcome → Bool
  | .rollbackFailed | .commitUnknown | .fenced => true
  | _ => false

theorem finalizeOutcome_uncertain {o : TransactionOutcome} (h : o.uncertain = true) :
    ∃ result, finalizeOutcome o = .abandonCall result := by
  cases o with
  | rollbackFailed | commitUnknown | fenced => exact ⟨_, rfl⟩
  | _ => cases h

theorem Flow.judge_uncertain {p : RetryPolicy} {n : ℕ} {o : TransactionOutcome}
    (h : o.uncertain = true) : Flow.judge p n o = .inr o := by
  cases o with
  | rollbackFailed | commitUnknown | fenced => rfl
  | _ => cases h

theorem FlowStep.reported {p : RetryPolicy} {horizon cutoff now : ℕ} {f : Flow}
    {o : TransactionOutcome} {next : Flow ⊕ TransactionOutcome}
    (h : FlowStep p horizon cutoff now f (.reported o) next) (ho : o.uncertain = true) :
    next = .inr o := by
  cases h <;> exact Flow.judge_uncertain ho

/-- An uncertain report ends the race for good. -/
theorem Step.reported {o : TransactionOutcome} (h : Step x s (.reported o) s')
    (ho : o.uncertain = true) : ∃ result, s'.control = .abandonCall result := by
  obtain ⟨result, hresult⟩ := finalizeOutcome_uncertain ho
  cases h with
  | @move _ c moved =>
      refine ⟨result, ?_⟩
      generalize s.control = c₀ at moved
      cases moved with
      | flow moved => rw [moved.reported ho]; exact hresult
      | alone moved => rw [moved.reported ho]; exact hresult
      | renewal moved => cases moved

/-- What can still happen to a delivery that is to be abandoned. -/
def Abandons (labels : List Event) : Control → Prop
  | .abandonCall _ => True
  | .abandoning _ => .abandon ∈ labels
  | .done _ => .abandon ∈ labels ∨ .dropped ∈ labels
  | _ => False

theorem Step.abandons (h : Step x s a s') (hs : Abandons labels s.control) :
    Abandons (labels ++ [a]) s'.control ∧ a ≠ .executed ∧ ∀ kind, a ≠ .settle kind := by
  cases h with
  | deadlines here => simp [here, Abandons] at hs
  | move moved =>
      generalize s.control = c at moved hs
      cases moved with
      | abandonLate late => exact ⟨.inr (by simp), by simp, by simp⟩
      | abandon early => exact ⟨List.mem_append_right _ (List.mem_singleton_self _), by simp, by simp⟩
      | abandoned answer => exact ⟨.inl (List.mem_append_left _ hs), by simp, by simp⟩
      | _ => exact hs.elim
  | pass elapsed =>
      refine ⟨?_, by simp, by simp⟩
      revert hs
      cases s.control with
      | abandonCall result => exact id
      | abandoning result => exact List.mem_append_left _
      | done result => exact Or.imp (List.mem_append_left _) (List.mem_append_left _)
      | _ => exact False.elim

theorem abandons_of_runs (h : Runs (Step x) s labels s') (hs : Abandons [] s.control) :
    Abandons labels s'.control ∧ .executed ∉ labels ∧ ∀ kind, .settle kind ∉ labels := by
  induction h with
  | nil => exact ⟨hs, by simp, by simp⟩
  | snoc _ hstep ih =>
      obtain ⟨hab, hexecuted, hsettle⟩ := ih
      obtain ⟨hab', ha, hkind⟩ := hstep.abandons hab
      refine ⟨hab', ?_, fun kind => ?_⟩
      · simpa [hexecuted] using Ne.symm ha
      · simpa [hsettle kind] using Ne.symm (hkind kind)

/-! ### The end of a delivery -/

/-- The provider was asked, answered, or a decision was taken; not only time passed. -/
def Event.works : Event → Bool
  | .passed => false
  | _ => true

/-- Moves the renewal loop has left before its cutoff. A renewal takes five, and the next one
is due an interval later. -/
def Renewal.rank (cutoff now : ℕ) : Renewal → ℕ
  | .arming => 5 * (cutoff - now) + 4
  | .resting wake => if wake < cutoff then 5 * (cutoff - wake) + 8 else 3
  | .sleeping wake => if wake < cutoff then 5 * (cutoff - wake) + 7 else 2
  | .calling => if now < cutoff then 5 * (cutoff - now) + 6 else 1
  | .extending => 5 * (cutoff - now) + 5

/-- Moves the transaction loop has left; an attempt takes at most seven. -/
def Flow.rank (p : RetryPolicy) : Flow → ℕ
  | .entering n => 7 * (p.maxAttempts - n) + 7
  | .calling n => 7 * (p.maxAttempts - n) + 6
  | .executing n => 7 * (p.maxAttempts - n) + 5
  | .backingOff n _ => 7 * (p.maxAttempts - n) + 4
  | .arming n _ => 7 * (p.maxAttempts - n) + 3
  | .resting n _ _ => 7 * (p.maxAttempts - n) + 2
  | .sleeping n _ _ => 7 * (p.maxAttempts - n) + 1

/-- Moves a race has left that begins now. -/
def Execution.race (x : Execution) (remaining : ℕ) : ℕ :=
  6 + 7 * x.retry.maxAttempts + (5 * remaining + 4)

/-- Moves a delivery has left, at an instant and under the operation cutoff. -/
def Control.rank (x : Execution) (operation now : ℕ) : Control → ℕ
  | .done _ => 0
  | .settling _ | .abandoning _ => 1
  | .settleCall _ _ | .abandonCall _ => 2
  | .releasing => 3
  | .releaseCall => 4
  | .alone f => 5 + f.rank x.retry
  | .racing f r => 6 + f.rank x.retry + r.rank operation now
  | .extending => 1 + x.race (operation - now)
  | .extendCall => 2 + x.race (operation - now)
  | .claiming _ => 3 + x.race (operation - now)
  | .claimCall _ => 4 + x.race (operation - now)
  | .verifying => 5 + x.race (operation - now)
  | .starting => 6 + x.race (x.budget.total - x.budget.settlementReserve)

theorem capped_cases {horizon cutoff now cap : ℕ} (hcap : 0 < cap) :
    now < capped horizon cutoff now cap ∨ capped horizon cutoff now cap = cutoff := by
  unfold capped
  split <;> omega

theorem RenewalStep.rank_lt {horizon cutoff now : ℕ} {r r' : Renewal}
    (h : RenewalStep horizon cutoff now r a (.inl r')) :
    r'.rank cutoff now < r.rank cutoff now := by
  cases h with
  | arm policy =>
      have hinterval : 0 < policy.interval := by
        simp only [LeaseRenewalPolicy.interval]
        omega
      have hwake := @capped_cases horizon cutoff now _ hinterval
      simp only [Renewal.rank]
      split <;> omega
  | rest early =>
      simp only [Renewal.rank]
      split <;> omega
  | woken due =>
      simp only [Renewal.rank]
      split <;> split <;> omega
  | call early =>
      simp only [Renewal.rank]
      split <;> omega
  | held fits =>
      simp only [Renewal.rank]
      omega

theorem Flow.judge_rank {p : RetryPolicy} {n : ℕ} {o : TransactionOutcome} {f : Flow}
    (h : .inl f = Flow.judge p n o) : f.rank p = 7 * (p.maxAttempts - n) + 4 := by
  unfold Flow.judge at h
  split at h
  · cases h
  · cases h
    rfl

theorem FlowStep.rank_lt {p : RetryPolicy} {horizon cutoff now : ℕ} {f f' : Flow}
    (h : FlowStep p horizon cutoff now f a (.inl f')) (hsound : f.Sound p labels) :
    f'.rank p < f.rank p := by
  generalize hnext : (Sum.inl f' : Flow ⊕ TransactionOutcome) = next at h
  cases h with
  | refuse late =>
      rw [Flow.judge_rank hnext]
      simp only [Flow.rank]
      omega
  | answer outcome =>
      rw [Flow.judge_rank hnext]
      simp only [Flow.rank]
      omega
  | timeout late =>
      rw [Flow.judge_rank hnext]
      simp only [Flow.rank]
      omega
  | @woken n outcome wake due =>
      cases hnext
      have hretry := (hsound.retry outcome rfl).2
      have hattempt : nextAttempt n = n + 1 := nextAttempt_eq hsound.attempt_le
      simp only [Flow.attempt, hattempt] at hretry
      simp only [Flow.rank, hattempt]
      omega
  | expire | exhausted | restless | overslept => cases hnext
  | enter | call | again | arm | rest =>
      cases hnext
      simp [Flow.rank]

theorem finalizeOutcome_rank (operation now : ℕ) (o : TransactionOutcome) :
    (finalizeOutcome o).rank x operation now ≤ 4 := by
  cases o <;> simp [finalizeOutcome, Control.rank]

theorem afterClaim_rank (operation now : ℕ) (b : VerifiedConsumerBinding)
    (r : Except MessagingErrorKind IdempotencyDisposition) :
    (afterClaim b r).rank x operation now ≤ 2 + x.race (operation - now) := by
  unfold afterClaim
  split
  · simp [Control.rank]
  · simp [Control.rank]
  · split <;> simp [Control.rank]
  · simp [Control.rank]

theorem afterExtend_rank (operation now : ℕ) (policy : LeaseRenewalPolicy)
    (r : Except MessagingErrorKind LeaseStatus) :
    (afterExtend policy r).rank x operation now ≤ x.race (operation - now) := by
  have hpos := x.retry.attempts_pos
  unfold afterExtend
  split
  · split
    · simp only [Control.rank, Flow.rank, Renewal.rank, Execution.race]
      omega
    · simp only [Control.rank, Execution.race]
      omega
  · simp only [Control.rank, Execution.race]
    omega
  · simp only [Control.rank, Execution.race]
    omega

/-- Every move brings the delivery nearer its end. -/
theorem Move.rank_lt {now operation settlement : ℕ} {c c' : Control}
    (h : Move x now operation settlement c a c') (hp : Paced x labels c) :
    c'.rank x operation now < c.rank x operation now := by
  cases h with
  | flow moved =>
      rename_i f r next
      cases next with
      | inl f' =>
          have hlt := moved.rank_lt (hp.flow f rfl)
          simp only [afterFlow, Control.rank]
          omega
      | inr o =>
          refine (finalizeOutcome_rank operation now o).trans_lt ?_
          simp only [Control.rank]
          omega
  | alone moved =>
      rename_i f next
      cases next with
      | inl f' =>
          have hlt := moved.rank_lt (hp.flow f rfl)
          simp only [afterFlow, Control.rank]
          omega
      | inr o =>
          refine (finalizeOutcome_rank operation now o).trans_lt ?_
          simp only [Control.rank]
          omega
  | renewal moved =>
      rename_i f r next
      cases next with
      | inl r' =>
          have hlt := moved.rank_lt
          simp only [afterRenewal, Control.rank]
          omega
      | inr e =>
          unfold afterRenewal
          split <;> simp only [Control.rank] <;> first | omega | simp_all
  | @claimed binding result =>
      refine (afterClaim_rank operation now binding result).trans_lt ?_
      simp only [Control.rank]
      omega
  | claimLate late =>
      simp only [afterClaim, Control.rank]
      omega
  | @extended policy result =>
      refine (afterExtend_rank operation now policy result).trans_lt ?_
      simp only [Control.rank]
      omega
  | extendLate late =>
      simp only [afterExtend, Control.rank, Execution.race]
      omega
  | released result =>
      cases result <;> simp [afterRelease, Control.rank]
  | releaseLate late => simp [afterRelease, Control.rank]
  | _ =>
      simp only [Control.rank]
      omega

theorem Renewal.rank_mono {cutoff now later : ℕ} (r : Renewal) (h : now ≤ later) :
    r.rank cutoff later ≤ r.rank cutoff now := by
  cases r with
  | calling =>
      simp only [Renewal.rank]
      split <;> split <;> omega
  | _ =>
      simp only [Renewal.rank]
      omega

/-- Time alone never takes the delivery further from its end. -/
theorem Control.rank_mono {operation now later : ℕ} (c : Control) (h : now ≤ later) :
    c.rank x operation later ≤ c.rank x operation now := by
  cases c with
  | racing f r => exact Nat.add_le_add_left (r.rank_mono h) _
  | _ =>
      simp only [Control.rank, Execution.race]
      omega

/-- Working steps are bounded by what was left at the start. -/
theorem countP_works {now : ℕ} (h : Runs (Step x) (State.initial now) labels s) :
    labels.countP Event.works + s.control.rank x s.operation s.now ≤
      6 + x.race (x.budget.total - x.budget.settlementReserve) := by
  induction h with
  | nil => exact (Nat.zero_add _).le
  | @snoc labels m m' a hrun hstep ih =>
      rw [List.countP_append, List.countP_singleton]
      cases hstep with
      | deadlines here fits =>
          rw [here] at ih
          simp only [Control.rank] at ih ⊢
          simp only [Event.works, if_true, Nat.add_sub_cancel_left]
          omega
      | move moved =>
          have hlt := moved.rank_lt (inv_of_runs hrun).2
          dsimp only
          split <;> omega
      | pass elapsed =>
          have hle := @Control.rank_mono x m.operation _ _ m.control (Nat.le_add_right m.now elapsed)
          simp only [Event.works] at hle ⊢
          simp only [Bool.false_eq_true, if_false]
          omega

/-- Past both cutoffs a delivery that is not done can go on. -/
theorem Control.can_move {now operation settlement : ℕ} (c : Control) (hop : operation ≤ now)
    (hst : settlement ≤ now) (hc : ∀ result, c ≠ .done result) (hstart : c ≠ .starting) :
    ∃ a c', a.works = true ∧ Move x now operation settlement c a c' := by
  have hflow : ∀ f : Flow, ∃ a next, a.works = true ∧
      FlowStep x.retry x.horizon operation now f a next := by
    intro f
    cases f with
    | entering n => exact ⟨_, _, rfl, .expire hop⟩
    | calling n => exact ⟨_, _, rfl, .refuse hop⟩
    | executing n => exact ⟨_, _, rfl, .timeout hop⟩
    | backingOff n o => exact ⟨_, _, rfl, .exhausted (by omega)⟩
    | arming n o => exact ⟨_, _, rfl, .arm⟩
    | resting n o wake => exact ⟨_, _, rfl, .restless hop⟩
    | sleeping n o wake => exact ⟨_, _, rfl, .overslept hop⟩
  cases c with
  | starting => exact absurd rfl hstart
  | verifying => exact ⟨_, _, rfl, .reject (.error .malformedIdentity) rfl⟩
  | claimCall b => exact ⟨_, _, rfl, .claimLate hop⟩
  | claiming b => exact ⟨_, _, rfl, .claimed (.error .deadlineElapsed)⟩
  | extendCall => exact ⟨_, _, rfl, @Move.extendLate _ _ _ _ ⟨1000001, by decide⟩ hop⟩
  | extending =>
      exact ⟨_, _, rfl, @Move.extended _ _ _ _ ⟨1000001, by decide⟩ (.error .deadlineElapsed)⟩
  | racing f r =>
      obtain ⟨a, next, ha, hmoved⟩ := hflow f
      exact ⟨a, _, ha, .flow hmoved⟩
  | alone f =>
      obtain ⟨a, next, ha, hmoved⟩ := hflow f
      exact ⟨a, _, ha, .alone hmoved⟩
  | releaseCall => exact ⟨_, _, rfl, .releaseLate hst⟩
  | releasing => exact ⟨_, _, rfl, .released (.error .deadlineElapsed)⟩
  | settleCall kind d => exact ⟨_, _, rfl, .settleLate hst⟩
  | settling d => exact ⟨_, _, rfl, .settled (.error .deadlineElapsed)⟩
  | abandonCall result => exact ⟨_, _, rfl, .abandonLate hst⟩
  | abandoning result => exact ⟨_, _, rfl, .abandoned (.error .deadlineElapsed)⟩
  | done result => exact absurd rfl (hc result)

theorem State.can_step (s : State) (hop : s.operation ≤ s.now) (hst : s.settlement ≤ s.now)
    (hc : ∀ result, s.control ≠ .done result) : ∃ a s', a.works = true ∧ Step x s a s' := by
  by_cases hstart : s.control = .starting
  · by_cases hfits : s.now + x.budget.total ≤ x.horizon
    · exact ⟨_, _, rfl, .deadlines hstart hfits⟩
    · refine ⟨.deadlines false, { s with control := .done (.error .invariant) }, rfl, .move ?_⟩
      rw [hstart]
      exact .overflow (Nat.lt_of_not_le hfits)
  · obtain ⟨a, c', ha, hmoved⟩ := s.control.can_move hop hst hc hstart
    exact ⟨a, _, ha, .move hmoved⟩

/-- A handle is let go unused only after the settlement cutoff. -/
theorem settlement_le_of_dropped {now : ℕ} (h : Runs (Step x) (State.initial now) labels s)
    (hdropped : .dropped ∈ labels) : s.settlement ≤ s.now := by
  induction h with
  | nil => cases hdropped
  | @snoc labels m m' a hrun hstep ih =>
      cases hstep with
      | deadlines here fits =>
          have hcount : labels.countP Event.ends = 0 := by
            rw [countP_ends hrun, here]
            rfl
          have hmem : .dropped ∈ labels := by simpa using hdropped
          exact absurd rfl (List.countP_eq_zero.mp hcount _ hmem)
      | move moved =>
          rcases List.mem_append.mp hdropped with hmem | hmem
          · exact ih hmem
          · obtain rfl := List.mem_singleton.mp hmem
            generalize m.control = c at moved
            cases moved with
            | settleLate late => exact late
            | abandonLate late => exact late
            | flow moved => cases moved
            | renewal moved => cases moved
            | alone moved => cases moved
      | pass elapsed =>
          have hmem : .dropped ∈ labels := by simpa using hdropped
          exact (ih hmem).trans (Nat.le_add_right _ _)

theorem countP_uses_le : labels.countP Event.uses ≤ labels.countP Event.ends := by
  refine List.countP_mono_left (fun a _ ha => ?_)
  cases a with
  | settle kind => rfl
  | abandon => rfl
  | _ => cases ha

/-- A handle that was neither kept from use nor let go was used. -/
theorem countP_uses_eq (hfits : .deadlines false ∉ labels) (hkept : .dropped ∉ labels) :
    labels.countP Event.uses = labels.countP Event.ends := by
  refine List.countP_congr (fun a ha => ?_)
  cases a with
  | deadlines representable =>
      cases representable with
      | true => rfl
      | false => exact absurd ha hfits
  | dropped => exact absurd ha hkept
  | _ => rfl

/-- The settlement discipline of one delivery, over all answers and schedules. The handle is
used at most once, and exactly once unless the cutoffs cannot be expressed or the settlement
cutoff has passed when it is due; a decision is sent only on its evidence; after an uncertain
outcome nothing is started or settled and the delivery is abandoned; attempts are bounded, each
after a transient one without effect; and the delivery comes to its end. -/
theorem settlement_discipline {now : ℕ} (h : Runs (Step x) (State.initial now) labels s) :
    labels.countP Event.uses ≤ 1 ∧
    (∀ result, s.control = .done result → .deadlines false ∉ labels → .dropped ∉ labels →
      labels.countP Event.uses = 1) ∧
    (.dropped ∈ labels → s.settlement ≤ s.now) ∧
    (∀ (before after : List Event) kind, labels = before ++ .settle kind :: after → Authorized x before kind) ∧
    (∀ (before after : List Event) o, labels = before ++ .reported o :: after → o.uncertain = true →
      .executed ∉ after ∧ (∀ kind, .settle kind ∉ after) ∧
      (∀ result, s.control = .done result → .dropped ∉ labels → .abandon ∈ after)) ∧
    executions labels ≤ x.retry.maxAttempts ∧
    (∀ before between after : List Event,
      labels = before ++ .executed :: (between ++ .executed :: after) →
      .executed ∉ between → ∃ o, .reported o ∈ between ∧ o.mayRetry = true) ∧
    (labels.countP Event.works ≤ 6 + x.race (x.budget.total - x.budget.settlementReserve) ∧
      ((∀ result, s.control ≠ .done result) → ∃ wait, ∀ later, wait ≤ later →
        ∃ a s', a.works = true ∧ Step x { s with now := s.now + later } a s')) := by
  have hends := countP_ends h
  have hone : labels.countP Event.ends ≤ 1 := by
    rw [hends]
    split <;> omega
  refine ⟨countP_uses_le.trans hone, ?_, settlement_le_of_dropped h, ?_, ?_,
    (inv_of_runs h).2.executions_le, ?_, (Nat.le_add_right _ _).trans (countP_works h), ?_⟩
  · intro result hdone hfits hkept
    rw [countP_uses_eq hfits hkept, hends, hdone]
    rfl
  · rintro before after kind rfl
    obtain ⟨m, m', hbefore, hstep, -⟩ := h.split
    cases hstep with
    | move moved =>
        have hauthorized := (inv_of_runs hbefore).1.authorized
        generalize m.control = c at moved hauthorized
        cases moved with
        | settle early => exact hauthorized kind _ rfl
        | flow moved => cases moved
        | renewal moved => cases moved
        | alone moved => cases moved
  · rintro before after o rfl ho
    obtain ⟨m, m', -, hstep, hafter⟩ := h.split
    obtain ⟨result, hresult⟩ := hstep.reported ho
    obtain ⟨habandons, hexecuted, hsettle⟩ := abandons_of_runs hafter (by rw [hresult]; trivial)
    refine ⟨hexecuted, hsettle, fun result hdone hkept => ?_⟩
    rw [hdone] at habandons
    exact habandons.resolve_right (fun hdropped => hkept (by simp [hdropped]))
  · rintro before between after rfl hnone
    rw [← List.cons_append, ← List.append_assoc] at h
    obtain ⟨m, m', hbefore, hstep, -⟩ := h.split
    cases hstep with
    | move moved =>
        have hflow := (inv_of_runs hbefore).2.flow
        generalize m.control = c at moved hflow
        have hresolved : Resolved (before ++ .executed :: between) := by
          cases moved with
          | @flow f _ _ _ moved =>
              have hf := hflow f rfl
              cases moved with
              | call early => exact hf.resolved rfl
          | @alone f _ _ moved =>
              have hf := hflow f rfl
              cases moved with
              | call early => exact hf.resolved rfl
          | renewal moved => cases moved
        exact hresolved before between rfl hnone
  · intro hrunning
    refine ⟨s.operation + s.settlement, fun later hlater => ?_⟩
    exact State.can_step { s with now := s.now + later } (by dsimp only; omega)
      (by dsimp only; omega) hrunning

/-! ### An order -/

def orderExecution : Execution where
  group := "billing"
  subscription := "orders"
  retry := ⟨3, 1000000000, 60000000000, by decide, by decide, by decide, by decide, by decide⟩
  budget := ⟨10000000000, 2000000000, by decide, by decide⟩
  message := ⟨1, "order-1", "order-placed", 5⟩
  horizon := 2 ^ 70

/-- The validator takes eleven seconds to refuse the order; the rejection is due after the
settlement cutoff and is never sent. -/
theorem rejection_dropped :
    ∃ labels s result, Runs (Step orderExecution) (State.initial 0) labels s ∧
      s.control = .done result ∧ .deadlines false ∉ labels ∧ labels.countP Event.uses = 0 := by
  have hrun := Runs.snoc (Runs.snoc (Runs.snoc (Runs.single
    (@Step.deadlines orderExecution (State.initial 0) rfl (by decide)))
    (.pass 11000000000))
    (.move (.reject (.error .unsupportedContract) rfl)))
    (.move (.settleLate (by decide)))
  exact ⟨_, _, _, hrun, rfl, by simp, rfl⟩

/-- The order as ingress verifies it. -/
def orderIngress : VerifiedIngress := ⟨"orders", 1, "order-1", "order-placed", 5⟩

def orderReceipt : TerminalReceipt := ⟨⟨1, "billing", "order-1", "order-placed"⟩, 5, .succeeded⟩

def orderLease : LeaseRenewalPolicy := ⟨30000000000, by decide⟩

/-- The order is claimed; its first transaction is rolled back and the second one commits. -/
def orderEvents : List Event :=
  [.deadlines true, .verified (.ok orderExecution.binding), .internal, .claimed (.ok .acquired),
    .internal, .extended (.ok (.held 30000000000)), .internal, .executed,
    .reported (.rolledBack .transient), .internal, .internal, .internal, .passed, .internal,
    .internal, .executed, .reported (.committed orderReceipt)]

theorem order_committed :
    Runs (Step orderExecution) (State.initial 0) orderEvents
      ⟨1000000000, 8000000000, 10000000000, .settleCall .acknowledge (.committed .succeeded)⟩ := by
  have hclaimed := (((Runs.single
    (@Step.deadlines orderExecution (State.initial 0) rfl (by decide))).snoc
    (.move (.verify (.ok orderIngress) rfl))).snoc
    (.move (.claim (by decide)))).snoc
    (.move (.claimed (.ok .acquired)))
  have hheld := (hclaimed.snoc (.move (.extend (by decide)))).snoc
    (.move (@Move.extended _ _ _ _ orderLease (.ok (.held 30000000000))))
  have hfirst := ((hheld.snoc (.move (.flow (.enter (by decide))))).snoc
    (.move (.flow (.call (by decide))))).snoc
    (.move (.flow (.answer (.rolledBack .transient))))
  have hrested := ((((hfirst.snoc (.move (.flow (.again (by decide))))).snoc
    (.move (.flow .arm))).snoc
    (.move (.flow (.rest (by decide))))).snoc
    (.pass 1000000000)).snoc
    (.move (.flow (.woken (by decide))))
  exact ((hrested.snoc (.move (.flow (.enter (by decide))))).snoc
    (.move (.flow (.call (by decide))))).snoc
    (.move (.flow (.answer (.committed orderReceipt))))

/-- The order is acknowledged, once, on its receipt, and its second transaction was started after
the first had no effect. -/
theorem settlement_discipline_order :
    ∃ labels s result, Runs (Step orderExecution) (State.initial 0) labels s ∧
      s.control = .done result ∧ labels.countP Event.uses = 1 ∧
      (∃ before after : List Event, labels = before ++ .settle .acknowledge :: after ∧
        Authorized orderExecution before .acknowledge) ∧
      executions labels = 2 ∧ ∃ before between after : List Event,
        labels = before ++ .executed :: (between ++ .executed :: after) ∧
        ∃ o, .reported o ∈ between ∧ o.mayRetry = true := by
  have hrun := (order_committed.snoc (.move (.settle (by decide)))).snoc (.move (.settled (.ok ())))
  obtain ⟨-, huses, -, hauthorized, -, -, hretries, -⟩ := settlement_discipline hrun
  refine ⟨_, _, _, hrun, rfl, huses _ rfl (by simp [orderEvents]) (by simp [orderEvents]),
    ⟨orderEvents, [.internal], rfl, hauthorized _ [.internal] .acknowledge rfl⟩, rfl,
    orderEvents.take 7, (orderEvents.drop 8).take 7,
    [.reported (.committed orderReceipt), .settle .acknowledge, .internal], rfl, ?_⟩
  exact hretries (orderEvents.take 7) ((orderEvents.drop 8).take 7) _ rfl (by simp [orderEvents])

end Rss.Messaging.Consumer
