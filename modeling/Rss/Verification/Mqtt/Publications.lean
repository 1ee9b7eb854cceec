import Rss.Library.Runs
import Rss.Model.Mqtt.Driver

/-! # What `publish` is told

A call of `publish` beside the driver, the client library, the owner of the connection and every
other call: what became of its message, and what the call returns. -/

namespace Rss.Mqtt

open Rss.Messaging

/-! ### Histories of a call -/

/-- The label shows what the client library made of the call's message. -/
def Label.takes (k : ℕ) : Label → Bool
  | .submitted j | .noticed j _ => decide (j = k)
  | _ => false

def Label.returns (k : ℕ) : Label → Bool
  | .returned j _ => decide (j = k)
  | _ => false

/-- The label is about the call. -/
def Label.concerns (k : ℕ) (a : Label) : Bool := a.takes k || a.returns k

/-- What the client library made of the call's message, in order. -/
def taken (k : ℕ) (labels : List Label) : List Label := labels.filter (Label.takes k)

/-- What the call returned. -/
def outcomes (k : ℕ) (labels : List Label) : List Label := labels.filter (Label.returns k)

/-- The client library took the message at most once, and gave at most one notice of it. -/
def Handed (k : ℕ) (events : List Label) : Prop :=
  events = [] ∨ events = [.submitted k] ∨ ∃ n, events = [.submitted k, .noticed k n]

/-- The outcome says what became of the message. -/
def Honest (k : ℕ) (events : List Label) : PublishOutcome Unit → Prop
  | .confirmed () => ∃ n, events = [.submitted k, .noticed k n] ∧ notice n = .confirmed ()
  | .definitelyNotPublished f => events = [] ∨
      ∃ n, events = [.submitted k, .noticed k n] ∧ notice n = .definitelyNotPublished f
  | .ambiguous _ => Handed k events

theorem Honest.handed {k : ℕ} {events : List Label} {outcome : PublishOutcome Unit}
    (h : Honest k events outcome) : Handed k events := by
  cases outcome with
  | confirmed value =>
      obtain ⟨n, hn, -⟩ := h
      exact .inr (.inr ⟨n, hn⟩)
  | definitelyNotPublished f =>
      rcases h with hnone | ⟨n, hn, -⟩
      · exact .inl hnone
      · exact .inr (.inr ⟨n, hn⟩)
  | ambiguous f => exact h

/-- A notice is told as it is. -/
theorem honest_notice (k : ℕ) (n : Notice) :
    Honest k [.submitted k, .noticed k n] (notice n) := by
  cases hn : notice n with
  | confirmed value => exact ⟨n, rfl, hn⟩
  | definitelyNotPublished f => exact .inr ⟨n, rfl, hn⟩
  | ambiguous f => exact .inr (.inr ⟨n, rfl⟩)

section

variable {k : ℕ} {labels : List Label} {a : Label}

theorem taken_snoc (k : ℕ) (labels : List Label) (a : Label) :
    taken k (labels ++ [a]) = if a.takes k then taken k labels ++ [a] else taken k labels := by
  rw [taken, List.filter_append, List.filter_singleton]
  cases a.takes k <;> simp [taken]

theorem outcomes_snoc (k : ℕ) (labels : List Label) (a : Label) :
    outcomes k (labels ++ [a]) =
      if a.returns k then outcomes k labels ++ [a] else outcomes k labels := by
  rw [outcomes, List.filter_append, List.filter_singleton]
  cases a.returns k <;> simp [outcomes]

theorem taken_of_unconcerned (h : a.concerns k = false) :
    taken k (labels ++ [a]) = taken k labels := by
  rw [Label.concerns, Bool.or_eq_false_iff] at h
  rw [taken_snoc, h.1, if_neg Bool.false_ne_true]

theorem outcomes_of_unconcerned (h : a.concerns k = false) :
    outcomes k (labels ++ [a]) = outcomes k labels := by
  rw [Label.concerns, Bool.or_eq_false_iff] at h
  rw [outcomes_snoc, h.2, if_neg Bool.false_ne_true]

end

/-! ### The invariant -/

/-- The driver has a publish command in hand that it found the call waiting for. -/
def State.Publishes (s : State) (k : ℕ) : Prop :=
  ∃ admission deadline reconnecting, s.phase = .publishing admission k deadline reconnecting

/-- What is known of a call by where it is. -/
def Known (k : ℕ) (labels : List Label) (publishes : Prop) : Option CallStage → Prop
  | none | some .reserving => taken k labels = [] ∧ outcomes k labels = [] ∧ ¬ publishes
  | some .queued => taken k labels = [] ∧ outcomes k labels = []
  | some .tracked => taken k labels = [.submitted k] ∧ outcomes k labels = [] ∧ ¬ publishes
  | some (.answered outcome) =>
      Honest k (taken k labels) outcome ∧ outcomes k labels = [] ∧ ¬ publishes
  | some (.returned outcome) => Honest k (taken k labels) outcome ∧
      outcomes k labels = [.returned k outcome] ∧
      (publishes → taken k labels = [] ∧ ∃ f, outcome = .ambiguous f)
  | some .cancelled => Handed k (taken k labels) ∧ outcomes k labels = [] ∧
      (publishes → taken k labels = [])

/-- Where the call is. -/
def State.stageOf (s : State) (k : ℕ) : Option CallStage := (s.calls k).map Call.stage

/-- All calls are known. -/
def Publications (labels : List Label) (s : State) : Prop :=
  ∀ k, Known k labels (s.Publishes k) (s.stageOf k)

section

variable {labels : List Label} {s s' : State} {a : Label} {k : ℕ}

theorem Known.of_unconcerned {publishes publishes' : Prop} {stage : Option CallStage}
    (h : Known k labels publishes stage) (ha : a.concerns k = false)
    (hp : publishes' → publishes) : Known k (labels ++ [a]) publishes' stage := by
  have htaken : taken k (labels ++ [a]) = taken k labels := taken_of_unconcerned ha
  have houtcomes : outcomes k (labels ++ [a]) = outcomes k labels := outcomes_of_unconcerned ha
  match stage with
  | none | some .reserving | some .tracked | some (.answered _) =>
      simp only [Known, htaken, houtcomes] at h ⊢
      exact ⟨h.1, h.2.1, fun hnow => h.2.2 (hp hnow)⟩
  | some .queued =>
      simp only [Known, htaken, houtcomes] at h ⊢
      exact h
  | some (.returned _) | some .cancelled =>
      simp only [Known, htaken, houtcomes] at h ⊢
      exact ⟨h.1, h.2.1, fun hnow => h.2.2 (hp hnow)⟩

/-- A step that only one call can see leaves what is known of the others. -/
theorem Publications.move (h : Publications labels s) (k : ℕ)
    (hother : ∀ j, j ≠ k → s'.stageOf j = s.stageOf j ∧ a.concerns j = false ∧
      (s'.Publishes j → s.Publishes j))
    (hk : Known k (labels ++ [a]) (s'.Publishes k) (s'.stageOf k)) :
    Publications (labels ++ [a]) s' := by
  intro j
  by_cases hj : j = k
  · exact hj ▸ hk
  · obtain ⟨hstage, ha, hp⟩ := hother j hj
    rw [hstage]
    exact (h j).of_unconcerned ha hp

theorem Publications.frame (h : Publications labels s)
    (hstage : ∀ k, s'.stageOf k = s.stageOf k) (ha : ∀ k, a.concerns k = false)
    (hp : ∀ k, s'.Publishes k → s.Publishes k) : Publications (labels ++ [a]) s' := by
  intro k
  rw [hstage]
  exact (h k).of_unconcerned (ha k) (hp k)

/-! ### Calls -/

theorem stageOf_setCall (s : State) (k : ℕ) (call : Call) (j : ℕ) :
    (s.setCall k call).stageOf j = if j = k then some call.stage else s.stageOf j := by
  unfold State.stageOf State.setCall
  by_cases hj : j = k
  · simp [hj]
  · simp [hj]

theorem stageOf_setCallStage {cutoff : ℕ} {stage : CallStage}
    (h : s.calls k = some ⟨cutoff, stage⟩) (stage' : CallStage) (j : ℕ) :
    (s.setCallStage k stage').stageOf j = if j = k then some stage' else s.stageOf j := by
  unfold State.stageOf State.setCallStage
  by_cases hj : j = k
  · simp [hj, h]
  · simp [hj]

/-- A call moves, and nobody else does. -/
theorem Publications.setStage (h : Publications labels s) {cutoff : ℕ} {stage stage' : CallStage}
    (hcall : s.calls k = some ⟨cutoff, stage⟩) (hs' : s'.calls = (s.setCallStage k stage').calls)
    (hphase : s'.phase = s.phase) (ha : ∀ j, j ≠ k → a.concerns j = false)
    (hk : Known k labels (s.Publishes k) (some stage) →
      Known k (labels ++ [a]) (s.Publishes k) (some stage')) :
    Publications (labels ++ [a]) s' := by
  have hstage : ∀ j, s'.stageOf j = if j = k then some stage' else s.stageOf j := by
    intro j
    rw [← stageOf_setCallStage hcall stage' j]
    simp only [State.stageOf, hs']
  have hp : ∀ j, s'.Publishes j ↔ s.Publishes j := by
    intro j
    simp only [State.Publishes, hphase]
  refine h.move k (fun j hj => ⟨by rw [hstage, if_neg hj], ha j hj, (hp j).mp⟩) ?_
  rw [hstage, if_pos rfl, propext (hp k)]
  refine hk ?_
  have hknown := h k
  rwa [State.stageOf, hcall] at hknown

theorem Known.returned {outcome : PublishOutcome Unit} {publishes : Prop}
    (hhonest : Honest k (taken k labels) outcome) (hnone : outcomes k labels = [])
    (hp : publishes → taken k labels = [] ∧ ∃ f, outcome = .ambiguous f) :
    Known k (labels ++ [.returned k outcome]) publishes (some (.returned outcome)) := by
  have htaken : taken k (labels ++ [.returned k outcome]) = taken k labels := by
    rw [taken_snoc]
    rfl
  have houtcomes : outcomes k (labels ++ [.returned k outcome]) = [.returned k outcome] := by
    rw [outcomes_snoc, hnone]
    simp [Label.returns]
  simp only [Known, htaken, houtcomes]
  exact ⟨hhonest, trivial, hp⟩

/-- What is known of a call whose command was sent. -/
theorem Known.sent {publishes : Prop} {stage : CallStage}
    (h : Known k labels publishes (some stage)) (hs : stage.isSent = true) :
    Handed k (taken k labels) ∧ outcomes k labels = [] ∧ (publishes → taken k labels = []) := by
  cases stage with
  | queued => exact ⟨.inl h.1, h.2, fun _ => h.1⟩
  | tracked => exact ⟨.inr (.inl h.1), h.2.1, fun hp => absurd hp h.2.2⟩
  | answered outcome => exact ⟨h.1.handed, h.2.1, fun hp => absurd hp h.2.2⟩
  | reserving => cases hs
  | returned outcome => cases hs
  | cancelled => cases hs

theorem State.Refuses.definite {cutoff : ℕ} {outcome : PublishOutcome Unit}
    (h : s.Refuses cutoff outcome) : ∃ f, outcome = .definitelyNotPublished f := by
  cases h with
  | elapsed late => exact ⟨_, rfl⟩
  | closed stopping => exact ⟨_, rfl⟩

theorem Publications.callStep (h : Publications labels s) (hstep : CallStep s a s') :
    Publications (labels ++ [a]) s' := by
  cases hstep with
  | @reserve k cutoff fresh early running =>
      refine h.move k (fun j hj => ⟨by rw [stageOf_setCall, if_neg hj], rfl, id⟩) ?_
      rw [stageOf_setCall, if_pos rfl]
      have hk := h k
      rw [State.stageOf, fresh] at hk
      exact hk.of_unconcerned rfl id
  | @refuse k cutoff outcome fresh refused =>
      refine h.move k (fun j hj => ⟨by rw [stageOf_setCall, if_neg hj], ?_, id⟩) ?_
      · simp [Label.concerns, Label.takes, Label.returns, Ne.symm hj]
      · rw [stageOf_setCall, if_pos rfl]
        have hk := h k
        rw [State.stageOf, fresh] at hk
        obtain ⟨htaken, hnone, hnot⟩ := hk
        have hdefinite : ∃ f, outcome = .definitelyNotPublished f := by
          rcases refused with hrefused | rfl | rfl
          · exact hrefused.definite
          · exact ⟨_, rfl⟩
          · exact ⟨_, rfl⟩
        obtain ⟨f, rfl⟩ := hdefinite
        exact .returned (.inl htaken) hnone (fun hp => absurd hp hnot)
  | @send k cutoff call space open_ running early =>
      refine h.setStage call rfl rfl (fun _ _ => rfl) (fun hk => ?_)
      have hnext := hk.of_unconcerned (a := .quiet) rfl id
      exact ⟨hnext.1, hnext.2.1⟩
  | @sendRefused k cutoff outcome call refused =>
      refine h.setStage call rfl rfl (fun j hj => ?_) (fun hk => ?_)
      · simp [Label.concerns, Label.takes, Label.returns, Ne.symm hj]
      · obtain ⟨htaken, hnone, hnot⟩ := hk
        have hdefinite : ∃ f, outcome = .definitelyNotPublished f := by
          rcases refused with hrefused | rfl
          · exact hrefused.definite
          · exact ⟨_, rfl⟩
        obtain ⟨f, rfl⟩ := hdefinite
        exact .returned (.inl htaken) hnone (fun hp => absurd hp hnot)
  | @notice k cutoff call notice =>
      refine h.setStage call rfl rfl (fun j hj => ?_) (fun hk => ?_)
      · simp [Label.concerns, Label.takes, Label.returns, Ne.symm hj]
      · obtain ⟨htaken, hnone, hnot⟩ := hk
        have htakes : taken k (labels ++ [.noticed k notice]) =
            [.submitted k, .noticed k notice] := by
          rw [taken_snoc, htaken]
          simp [Label.takes]
        refine ⟨?_, ?_, hnot⟩
        · rw [htakes]
          exact honest_notice k notice
        · rw [outcomes_snoc, hnone]
          rfl
  | @return_ k cutoff outcome call early =>
      refine h.setStage call rfl rfl (fun j hj => ?_) (fun hk => ?_)
      · simp [Label.concerns, Label.takes, Label.returns, Ne.symm hj]
      · exact .returned hk.1 hk.2.1 (fun hp => absurd hp hk.2.2)
  | @expire k cutoff stage call sent =>
      refine h.setStage call rfl rfl (fun j hj => ?_) (fun hk => ?_)
      · simp [Label.concerns, Label.takes, Label.returns, Ne.symm hj]
      · obtain ⟨hhanded, hnone, hp⟩ := hk.sent sent
        exact .returned hhanded hnone (fun hnow => ⟨hp hnow, _, rfl⟩)
  | @cancel k cutoff stage call pending =>
      refine h.setStage call rfl rfl (fun _ _ => rfl) (fun hk => ?_)
      have hnext := hk.of_unconcerned (a := .quiet) rfl id
      rcases pending with rfl | hsent
      · exact ⟨.inl hnext.1, hnext.2.1, fun _ => hnext.1⟩
      · exact hnext.sent hsent

/-! ### The driver -/

/-- The driver goes on without a publish command in hand. -/
theorem Publications.driven (h : Publications labels s) (hcalls : s'.calls = s.calls)
    (ha : ∀ k, a.concerns k = false)
    (hphase : ∀ admission k deadline reconnecting,
      s'.phase ≠ .publishing admission k deadline reconnecting) :
    Publications (labels ++ [a]) s' := by
  refine h.frame (fun k => by simp only [State.stageOf, hcalls]) ha (fun k hp => ?_)
  obtain ⟨admission, deadline, reconnecting, hpublishing⟩ := hp
  exact absurd hpublishing (hphase admission k deadline reconnecting)

end

namespace State

/-- A retired generation is followed by the next, or the driver is told to stop. -/
theorem retireGeneration_cases (s : State) :
    (∃ generation, checkedAdd 64 s.generation 1 = some generation ∧
      s.retireGeneration = { ({ s with generation } : State).clearDeliveries.drain with
        subscription := false, acks := [] }) ∨
    s.retireGeneration = { ({ s with cancelled := true } : State).drain with
      subscription := false, acks := [] } := by
  unfold retireGeneration invalidate
  cases hnext : checkedAdd 64 s.generation 1 with
  | none => exact .inr rfl
  | some generation => exact .inl ⟨generation, rfl, rfl⟩

@[simp] theorem retireGeneration_calls (s : State) : s.retireGeneration.calls = s.calls := by
  rcases s.retireGeneration_cases with ⟨generation, -, h⟩ | h
  · rw [h]
    rfl
  · rw [h]
    rfl

theorem inspect_cases (s : State) (notice : Subscribed) :
    (∃ connection subscription phase, (phase = .top ∨ phase = .ended) ∧
      s.inspect notice = { s with connection, subscription, phase }) ∨
    ∃ error, s.inspect notice =
      { s.retireGeneration.reconnecting error with phase := .waiting } := by
  unfold inspect checkSubscription
  cases hpending : s.subscription with
  | false => exact .inl ⟨s.connection, s.subscription, .top, .inl rfl, by simp [hpending]⟩
  | true =>
      cases notice with
      | pending => exact .inl ⟨s.connection, s.subscription, .top, .inl rfl, by simp [hpending]⟩
      | granted => exact .inl ⟨_, false, .top, .inl rfl, rfl⟩
      | transient => exact .inr ⟨.brokerBusy, rfl⟩
      | rejected store =>
          refine .inl ⟨.failed (if store then .sessionStore else .subscriptionRejected),
            s.subscription, .ended, .inr rfl, ?_⟩
          cases store <;> simp [State.fail, hpending]

theorem event_calls {s s' : State} {fresh : ℕ} {event : Event}
    (h : s.event fresh event = .ok s') : s'.calls = s.calls := by
  cases event with
  | connAck sessionPresent tracked =>
      simp only [State.event] at h
      split at h
      · cases h
        rfl
      · split at h
        · cases h
          rfl
        · cases h
  | publish atLeastOnce pkid =>
      simp only [State.event, receive] at h
      split at h
      · cases h
      · split at h
        · cases h
          rfl
        · split at h
          · cases h
          · cases h
            rfl
  | pubAckReceived reason =>
      simp only [State.event] at h
      cases h
      split <;> rfl
  | pubAckWritten pkid =>
      simp only [State.event, acknowledge] at h
      cases h
      split
      · split <;> rfl
      · rfl
  | other =>
      cases h
      rfl

/-- A finished poll leaves the calls alone, and the driver somewhere else. -/
theorem handleEvent_frame (s : State) (fresh : ℕ) (event : Event) (notice : Subscribed) :
    (s.handleEvent fresh event notice).calls = s.calls ∧
      ∀ admission k deadline reconnecting, (s.handleEvent fresh event notice).phase ≠
        .publishing admission k deadline reconnecting := by
  unfold handleEvent
  cases hevent : s.event fresh event with
  | error error => exact ⟨rfl, fun _ _ _ _ h => nomatch h⟩
  | ok s₁ =>
      have hcalls := event_calls hevent
      rcases s₁.inspect_cases notice with ⟨_, _, phase, hphase, heq⟩ | ⟨error, heq⟩
      · simp only [heq]
        refine ⟨hcalls, fun _ _ _ _ h => ?_⟩
        rcases hphase with rfl | rfl
        · cases h
        · cases h
      · simp only [heq]
        exact ⟨(retireGeneration_calls s₁).trans hcalls, fun _ _ _ _ h => nomatch h⟩

theorem observation_concerns (s : State) (fresh : ℕ) (event : Event) (k : ℕ) :
    (s.observation fresh event).concerns k = false := by
  cases event with
  | publish atLeastOnce pkid =>
      simp only [observation]
      split <;> rfl
  | _ => rfl

theorem submission_concerns (s : State) (generation pkid : ℕ) (reason : PubAckReason)
    (deadline response : ℕ) (accepts : Bool) (k : ℕ) :
    (s.submission generation pkid reason deadline response accepts).concerns k = false := by
  unfold submission
  split <;> rfl

theorem handleSettle_calls (s : State) (generation pkid : ℕ) (reason : PubAckReason)
    (deadline response : ℕ) (accepts : Bool) :
    (s.handleSettle generation pkid reason deadline response accepts).calls = s.calls := by
  unfold handleSettle
  split <;> rfl

theorem handleSettle_phase (s : State) (generation pkid : ℕ) (reason : PubAckReason)
    (deadline response : ℕ) (accepts : Bool) :
    (s.handleSettle generation pkid reason deadline response accepts).phase = s.phase := by
  unfold handleSettle
  split <;> rfl

@[simp] theorem resume_calls (s : State) : s.resume.calls = s.calls := by
  unfold resume
  split <;> rfl

theorem resume_phase {s : State} (h : s.Awaits) :
    s.resume.phase = .top ∨ s.resume.phase = .waiting := by
  unfold resume
  split
  · exact .inl rfl
  · rename_i hnot
    exact .inr (h.resolve_left hnot)

end State

/-- Neither the head of the loop nor a wait for the connection has a publish command in hand. -/
theorem ne_publishing {phase : Phase} (h : phase = .top ∨ phase = .waiting)
    (admission : Admission) (k deadline : ℕ) (reconnecting : Bool) :
    phase ≠ .publishing admission k deadline reconnecting := by
  rcases h with rfl | rfl
  · exact fun h => nomatch h
  · exact fun h => nomatch h

section

variable {labels : List Label} {s s' : State} {a : Label} {k : ℕ}

theorem stageOf_answerCall (h : s.stageOf k = some .queued) (stage : CallStage) :
    (s.answerCall k stage).stageOf k = some stage := by
  unfold State.stageOf State.answerCall at *
  cases hcall : s.calls k with
  | none =>
      rw [hcall] at h
      cases h
  | some call =>
      rw [hcall] at h
      have hqueued : call.stage = .queued := Option.some.inj h
      simp [hcall, Call.answer, hqueued]

/-- A call that does not wait for its response does not see it. -/
theorem stageOf_answerCall_of_ne {j : ℕ} (h : j = k → s.stageOf j ≠ some .queued)
    (stage : CallStage) : (s.answerCall k stage).stageOf j = s.stageOf j := by
  unfold State.stageOf State.answerCall at *
  by_cases hj : j = k
  · have hne := h hj
    subst hj
    cases hcall : s.calls j with
    | none => simp [hcall]
    | some call =>
        have hstage : call.stage ≠ .queued := fun heq => hne (by rw [hcall, Option.map_some, heq])
        have hanswer : call.answer stage = call := by
          unfold Call.answer
          split
          · rename_i heq
            exact absurd heq hstage
          · rfl
        simp [hcall, hanswer]
  · simp [hj]

theorem takePublish_queued {deadline : ℕ} (h : s.stageOf k = some .queued) :
    s.takePublish k deadline =
      { s with phase := .publishing .received k deadline (s.phase = .waiting) } := by
  unfold State.stageOf at h
  simp only [State.takePublish, h]

theorem takePublish_gone {deadline : ℕ} (h : s.stageOf k ≠ some .queued) :
    s.takePublish k deadline = s.resume := by
  unfold State.takePublish
  split
  · rename_i hqueued
    exact absurd hqueued h
  · rfl

/-- The command of a call that waits for it is in hand. -/
theorem Publications.takePublish (h : Publications labels s) (hawaits : s.Awaits)
    (k deadline : ℕ) : Publications (labels ++ [.quiet]) (s.takePublish k deadline) := by
  by_cases hqueued : s.stageOf k = some .queued
  · rw [takePublish_queued hqueued]
    refine h.move k (fun j hj => ⟨rfl, rfl, fun hp => ?_⟩) ?_
    · obtain ⟨admission, deadline', reconnecting, hphase⟩ := hp
      exact absurd (Phase.publishing.inj hphase).2.1.symm hj
    · have hk := h k
      rw [hqueued] at hk
      have hstage : State.stageOf { s with
          phase := .publishing .received k deadline (s.phase = .waiting) } k = some .queued :=
        hqueued
      rw [hstage]
      exact ⟨(taken_of_unconcerned rfl).trans hk.1, (outcomes_of_unconcerned rfl).trans hk.2⟩
  · rw [takePublish_gone hqueued]
    exact h.driven (State.resume_calls s) (fun _ => rfl)
      (ne_publishing (State.resume_phase hawaits))

theorem respondPublish_idle (s : State) (k : ℕ) (reconnecting : Bool) (result : CallStage)
    (j : ℕ) : ¬ (s.respondPublish k reconnecting result).Publishes j := by
  rintro ⟨admission, deadline, reconnecting', hphase⟩
  cases reconnecting <;> cases hphase

/-- The command in hand is refused: its message stays unpublished. -/
theorem Publications.respondPublish (h : Publications labels s) (k : ℕ) (reconnecting : Bool)
    {outcome : PublishOutcome Unit} (hhonest : Honest k [] outcome) :
    Publications (labels ++ [.quiet])
      (s.respondPublish k reconnecting (.answered outcome)) := by
  have hnot := respondPublish_idle s k reconnecting (.answered outcome)
  have hother : ∀ j, (j = k → s.stageOf j ≠ some .queued) →
      (s.respondPublish k reconnecting (.answered outcome)).stageOf j = s.stageOf j :=
    fun j hj => stageOf_answerCall_of_ne hj (.answered outcome)
  have hk := h k
  refine h.move k (fun j hj => ⟨hother j (fun heq => absurd heq hj), rfl,
    fun hnow => absurd hnow (hnot j)⟩) ?_
  have hquiet := hk.of_unconcerned (a := .quiet) rfl (fun hnow => absurd hnow (hnot k))
  by_cases hqueued : s.stageOf k = some .queued
  · have hself : (s.respondPublish k reconnecting (.answered outcome)).stageOf k =
        some (.answered outcome) := stageOf_answerCall hqueued (.answered outcome)
    rw [hself]
    rw [hqueued] at hquiet
    refine ⟨?_, hquiet.2, hnot k⟩
    rw [hquiet.1]
    exact hhonest
  · rw [hother k (fun _ => hqueued)]
    exact hquiet

/-- A check passes or refuses; either way the message is where it was. -/
theorem Publications.checkPublish (h : Publications labels s) (hp : s.Publishes k)
    (refusal : Option (PublishOutcome Unit)) (passed : Admission) (deadline : ℕ)
    (reconnecting : Bool) (hrefusal : ∀ outcome ∈ refusal, Honest k [] outcome) :
    Publications (labels ++ [.quiet])
      (s.checkPublish refusal passed k deadline reconnecting) := by
  cases refusal with
  | some outcome => exact h.respondPublish k reconnecting (hrefusal outcome rfl)
  | none =>
      refine h.frame (fun _ => rfl) (fun _ => rfl) (fun j hj => ?_)
      obtain ⟨admission, deadline', reconnecting', hphase⟩ := hj
      obtain ⟨-, rfl, -⟩ := Phase.publishing.inj hphase
      exact hp

theorem refuseClosed_honest (s : State) (k : ℕ) :
    ∀ outcome ∈ s.refuseClosed, Honest k [] outcome := by
  intro outcome h
  unfold State.refuseClosed at h
  split at h
  · cases h
    exact .inl rfl
  · cases h

theorem refuseLate_honest (s : State) (k deadline : ℕ) :
    ∀ outcome ∈ s.refuseLate deadline, Honest k [] outcome := by
  intro outcome h
  unfold State.refuseLate at h
  split at h
  · cases h
    exact .inl rfl
  · cases h

/-- The client library takes the message of the command in hand. -/
theorem Publications.submitted (h : Publications labels s) (hp : s.Publishes k)
    (reconnecting : Bool) :
    Publications (labels ++ [.submitted k]) (s.respondPublish k reconnecting .tracked) := by
  have hnot := respondPublish_idle s k reconnecting .tracked
  have hother : ∀ j, (j = k → s.stageOf j ≠ some .queued) →
      (s.respondPublish k reconnecting .tracked).stageOf j = s.stageOf j :=
    fun j hj => stageOf_answerCall_of_ne hj .tracked
  have hk := h k
  refine h.move k (fun j hj => ⟨hother j (fun heq => absurd heq hj), ?_,
    fun hnow => absurd hnow (hnot j)⟩) ?_
  · simp [Label.concerns, Label.takes, Label.returns, Ne.symm hj]
  · have htakes : taken k labels = [] → taken k (labels ++ [.submitted k]) = [.submitted k] := by
      intro hnone
      rw [taken_snoc, hnone]
      simp [Label.takes]
    have houtcomes : outcomes k (labels ++ [.submitted k]) = outcomes k labels := by
      rw [outcomes_snoc]
      rfl
    by_cases hqueued : s.stageOf k = some .queued
    · have hself : (s.respondPublish k reconnecting .tracked).stageOf k = some .tracked :=
        stageOf_answerCall hqueued .tracked
      rw [hself]
      rw [hqueued] at hk
      exact ⟨htakes hk.1, houtcomes.trans hk.2, hnot k⟩
    · rw [hother k (fun _ => hqueued)]
      generalize s.stageOf k = stage at hk hqueued
      match stage with
      | none | some .reserving | some .tracked | some (.answered _) => exact absurd hp hk.2.2
      | some .queued => exact absurd rfl hqueued
      | some (.returned outcome) =>
          obtain ⟨hnone, f, rfl⟩ := hk.2.2 hp
          exact ⟨.inr (.inl (htakes hnone)), houtcomes.trans hk.2.1,
            fun hnow => absurd hnow (hnot k)⟩
      | some .cancelled =>
          exact ⟨.inr (.inl (htakes (hk.2.2 hp))), houtcomes.trans hk.2.1,
            fun hnow => absurd hnow (hnot k)⟩

/-- The publish command in hand is carried out. -/
theorem Publications.hand (h : Publications labels s) (hp : s.Publishes k) (reconnecting : Bool)
    (answer : Option ClientError) :
    Publications (labels ++ [State.publication k answer])
      (s.respondPublish k reconnecting (State.publishResult answer)) := by
  cases answer with
  | none => exact h.submitted hp reconnecting
  | some error =>
      refine h.respondPublish k reconnecting ?_
      cases error <;> exact .inl rfl

/-- A driver that is gone leaves the calls that it had not answered in the dark. -/
theorem Publications.finish (h : Publications labels s) :
    Publications (labels ++ [.quiet]) s.finish := by
  intro k
  have hnow : ¬ s.finish.Publishes k := fun hp => by
    obtain ⟨admission, deadline, reconnecting, hphase⟩ := hp
    exact nomatch hphase
  have hk := (h k).of_unconcerned (a := .quiet) rfl (fun hp => absurd hp hnow)
  have hcalls : s.finish.calls k = (s.calls k).map Call.abandoned := by
    unfold State.finish
    simp only [State.retireGeneration_calls, State.mapHandles]
  unfold State.stageOf at hk ⊢
  rw [hcalls]
  cases hcall : s.calls k with
  | none =>
      rw [hcall] at hk
      exact hk
  | some call =>
      rw [hcall] at hk
      simp only [Option.map_some, Call.abandoned] at hk ⊢
      cases hstage : call.stage with
      | queued =>
          rw [hstage] at hk
          exact ⟨.inl hk.1, hk.2, hnow⟩
      | tracked =>
          rw [hstage] at hk
          exact ⟨.inr (.inl hk.1), hk.2.1, hnow⟩
      | _ =>
          simp only [hstage] at hk ⊢
          exact hk

theorem Publications.driverStep (h : Publications labels s) (hstep : DriverStep s a s') :
    Publications (labels ++ [a]) s' := by
  cases hstep with
  | park top current => exact h.driven rfl (fun _ => rfl) (fun _ _ _ _ h => nomatch h)
  | retire top due =>
      exact h.driven (State.retireGeneration_calls s) (fun _ => rfl) (fun _ _ _ _ h => nomatch h)
  | wake parked running permit => exact h.driven rfl (fun _ => rfl) (fun _ _ _ _ h => nomatch h)
  | timer parked running wait =>
      exact h.driven (State.retireGeneration_calls s) (fun _ => rfl) (fun _ _ _ _ h => nomatch h)
  | @poll fresh event parked running unused held notice =>
      have hframe := State.handleEvent_frame s fresh event notice
      exact h.driven hframe.1 (State.observation_concerns s fresh event) hframe.2
  | lose parked running cause retryable =>
      cases retryable <;>
        exact h.driven (State.retireGeneration_calls s) (fun _ => rfl) (fun _ _ _ _ h => nomatch h)
  | retry waiting running => exact h.driven rfl (fun _ => rfl) (fun _ _ _ _ h => nomatch h)
  | stop awaits cancelled => exact h.driven rfl (fun _ => rfl) (fun _ _ _ _ h => nomatch h)
  | @settle generation pkid deadline response reason rest awaits running queue accepts =>
      refine h.driven ?_
        (State.submission_concerns s generation pkid reason deadline response accepts)
        (ne_publishing (State.resume_phase ?_))
      · rw [State.resume_calls, State.handleSettle_calls]
        rfl
      · unfold State.Awaits
        rw [State.handleSettle_phase]
        exact awaits
  | @take k deadline rest awaits running queue =>
      exact Publications.takePublish (s := s.dequeue rest) h awaits k deadline
  | checkOpen publishing =>
      exact h.checkPublish ⟨_, _, _, publishing⟩ _ _ _ _ (refuseClosed_honest s _)
  | checkDeadline publishing =>
      exact h.checkPublish ⟨_, _, _, publishing⟩ _ _ _ _ (refuseLate_honest s _ _)
  | hand publishing answer => exact h.hand ⟨_, _, _, publishing⟩ _ answer
  | @shutdown deadline rest awaits running queue =>
      exact h.driven (State.retireGeneration_calls (s.dequeue rest)) (fun _ => rfl)
        (fun _ _ _ _ h => nomatch h)
  | farewell closing result =>
      cases result <;> exact h.driven rfl (fun _ => rfl) (fun _ _ _ _ h => nomatch h)
  | finish gone => exact h.finish

/-! ### Runs -/

/-- The steps of receivers and settlements are about no call. -/
theorem SettlementStep.frame (h : SettlementStep s a s') :
    s'.calls = s.calls ∧ s'.phase = s.phase ∧ ∀ k, a.concerns k = false := by
  cases h <;> exact ⟨rfl, rfl, fun _ => rfl⟩

theorem OwnerStep.frame (h : OwnerStep s s') : s'.calls = s.calls ∧ s'.phase = s.phase := by
  cases h <;> exact ⟨rfl, rfl⟩

theorem Publications.undisturbed (h : Publications labels s) (hcalls : s'.calls = s.calls)
    (hphase : s'.phase = s.phase) (ha : ∀ k, a.concerns k = false) :
    Publications (labels ++ [a]) s' :=
  h.frame (fun k => by simp only [State.stageOf, hcalls]) ha
    (fun k hp => by simpa only [State.Publishes, hphase] using hp)

theorem Publications.step (h : Publications labels s) (hstep : Step s a s') :
    Publications (labels ++ [a]) s' := by
  cases hstep with
  | settlement step =>
      obtain ⟨hcalls, hphase, ha⟩ := step.frame
      exact h.undisturbed hcalls hphase ha
  | call step => exact h.callStep step
  | driver step => exact h.driverStep step
  | owner step =>
      obtain ⟨hcalls, hphase⟩ := step.frame
      exact h.undisturbed hcalls hphase (fun _ => rfl)

theorem publications_of_runs {maxDeliveries room : ℕ} {subscribes : Bool}
    (h : Runs Step (State.start maxDeliveries subscribes room) labels s) :
    Publications labels s := by
  refine h.invariant (fun k => ⟨rfl, rfl, fun hp => ?_⟩) (fun _ _ _ _ _ hknown hstep =>
    hknown.step hstep)
  obtain ⟨admission, deadline, reconnecting, hphase⟩ := hp
  exact nomatch hphase

/-- In every run, the client library takes the message of a call at most once, and the call
returns at most once: confirmed only by a notice that confirms its own message, not published only
if the library never takes the message or gave notice that it was refused. -/
theorem publications_honest {maxDeliveries room : ℕ} {subscribes : Bool}
    (h : Runs Step (State.start maxDeliveries subscribes room) labels s) (k : ℕ) :
    Handed k (taken k labels) ∧ (outcomes k labels).length ≤ 1 ∧
      ∀ outcome, .returned k outcome ∈ labels → Honest k (taken k labels) outcome := by
  have hmem : ∀ outcome, .returned k outcome ∈ labels → .returned k outcome ∈ outcomes k labels :=
    fun outcome hin => List.mem_filter.mpr ⟨hin, by simp [Label.returns]⟩
  have hk := publications_of_runs h k
  generalize s.stageOf k = stage at hk
  match stage with
  | none | some .reserving =>
      refine ⟨.inl hk.1, by simp [hk.2.1], fun outcome hin => ?_⟩
      simpa [hk.2.1] using hmem outcome hin
  | some .queued =>
      refine ⟨.inl hk.1, by simp [hk.2], fun outcome hin => ?_⟩
      simpa [hk.2] using hmem outcome hin
  | some .tracked =>
      refine ⟨.inr (.inl hk.1), by simp [hk.2.1], fun outcome hin => ?_⟩
      simpa [hk.2.1] using hmem outcome hin
  | some (.answered outcome') =>
      refine ⟨hk.1.handed, by simp [hk.2.1], fun outcome hin => ?_⟩
      simpa [hk.2.1] using hmem outcome hin
  | some (.returned outcome') =>
      refine ⟨hk.1.handed, by simp [hk.2.1], fun outcome hin => ?_⟩
      have heq : outcome = outcome' := by simpa [hk.2.1] using hmem outcome hin
      exact heq ▸ hk.1
  | some .cancelled =>
      refine ⟨hk.1, by simp [hk.2.1], fun outcome hin => ?_⟩
      simpa [hk.2.1] using hmem outcome hin

end

/-- A call is confirmed after the connection, its command and its notice. -/
def confirmedRun : List Label :=
  [.quiet, .quiet, .quiet, .quiet, .quiet, .quiet, .quiet, .quiet, .submitted 0,
    .noticed 0 (.qos1 .success), .returned 0 (.confirmed ())]

theorem confirmedRun_runs : ∃ s, Runs Step (State.start 1 false 1) confirmedRun s := by
  have h₁ := Runs.single (Step.driver (.park (s := State.start 1 false 1) rfl (by decide)))
  have h₂ := h₁.snoc (.driver (@DriverStep.poll _ 0 (.connAck false true) rfl rfl rfl
    (fun _ h => nomatch h) .pending))
  have h₃ := h₂.snoc (.call (@CallStep.reserve _ 0 9 rfl (by decide) rfl))
  have h₄ := h₃.snoc (.call (@CallStep.send _ 0 9 rfl (by decide) (by decide) rfl (by decide)))
  have h₅ := h₄.snoc (.driver (.park rfl (by decide)))
  have h₆ := h₅.snoc (.driver (@DriverStep.take _ 0 9 [] (.inl rfl) rfl rfl))
  have h₇ := h₆.snoc (.driver (@DriverStep.checkOpen _ 0 9 false rfl))
  have h₈ := h₇.snoc (.driver (@DriverStep.checkDeadline _ 0 9 false rfl))
  have h₉ := h₈.snoc (.driver (@DriverStep.hand _ 0 9 false rfl none))
  have h₁₀ := h₉.snoc (.call (@CallStep.notice _ 0 9 rfl (.qos1 .success)))
  have h₁₁ := h₁₀.snoc (.call (@CallStep.return_ _ 0 9 (.confirmed ()) rfl (by decide)))
  exact ⟨_, h₁₁⟩

theorem publications_honest_confirmed :
    Honest 0 (taken 0 confirmedRun) (.confirmed ()) := by
  obtain ⟨s, hs⟩ := confirmedRun_runs
  exact (publications_honest hs 0).2.2 _ (by simp [confirmedRun])

end Rss.Mqtt
