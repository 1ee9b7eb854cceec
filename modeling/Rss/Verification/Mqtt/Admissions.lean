import Rss.Verification.Mqtt.Publications

/-! # When a message is admitted

The connection state that the driver shows, and what it says of the moment a message is handed to
the client library. -/

namespace Rss.Mqtt

open Rss.Messaging

/-! ### The invariant -/

/-- Nothing follows the connection state. -/
def ConnectionState.isTerminal : ConnectionState → Bool
  | .failed _ | .closed => true
  | _ => false

/-- The call is there, with this cutoff. -/
def State.Bounds (s : State) (k deadline : ℕ) : Prop :=
  ∃ call, s.calls k = some call ∧ call.cutoff = deadline

/-- What the driver shows of its connection, by where it is. -/
def Presents (generation : ℕ) (connection : ConnectionState) : Phase → Prop
  | .top | .parked | .waiting | .publishing _ _ _ _ => connection.isTerminal = false ∧
      ∀ g sessionPresent, connection = .ready g sessionPresent → g = generation
  | .closing => connection.isTerminal = false
  | .ended => True
  | .stopped => connection.isTerminal = true

/-- The driver is in its loop. -/
def Phase.isServing : Phase → Bool
  | .top | .parked | .waiting | .publishing _ _ _ _ => true
  | _ => false

structure Connected (s : State) : Prop where
  commands : ∀ k deadline, .publish k deadline ∈ s.commands → s.Bounds k deadline
  hand : ∀ admission k deadline reconnecting,
    s.phase = .publishing admission k deadline reconnecting → s.Bounds k deadline
  presents : Presents s.generation s.connection s.phase

section

variable {s s' : State} {a : Label} {k : ℕ}

theorem presents_iff {phase : Phase} (generation : ℕ) (connection : ConnectionState)
    (h : phase.isServing = true) :
    Presents generation connection phase ↔ Presents generation connection .top := by
  cases phase <;> first | exact Iff.rfl | cases h

theorem presents_serving {generation : ℕ} {connection : ConnectionState} {phase phase' : Phase}
    (h : Presents generation connection phase) (hphase : phase.isServing = true)
    (hphase' : phase'.isServing = true) : Presents generation connection phase' :=
  (presents_iff generation connection hphase').mpr
    ((presents_iff generation connection hphase).mp h)

theorem presents_reconnecting (generation : ℕ) (cause : MqttError) (g : ℕ) :
    Presents generation (.reconnecting cause g) .top :=
  ⟨rfl, fun _ _ h => by cases h⟩

theorem presents_ready (generation : ℕ) (sessionPresent : Bool) :
    Presents generation (.ready generation sessionPresent) .top := by
  refine ⟨rfl, fun g p h => ?_⟩
  exact (ConnectionState.ready.inj h).1.symm

theorem Connected.serving (h : Connected s) (hserving : s.phase.isServing = true) :
    Presents s.generation s.connection .top :=
  (presents_iff s.generation s.connection hserving).mp h.presents

/-- A step that the driver does not take. -/
theorem Connected.served (h : Connected s) (hbounds : ∀ k d, s.Bounds k d → s'.Bounds k d)
    (hcommands : ∀ k d, .publish k d ∈ s'.commands → .publish k d ∈ s.commands ∨ s'.Bounds k d)
    (hsame : (s'.generation, s'.connection, s'.phase) = (s.generation, s.connection, s.phase)) :
    Connected s' := by
  simp only [Prod.mk.injEq] at hsame
  obtain ⟨hgeneration, hconnection, hphase⟩ := hsame
  refine ⟨fun k d hmem => ?_, fun admission k d r hp => ?_, ?_⟩
  · rcases hcommands k d hmem with hmem | hnow
    · exact hbounds k d (h.commands k d hmem)
    · exact hnow
  · exact hbounds k d (h.hand admission k d r (hphase ▸ hp))
  · rw [hgeneration, hconnection, hphase]
    exact h.presents

/-- The driver goes on without a publish command in hand. -/
theorem Connected.driven (h : Connected s) (hbounds : ∀ k d, s.Bounds k d → s'.Bounds k d)
    (hcommands : s'.commands.Sublist s.commands)
    (hphase : ∀ admission k d r, s'.phase ≠ .publishing admission k d r)
    (hpresents : Presents s'.generation s'.connection s'.phase) : Connected s' :=
  ⟨fun k d hmem => hbounds k d (h.commands k d (hcommands.subset hmem)),
    fun admission k d r hp => absurd hp (hphase admission k d r), hpresents⟩

/-! ### Calls -/

theorem bounds_of_calls (hcalls : s'.calls = s.calls) {j d : ℕ} (h : s.Bounds j d) :
    s'.Bounds j d := by
  rw [State.Bounds, hcalls]
  exact h

theorem bounds_setCall {call : Call} (hfresh : s.calls k = none) {j d : ℕ} (h : s.Bounds j d) :
    (s.setCall k call).Bounds j d := by
  obtain ⟨x, hx, hd⟩ := h
  have hj : j ≠ k := by
    rintro rfl
    cases hfresh.symm.trans hx
  exact ⟨x, (if_neg hj).trans hx, hd⟩

theorem bounds_setCallStage (stage : CallStage) {j d : ℕ} (h : s.Bounds j d) :
    (s.setCallStage k stage).Bounds j d := by
  obtain ⟨x, hx, hd⟩ := h
  by_cases hj : j = k
  · exact ⟨{ x with stage }, by simp [State.setCallStage, hj, hj ▸ hx], hd⟩
  · exact ⟨x, (if_neg hj).trans hx, hd⟩

theorem bounds_answerCall (stage : CallStage) {j d : ℕ} (h : s.Bounds j d) :
    (s.answerCall k stage).Bounds j d := by
  obtain ⟨x, hx, hd⟩ := h
  have hcutoff : (x.answer stage).cutoff = x.cutoff := by
    unfold Call.answer
    split <;> rfl
  by_cases hj : j = k
  · exact ⟨x.answer stage, by simp [State.answerCall, hj, hj ▸ hx], hcutoff.trans hd⟩
  · exact ⟨x, (if_neg hj).trans hx, hd⟩

theorem bounds_finish {j d : ℕ} (h : s.Bounds j d) : s.finish.Bounds j d := by
  obtain ⟨x, hx, hd⟩ := h
  have hcutoff : x.abandoned.cutoff = x.cutoff := by
    unfold Call.abandoned
    split <;> rfl
  refine ⟨x.abandoned, ?_, hcutoff.trans hd⟩
  simp [State.finish, State.mapHandles, hx]

theorem Connected.callStep (h : Connected s) (hstep : CallStep s a s') : Connected s' := by
  cases hstep with
  | reserve fresh early running =>
      exact h.served (fun _ _ => bounds_setCall fresh) (fun _ _ => .inl) rfl
  | refuse fresh refused =>
      exact h.served (fun _ _ => bounds_setCall fresh) (fun _ _ => .inl) rfl
  | @send k cutoff call space open_ running early =>
      refine h.served (fun _ _ => bounds_setCallStage .queued) (fun j d hmem => ?_) rfl
      rcases List.mem_append.mp hmem with hmem | hmem
      · exact .inl hmem
      · obtain ⟨rfl, rfl⟩ := Command.publish.inj (List.mem_singleton.mp hmem)
        exact .inr (bounds_setCallStage .queued ⟨_, call, rfl⟩)
  | _ => exact h.served (fun _ _ => bounds_setCallStage _) (fun _ _ => .inl) rfl

theorem Connected.settlementStep (h : Connected s) (hstep : SettlementStep s a s') :
    Connected s' := by
  cases hstep with
  | send handle stage space running =>
      refine h.served (fun _ _ => id) (fun j d hmem => ?_) rfl
      rcases List.mem_append.mp hmem with hmem | hmem
      · exact .inl hmem
      · cases List.mem_singleton.mp hmem
  | _ => exact h.served (fun _ _ => id) (fun _ _ => .inl) rfl

theorem Connected.ownerStep (h : Connected s) (hstep : OwnerStep s s') : Connected s' := by
  cases hstep with
  | shutdown closing space running deadline =>
      refine h.served (fun _ _ => id) (fun j d hmem => ?_) rfl
      rcases List.mem_append.mp hmem with hmem | hmem
      · exact .inl hmem
      · cases List.mem_singleton.mp hmem
  | _ => exact h.served (fun _ _ => id) (fun _ _ => .inl) rfl

/-! ### The driver -/

theorem retireGeneration_shown (s : State) : s.retireGeneration.connection = s.connection ∧
    s.retireGeneration.commands = s.commands ∧ s.retireGeneration.calls = s.calls := by
  rcases s.retireGeneration_cases with ⟨generation, -, heq⟩ | heq
  · rw [heq]
    exact ⟨rfl, rfl, rfl⟩
  · rw [heq]
    exact ⟨rfl, rfl, rfl⟩

theorem presents_inspect {connection : ConnectionState}
    (h : Presents s.generation connection .top) (hsame : s.connection = connection)
    (notice : State.Subscribed) :
    Presents (s.inspect notice).generation (s.inspect notice).connection
      (s.inspect notice).phase := by
  subst hsame
  unfold State.inspect State.checkSubscription
  cases hpending : s.subscription with
  | false => exact h
  | true =>
      cases notice with
      | pending => exact h
      | granted => exact presents_ready s.generation s.sessionPresent
      | transient => exact presents_reconnecting _ _ _
      | rejected store => cases store <;> trivial

/-- An event leaves the connection state alone, or makes it ready. -/
theorem presents_event {s₁ : State} {fresh : ℕ} {event : State.Event}
    (h : Presents s.generation s.connection .top) (hevent : s.event fresh event = .ok s₁) :
    Presents s₁.generation s₁.connection .top ∧ s₁.commands = s.commands := by
  cases event with
  | connAck sessionPresent tracked =>
      simp only [State.event] at hevent
      split at hevent
      · cases hevent
        exact ⟨presents_ready s.generation sessionPresent, rfl⟩
      · split at hevent
        · cases hevent
          exact ⟨h, rfl⟩
        · cases hevent
  | publish atLeastOnce pkid =>
      simp only [State.event, State.receive] at hevent
      split at hevent
      · cases hevent
      · split at hevent
        · cases hevent
          exact ⟨h, rfl⟩
        · split at hevent
          · cases hevent
          · cases hevent
            exact ⟨h, rfl⟩
  | pubAckReceived reason =>
      simp only [State.event] at hevent
      cases hevent
      split
      · exact ⟨h, rfl⟩
      · exact ⟨h, rfl⟩
  | pubAckWritten pkid =>
      simp only [State.event, State.acknowledge] at hevent
      cases hevent
      split
      · split
        · exact ⟨h, rfl⟩
        · exact ⟨h, rfl⟩
      · exact ⟨h, rfl⟩
  | other =>
      cases hevent
      exact ⟨h, rfl⟩

theorem inspect_commands (s : State) (notice : State.Subscribed) :
    (s.inspect notice).commands = s.commands := by
  rcases s.inspect_cases notice with ⟨_, _, _, -, heq⟩ | ⟨error, heq⟩
  · rw [heq]
  · rw [heq]
    exact (retireGeneration_shown s).2.1

theorem Connected.handleEvent (h : Connected s) (hparked : s.phase = .parked) (fresh : ℕ)
    (event : State.Event) (notice : State.Subscribed) :
    Connected (s.handleEvent fresh event notice) := by
  have htop : Presents s.generation s.connection .top := h.serving (by rw [hparked]; rfl)
  obtain ⟨hcalls, hphase⟩ := State.handleEvent_frame s fresh event notice
  have hbounds : ∀ k d, s.Bounds k d → (s.handleEvent fresh event notice).Bounds k d :=
    fun _ _ => bounds_of_calls hcalls
  cases hevent : s.event fresh event with
  | error error =>
      have heq : s.handleEvent fresh event notice = { s.fail error with phase := .ended } := by
        rw [State.handleEvent, hevent]
      refine h.driven hbounds ?_ hphase ?_
      · rw [heq]
        exact List.Sublist.refl _
      · rw [heq]
        trivial
  | ok s₁ =>
      have heq : s.handleEvent fresh event notice = s₁.inspect notice := by
        rw [State.handleEvent, hevent]
      obtain ⟨hpresents, hcommands⟩ := presents_event htop hevent
      refine h.driven hbounds ?_ hphase ?_
      · rw [heq, inspect_commands, hcommands]
      · rw [heq]
        exact presents_inspect hpresents rfl notice

/-- The loop goes on. -/
theorem Connected.moved (h : Connected s) (hserving : s.phase.isServing = true)
    (hcalls : s'.calls = s.calls) (hcommands : s'.commands = s.commands)
    (hphase : s'.phase = .top ∨ s'.phase = .parked)
    (hsame : (s'.generation, s'.connection) = (s.generation, s.connection)) : Connected s' := by
  simp only [Prod.mk.injEq] at hsame
  refine h.driven (fun _ _ => bounds_of_calls hcalls) (hcommands ▸ List.Sublist.refl _)
    (fun _ _ _ _ hp => ?_) ?_
  · rcases hphase with heq | heq
    · cases heq.symm.trans hp
    · cases heq.symm.trans hp
  · rw [hsame.1, hsame.2]
    refine presents_serving h.presents hserving ?_
    rcases hphase with heq | heq
    · rw [heq]
      rfl
    · rw [heq]
      rfl

theorem Connected.resume (h : Connected s) : Connected s.resume := by
  unfold State.resume
  split
  · rename_i hparked
    exact h.moved (by rw [hparked]; rfl) rfl rfl (.inl rfl) rfl
  · exact h

/-- The generation is retired, and the driver shows that it has no connection. -/
theorem Connected.reconnecting (h : Connected s) (cause : MqttError) {phase : Phase}
    (hphase : phase = .top ∨ phase = .waiting) :
    Connected { s.retireGeneration.reconnecting cause with phase } := by
  obtain ⟨-, hcommands, hcalls⟩ := retireGeneration_shown s
  generalize s.retireGeneration = t at hcommands hcalls ⊢
  refine h.driven (fun _ _ => bounds_of_calls hcalls) (hcommands ▸ List.Sublist.refl _)
    (ne_publishing hphase) ?_
  refine presents_serving (presents_reconnecting _ _ _) rfl ?_
  rcases hphase with rfl | rfl <;> rfl

/-- The generation is retired for good. -/
theorem Connected.failed (h : Connected s) (cause : MqttError) :
    Connected { s.retireGeneration.fail cause with phase := .ended } := by
  obtain ⟨-, hcommands, hcalls⟩ := retireGeneration_shown s
  generalize s.retireGeneration = t at hcommands hcalls ⊢
  exact h.driven (fun _ _ => bounds_of_calls hcalls) (hcommands ▸ List.Sublist.refl _)
    (fun _ _ _ _ hp => by cases hp) trivial

/-- A command leaves the queue. -/
theorem Connected.dequeue (h : Connected s) {c : Command} {rest : List Command}
    (hqueue : s.commands = c :: rest) : Connected (s.dequeue rest) :=
  ⟨fun k d hmem => h.commands k d (hqueue ▸ List.mem_cons_of_mem c hmem), h.hand, h.presents⟩

theorem Connected.handleSettle (h : Connected s) (generation pkid : ℕ) (reason : PubAckReason)
    (deadline response : ℕ) (accepts : Bool) :
    Connected (s.handleSettle generation pkid reason deadline response accepts) := by
  unfold State.handleSettle
  split
  · exact h.served (fun _ _ => id) (fun _ _ => .inl) rfl
  · exact h.served (fun _ _ => id) (fun _ _ => .inl) rfl

theorem serving_awaits (hawaits : s.Awaits) : s.phase.isServing = true := by
  rcases hawaits with hphase | hphase
  · rw [hphase]
    rfl
  · rw [hphase]
    rfl

theorem Connected.takePublish (h : Connected s) (hawaits : s.Awaits) {deadline : ℕ}
    (hbounds : s.Bounds k deadline) : Connected (s.takePublish k deadline) := by
  by_cases hqueued : s.stageOf k = some .queued
  · rw [takePublish_queued hqueued]
    refine ⟨h.commands, fun _ j d r hp => ?_, ?_⟩
    · obtain ⟨-, rfl, rfl, -⟩ := Phase.publishing.inj hp
      exact hbounds
    · exact presents_serving h.presents (serving_awaits hawaits) rfl
  · rw [takePublish_gone hqueued]
    exact h.resume

theorem serving_publishing {admission : Admission} {deadline : ℕ} {reconnecting : Bool}
    (hphase : s.phase = .publishing admission k deadline reconnecting) :
    s.phase.isServing = true := by
  rw [hphase]
  rfl

theorem Connected.respondPublish (h : Connected s) {admission : Admission} {deadline : ℕ}
    {reconnecting : Bool} (hphase : s.phase = .publishing admission k deadline reconnecting)
    (result : CallStage) : Connected (s.respondPublish k reconnecting result) := by
  refine h.driven (fun _ _ => bounds_answerCall _) (List.Sublist.refl _)
    (fun _ _ _ _ hp => ?_) ?_
  · cases reconnecting <;> cases hp
  · exact presents_serving h.presents (serving_publishing hphase) (by cases reconnecting <;> rfl)

theorem Connected.checkPublish (h : Connected s) {admission : Admission} {deadline : ℕ}
    {reconnecting : Bool} (hphase : s.phase = .publishing admission k deadline reconnecting)
    (refusal : Option (PublishOutcome Unit)) (passed : Admission) :
    Connected (s.checkPublish refusal passed k deadline reconnecting) := by
  cases refusal with
  | some outcome => exact h.respondPublish hphase _
  | none =>
      refine ⟨h.commands, fun _ j d r hp => ?_, ?_⟩
      · obtain ⟨-, rfl, rfl, -⟩ := Phase.publishing.inj hp
        exact h.hand _ _ _ _ hphase
      · exact presents_serving h.presents (serving_publishing hphase) rfl

theorem Connected.beginShutdown (h : Connected s) (hserving : s.phase.isServing = true) :
    Connected s.beginShutdown := by
  obtain ⟨hconnection, hcommands, hcalls⟩ := retireGeneration_shown s
  refine h.driven (fun _ _ => bounds_of_calls hcalls) (hcommands ▸ List.Sublist.refl _)
    (fun _ _ _ _ hp => by cases hp) ?_
  have hopen : s.connection.isTerminal = false := (h.serving hserving).1
  rw [← hconnection] at hopen
  exact hopen

theorem finish_connection (s : State) :
    s.finish.connection = if s.connection.isFailed then s.connection else .closed := by
  have hconnection : ({ s with closing := true } : State).retireGeneration.connection =
      s.connection := (retireGeneration_shown _).1
  unfold State.finish State.mapHandles
  simp only [hconnection]

theorem Connected.finish (h : Connected s) : Connected s.finish := by
  obtain ⟨-, -, hcalls⟩ := retireGeneration_shown { s with closing := true }
  refine h.driven (fun j d hb => ?_) (List.nil_sublist _) (fun _ _ _ _ hp => by cases hp) ?_
  · exact bounds_finish hb
  · have hterminal : s.finish.connection.isTerminal = true := by
      rw [finish_connection]
      cases hconnection : s.connection <;> rfl
    exact hterminal

theorem Connected.driverStep (h : Connected s) (hstep : DriverStep s a s') : Connected s' := by
  cases hstep with
  | park top current => exact h.moved (by rw [top]; rfl) rfl rfl (.inr rfl) rfl
  | retire top due => exact h.reconnecting _ (.inl rfl)
  | wake parked running permit => exact h.moved (by rw [parked]; rfl) rfl rfl (.inl rfl) rfl
  | timer parked running wait => exact h.reconnecting _ (.inl rfl)
  | poll parked running unused held notice => exact h.handleEvent parked _ _ notice
  | lose parked running cause retryable =>
      cases retryable with
      | true => exact h.reconnecting cause (.inr rfl)
      | false => exact h.failed cause
  | retry waiting running => exact h.moved (by rw [waiting]; rfl) rfl rfl (.inl rfl) rfl
  | stop awaits cancelled =>
      exact h.driven (fun _ _ => id) (List.Sublist.refl _) (fun _ _ _ _ hp => by cases hp) trivial
  | settle awaits running queue accepts =>
      exact ((h.dequeue queue).handleSettle _ _ _ _ _ accepts).resume
  | @take k deadline rest awaits running queue =>
      have hbounds : s.Bounds k deadline := h.commands k deadline (queue ▸ List.mem_cons_self)
      exact (h.dequeue queue).takePublish awaits hbounds
  | checkOpen publishing => exact h.checkPublish publishing _ _
  | checkDeadline publishing => exact h.checkPublish publishing _ _
  | hand publishing answer => exact h.respondPublish publishing _
  | shutdown awaits running queue =>
      exact (h.dequeue queue).beginShutdown (serving_awaits awaits)
  | farewell closing result =>
      cases result <;>
        exact h.driven (fun _ _ => id) (List.Sublist.refl _) (fun _ _ _ _ hp => by cases hp) trivial
  | finish gone => exact h.finish

theorem Connected.step (h : Connected s) (hstep : Step s a s') : Connected s' := by
  cases hstep with
  | settlement step => exact h.settlementStep step
  | call step => exact h.callStep step
  | driver step => exact h.driverStep step
  | owner step => exact h.ownerStep step

/-! ### Runs -/

theorem connected_of_runs {maxDeliveries room : ℕ} {subscribes : Bool} {log : List Label}
    (h : Runs Step (State.start maxDeliveries subscribes room) log s) : Connected s := by
  refine h.invariant (I := fun _ => Connected) ?_ (fun _ _ _ _ _ hs hstep => hs.step hstep)
  exact {
    commands := fun _ _ hmem => by cases hmem
    hand := fun _ _ _ _ hp => by cases hp
    presents := ⟨rfl, fun _ _ hc => by cases hc⟩ }

/-! ### The checks on the way -/

/-- The driver has the command of the call in hand. -/
def State.Holds (s : State) (admission : Admission) (k deadline : ℕ) : Prop :=
  ∃ reconnecting, s.phase = .publishing admission k deadline reconnecting

/-- What the driver shows, with the generation it serves. -/
def State.shown (s : State) : ℕ × ConnectionState := (s.generation, s.connection)

/-- With the command in hand, the driver has found the connection open, which showed the same. -/
def FoundOpen (start : State) (k deadline : ℕ) (shown : ℕ × ConnectionState) :
    List Label → State → Prop :=
  Runs.Passed Step start (fun _ m => m.Holds .received k deadline ∧ m.closing = false ∧
    m.connection.isReady = true ∧ m.shown = shown)

/-- After that it has found the deadline ahead. -/
def FoundTimely (start : State) (k deadline : ℕ) (shown : ℕ × ConnectionState) :
    List Label → State → Prop :=
  Runs.Passed Step start (fun log m => m.Holds .opened k deadline ∧ m.now < deadline ∧
    m.shown = shown ∧ FoundOpen start k deadline shown log m)

/-- What the driver has found by the time it holds a command so. -/
def Found (start : State) (log : List Label) (s : State) (k deadline : ℕ) : Admission → Prop
  | .received => True
  | .opened => FoundOpen start k deadline s.shown log s
  | .timely => FoundTimely start k deadline s.shown log s

theorem Found.snoc {start : State} {log : List Label} {deadline : ℕ} {admission : Admission}
    (h : Found start log s k deadline admission) (hstep : Step s a s')
    (hshown : s'.shown = s.shown) : Found start (log ++ [a]) s' k deadline admission := by
  cases admission with
  | received => trivial
  | opened =>
      rw [Found, hshown]
      exact Runs.Passed.snoc h hstep
  | timely =>
      rw [Found, hshown]
      exact Runs.Passed.snoc h hstep

theorem open_of_refuseClosed (h : s.refuseClosed = none) :
    s.closing = false ∧ s.connection.isReady = true := by
  unfold State.refuseClosed at h
  split at h
  · cases h
  · rename_i hopen
    rw [Bool.or_eq_true, not_or, Bool.not_eq_true, Bool.not_eq_true, Bool.not_eq_false'] at hopen
    exact hopen

theorem early_of_refuseLate {deadline : ℕ} (h : s.refuseLate deadline = none) :
    s.now < deadline := by
  unfold State.refuseLate at h
  split at h
  · cases h
  · rename_i hearly
    exact Nat.lt_of_not_le hearly

/-- A check that leaves the command in hand has passed. -/
theorem checkPublish_passed {refusal : Option (PublishOutcome Unit)} {passed admission : Admission}
    {j deadline deadline' : ℕ} {reconnecting : Bool}
    (h : (s.checkPublish refusal passed k deadline reconnecting).Holds admission j deadline') :
    refusal = none ∧ admission = passed ∧ j = k ∧ deadline' = deadline := by
  obtain ⟨reconnecting', hphase⟩ := h
  cases refusal with
  | some outcome => cases reconnecting <;> cases hphase
  | none =>
      cases hphase
      exact ⟨rfl, rfl, rfl, rfl⟩

/-- How the driver comes to hold a command. -/
theorem DriverStep.holds {admission : Admission} {deadline : ℕ} (h : DriverStep s a s')
    (hholds : s'.Holds admission k deadline) :
    admission = .received ∨ s'.shown = s.shown ∧
      (admission = .opened ∧ s.Holds .received k deadline ∧ s.refuseClosed = none ∨
        admission = .timely ∧ s.Holds .opened k deadline ∧ s.refuseLate deadline = none) := by
  have hnever : (∀ admission k deadline reconnecting,
      s'.phase ≠ .publishing admission k deadline reconnecting) → False := by
    intro hphase
    obtain ⟨reconnecting, hnow⟩ := hholds
    exact hphase _ _ _ _ hnow
  cases h with
  | poll parked running unused held notice =>
      exact (hnever (State.handleEvent_frame s _ _ notice).2).elim
  | lose parked running cause retryable =>
      cases retryable <;> exact (hnever fun _ _ _ _ hp => by cases hp).elim
  | settle awaits running queue accepts =>
      refine (hnever (ne_publishing (State.resume_phase ?_))).elim
      unfold State.Awaits
      rw [State.handleSettle_phase]
      exact awaits
  | @take j d rest awaits running queue =>
      by_cases hqueued : (s.dequeue rest).stageOf j = some .queued
      · rw [takePublish_queued hqueued] at hholds
        obtain ⟨reconnecting, hphase⟩ := hholds
        exact .inl (Phase.publishing.inj hphase).1.symm
      · rw [takePublish_gone hqueued] at hnever
        exact (hnever (ne_publishing (State.resume_phase awaits))).elim
  | @checkOpen j d reconnecting publishing =>
      obtain ⟨hrefusal, rfl, rfl, rfl⟩ := checkPublish_passed hholds
      refine .inr ⟨?_, .inl ⟨rfl, ⟨_, publishing⟩, hrefusal⟩⟩
      rw [hrefusal]
      rfl
  | @checkDeadline j d reconnecting publishing =>
      obtain ⟨hrefusal, rfl, rfl, rfl⟩ := checkPublish_passed hholds
      refine .inr ⟨?_, .inr ⟨rfl, ⟨_, publishing⟩, hrefusal⟩⟩
      rw [hrefusal]
      rfl
  | @hand j d reconnecting publishing answer =>
      refine (hnever fun _ _ _ _ hp => ?_).elim
      cases reconnecting <;> cases hp
  | farewell closing result =>
      cases result <;> exact (hnever fun _ _ _ _ hp => by cases hp).elim
  | _ => exact (hnever fun _ _ _ _ hp => by cases hp).elim

/-- Nobody but the driver changes where it is and what it shows. -/
theorem Step.others (h : Step s a s') :
    DriverStep s a s' ∨ s'.phase = s.phase ∧ s'.shown = s.shown := by
  cases h with
  | settlement step => cases step <;> exact .inr ⟨rfl, rfl⟩
  | call step => cases step <;> exact .inr ⟨rfl, rfl⟩
  | driver step => exact .inl step
  | owner step => cases step <;> exact .inr ⟨rfl, rfl⟩

theorem found_of_runs {start : State} {log : List Label} (h : Runs Step start log s)
    (hstart : ∀ admission k deadline, ¬ start.Holds admission k deadline) :
    ∀ admission k deadline, s.Holds admission k deadline →
      Found start log s k deadline admission := by
  refine h.invariant (I := fun log s => ∀ admission k deadline, s.Holds admission k deadline →
    Found start log s k deadline admission)
    (fun _ _ _ hholds => absurd hholds (hstart _ _ _)) ?_
  intro log s a s' hrun hfound hstep admission k deadline hholds
  rcases hstep.others with hdriver | ⟨hphase, hshown⟩
  · rcases hdriver.holds hholds with rfl | ⟨hshown, hchecked⟩
    · trivial
    · rcases hchecked with ⟨rfl, hbefore, hrefusal⟩ | ⟨rfl, hbefore, hrefusal⟩
      · obtain ⟨hclosing, hready⟩ := open_of_refuseClosed hrefusal
        rw [Found, hshown]
        exact (Runs.Passed.of_now hrun ⟨hbefore, hclosing, hready, rfl⟩).snoc hstep
      · have hopen : FoundOpen start k deadline s.shown log s := hfound _ _ _ hbefore
        rw [Found, hshown]
        exact (Runs.Passed.of_now hrun
          ⟨hbefore, early_of_refuseLate hrefusal, rfl, hopen⟩).snoc hstep
  · obtain ⟨reconnecting, hnow⟩ := hholds
    exact (hfound admission k deadline ⟨reconnecting, hphase ▸ hnow⟩).snoc hstep hshown

/-- What was found of the connection when it was open is so now. -/
theorem Connected.ready (h : Connected s) {start : State} {log : List Label} {deadline : ℕ}
    {reconnecting : Bool} (hphase : s.phase = .publishing .timely k deadline reconnecting)
    (hfound : FoundTimely start k deadline s.shown log s) :
    ∃ sessionPresent, s.connection = .ready s.generation sessionPresent := by
  obtain ⟨_, m, -, -, -, hopen⟩ := hfound.exists
  obtain ⟨_, m', -, -, hready, hshown⟩ := hopen.exists
  obtain ⟨-, hconnection⟩ := Prod.mk.inj hshown
  rw [hconnection] at hready
  have hcurrent := (h.serving (serving_publishing hphase)).2
  cases hnow : s.connection with
  | ready g sessionPresent => exact ⟨sessionPresent, by rw [hcurrent g sessionPresent hnow]⟩
  | _ =>
      rw [hnow] at hready
      cases hready

/-- A failed or closed connection has no driver that could say otherwise. -/
theorem Connected.terminal (h : Connected s) (hterminal : s.connection.isTerminal = true)
    (hstep : Step s a s') : s'.connection = s.connection := by
  have hnot : s.phase.isServing = true → False := by
    intro hserving
    cases hterminal.symm.trans (h.serving hserving).1
  cases hstep with
  | settlement step => cases step <;> rfl
  | call step => cases step <;> rfl
  | owner step => cases step <;> rfl
  | driver step =>
      cases step with
      | park top current => exact (hnot (by rw [top]; rfl)).elim
      | retire top due => exact (hnot (by rw [top]; rfl)).elim
      | wake parked running permit => exact (hnot (by rw [parked]; rfl)).elim
      | timer parked running wait => exact (hnot (by rw [parked]; rfl)).elim
      | poll parked running unused held notice => exact (hnot (by rw [parked]; rfl)).elim
      | lose parked running cause retryable => exact (hnot (by rw [parked]; rfl)).elim
      | retry waiting running => exact (hnot (by rw [waiting]; rfl)).elim
      | stop awaits cancelled => exact (hnot (serving_awaits awaits)).elim
      | settle awaits running queue accepts => exact (hnot (serving_awaits awaits)).elim
      | take awaits running queue => exact (hnot (serving_awaits awaits)).elim
      | checkOpen publishing => exact (hnot (serving_publishing publishing)).elim
      | checkDeadline publishing => exact (hnot (serving_publishing publishing)).elim
      | hand publishing answer => exact (hnot (serving_publishing publishing)).elim
      | shutdown awaits running queue => exact (hnot (serving_awaits awaits)).elim
      | farewell closing result =>
          have hpresents := h.presents
          rw [closing] at hpresents
          cases hterminal.symm.trans hpresents
      | finish gone =>
          rw [finish_connection]
          cases hconnection : s.connection with
          | failed error => rfl
          | closed => rfl
          | _ =>
              rw [hconnection] at hterminal
              cases hterminal

/-- In every run, the client library takes a message only while the driver shows the current
generation as ready, and only after the driver, with that command in hand and showing the same,
found the connection not told to close, and after that the cutoff of the call ahead. Between these
checks and the call the connection may be told to close and time goes on. Once the driver shows
that the connection failed or is closed, it shows so for good. -/
theorem admissions_current {maxDeliveries room : ℕ} {subscribes : Bool} {log : List Label}
    (h : Runs Step (State.start maxDeliveries subscribes room) log s) (hstep : Step s a s') :
    (∀ k, a = .submitted k →
      (∃ sessionPresent, s.connection = .ready s.generation sessionPresent) ∧
        ∃ call, s.calls k = some call ∧
          FoundTimely (State.start maxDeliveries subscribes room) k call.cutoff s.shown log s) ∧
      (s.connection.isTerminal = true → s'.connection = s.connection) := by
  have hconnected := connected_of_runs h
  refine ⟨fun k ha => ?_, fun hterminal => hconnected.terminal hterminal hstep⟩
  have hconcerns : a.concerns k = true := by
    rw [ha]
    simp [Label.concerns, Label.takes]
  cases hstep with
  | settlement step => cases step <;> cases ha
  | call step => cases step <;> cases ha
  | owner step => cases ha
  | driver step =>
      cases step with
      | poll parked running unused held notice =>
          cases (State.observation_concerns s _ _ k).symm.trans hconcerns
      | settle awaits running queue accepts =>
          cases (State.submission_concerns s _ _ _ _ _ accepts k).symm.trans hconcerns
      | @hand j d reconnecting publishing answer =>
          have hfound : FoundTimely (State.start maxDeliveries subscribes room) j d s.shown log s :=
            found_of_runs h (fun _ _ _ hholds => by obtain ⟨_, hp⟩ := hholds; cases hp)
              .timely j d ⟨_, publishing⟩
          have hj : j = k := by
            cases answer with
            | none => exact Label.submitted.inj ha
            | some error => cases ha
          subst hj
          obtain ⟨call, hcall, rfl⟩ := hconnected.hand _ _ _ _ publishing
          exact ⟨hconnected.ready publishing hfound, call, hcall, hfound⟩
      | _ => cases ha

end

/-- One message, taken by the client library after its connection was told to close and its cutoff
went by. -/
def admittedRun : List Label :=
  [.quiet, .quiet, .quiet, .quiet, .quiet, .quiet, .quiet, .quiet, .quiet, .quiet]

theorem admissions_current_ready : ∃ s s', Runs Step (State.start 1 false 1) admittedRun s ∧
    Step s (.submitted 0) s' ∧ s.closing = true ∧ 9 ≤ s.now ∧
      (∃ sessionPresent, s.connection = .ready s.generation sessionPresent) ∧
        FoundTimely (State.start 1 false 1) 0 9 s.shown admittedRun s := by
  have h₁ := Runs.single (Step.driver (.park (s := State.start 1 false 1) rfl (by decide)))
  have h₂ := h₁.snoc (.driver (@DriverStep.poll _ 0 (.connAck false true) rfl rfl rfl
    (fun _ h => by cases h) .pending))
  have h₃ := h₂.snoc (.call (@CallStep.reserve _ 0 9 rfl (by decide) rfl))
  have h₄ := h₃.snoc (.call (@CallStep.send _ 0 9 rfl (by decide) (by decide) rfl (by decide)))
  have h₅ := h₄.snoc (.driver (.park rfl (by decide)))
  have h₆ := h₅.snoc (.driver (@DriverStep.take _ 0 9 [] (.inl rfl) rfl rfl))
  have h₇ := h₆.snoc (.driver (@DriverStep.checkOpen _ 0 9 false rfl))
  have h₈ := h₇.snoc (.owner .close)
  have h₉ := h₈.snoc (.driver (@DriverStep.checkDeadline _ 0 9 false rfl))
  have h₁₀ := h₉.snoc (.owner (.elapse 9))
  obtain ⟨hready, call, hcall, hfound⟩ :=
    (admissions_current h₁₀ (.driver (@DriverStep.hand _ 0 9 false rfl none))).1 0 rfl
  cases hcall
  exact ⟨_, _, h₁₀, .driver (@DriverStep.hand _ 0 9 false rfl none), rfl, by decide, hready, hfound⟩

end Rss.Mqtt
