import Rss.Library.Runs
import Rss.Verification.Runtime.Findings

/-! # The invariant of a drain

What the driver has of the stack in each phase, kept by every step. -/

namespace Rss.Shutdown

variable {resources : List Resource} {s s' : State}

/-! ### Order -/

/-- Every resource registered later is known to the driver. -/
def LaterTerminal (n i : ℕ) (events : List Event) : Prop :=
  ∀ j, i < j → j < n → .terminal j ∈ events

/-- What an event finds before it: a resource is started once, after the later ones are terminal
and gone; it is terminal once, when something was ready; its token is not cancelled sooner. -/
def Sequential (n : ℕ) (events : List Event) : Event → Prop
  | .started i => .started i ∉ events ∧ LaterTerminal n i events ∧ ∀ j, i < j → j < n → Gone j events
  | .terminal i => .terminal i ∉ events ∧ LaterTerminal n i events ∧
      (.deadline ∈ events ∨ (∃ outcome, .ended i outcome ∈ events) ∨ .timer i ∈ events)
  | .cancelled i => LaterTerminal n i events
  | _ => True

/-! ### The invariant -/

/-- Nothing has happened to the resource. -/
def Fresh (events : List Event) (entry : Resource × ℕ) : Prop :=
  ∀ e ∈ events, e.index ≠ some entry.2

/-- The driver is done with the resource, and not because of the total deadline. -/
structure Closed (events : List Event) (entry : Resource × ℕ) : Prop where
  started : .started entry.2 ∈ events
  terminal : .terminal entry.2 ∈ events
  gone : Gone entry.2 events
  cancelled : entry.1.isDeferred = true → .cancelled entry.2 ∈ events
  within : verdict events entry ≠ some .budgetExhausted

/-- A part of the stack is closed and reported, and nothing has happened to what remains. -/
structure Base (resources : List Resource) (past rest : List (Resource × ℕ)) (s : State) :
    Prop where
  split : stack resources = past ++ rest
  closed : ∀ e ∈ past, Closed s.log e
  fresh : ∀ e ∈ s.remaining, Fresh s.log e
  failures : s.failures = reports s.log past
  completion : s.completion = .complete

/-- The resource in flight, with what was read of it. -/
structure Flying (c : Current) (events : List Event) : Prop where
  started : .started c.index ∈ events
  metadata : safeResourceMetadata c.resource = (c.name, c.budget, c.metadataFailure)
  cancelled : c.resource.isDeferred = true → c.task ≠ .spawned → .cancelled c.index ∈ events
  gone : ∀ outcome, c.task = .ended outcome → Gone c.index events

def Task.outcome : Task → Option Outcome
  | .ended outcome => some outcome
  | _ => none

/-- The driver does not know yet how the resource in flight comes out. -/
structure Pending (c : Current) (events : List Event) : Prop where
  flying : Flying c events
  notTerminal : .terminal c.index ∉ events
  outcome : events.findSome? (Event.outcome c.index) = c.task.outcome
  timer : c.timerFired = true → .timer c.index ∈ events

/-- The driver knows, and waits for the aborted task. -/
structure Aborting (c : Current) (exhausted : Bool) (s : State) : Prop where
  flying : Flying c s.log
  terminal : .terminal c.index ∈ s.log
  verdict : verdict s.log (c.resource, c.index) =
    some (if exhausted then .budgetExhausted else .timedOut c.budget)
  deadline : exhausted = true → s.deadlineFired = true

/-- The total deadline ended the drain in the flight of a resource; those below never started. -/
structure Exhausted (resources : List Resource) (past rest : List (Resource × ℕ))
    (last : Resource × ℕ) (s : State) : Prop where
  split : stack resources = past ++ last :: rest
  closed : ∀ e ∈ past, Closed s.log e
  started : .started last.2 ∈ s.log
  gone : Gone last.2 s.log
  skipped : ∀ e ∈ rest, .started e.2 ∉ s.log
  terminal : ∀ e ∈ last :: rest, .terminal e.2 ∈ s.log
  cancelled : ∀ e ∈ last :: rest, e.1.isDeferred = true → .cancelled e.2 ∈ s.log
  verdict : ∀ e ∈ last :: rest, verdict s.log e = some .budgetExhausted
  failures : s.failures = reports s.log (stack resources)
  completion : s.completion = .budgetExhausted

/-- What the driver has of the stack, by its phase. -/
def Shape (resources : List Resource) (s : State) : Prop :=
  match s.phase with
  | .between => ∃ past, Base resources past s.remaining s
  | .selecting c =>
      ∃ past, Base resources past ((c.resource, c.index) :: s.remaining) s ∧ Pending c s.log
  | .joining c exhausted =>
      ∃ past, Base resources past ((c.resource, c.index) :: s.remaining) s ∧ Aborting c exhausted s
  | .returned => Base resources (stack resources) [] s ∨
      ∃ past rest last, Exhausted resources past rest last s

structure Inv (resources : List Resource) (s : State) : Prop where
  registered : s.registered = resources.length
  deadline : .deadline ∈ s.log ↔ s.deadlineFired = true
  order : Chronicle (Sequential resources.length) s.log
  shape : Shape resources s

theorem inv_spawnOwnedDrain : Inv resources (spawnOwnedDrain resources) where
  registered := rfl
  deadline := by simp [spawnOwnedDrain]
  order := Chronicle.nil.snoc trivial
  shape := ⟨[], rfl, by simp, fun e _ e' he' => by
    rw [List.mem_singleton.mp he']
    exact fun h => (by cases h), rfl, rfl⟩

/-! ### More events -/

section Append

variable {events new : List Event} {entry : Resource × ℕ} {c : Current}

theorem Fresh.append (h : Fresh events entry) (hnew : ∀ e ∈ new, e.index ≠ some entry.2) :
    Fresh (events ++ new) entry := by
  intro e he
  rcases List.mem_append.mp he with he | he
  · exact h e he
  · exact hnew e he

theorem Fresh.outcome (h : Fresh events entry) :
    events.findSome? (Event.outcome entry.2) = none := by
  rw [List.findSome?_eq_none_iff]
  exact fun e he => outcome_eq_none (h e he)

theorem deadline_mem_append (hnew : .deadline ∉ new) :
    .deadline ∈ events ++ new ↔ .deadline ∈ events := by
  rw [List.mem_append, or_iff_left hnew]

theorem Gone.append {i : ℕ} (h : Gone i events) : Gone i (events ++ new) := by
  rcases h with ⟨outcome, h⟩ | h
  · exact .inl ⟨outcome, List.mem_append_left _ h⟩
  · exact .inr (List.mem_append_left _ h)

theorem Closed.append (h : Closed events entry) : Closed (events ++ new) entry where
  started := List.mem_append_left _ h.started
  terminal := List.mem_append_left _ h.terminal
  gone := h.gone.append
  cancelled hdeferred := List.mem_append_left _ (h.cancelled hdeferred)
  within := by
    rw [verdict_append h.terminal]
    exact h.within

theorem Flying.append (h : Flying c events) : Flying c (events ++ new) where
  started := List.mem_append_left _ h.started
  metadata := h.metadata
  cancelled hdeferred htask := List.mem_append_left _ (h.cancelled hdeferred htask)
  gone outcome htask := (h.gone outcome htask).append

/-- Events that are about nothing that remains keep the closed part and the rest. -/
theorem Base.emit {past rest : List (Resource × ℕ)} (h : Base resources past rest s)
    (hnew : ∀ e ∈ new, ∀ entry ∈ s.remaining, e.index ≠ some entry.2) :
    Base resources past rest (s.emit new) where
  split := h.split
  closed e he := (h.closed e he).append
  fresh entry hentry := (h.fresh entry hentry).append fun e he => hnew e he entry hentry
  failures := by
    rw [State.emit, reports_append fun e he => (h.closed e he).terminal]
    exact h.failures
  completion := h.completion

/-- The later resources are those of the closed part. -/
theorem Base.later {past rest : List (Resource × ℕ)} (h : Base resources past (entry :: rest) s) :
    LaterTerminal resources.length entry.2 s.log ∧
      ∀ j, entry.2 < j → j < resources.length → Gone j s.log := by
  constructor
  · intro j hj hlt
    obtain ⟨r, hr⟩ := mem_past h.split hj hlt
    exact (h.closed _ hr).terminal
  · intro j hj hlt
    obtain ⟨r, hr⟩ := mem_past h.split hj hlt
    exact (h.closed _ hr).gone

/-- Events about the resource in flight are about nothing that remains. -/
theorem Base.emit_current {past rest : List (Resource × ℕ)}
    (h : Base resources past (entry :: rest) s) (hrest : s.remaining = rest)
    (hnew : ∀ e ∈ new, e.index = some entry.2) :
    Base resources past (entry :: rest) (s.emit new) :=
  h.emit fun e he other hother heq => by
    rw [hnew e he, Option.some.injEq] at heq
    exact (index_ne h.split).2 other (hrest ▸ hother) heq.symm

end Append

/-! ### Steps -/

section Flying

variable {c : Current} {events : List Event}

theorem Flying.name (h : Flying c events) : c.name = safeResourceName c.resource :=
  congrArg Prod.fst (h.metadata.symm.trans (safeResourceMetadata_eq c.resource))

theorem Flying.budget (h : Flying c events) :
    c.budget = c.resource.shutdownTimeout.getD defaultShutdownTimeout :=
  congrArg (fun m => m.2.1) (h.metadata.symm.trans (safeResourceMetadata_eq c.resource))

theorem Flying.metadataFailure (h : Flying c events) : c.metadataFailure =
    if c.resource.name.isSome && c.resource.shutdownTimeout.isSome then none
    else some ⟨safeResourceName c.resource, .panicked⟩ :=
  congrArg (fun m => m.2.2) (h.metadata.symm.trans (safeResourceMetadata_eq c.resource))

/-- What the driver records of an ended task is what the events say. -/
theorem Pending.failure_eq {outcome : Outcome} (h : Pending c events)
    (htask : c.task = .ended outcome) (hdeadline : .deadline ∉ events) :
    State.failure c outcome = (finding c.resource c.index events).map
      fun kind => ⟨safeResourceName c.resource, kind⟩ := by
  have hany : events.any Event.isDeadline = false := by
    rw [← Bool.not_eq_true, any_isDeadline]
    exact hdeadline
  have houtcome : events.findSome? (Event.outcome c.index) = some outcome := by
    rw [h.outcome, htask]
    rfl
  unfold finding
  rw [hany, if_neg Bool.false_ne_true, houtcome]
  cases outcome with
  | returned result =>
      cases result with
      | error source => rw [State.failure, h.flying.name]; rfl
      | ok =>
          rw [State.failure, h.flying.metadataFailure]
          simp only
          split <;> rfl
  | panicked => rw [State.failure, h.flying.name]; rfl
  | cancelled => rw [State.failure, h.flying.name]; rfl

end Flying

theorem Inv.take (h : Inv resources s) (hstep : s.take = some s') : Inv resources s' := by
  have hshape := h.shape
  unfold State.take at hstep
  unfold Shape at hshape
  cases hphase : s.phase with
  | between =>
      rw [hphase] at hshape hstep
      obtain ⟨past, hbase⟩ := hshape
      cases hremaining : s.remaining with
      | nil =>
          rw [hremaining] at hstep hbase
          cases hstep
          refine ⟨h.registered, h.deadline, h.order, .inl ?_⟩
          exact ⟨by rw [hbase.split, List.append_nil, List.append_nil], by
            rw [hbase.split, List.append_nil]
            exact hbase.closed, by simp, by
            rw [hbase.split, List.append_nil]
            exact hbase.failures, hbase.completion⟩
      | cons entry rest =>
          obtain ⟨r, i⟩ := entry
          rw [hremaining] at hstep hbase
          cases hstep
          have hfresh := hbase.fresh
          rw [hremaining, List.forall_mem_cons] at hfresh
          have hlater := hbase.later
          have hbase' : Base resources past ((r, i) :: rest) { s with remaining := rest } :=
            ⟨hbase.split, hbase.closed, hfresh.2, hbase.failures, hbase.completion⟩
          have hstarted : .started i ∈ s.log ++ [.started i] := by simp
          have hopen : .terminal i ∉ s.log ++ [.started i] := by
            have hnot : .terminal i ∉ s.log := fun hmem => hfresh.1 _ hmem rfl
            simp [hnot]
          have houtcome : (s.log ++ [Event.started i]).findSome? (Event.outcome i) = none := by
            rw [List.findSome?_append, hfresh.1.outcome]
            rfl
          have hemit : Base resources past ((r, i) :: rest)
              (({ s with remaining := rest } : State).emit [.started i]) := by
            refine hbase'.emit_current rfl fun e he => ?_
            rw [List.mem_singleton.mp he]
            rfl
          exact ⟨h.registered, (deadline_mem_append (by simp)).trans h.deadline,
            h.order.snoc ⟨fun hmem => hfresh.1 _ hmem rfl, hlater⟩, past,
            ⟨hemit.split, hemit.closed, hemit.fresh, hemit.failures, hemit.completion⟩,
            ⟨hstarted, rfl, fun _ hspawned => absurd rfl hspawned, fun _ htask => by cases htask⟩,
            hopen, houtcome, fun htimer => by cases htimer⟩
  | selecting c => rw [hphase] at hstep; cases hstep
  | joining c exhausted => rw [hphase] at hstep; cases hstep
  | returned => rw [hphase] at hstep; cases hstep

/-- The resource in flight is closed with what the driver records of it. -/
theorem Base.close {past rest : List (Resource × ℕ)} {entry : Resource × ℕ}
    {failure : Option ResourceShutdownError} (h : Base resources past (entry :: rest) s)
    (hclosed : Closed s.log entry)
    (hfailure : failure = (verdict s.log entry).map fun kind => ⟨safeResourceName entry.1, kind⟩) :
    Base resources (past ++ [entry]) rest
      { s with failures := s.failures ++ failure.toList } where
  split := by rw [h.split, List.append_cons]
  closed := List.forall_mem_append.mpr ⟨h.closed, by simpa using hclosed⟩
  fresh := h.fresh
  failures := by
    rw [reports, List.filterMap_append, hfailure]
    change s.failures ++ _ = _
    rw [h.failures]
    cases hverdict : verdict s.log entry <;> simp [reports, hverdict]
  completion := h.completion

theorem Inv.poll (h : Inv resources s) (hstep : s.poll = some s') : Inv resources s' := by
  have hshape := h.shape
  unfold State.poll at hstep
  unfold Shape at hshape
  cases hphase : s.phase with
  | selecting c =>
      rw [hphase] at hshape hstep
      obtain ⟨past, hbase, hpending⟩ := hshape
      have hflying := hpending.flying
      have hemit : Base resources past ((c.resource, c.index) :: s.remaining)
          (s.emit [.terminal c.index]) := by
        refine hbase.emit_current rfl fun e he => ?_
        rw [List.mem_singleton.mp he]
        rfl
      have hterminal : .terminal c.index ∈ s.log ++ [.terminal c.index] := by simp
      have hverdict : verdict (s.log ++ [.terminal c.index]) (c.resource, c.index) =
          finding c.resource c.index s.log := by
        rw [verdict, before_terminal hpending.notTerminal]
      have hdeadline : .deadline ∈ s.log ++ [.terminal c.index] ↔ s.deadlineFired = true :=
        (deadline_mem_append (by simp)).trans h.deadline
      simp only at hstep
      split at hstep
      · rename_i hfired
        cases hstep
        have hmem := h.deadline.mpr hfired
        refine ⟨h.registered, hdeadline,
          h.order.snoc ⟨hpending.notTerminal, hbase.later.1, .inl hmem⟩, past,
          ⟨hemit.split, hemit.closed, hemit.fresh, hemit.failures, hemit.completion⟩,
          ⟨hflying.append, hterminal, ?_, fun _ => hfired⟩⟩
        change verdict (s.log ++ [.terminal c.index]) _ = _
        rw [hverdict, finding, any_isDeadline.mpr hmem]
        rfl
      · rename_i hfired
        have hnot : .deadline ∉ s.log := fun hmem => hfired (h.deadline.mp hmem)
        split at hstep
        · rename_i outcome htask
          cases hstep
          have houtcome : s.log.findSome? (Event.outcome c.index) = some outcome := by
            rw [hpending.outcome, htask]
            rfl
          have hclosed : Closed (s.emit [.terminal c.index]).log (c.resource, c.index) := by
            refine ⟨hflying.append.started, hterminal, hflying.append.gone outcome htask,
              fun hdeferred => hflying.append.cancelled hdeferred (by rw [htask]; simp), ?_⟩
            rw [State.emit, hverdict]
            exact finding_ended houtcome hnot
          have hfailure : State.failure c outcome =
              (verdict (s.emit [.terminal c.index]).log (c.resource, c.index)).map
                fun kind => ⟨safeResourceName c.resource, kind⟩ := by
            rw [State.emit, hverdict]
            exact hpending.failure_eq htask hnot
          have hclose := hemit.close hclosed hfailure
          exact ⟨h.registered, hdeadline,
            h.order.snoc ⟨hpending.notTerminal, hbase.later.1,
              .inr (.inl ⟨outcome, exists_ended houtcome⟩)⟩, _,
            hclose.split, hclose.closed, hclose.fresh, hclose.failures, hclose.completion⟩
        · split at hstep
          · rename_i htask htimer
            cases hstep
            refine ⟨h.registered, hdeadline,
              h.order.snoc ⟨hpending.notTerminal, hbase.later.1,
                .inr (.inr (hpending.timer htimer))⟩, past,
              ⟨hemit.split, hemit.closed, hemit.fresh, hemit.failures, hemit.completion⟩,
              ⟨hflying.append, hterminal, ?_, fun hexhausted => by cases hexhausted⟩⟩
            change verdict (s.log ++ [.terminal c.index]) _ = _
            have houtcome : s.log.findSome? (Event.outcome c.index) = none := by
              rw [hpending.outcome]
              cases hc : c.task with
              | ended outcome => exact absurd hc (htask outcome)
              | _ => rfl
            rw [hverdict, finding_timedOut houtcome hnot, ← hflying.budget]
            rfl
          · cases hstep
  | between => rw [hphase] at hstep; cases hstep
  | joining c exhausted => rw [hphase] at hstep; cases hstep
  | returned => rw [hphase] at hstep; cases hstep

/-- What happens to the resource in flight besides the observations of the driver. -/
inductive Event.OfTask (i : ℕ) : Event → Prop where
  | cancelled : OfTask i (.cancelled i)
  | ended (outcome : Outcome) : OfTask i (.ended i outcome)
  | aborted : OfTask i (.aborted i)
  | timer : OfTask i (.timer i)

theorem Event.OfTask.index {i : ℕ} {e : Event} (h : e.OfTask i) : e.index = some i := by
  cases h <;> rfl

theorem Event.OfTask.sequential {i n : ℕ} {e : Event} {events : List Event} (h : e.OfTask i)
    (hlater : LaterTerminal n i events) : Sequential n events e := by
  cases h with
  | cancelled => exact hlater
  | ended outcome => trivial
  | aborted => trivial
  | timer => trivial

theorem LaterTerminal.append {n i : ℕ} {events new : List Event} (h : LaterTerminal n i events) :
    LaterTerminal n i (events ++ new) :=
  fun j hj hlt => List.mem_append_left _ (h j hj hlt)

theorem Gone.prepend {i : ℕ} {events new : List Event} (h : Gone i new) :
    Gone i (events ++ new) := by
  rcases h with ⟨outcome, h⟩ | h
  · exact .inl ⟨outcome, List.mem_append_right _ h⟩
  · exact .inr (List.mem_append_right _ h)

section Current

variable {c : Current} {task : Task} {timerFired : Bool} {new : List Event}

theorem Flying.update {events : List Event} (h : Flying c events)
    (hcancelled : c.resource.isDeferred = true → task ≠ .spawned →
      c.task ≠ .spawned ∨ .cancelled c.index ∈ new)
    (hgone : ∀ outcome, task = .ended outcome →
      (∃ outcome, c.task = .ended outcome) ∨ Gone c.index new) :
    Flying { c with task, timerFired } (events ++ new) where
  started := List.mem_append_left _ h.started
  metadata := h.metadata
  cancelled hdeferred htask := by
    rcases hcancelled hdeferred htask with hold | hmem
    · exact List.mem_append_left _ (h.cancelled hdeferred hold)
    · exact List.mem_append_right _ hmem
  gone outcome htask := by
    rcases hgone outcome htask with ⟨old, hold⟩ | hnew
    · exact (h.gone old hold).append
    · exact hnew.prepend

/-- Events of the task keep the order: what they need is known since the resource was taken. -/
theorem Base.chronicle {past rest : List (Resource × ℕ)} {entry : Resource × ℕ}
    (h : Base resources past (entry :: rest) s)
    (horder : Chronicle (Sequential resources.length) s.log)
    (hnew : ∀ e ∈ new, e.OfTask entry.2) :
    Chronicle (Sequential resources.length) (s.log ++ new) := by
  refine horder.append fun before e after heq => ?_
  have hmem : e ∈ new := heq ▸ List.mem_append_right before List.mem_cons_self
  exact (hnew e hmem).sequential h.later.1.append

/-- A step of the task in flight, or of its timer. -/
theorem Inv.setCurrent (h : Inv resources s) (task : Task) (timerFired : Bool)
    (hcurrent : s.current = some c)
    (hnew : ∀ e ∈ new, e.OfTask c.index)
    (hcancelled : c.resource.isDeferred = true → task ≠ .spawned →
      c.task ≠ .spawned ∨ .cancelled c.index ∈ new)
    (hgone : ∀ outcome, task = .ended outcome →
      (∃ outcome, c.task = .ended outcome) ∨ Gone c.index new)
    (houtcome : s.phase = .selecting c →
      c.task.outcome.or (new.findSome? (Event.outcome c.index)) = task.outcome)
    (htimer : timerFired = true → c.timerFired = true ∨ .timer c.index ∈ new) :
    Inv resources ((s.setCurrent { c with task, timerFired }).emit new) := by
  have hshape := h.shape
  have hdeadline : .deadline ∈ s.log ++ new ↔ s.deadlineFired = true := by
    refine (deadline_mem_append fun hmem => ?_).trans h.deadline
    cases hnew _ hmem
  have hterminal : .terminal c.index ∉ new := fun hmem => by cases hnew _ hmem
  unfold Shape at hshape
  unfold State.current at hcurrent
  unfold State.setCurrent
  cases hphase : s.phase with
  | between => rw [hphase] at hcurrent; cases hcurrent
  | returned => rw [hphase] at hcurrent; cases hcurrent
  | selecting c' =>
      rw [hphase] at hcurrent hshape
      cases hcurrent
      obtain ⟨past, hbase, hpending⟩ := hshape
      have hemit := hbase.emit_current rfl fun e he => (hnew e he).index
      refine ⟨h.registered, hdeadline, hbase.chronicle h.order hnew, past,
        ⟨hemit.split, hemit.closed, hemit.fresh, hemit.failures, hemit.completion⟩,
        hpending.flying.update hcancelled hgone, ?_, ?_, fun hfired => ?_⟩
      · simp [State.emit, hpending.notTerminal, hterminal]
      · simp only [State.emit, List.findSome?_append, hpending.outcome]
        exact houtcome hphase
      · rcases htimer hfired with hold | hmem
        · exact List.mem_append_left _ (hpending.timer hold)
        · exact List.mem_append_right _ hmem
  | joining c' exhausted =>
      rw [hphase] at hcurrent hshape
      cases hcurrent
      obtain ⟨past, hbase, haborting⟩ := hshape
      have hemit := hbase.emit_current rfl fun e he => (hnew e he).index
      refine ⟨h.registered, hdeadline, hbase.chronicle h.order hnew, past,
        ⟨hemit.split, hemit.closed, hemit.fresh, hemit.failures, hemit.completion⟩,
        haborting.flying.update hcancelled hgone, List.mem_append_left _ haborting.terminal, ?_,
        haborting.deadline⟩
      rw [State.emit, verdict_append haborting.terminal]
      exact haborting.verdict

end Current

theorem mem_cancel {r : Resource} {i : ℕ} {e : Event} :
    e ∈ State.cancel r i ↔ r.isDeferred = true ∧ e = .cancelled i := by
  unfold State.cancel
  split <;> simp [*]

theorem findSome?_cancel {r : Resource} {i j : ℕ} :
    (State.cancel r i).findSome? (Event.outcome j) = none := by
  unfold State.cancel
  split <;> rfl

theorem Inv.pollTask (h : Inv resources s) (hstep : s.pollTask = some s') : Inv resources s' := by
  unfold State.pollTask at hstep
  split at hstep
  · rename_i c hcurrent
    split at hstep
    · rename_i htask
      cases hstep
      refine h.setCurrent .polled c.timerFired hcurrent (fun e he => ?_)
        (fun hdeferred _ => ?_) (fun _ heq => by cases heq) (fun _ => ?_) .inl
      · rw [(mem_cancel.mp he).2]
        exact .cancelled
      · exact .inr (mem_cancel.mpr ⟨hdeferred, rfl⟩)
      · rw [htask, findSome?_cancel]
        rfl
    · cases hstep
  · cases hstep

theorem Inv.endTask {outcome : Outcome} (h : Inv resources s)
    (hstep : s.endTask outcome = some s') : Inv resources s' := by
  unfold State.endTask at hstep
  split at hstep
  · rename_i c hcurrent
    split at hstep
    · rename_i htask
      cases hstep
      refine h.setCurrent (.ended outcome) c.timerFired hcurrent (fun e he => ?_)
        (fun _ _ => .inl (by rw [htask]; simp)) (fun _ _ => .inr (.inl ⟨outcome, by simp⟩))
        (fun _ => ?_) .inl
      · rw [List.mem_singleton.mp he]
        exact .ended outcome
      · rw [htask]
        simp [Event.outcome, Task.outcome]
    · cases hstep
  · cases hstep

theorem Inv.abortTask (h : Inv resources s) (hstep : s.abortTask = some s') :
    Inv resources s' := by
  unfold State.abortTask at hstep
  split at hstep
  · rename_i c exhausted hphase
    split at hstep
    · cases hstep
    · cases hstep
      have hcurrent : s.current = some c := by rw [State.current, hphase]
      refine h.setCurrent (.ended .cancelled) c.timerFired hcurrent (fun e he => ?_)
        (fun hdeferred _ => ?_) (fun _ _ => .inr (.inr (by simp))) (fun hselecting => ?_) .inl
      · rcases List.mem_append.mp he with he | he
        · rw [(mem_cancel.mp he).2]
          exact .cancelled
        · rw [List.mem_singleton.mp he]
          exact .aborted
      · exact .inr (List.mem_append_left _ (mem_cancel.mpr ⟨hdeferred, rfl⟩))
      · rw [hphase] at hselecting
        cases hselecting
  · cases hstep

theorem Inv.fireTimer (h : Inv resources s) (hstep : s.fireTimer = some s') :
    Inv resources s' := by
  unfold State.fireTimer at hstep
  split at hstep
  · rename_i c hphase
    split at hstep
    · cases hstep
    · cases hstep
      have hcurrent : s.current = some c := by rw [State.current, hphase]
      refine h.setCurrent c.task true hcurrent (fun e he => ?_)
        (fun _ htask => .inl htask) (fun outcome htask => .inl ⟨outcome, htask⟩)
        (fun _ => ?_) fun _ => .inr (by simp)
      · rw [List.mem_singleton.mp he]
        exact .timer
      · cases c.task <;> rfl
  · cases hstep

theorem Inv.fireDeadline (h : Inv resources s) (hstep : s.fireDeadline = some s') :
    Inv resources s' := by
  have hshape := h.shape
  unfold State.fireDeadline at hstep
  unfold Shape at hshape
  split at hstep
  · cases hstep
  · cases hstep
    have hemit : ∀ past rest, Base resources past rest s →
        Base resources past rest (s.emit [.deadline]) := fun past rest hbase =>
      hbase.emit fun e he entry hentry => by
        rw [List.mem_singleton.mp he]
        exact fun heq => by cases heq
    refine ⟨h.registered, iff_of_true (List.mem_append_right _ List.mem_cons_self) rfl,
      h.order.snoc trivial, ?_⟩
    unfold Shape
    simp only [State.emit]
    cases hphase : s.phase with
    | between =>
        rw [hphase] at hshape
        obtain ⟨past, hbase⟩ := hshape
        have hemit := hemit past _ hbase
        exact ⟨past, hemit.split, hemit.closed, hemit.fresh, hemit.failures, hemit.completion⟩
    | selecting c =>
        rw [hphase] at hshape
        obtain ⟨past, hbase, hpending⟩ := hshape
        have hemit := hemit past _ hbase
        refine ⟨past, ⟨hemit.split, hemit.closed, hemit.fresh, hemit.failures, hemit.completion⟩,
          hpending.flying.append, ?_, ?_, fun htimer => List.mem_append_left _
            (hpending.timer htimer)⟩
        · simp [hpending.notTerminal]
        · rw [List.findSome?_append, hpending.outcome]
          cases c.task <;> rfl
    | joining c exhausted =>
        rw [hphase] at hshape
        obtain ⟨past, hbase, haborting⟩ := hshape
        have hemit := hemit past _ hbase
        refine ⟨past, ⟨hemit.split, hemit.closed, hemit.fresh, hemit.failures, hemit.completion⟩,
          haborting.flying.append, List.mem_append_left _ haborting.terminal, ?_, fun _ => rfl⟩
        change verdict (s.log ++ [.deadline]) (c.resource, c.index) = _
        rw [verdict_append haborting.terminal]
        exact haborting.verdict
    | returned =>
        rw [hphase] at hshape
        rcases hshape with hbase | ⟨past, rest, last, hexhausted⟩
        · have hemit := hemit _ _ hbase
          exact .inl ⟨hemit.split, hemit.closed, hemit.fresh, hemit.failures, hemit.completion⟩
        · have hterminal : ∀ e ∈ stack resources, .terminal e.2 ∈ s.log := by
            rw [hexhausted.split, List.forall_mem_append]
            exact ⟨fun e he => (hexhausted.closed e he).terminal, hexhausted.terminal⟩
          refine .inr ⟨past, rest, last, hexhausted.split, fun e he => (hexhausted.closed e he).append,
            List.mem_append_left _ hexhausted.started, hexhausted.gone.append, fun e he => ?_,
            fun e he => List.mem_append_left _ (hexhausted.terminal e he),
            fun e he hdeferred => List.mem_append_left _ (hexhausted.cancelled e he hdeferred),
            fun e he => ?_, ?_, hexhausted.completion⟩
          · simp [hexhausted.skipped e he]
          · simp only [verdict_append (hexhausted.terminal e he)]
            exact hexhausted.verdict e he
          · simp only [reports_append hterminal]
            exact hexhausted.failures

/-! ### The end of the total budget -/

/-- What the drop of the resources that never started adds. -/
def dropped (rest : List (Resource × ℕ)) : List Event :=
  rest.flatMap fun entry => .terminal entry.2 :: State.cancel entry.1 entry.2

theorem mem_dropped {rest : List (Resource × ℕ)} {e : Event} :
    e ∈ dropped rest ↔ ∃ entry ∈ rest, e = .terminal entry.2 ∨
      entry.1.isDeferred = true ∧ e = .cancelled entry.2 := by
  simp only [dropped, List.mem_flatMap, List.mem_cons, mem_cancel]

theorem chronicle_dropped {done rest : List (Resource × ℕ)} {events : List Event}
    (h : stack resources = done ++ rest) (hdone : ∀ e ∈ done, .terminal e.2 ∈ events)
    (hrest : ∀ e ∈ rest, .terminal e.2 ∉ events) (hdeadline : .deadline ∈ events)
    (horder : Chronicle (Sequential resources.length) events) :
    Chronicle (Sequential resources.length) (events ++ dropped rest) := by
  induction rest generalizing done events with
  | nil =>
      rw [dropped, List.flatMap_nil, List.append_nil]
      exact horder
  | cons entry rest ih =>
      rw [List.forall_mem_cons] at hrest
      have hlater : LaterTerminal resources.length entry.2 events := fun j hj hlt => by
        obtain ⟨r, hr⟩ := mem_past h hj hlt
        exact hdone _ hr
      have hterminal : Chronicle (Sequential resources.length) (events ++ [.terminal entry.2]) :=
        horder.snoc ⟨hrest.1, hlater, .inl hdeadline⟩
      have hcancel : Chronicle (Sequential resources.length)
          (events ++ [.terminal entry.2] ++ State.cancel entry.1 entry.2) := by
        refine hterminal.append fun before e after heq => ?_
        have hmem : e ∈ State.cancel entry.1 entry.2 :=
          heq ▸ List.mem_append_right before List.mem_cons_self
        rw [(mem_cancel.mp hmem).2]
        exact hlater.append.append
      have hne := (index_ne h).2
      rw [dropped, List.flatMap_cons, ← List.append_assoc]
      rw [List.append_assoc, List.singleton_append] at hcancel
      have hsplit : stack resources = (done ++ [entry]) ++ rest := by rw [h, List.append_cons]
      refine ih hsplit ?_ ?_ ?_ hcancel
      · rw [List.forall_mem_append, List.forall_mem_singleton]
        exact ⟨fun e he => List.mem_append_left _ (hdone e he), by simp⟩
      · intro e he hmem
        rcases List.mem_append.mp hmem with hmem | hmem
        · exact hrest.2 e he hmem
        · rcases List.mem_cons.mp hmem with heq | hmem
          · exact hne e he (Event.terminal.inj heq)
          · cases (mem_cancel.mp hmem).2
      · exact List.mem_append_left _ hdeadline

/-- A resource that was not terminal at the total deadline is exhausted. -/
theorem verdict_exhausted {events new : List Event} {entry : Resource × ℕ}
    (hdeadline : .deadline ∈ events) (h : .terminal entry.2 ∉ events) :
    verdict (events ++ new) entry = some .budgetExhausted := by
  have hbefore : before entry.2 (events ++ new) = events ++ before entry.2 new := by
    refine List.takeWhile_append_of_pos fun e he => ?_
    rw [Bool.not_eq_true', ← Bool.not_eq_true, isTerminal_iff]
    exact fun heq => h (heq ▸ he)
  rw [verdict, hbefore, finding, any_isDeadline.mpr (List.mem_append_left _ hdeadline), if_pos rfl]

theorem Inv.join (h : Inv resources s) (hstep : s.join = some s') : Inv resources s' := by
  have hshape := h.shape
  unfold State.join at hstep
  unfold Shape at hshape
  cases hphase : s.phase with
  | joining c exhausted =>
      rw [hphase] at hshape hstep
      obtain ⟨past, hbase, haborting⟩ := hshape
      have hflying := haborting.flying
      simp only at hstep
      split at hstep
      · rename_i outcome htask
        have hspawned : c.task ≠ .spawned := by
          rw [htask]
          simp
        split at hstep
        · rename_i hexhausted
          cases hstep
          have hverdict := haborting.verdict
          rw [hexhausted, if_pos rfl] at hverdict
          have hdeadline := h.deadline.mpr (haborting.deadline hexhausted)
          have hfresh : ∀ e ∈ s.remaining, .terminal e.2 ∉ s.log :=
            fun e he hmem => hbase.fresh e he _ hmem rfl
          have hrest : ∀ e ∈ s.remaining,
              verdict (s.log ++ dropped s.remaining) e = some .budgetExhausted :=
            fun e he => verdict_exhausted hdeadline (hfresh e he)
          have hlast : verdict (s.log ++ dropped s.remaining) (c.resource, c.index) =
              some .budgetExhausted := by
            rw [verdict_append haborting.terminal]
            exact hverdict
          have hsplit : stack resources = (past ++ [(c.resource, c.index)]) ++ s.remaining := by
            rw [hbase.split, List.append_cons]
          refine ⟨h.registered, (deadline_mem_append fun hmem => ?_).trans h.deadline,
            chronicle_dropped hsplit ?_ hfresh hdeadline h.order,
            .inr ⟨past, s.remaining, (c.resource, c.index), hbase.split,
              fun e he => (hbase.closed e he).append, List.mem_append_left _ hflying.started,
              (hflying.gone outcome htask).append, fun e he hmem => ?_, ?_, ?_, ?_, ?_, rfl⟩⟩
          · obtain ⟨entry, -, heq | ⟨-, heq⟩⟩ := mem_dropped.mp hmem <;> cases heq
          · rw [List.forall_mem_append, List.forall_mem_singleton]
            exact ⟨fun e he => (hbase.closed e he).terminal, haborting.terminal⟩
          · rcases List.mem_append.mp hmem with hmem | hmem
            · exact hbase.fresh e he _ hmem rfl
            · obtain ⟨entry, -, heq | ⟨-, heq⟩⟩ := mem_dropped.mp hmem <;> cases heq
          · rw [List.forall_mem_cons]
            exact ⟨List.mem_append_left _ haborting.terminal, fun e he =>
              List.mem_append_right _ (mem_dropped.mpr ⟨e, he, .inl rfl⟩)⟩
          · rw [List.forall_mem_cons]
            exact ⟨fun hdeferred => List.mem_append_left _ (hflying.cancelled hdeferred hspawned),
              fun e he hdeferred =>
                List.mem_append_right _ (mem_dropped.mpr ⟨e, he, .inr ⟨hdeferred, rfl⟩⟩)⟩
          · exact List.forall_mem_cons.mpr ⟨hlast, hrest⟩
          · have hpast := reports_append (fun e he => (hbase.closed e he).terminal)
              (dropped s.remaining)
            have hrest' := reports_of_exhausted (List.forall_mem_cons.mpr ⟨hlast, hrest⟩)
            change s.failures ++ _ = reports (s.log ++ dropped s.remaining) (stack resources)
            rw [hbase.split, reports, List.filterMap_append]
            change _ = reports _ past ++ reports _ (_ :: s.remaining)
            rw [hpast, ← hbase.failures, hrest', List.map_cons, ← hflying.name]
        · rename_i hexhausted
          cases hstep
          have hverdict := haborting.verdict
          rw [if_neg hexhausted] at hverdict
          have hclosed : Closed s.log (c.resource, c.index) :=
            ⟨hflying.started, haborting.terminal, hflying.gone outcome htask,
              fun hdeferred => hflying.cancelled hdeferred hspawned, by rw [hverdict]; simp⟩
          have hfailure : some ⟨c.name, .timedOut c.budget⟩ =
              (verdict s.log (c.resource, c.index)).map
                fun kind => (⟨safeResourceName c.resource, kind⟩ : ResourceShutdownError) := by
            rw [hverdict, hflying.name]
            rfl
          have hclose := hbase.close hclosed hfailure
          exact ⟨h.registered, h.deadline, h.order, _, hclose.split, hclose.closed, hclose.fresh,
            hclose.failures, hclose.completion⟩
      · cases hstep
  | between => rw [hphase] at hstep; cases hstep
  | selecting c => rw [hphase] at hstep; cases hstep
  | returned => rw [hphase] at hstep; cases hstep

theorem Inv.step {a : Action} (h : Inv resources s) (hstep : Step s a s') : Inv resources s' := by
  cases a with
  | take => exact h.take hstep
  | poll => exact h.poll hstep
  | join => exact h.join hstep
  | pollTask => exact h.pollTask hstep
  | endTask outcome => exact h.endTask hstep
  | abortTask => exact h.abortTask hstep
  | fireTimer => exact h.fireTimer hstep
  | fireDeadline => exact h.fireDeadline hstep

theorem inv_of_runs {actions : List Action} (h : Runs Step (spawnOwnedDrain resources) actions s) :
    Inv resources s :=
  h.invariant (I := fun _ s => Inv resources s) inv_spawnOwnedDrain
    fun _ _ _ _ _ hinv hstep => hinv.step hstep

end Rss.Shutdown
