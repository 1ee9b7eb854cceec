import Rss.Verification.Amqp.Generations

/-! # Recoveries own what they retire

A slot that recovers has one task that may change it; a waiter sleeps only while a permit is
live or its notification is due; and every connection that was made is held by someone who will
close it, or is being closed. -/

namespace Rss.Amqp

/-! ### Tasks without their flags -/

namespace State

/-- The recovery and the stage of a task. -/
def cores (s : State) (i : ℕ) : Option (Recovery × Stage) :=
  (s.tasks i).map (fun t => (t.recovery, t.stage))

theorem cores_of_task {s : State} {i : ℕ} {t : Task} (h : s.tasks i = some t) :
    s.cores i = some (t.recovery, t.stage) := by
  rw [cores, h]
  rfl

theorem setTask_cores (s : State) (i : ℕ) (t : Option Task) (j : ℕ) :
    (s.setTask i t).cores j =
      if j = i then t.map (fun t => (t.recovery, t.stage)) else s.cores j := by
  unfold cores setTask
  dsimp only
  split <;> rfl

/-- Cancelling and aborting leave recovery and stage. -/
theorem flag_cores (s : State) (i : ℕ) (f : Task → Task)
    (hf : ∀ t, (f t).recovery = t.recovery ∧ (f t).stage = t.stage) (j : ℕ) :
    (s.setTask i ((s.tasks i).map f)).cores j = s.cores j := by
  rw [setTask_cores]
  split
  · next h =>
      subst h
      unfold cores
      cases s.tasks j with
      | none => rfl
      | some t => simp [hf t]
  · rfl

theorem dropRecovery_cores (s : State) (j : ℕ) : s.dropRecovery.cores j = s.cores j := by
  unfold dropRecovery
  cases s.owned with
  | none => rfl
  | some i =>
      exact s.flag_cores i (fun t => { t with cancelled := true, aborted := true })
        (fun t => ⟨rfl, rfl⟩) j

@[simp] theorem dropRecovery_spawned (s : State) : s.dropRecovery.spawned = s.spawned := by
  unfold dropRecovery
  cases s.owned <;> rfl

theorem spawn_cores (s : State) (r : Recovery) (j : ℕ) :
    (s.spawn r).cores j = if j = s.spawned then some (r, .spawned) else s.cores j := by
  have h := (s.dropRecovery).setTask_cores s.spawned (some ⟨r, .spawned, false, false⟩) j
  rw [s.dropRecovery_cores] at h
  exact h

@[simp] theorem spawn_notifying (s : State) (r : Recovery) :
    (s.spawn r).notifying = s.notifying := by
  unfold spawn setTask dropRecovery
  cases s.owned <;> rfl

@[simp] theorem spawn_shutdown (s : State) (r : Recovery) :
    (s.spawn r).shutdown = s.shutdown := by
  unfold spawn setTask dropRecovery
  cases s.owned <;> rfl

theorem endShutdown_cores (s : State) (d : Shutdown) (j : ℕ) :
    (s.endShutdown d).cores j = s.cores j := by
  unfold endShutdown
  cases d.stage with
  | joining recovery =>
      cases recovery with
      | none => rfl
      | some i => exact s.flag_cores i (fun t => { t with aborted := true }) (fun t => ⟨rfl, rfl⟩) j
  | _ => rfl

@[simp] theorem endShutdown_slot (s : State) (d : Shutdown) :
    (s.endShutdown d).gate = s.gate := by
  unfold endShutdown
  cases d.stage with
  | joining recovery => cases recovery <;> rfl
  | _ => rfl

/-- What a shutdown leaves when it begins. -/
theorem beginShutdown_eq_some {s s' : State} (h : s.beginShutdown = some s') :
    (∀ r, s.gate.slot ≠ .shuttingDown r) ∧ (∀ j, s'.cores j = s.cores j) ∧
      s'.gate = s.gate.takeForResourceShutdown.2 ∧ s'.spawned = s.spawned ∧
      s'.shutdown = some ⟨s.gate.takeForResourceShutdown.1, .joining s.owned⟩ ∧
      s'.permits = s.permits ∧ s'.notifying = s.notifying ∧ s'.connections = s.connections ∧
      s'.closeRequested = s.closeRequested := by
  unfold beginShutdown at h
  have hflags : ∀ i j, (s.setTask i ((s.tasks i).map
      (fun t : Task => { t with cancelled := true }))).cores j = s.cores j :=
    fun i => s.flag_cores i _ (fun t => ⟨rfl, rfl⟩)
  cases hslot : s.gate.slot with
  | shuttingDown r => simp [hslot] at h
  | _ =>
      simp only [hslot, Option.some.injEq] at h
      obtain rfl := h
      refine ⟨by simp, ?_, rfl, ?_, rfl, ?_, ?_, ?_, ?_⟩
      · cases s.owned with
        | none => exact fun _ => rfl
        | some i => exact hflags i
      all_goals cases s.owned <;> rfl

end State

/-! ### One owner -/

/-- A task that may change the slot is the one the slot recovers by, unless it shuts down. -/
structure Owned (s : State) : Prop where
  active : ∀ i r stage, s.cores i = some (r, stage) → stage.active = true →
    s.gate.slot = .recovering r.generation r.retiring ∧ s.owned = some i ∨
      ∃ retiring, s.gate.slot = .shuttingDown retiring
  single : ∀ i j r r' stage stage', s.cores i = some (r, stage) → s.cores j = some (r', stage') →
    stage.active = true → stage'.active = true → i = j
  fresh : ∀ i, s.spawned ≤ i → s.cores i = none
  down : ∀ d, s.shutdown = some d → ∃ retiring, s.gate.slot = .shuttingDown retiring

namespace Owned

variable {s s' : State}

/-- Steps that start no task and leave the slot, or shut it down. -/
theorem keep (h : Owned s)
    (hactive : ∀ i r stage, s'.cores i = some (r, stage) → stage.active = true →
      ∃ stage', s.cores i = some (r, stage') ∧ stage'.active = true)
    (hfresh : ∀ i, s.spawned ≤ i → s'.cores i = none) (hspawned : s'.spawned = s.spawned)
    (hslot : s'.gate.slot = s.gate.slot ∧ s'.owned = s.owned ∧
        (s'.shutdown.isSome → s.shutdown.isSome) ∨
      ∃ retiring, s'.gate.slot = .shuttingDown retiring) : Owned s' where
  active i r stage hi ha := by
    obtain ⟨stage', hi', ha'⟩ := hactive i r stage hi ha
    rcases hslot with ⟨hslot, howned, -⟩ | hdown
    · rw [hslot, howned]
      exact h.active i r stage' hi' ha'
    · exact .inr hdown
  single i j r r' stage stage' hi hj ha ha' := by
    obtain ⟨_, hi', hia⟩ := hactive i r stage hi ha
    obtain ⟨_, hj', hja⟩ := hactive j r' stage' hj ha'
    exact h.single i j _ _ _ _ hi' hj' hia hja
  fresh i hi := hfresh i (hspawned ▸ hi)
  down d hd := by
    rcases hslot with ⟨hslot, -, hshutdown⟩ | hdown
    · obtain ⟨d', hd'⟩ := Option.isSome_iff_exists.mp (hshutdown (by rw [hd]; rfl))
      rw [hslot]
      exact h.down d' hd'
    · exact hdown

/-- Without active tasks nothing is claimed of the slot. -/
theorem quiet (hquiet : ∀ i r stage, s'.cores i = some (r, stage) → stage.active = false)
    (hfresh : ∀ i, s'.spawned ≤ i → s'.cores i = none)
    (hdown : ∀ d, s'.shutdown = some d → ∃ retiring, s'.gate.slot = .shuttingDown retiring) :
    Owned s' where
  active i r stage hi ha := by
    rw [hquiet i r stage hi] at ha
    cases ha
  single i j r r' stage stage' hi hj ha ha' := by
    rw [hquiet i r stage hi] at ha
    cases ha
  fresh := hfresh
  down := hdown

/-- A slot that neither recovers nor shuts down has no active task. -/
theorem no_active (h : Owned s) (hready : ∀ g r, s.gate.slot ≠ .recovering g r)
    (hup : ∀ r, s.gate.slot ≠ .shuttingDown r) {i : ℕ} {r : Recovery} {stage : Stage}
    (hi : s.cores i = some (r, stage)) : stage.active = false := by
  cases hactive : stage.active with
  | false => rfl
  | true =>
      rcases h.active i r stage hi hactive with ⟨hslot, -⟩ | ⟨r', hslot⟩
      · exact absurd hslot (hready _ _)
      · exact absurd hslot (hup _)

theorem spawn (h : Owned s) (hready : ∀ g r, s.gate.slot ≠ .recovering g r)
    (hup : ∀ r, s.gate.slot ≠ .shuttingDown r) {r : Recovery} {gate : Gate}
    (hgate : gate.slot = .recovering r.generation r.retiring) :
    Owned ({ s with gate }.spawn r) := by
  have hcores : ∀ j, ({ s with gate }.spawn r).cores j =
      if j = s.spawned then some (r, .spawned) else s.cores j :=
    State.spawn_cores { s with gate } r
  have honly : ∀ i r' stage, ({ s with gate }.spawn r).cores i = some (r', stage) →
      stage.active = true → i = s.spawned ∧ r' = r := by
    intro i r' stage hi ha
    rw [hcores] at hi
    by_cases hnew : i = s.spawned
    · rw [if_pos hnew] at hi
      exact ⟨hnew, (Prod.mk.inj (Option.some.inj hi)).1.symm⟩
    · rw [if_neg hnew] at hi
      rw [h.no_active hready hup hi] at ha
      cases ha
  refine ⟨fun i r' stage hi ha => ?_, fun i j r₁ r₂ stage stage' hi hj ha ha' => ?_,
    fun i hi => ?_, fun d hd => ?_⟩
  · obtain ⟨rfl, rfl⟩ := honly i r' stage hi ha
    exact .inl ⟨by rw [State.spawn_gate]; exact hgate, rfl⟩
  · rw [(honly i _ _ hi ha).1, (honly j _ _ hj ha').1]
  · have hlt : s.spawned + 1 ≤ i := hi
    rw [hcores, if_neg (by omega), h.fresh i (by omega)]
  · have hshutdown : ({ s with gate }.spawn r).shutdown = s.shutdown := State.spawn_shutdown _ r
    rw [hshutdown] at hd
    obtain ⟨r', hslot⟩ := h.down d hd
    exact absurd hslot (hup r')

/-- The task that changes the slot is the only active one. -/
theorem retire_task (h : Owned s) {i : ℕ} {t : Task} (running : s.tasks i = some t)
    (hactive : t.stage.active = true) {stage : Stage} (hstage : stage.active = false) {j : ℕ}
    {r : Recovery} {stage' : Stage}
    (hj : (s.setTask i (some { t with stage })).cores j = some (r, stage')) :
    stage'.active = false := by
  rw [State.setTask_cores] at hj
  by_cases hji : j = i
  · rw [if_pos hji] at hj
    obtain ⟨-, rfl⟩ := Prod.mk.inj (Option.some.inj hj)
    exact hstage
  · rw [if_neg hji] at hj
    cases hj' : stage'.active with
    | false => rfl
    | true =>
        exact absurd (h.single j i _ _ _ _ hj (State.cores_of_task running) hj' hactive) hji

/-- A task that moves on from an active stage. -/
theorem advance_task {i : ℕ} {t : Task} (running : s.tasks i = some t)
    (hactive : t.stage.active = true) {stage : Stage} {j : ℕ} {r : Recovery} {stage' : Stage}
    (hj : (s.setTask i (some { t with stage })).cores j = some (r, stage'))
    (ha : stage'.active = true) : ∃ stage₀, s.cores j = some (r, stage₀) ∧ stage₀.active = true := by
  rw [State.setTask_cores] at hj
  by_cases hji : j = i
  · rw [if_pos hji] at hj
    obtain ⟨rfl, -⟩ := Prod.mk.inj (Option.some.inj hj)
    exact ⟨t.stage, hji ▸ State.cores_of_task running, hactive⟩
  · rw [if_neg hji] at hj
    exact ⟨stage', hj, ha⟩

theorem fresh_setTask (h : Owned s) {i : ℕ} {t : Task} (running : s.tasks i = some t)
    (t' : Option Task) {j : ℕ} (hj : s.spawned ≤ j) : (s.setTask i t').cores j = none := by
  rw [State.setTask_cores]
  by_cases hji : j = i
  · have := h.fresh i (hji ▸ hj)
    rw [State.cores_of_task running] at this
    cases this
  · rw [if_neg hji, h.fresh j hj]

end Owned

theorem TaskStep.active {s : State} {t : Task} {stage : Stage} (h : TaskStep s t stage) :
    t.stage.active = true := by
  cases h with
  | cancel cancelled active held => exact active
  | begin_ stage _ | connect stage _ | poll stage _ _ | drainOver stage | confirmed stage
  | closed stage _ | notConnected stage =>
      rw [stage]
      rfl

/-- A notification leaves the recovery and whether the stage is active. -/
theorem notify_cores {s : State} {a i : ℕ} {r : Recovery} {stage : Stage}
    (h : (s.notifyWaiters a).cores i = some (r, stage)) :
    ∃ stage', s.cores i = some (r, stage') ∧ stage.active = stage'.active ∧
      r.guards stage' = r.guards stage ∧
      (stage = .idling (.asleep false) → stage' = .idling (.asleep false) ∧
        r.retiring.map Retiring.admission ≠ some a) := by
  unfold State.cores State.notifyWaiters at h
  unfold State.cores
  cases ht : s.tasks i with
  | none => simp [ht] at h
  | some t =>
      simp only [ht, Option.map_some, Option.some.injEq, Prod.mk.injEq] at h ⊢
      obtain ⟨hr, hstage⟩ := h
      unfold Task.notify at hr hstage
      cases hidle : t.stage with
      | idling w =>
          cases hretiring : t.recovery.retiring with
          | none =>
              simp only [hidle, hretiring] at hr hstage
              subst hr hstage
              exact ⟨_, ⟨rfl, rfl⟩, rfl, rfl, fun h => ⟨h, by simp [hretiring]⟩⟩
          | some ret =>
              simp only [hidle, hretiring] at hr hstage
              by_cases ha : ret.admission = a
              · simp only [ha, if_true] at hr hstage
                subst hr hstage
                refine ⟨_, ⟨rfl, rfl⟩, rfl, rfl, fun h => ?_⟩
                cases w <;> simp [Waiter.notify] at h
              · simp only [ha, if_false] at hr hstage
                rw [hidle] at hstage
                subst hr hstage
                exact ⟨_, ⟨rfl, rfl⟩, rfl, rfl, fun h => ⟨h, by simp [hretiring, ha]⟩⟩
      | _ =>
          simp only [hidle] at hr hstage
          subst hr hstage
          exact ⟨_, ⟨rfl, rfl⟩, rfl, rfl, fun h => by simp at h⟩

theorem notify_cores_none {s : State} {a i : ℕ} (h : s.cores i = none) :
    (s.notifyWaiters a).cores i = none := by
  simp only [State.cores, Option.map_eq_none_iff] at h
  simp [State.cores, State.notifyWaiters, h]

theorem Owned.step {s s' : State} {a : Action} (h : Owned s) (hstep : Step s a s') : Owned s' := by
  have hkeep : ∀ i r stage, s.cores i = some (r, stage) → stage.active = true →
      ∃ stage', s.cores i = some (r, stage') ∧ stage'.active = true :=
    fun i r stage hi ha => ⟨stage, hi, ha⟩
  cases hstep with
  | @grant _ generation transport admission snapshot =>
      rcases s.transportSnapshot_cases with ⟨g, c, a, w, hslot, hacquired, heq⟩ | ⟨g, hslot, heq⟩ |
        ⟨e, heq⟩ <;> rw [heq] at snapshot
      · obtain rfl := (Prod.mk.inj snapshot).2
        exact h.keep hkeep h.fresh rfl (.inl ⟨rfl, rfl, id⟩)
      · cases (Prod.mk.inj snapshot).1
      · cases (Prod.mk.inj snapshot).1
  | refuse snapshot =>
      rcases s.transportSnapshot_cases with ⟨g, c, a, w, hslot, hacquired, heq⟩ | ⟨g, hslot, heq⟩ |
        ⟨e, heq⟩ <;> rw [heq] at snapshot
      · cases (Prod.mk.inj snapshot).1
      · obtain rfl := (Prod.mk.inj snapshot).2
        exact h.spawn (by simp [hslot]) (by simp [hslot]) rfl
      · obtain rfl := (Prod.mk.inj snapshot).2
        exact h
  | @release a live =>
      unfold State.dropPermit
      cases Admission.release (s.gate.words a) with
      | none => exact h.keep hkeep h.fresh rfl (.inl ⟨rfl, rfl, id⟩)
      | some r => exact h.keep hkeep h.fresh rfl (.inl ⟨rfl, rfl, id⟩)
  | notify due =>
      refine h.keep (fun i r stage hi ha => ?_) (fun i hi => notify_cores_none (h.fresh i hi)) rfl
        (.inl ⟨rfl, rfl, by simp [State.notifyWaiters]⟩)
      obtain ⟨stage', hi', hactive, -⟩ := notify_cores hi
      exact ⟨stage', hi', hactive ▸ ha⟩
  | retire generation =>
      rcases s.retireTransport_cases generation with ⟨c, a, hslot, heq⟩ | ⟨-, heq⟩
      · rw [heq]
        exact h.spawn (by simp [hslot]) (by simp [hslot]) rfl
      · rw [heq]
        exact h
  | advance running step =>
      exact h.keep (fun j r stage' hj ha => Owned.advance_task running step.active hj ha)
        (fun j hj => h.fresh_setTask running _ hj) rfl (.inl ⟨rfl, rfl, id⟩)
  | @drained i t w w' r running stage retiring polled =>
      have hactive : t.stage.active = true := by
        rw [stage]
        rfl
      exact h.keep (fun j r stage' hj ha => Owned.advance_task running hactive hj ha)
        (fun j hj => h.fresh_setTask running _ hj) rfl (.inl ⟨rfl, rfl, id⟩)
  | @connect i t running stage =>
      have hactive : t.stage.active = true := by
        rw [stage]
        rfl
      exact h.keep (fun j r stage' hj ha => Owned.advance_task running hactive hj ha)
        (fun j hj => h.fresh_setTask running _ hj) rfl (.inl ⟨rfl, rfl, id⟩)
  | closing running stage retiring => exact h.keep hkeep h.fresh rfl (.inl ⟨rfl, rfl, id⟩)
  | @install i t c gate running stage installed =>
      have hactive : t.stage.active = true := by
        rw [stage]
        rfl
      obtain ⟨⟨r, hslot⟩, -, rfl⟩ := Gate.installReplacement_eq_true installed
      refine .quiet (fun j r stage' hj => h.retire_task running hactive rfl hj)
        (fun j hj => h.fresh_setTask running _ hj) (fun d hd => ?_)
      obtain ⟨r', hdown⟩ := h.down d hd
      rw [hslot] at hdown
      cases hdown
  | @reject i t c gate running stage rejected =>
      have hactive : t.stage.active = true := by
        rw [stage]
        rfl
      refine .quiet (fun j r stage' hj => h.retire_task running hactive rfl hj)
        (fun j hj => h.fresh_setTask running _ hj) (fun d hd => ?_)
      obtain ⟨r', hdown⟩ := h.down d hd
      rcases Gate.installReplacement_eq_false rejected with rfl | ⟨⟨r, hslot⟩, -⟩
      · exact ⟨r', hdown⟩
      · rw [hslot] at hdown
        cases hdown
  | @fail i t running stage =>
      have hactive : t.stage.active = true := by
        rw [stage]
        rfl
      refine .quiet (fun j r stage' hj => h.retire_task running hactive rfl hj)
        (fun j hj => h.fresh_setTask running _ hj) (fun d hd => ?_)
      obtain ⟨r', hdown⟩ := h.down d hd
      rcases s.gate.failRecovery_cases t.recovery.generation with heq | ⟨⟨r, hslot⟩, -⟩
      · exact ⟨r', by rw [heq]; exact hdown⟩
      · rw [hslot] at hdown
        cases hdown
  | finish running ended =>
      refine h.keep (fun j r stage hj ha => ?_) (fun j hj => h.fresh_setTask running none hj) rfl
        (.inl ⟨rfl, rfl, id⟩)
      have hcores : (s.setTask _ none).cores j = some (r, stage) := hj
      rw [State.setTask_cores] at hcores
      split at hcores
      · cases hcores
      · exact ⟨stage, hcores, ha⟩
  | abort running aborted =>
      refine h.keep (fun j r stage hj ha => ?_) (fun j hj => h.fresh_setTask running none hj) rfl
        (.inl ⟨rfl, rfl, id⟩)
      have hcores : (s.setTask _ none).cores j = some (r, stage) := hj
      rw [State.setTask_cores] at hcores
      split at hcores
      · cases hcores
      · exact ⟨stage, hcores, ha⟩
  | requestShutdown =>
      have hcores : ∀ j, s.requestShutdown.cores j = s.cores j :=
        fun j => State.dropRecovery_cores { s with gate := s.gate.takeForResourceShutdown.2 } j
      refine h.keep (fun i r stage hi ha => ⟨stage, hcores i ▸ hi, ha⟩)
        (fun i hi => (hcores i).trans (h.fresh i hi)) ?_ (.inr ⟨none, ?_⟩)
      · simp [State.requestShutdown, State.requestClose]
      · simp [State.requestShutdown, Gate.takeForResourceShutdown]
  | beginShutdown begun =>
      obtain ⟨-, hcores, hgate, hspawned, -⟩ := State.beginShutdown_eq_some begun
      refine h.keep (fun i r stage hi ha => ⟨stage, hcores i ▸ hi, ha⟩)
        (fun i hi => (hcores i).trans (h.fresh i hi)) hspawned (.inr ⟨none, ?_⟩)
      rw [hgate]
      rfl
  | joined running stage ended =>
      exact h.keep hkeep h.fresh rfl (.inl ⟨rfl, rfl, fun _ => by rw [running]; rfl⟩)
  | poll running stage retiring polled =>
      exact h.keep hkeep h.fresh rfl (.inl ⟨rfl, rfl, fun _ => by rw [running]; rfl⟩)
  | idled running stage retiring polled =>
      exact h.keep hkeep h.fresh rfl (.inl ⟨rfl, rfl, fun _ => by rw [running]; rfl⟩)
  | @stop d running =>
      have hcores := s.endShutdown_cores d
      refine h.keep (fun i r stage hi ha => ⟨stage, hcores i ▸ hi, ha⟩)
        (fun i hi => (hcores i).trans (h.fresh i hi)) ?_ ?_
      · unfold State.endShutdown
        cases d.stage with
        | joining recovery => cases recovery <;> rfl
        | _ => rfl
      · obtain ⟨r, hdown⟩ := h.down d running
        exact .inr ⟨r, by rw [State.endShutdown_slot]; exact hdown⟩

theorem Owned.start : Owned .start :=
  .quiet (fun i r stage h => by simp [State.cores, State.start] at h) (fun i _ => rfl)
    (fun d h => by simp [State.start] at h)

theorem owned_of_runs {s : State} {labels : List Action} (h : Runs Step .start labels s) :
    Owned s :=
  h.invariant (I := fun _ s => Owned s) Owned.start (fun _ _ _ _ _ hs hstep => hs.step hstep)

/-! ### No lost notification -/

/-- A waiter for the word sleeps and has not been notified. -/
inductive State.Asleep (s : State) (a : ℕ) : Prop where
  | task {i : ℕ} {r : Recovery} (core : s.cores i = some (r, .idling (.asleep false)))
      (word : r.retiring.map Retiring.admission = some a)
  | shutdown {d : Shutdown} (running : s.shutdown = some d)
      (stage : d.stage = .idling (.asleep false)) (word : d.retiring.map Retiring.admission = some a)

/-- Whoever sleeps will be woken: a permit is live, or its notification is due. -/
def State.Awaited (s : State) : Prop := ∀ a, s.Asleep a → a ∈ s.permits ∨ a ∈ s.notifying

/-- A step with no new sleeper that keeps the permits and the notifications. -/
theorem State.Awaited.keep {s s' : State} (h : s.Awaited)
    (hasleep : ∀ a, s'.Asleep a → s.Asleep a) (hpermits : ∀ a ∈ s.permits, a ∈ s'.permits)
    (hnotifying : ∀ a ∈ s.notifying, a ∈ s'.notifying) : s'.Awaited := by
  intro a ha
  rcases h a (hasleep a ha) with h | h
  · exact .inl (hpermits a h)
  · exact .inr (hnotifying a h)

/-- Only a poll that finds live permits puts a waiter to sleep. -/
theorem Waiter.poll_asleep {w : Waiter} {word : UInt64}
    (h : w.poll word = some (.asleep false, false)) : Admission.count word ≠ 0 := by
  cases w with
  | entering => simp [Waiter.poll] at h
  | registered notified =>
      by_cases hzero : Admission.count word = 0
      · simp [Waiter.poll, hzero] at h
      · exact hzero
  | asleep notified => cases notified <;> simp [Waiter.poll] at h

/-- A waiter returns only when it reads a count of zero. -/
theorem Waiter.poll_returned {w w' : Waiter} {word : UInt64} (h : w.poll word = some (w', true)) :
    Admission.count word = 0 := by
  cases w with
  | entering => simp [Waiter.poll] at h
  | registered notified =>
      by_cases hzero : Admission.count word = 0
      · exact hzero
      · simp [Waiter.poll, hzero] at h
  | asleep notified => cases notified <;> simp [Waiter.poll] at h

theorem Counted.mem_permits_iff {g : Gate} {permits : List ℕ} (h : Counted g permits) (a : ℕ) :
    a ∈ permits ↔ Admission.count (g.words a) ≠ 0 := by
  by_cases ha : a < g.opened
  · have hcount := h.count_eq ha
    have hzero : Admission.count (g.words a) = 0 ↔ permits.count a = 0 := by
      rw [← UInt64.toNat_inj, hcount]
      rfl
    rw [ne_eq, hzero, List.count_eq_zero, not_not]
  · have hword := h.unopened a (not_lt.mp ha)
    refine ⟨fun hm => absurd (h.opened a hm) ha, fun hne => ?_⟩
    rw [hword] at hne
    exact absurd rfl hne

theorem Shutdown.notify_asleep {s : State} {d : Shutdown} {a b : ℕ} (running : s.shutdown = some d)
    (stage : (d.notify a).stage = .idling (.asleep false))
    (word : (d.notify a).retiring.map Retiring.admission = some b) : s.Asleep b ∧ b ≠ a := by
  unfold Shutdown.notify at stage word
  cases hstage : d.stage with
  | idling w =>
      cases hretiring : d.retiring with
      | none => simp [hstage, hretiring] at word
      | some r =>
          simp only [hstage, hretiring] at stage word
          by_cases ha : r.admission = a
          · simp only [ha, if_true] at stage
            cases w <;> simp [Waiter.notify] at stage
          · simp only [ha, if_false] at stage word
            rw [hretiring, Option.map_some, Option.some.injEq] at word
            refine ⟨.shutdown running stage ?_, word ▸ ha⟩
            rw [hretiring, Option.map_some, word]
  | _ => simp [hstage] at stage

/-- Dropping a permit leaves another one of its word, or makes the notification due. -/
theorem dropPermit_mem {s : State} (h : Counted s.gate s.permits) {a b : ℕ} (live : a ∈ s.permits)
    (hb : b ∈ s.permits) : b ∈ (s.dropPermit a).permits ∨ b ∈ (s.dropPermit a).notifying := by
  have hpos : 0 < s.permits.count a := List.count_pos_iff.mpr live
  have hmod := h.mod_word (h.opened a live)
  obtain ⟨w, heq, -⟩ := Admission.release_of_pos (by rw [hmod]; exact hpos)
  unfold State.dropPermit
  rw [heq, hmod]
  by_cases hba : b = a
  · subst hba
    by_cases hone : s.permits.count b = 1
    · exact .inr (by simp [hone])
    · refine .inl (List.count_pos_iff.mp ?_)
      rw [List.count_erase_self]
      omega
  · exact .inl ((List.mem_erase_of_ne hba).mpr hb)

theorem State.Awaited.step {s s' : State} {a : Action} (h : s.Awaited)
    (hcounted : Counted s.gate s.permits) (hstep : Step s a s') : s'.Awaited := by
  -- a stage that is not a sleeping waiter
  have hset : ∀ {i : ℕ} {t : Task} {s' : State} {a : ℕ},
      (∀ j, s'.cores j = (s.setTask i (some t)).cores j) → s'.shutdown = s.shutdown →
      t.stage ≠ .idling (.asleep false) → s'.Asleep a → s.Asleep a := by
    intro i t s' a hcores hshutdown hstage hasleep
    cases hasleep with
    | @task j r core word =>
        rw [hcores, State.setTask_cores] at core
        split at core
        · exact absurd (Prod.mk.inj (Option.some.inj core)).2 hstage
        · exact .task core word
    | shutdown running stage word => exact .shutdown (hshutdown ▸ running) stage word
  have hend : ∀ {i : ℕ} {s' : State} {a : ℕ},
      (∀ j, s'.cores j = (s.setTask i none).cores j) → s'.shutdown = s.shutdown →
      s'.Asleep a → s.Asleep a := by
    intro i s' a hcores hshutdown hasleep
    cases hasleep with
    | @task j r core word =>
        rw [hcores, State.setTask_cores] at core
        split at core
        · cases core
        · exact .task core word
    | shutdown running stage word => exact .shutdown (hshutdown ▸ running) stage word
  have hspawn : ∀ {r : Recovery} {gate : Gate} {a : ℕ},
      ({ s with gate }.spawn r).Asleep a → s.Asleep a := by
    intro r gate a hasleep
    have hshutdown : ({ s with gate }.spawn r).shutdown = s.shutdown := State.spawn_shutdown _ r
    cases hasleep with
    | task core word =>
        rw [State.spawn_cores] at core
        split at core
        · cases (Prod.mk.inj (Option.some.inj core)).2
        · exact .task core word
    | shutdown running stage word => exact .shutdown (hshutdown ▸ running) stage word
  have hflags : ∀ {s' : State} {a : ℕ}, (∀ j, s'.cores j = s.cores j) →
      s'.shutdown = s.shutdown → s'.Asleep a → s.Asleep a := by
    intro s' a hcores hshutdown hasleep
    cases hasleep with
    | task core word => exact .task ((hcores _) ▸ core) word
    | shutdown running stage word => exact .shutdown (hshutdown ▸ running) stage word
  cases hstep with
  | grant snapshot =>
      rcases s.transportSnapshot_cases with ⟨g, c, a, w, hslot, hacquired, heq⟩ | ⟨g, hslot, heq⟩ |
        ⟨e, heq⟩ <;> rw [heq] at snapshot
      · obtain rfl := (Prod.mk.inj snapshot).2
        exact h.keep (fun _ => hflags (fun _ => rfl) rfl) (fun b hb => List.mem_cons_of_mem a hb)
          (fun b hb => hb)
      · cases (Prod.mk.inj snapshot).1
      · cases (Prod.mk.inj snapshot).1
  | refuse snapshot =>
      rcases s.transportSnapshot_cases with ⟨g, c, a, w, hslot, hacquired, heq⟩ | ⟨g, hslot, heq⟩ |
        ⟨e, heq⟩ <;> rw [heq] at snapshot
      · cases (Prod.mk.inj snapshot).1
      · obtain rfl := (Prod.mk.inj snapshot).2
        exact h.keep (fun _ => hspawn) (fun b hb => by simpa using hb)
          (fun b hb => by rw [State.spawn_notifying]; exact hb)
      · obtain rfl := (Prod.mk.inj snapshot).2
        exact h
  | @release a live =>
      intro b hb
      have hasleep : s.Asleep b := by
        refine hflags (fun j => ?_) ?_ hb
        · unfold State.dropPermit
          cases Admission.release (s.gate.words a) <;> rfl
        · unfold State.dropPermit
          cases Admission.release (s.gate.words a) <;> rfl
      rcases h b hasleep with hlive | hdue
      · exact dropPermit_mem hcounted live hlive
      · refine .inr ?_
        unfold State.dropPermit
        cases Admission.release (s.gate.words a) with
        | none => exact hdue
        | some r =>
            dsimp only
            split
            · exact List.mem_cons_of_mem a hdue
            · exact hdue
  | @notify a due =>
      intro b hb
      obtain ⟨hasleep, hne⟩ : s.Asleep b ∧ b ≠ a := by
        cases hb with
        | @task i r core word =>
            obtain ⟨stage', hcore, -, -, hstill⟩ := notify_cores core
            obtain ⟨rfl, hother⟩ := hstill rfl
            exact ⟨.task hcore word, fun e => hother (e ▸ word)⟩
        | @shutdown d running stage word =>
            obtain ⟨d', hd', rfl⟩ := Option.map_eq_some_iff.mp running
            exact Shutdown.notify_asleep hd' stage word
      rcases h b hasleep with hlive | hdue
      · exact .inl hlive
      · exact .inr ((List.mem_erase_of_ne hne).mpr hdue)
  | retire generation =>
      rcases s.retireTransport_cases generation with ⟨c, a, hslot, heq⟩ | ⟨-, heq⟩
      · rw [heq]
        exact h.keep (fun _ => hspawn) (fun b hb => by simpa using hb)
          (fun b hb => by rw [State.spawn_notifying]; exact hb)
      · rw [heq]
        exact h
  | @advance i t stage running step =>
      intro b hb
      by_cases hsleep : stage = .idling (.asleep false)
      · -- the waiter just went to sleep, so permits of its word are live
        subst hsleep
        cases hb with
        | @task j r core word =>
            rw [State.setTask_cores] at core
            split at core
            · obtain ⟨rfl, -⟩ := Prod.mk.inj (Option.some.inj core)
              cases step with
              | poll stage retiring polled =>
                  rw [retiring, Option.map_some, Option.some.injEq] at word
                  subst word
                  exact .inl ((hcounted.mem_permits_iff _).mpr (Waiter.poll_asleep polled))
            · exact h b (.task core word)
        | shutdown running stage word => exact h b (.shutdown running stage word)
      · exact h b (@hset i { t with stage } _ b (fun _ => rfl) rfl hsleep hb)
  | @drained i t w w' r running stage retiring polled =>
      exact h.keep (fun a => @hset i { t with stage := .confirming } _ a (fun _ => rfl) rfl (by simp))
        (fun _ hb => hb) (fun _ hb => hb)
  | closing running stage retiring =>
      exact h.keep (fun _ => hflags (fun _ => rfl) rfl) (fun _ hb => hb) (fun _ hb => hb)
  | @connect i t running stage =>
      exact h.keep (fun a => @hset i { t with stage := .connected s.connections } _ a
        (fun _ => rfl) rfl (by simp)) (fun _ hb => hb) (fun _ hb => hb)
  | @install i t c gate running stage installed =>
      exact h.keep (fun a => @hset i { t with stage := .ended } _ a (fun _ => rfl) rfl (by simp))
        (fun _ hb => hb) (fun _ hb => hb)
  | @reject i t c gate running stage rejected =>
      exact h.keep (fun a => @hset i { t with stage := .orphaned c } _ a (fun _ => rfl) rfl
        (by simp)) (fun _ hb => hb) (fun _ hb => hb)
  | @fail i t running stage =>
      exact h.keep (fun a => @hset i { t with stage := .ended } _ a (fun _ => rfl) rfl (by simp))
        (fun _ hb => hb) (fun _ hb => hb)
  | @finish i t running ended =>
      exact h.keep (fun a => @hend i _ a (fun _ => rfl) rfl) (fun _ hb => hb) (fun _ hb => hb)
  | @abort i t running aborted =>
      exact h.keep (fun a => @hend i _ a (fun _ => rfl) rfl) (fun _ hb => hb) (fun _ hb => hb)
  | requestShutdown =>
      have hcores : ∀ j, s.requestShutdown.cores j = s.cores j :=
        fun j => State.dropRecovery_cores { s with gate := s.gate.takeForResourceShutdown.2 } j
      refine h.keep (fun _ => hflags hcores ?_) (fun b hb => ?_) (fun b hb => ?_)
      all_goals
        simp only [State.requestShutdown, State.requestClose, State.dropRecovery]
        cases s.owned <;> first | rfl | exact hb
  | beginShutdown begun =>
      obtain ⟨-, hcores, -, -, hshutdown, hpermits, hnotifying, -⟩ :=
        State.beginShutdown_eq_some begun
      refine h.keep (fun b hb => ?_) (fun b hb => hpermits ▸ hb) (fun b hb => hnotifying ▸ hb)
      cases hb with
      | task core word => exact .task ((hcores _) ▸ core) word
      | shutdown running stage word =>
          rw [hshutdown] at running
          obtain rfl := Option.some.inj running
          cases stage
  | joined running stage ended =>
      refine h.keep (fun b hb => ?_) (fun _ hb => hb) (fun _ hb => hb)
      cases hb with
      | task core word => exact .task core word
      | shutdown running' stage' word =>
          obtain rfl := Option.some.inj running'
          cases stage'
  | @poll d w w' r running stage retiring polled =>
      intro b hb
      cases hb with
      | task core word => exact h b (.task core word)
      | shutdown running' stage' word =>
          obtain rfl := Option.some.inj running'
          obtain rfl : w' = .asleep false := Closing.idling.inj stage'
          rw [show _ = some r from retiring, Option.map_some, Option.some.injEq] at word
          subst word
          exact .inl ((hcounted.mem_permits_iff _).mpr (Waiter.poll_asleep polled))
  | idled running stage retiring polled =>
      refine h.keep (fun b hb => ?_) (fun _ hb => hb) (fun _ hb => hb)
      cases hb with
      | task core word => exact .task core word
      | shutdown running' stage' word =>
          obtain rfl := Option.some.inj running'
          cases stage'
  | @stop d running =>
      refine h.keep (fun b hb => ?_) (fun b hb => ?_) (fun b hb => ?_)
      · cases hb with
        | task core word => exact .task ((s.endShutdown_cores d _) ▸ core) word
        | shutdown running' stage' word =>
            unfold State.endShutdown at running'
            cases running'
      all_goals
        unfold State.endShutdown
        cases d.stage with
        | joining recovery => cases recovery <;> exact hb
        | _ => exact hb

/-! ### No lost connection -/

/-- Who answers for a connection: the slot, the guards of a task, a shutdown, or its own
close request. -/
inductive State.Held (s : State) (c : ℕ) : Prop where
  | slot (kept : s.gate.slot.kept = some c)
  | task {i : ℕ} {r : Recovery} {stage : Stage} (core : s.cores i = some (r, stage))
      (guarded : c ∈ r.guards stage)
  | shutdown {d : Shutdown} (running : s.shutdown = some d)
      (retiring : d.retiring.map Retiring.transport = some c)
  | requested (requested : s.closeRequested c = true)

theorem Recovery.mem_guards_retiring {r : Recovery} {c : ℕ} (stage : Stage)
    (h : r.retiring.map Retiring.transport = some c) : c ∈ r.guards stage := by
  simp [Recovery.guards, h]

/-- Unless it holds a replacement, a task guards only what it retires. -/
theorem Recovery.mem_guards_mono {r : Recovery} {c : ℕ} {stage : Stage} (stage' : Stage)
    (hconnected : ∀ c, stage ≠ .connected c) (horphaned : ∀ c, stage ≠ .orphaned c)
    (h : c ∈ r.guards stage) : c ∈ r.guards stage' := by
  cases stage with
  | connected c' => exact absurd rfl (hconnected c')
  | orphaned c' => exact absurd rfl (horphaned c')
  | _ =>
      exact Recovery.mem_guards_retiring stage' (by simpa [Recovery.guards] using h)

theorem TaskStep.holds_nothing {s : State} {t : Task} {stage : Stage} (h : TaskStep s t stage) :
    (∀ c, t.stage ≠ .connected c) ∧ ∀ c, t.stage ≠ .orphaned c := by
  cases h with
  | cancel cancelled active held =>
      refine ⟨held, fun c hc => ?_⟩
      rw [hc] at active
      cases active
  | begin_ stage _ | connect stage _ | poll stage _ _ | drainOver stage | confirmed stage
  | closed stage _ | notConnected stage =>
      simp [stage]

theorem requested_mono {s : State} (cs : List ℕ) {c : ℕ} (h : s.closeRequested c = true) :
    (s.requestClose cs).closeRequested c = true := by
  simp [State.requestClose, h]

theorem requested_mem {s : State} {cs : List ℕ} {c : ℕ} (h : c ∈ cs) :
    (s.requestClose cs).closeRequested c = true := by
  simp [State.requestClose, h]

namespace State.Held

variable {s s' : State} {c : ℕ}

/-- The four ways carry over where their parts do. -/
theorem mono (h : s.Held c)
    (hslot : s.gate.slot.kept = some c → s'.Held c)
    (htask : ∀ i r stage, s.cores i = some (r, stage) → c ∈ r.guards stage → s'.Held c)
    (hshutdown : ∀ d, s.shutdown = some d → d.retiring.map Retiring.transport = some c →
      s'.Held c)
    (hrequested : s.closeRequested c = true → s'.closeRequested c = true) : s'.Held c := by
  cases h with
  | slot kept => exact hslot kept
  | task core guarded => exact htask _ _ _ core guarded
  | shutdown running retiring => exact hshutdown _ running retiring
  | requested requested => exact .requested (hrequested requested)

/-- One task moves to another stage and keeps its guards. -/
theorem setTask (h : s.Held c) {i : ℕ} {t : Task} (running : s.tasks i = some t) {stage : Stage}
    (hcores : ∀ j, s'.cores j = (s.setTask i (some { t with stage })).cores j)
    (hguards : c ∈ t.recovery.guards t.stage → s'.Held c)
    (hslot : s.gate.slot.kept = some c → s'.Held c) (hshutdown : s'.shutdown = s.shutdown)
    (hrequested : s'.closeRequested = s.closeRequested) : s'.Held c := by
  refine h.mono hslot (fun j r stage' hj hc => ?_)
    (fun d hd hr => .shutdown (hshutdown ▸ hd) hr) (fun hr => hrequested ▸ hr)
  by_cases hji : j = i
  · subst hji
    rw [State.cores_of_task running] at hj
    obtain ⟨rfl, rfl⟩ := Prod.mk.inj (Option.some.inj hj)
    exact hguards hc
  · refine @State.Held.task s' c j r stage' ?_ hc
    rw [hcores, State.setTask_cores, if_neg hji, hj]

/-- A task that ends requests the close of what it guards. -/
theorem endTask (h : s.Held c) {i : ℕ} {t : Task} (running : s.tasks i = some t) :
    (s.endTask i t).Held c := by
  refine h.mono (fun kept => .slot kept) (fun j r stage hj hc => ?_)
    (fun d hd hr => .shutdown hd hr) (fun hr => requested_mono _ hr)
  by_cases hji : j = i
  · subst hji
    rw [State.cores_of_task running] at hj
    obtain ⟨rfl, rfl⟩ := Prod.mk.inj (Option.some.inj hj)
    exact .requested (requested_mem hc)
  · refine @State.Held.task _ c j r stage ?_ hc
    exact (s.setTask_cores i none j).trans (by rw [if_neg hji, hj])

theorem spawn (h : s.Held c) (howned : Owned s) {r : Recovery} {gate : Gate}
    (hkept : s.gate.slot.kept = some c → gate.slot.kept = some c) :
    ({ s with gate }.spawn r).Held c := by
  refine h.mono (fun kept => .slot ?_) (fun j r' stage hj hc => ?_) (fun d hd hr => ?_)
    (fun hr => ?_)
  · rw [State.spawn_gate]
    exact hkept kept
  · have hlt : j ≠ s.spawned := by
      rintro rfl
      rw [howned.fresh _ le_rfl] at hj
      cases hj
    refine @State.Held.task _ c j r' stage ?_ hc
    exact (State.spawn_cores { s with gate } r j).trans (by rw [if_neg hlt]; exact hj)
  · exact .shutdown ((State.spawn_shutdown _ r).trans hd) hr
  · unfold State.spawn State.setTask State.dropRecovery
    cases s.owned <;> exact hr

end State.Held

/-- Every connection that was made is answered for. -/
def State.Kept (s : State) : Prop := ∀ c < s.connections, s.Held c

theorem spawn_connections (s : State) (r : Recovery) :
    (s.spawn r).connections = s.connections := by
  unfold State.spawn State.setTask State.dropRecovery
  cases s.owned <;> rfl

/-- What a recovering slot keeps, its active task guards. -/
theorem Owned.guards_kept {s : State} (h : Owned s) {i : ℕ} {t : Task}
    (running : s.tasks i = some t) (hactive : t.stage.active = true) {g : ℕ}
    {r : Option Retiring} (hslot : s.gate.slot = .recovering g r) {c : ℕ} (stage : Stage)
    (hkept : s.gate.slot.kept = some c) : c ∈ t.recovery.guards stage := by
  rcases h.active i _ _ (State.cores_of_task running) hactive with ⟨heq, -⟩ | ⟨r', heq⟩
  · rw [heq] at hkept
    exact Recovery.mem_guards_retiring stage hkept
  · rw [hslot] at heq
    cases heq

theorem State.Kept.step {s s' : State} {a : Action} (h : s.Kept) (howned : Owned s)
    (hstep : Step s a s') : s'.Kept := by
  have hflags : ∀ {s' : State} {c : ℕ}, (∀ j, s'.cores j = s.cores j) →
      s'.gate.slot.kept = s.gate.slot.kept → s'.shutdown = s.shutdown →
      (s.closeRequested c = true → s'.closeRequested c = true) → s.Held c → s'.Held c := by
    intro s' c hcores hkept hshutdown hrequested hc
    exact hc.mono (fun kept => .slot (hkept ▸ kept)) (fun j r stage hj hc => .task ((hcores j) ▸ hj) hc)
      (fun d hd hr => .shutdown (hshutdown ▸ hd) hr) hrequested
  cases hstep with
  | grant snapshot =>
      rcases s.transportSnapshot_cases with ⟨g, c, a, w, hslot, hacquired, heq⟩ | ⟨g, hslot, heq⟩ |
        ⟨e, heq⟩ <;> rw [heq] at snapshot
      · obtain rfl := (Prod.mk.inj snapshot).2
        exact fun c hc => hflags (fun _ => rfl) rfl rfl id (h c hc)
      · cases (Prod.mk.inj snapshot).1
      · cases (Prod.mk.inj snapshot).1
  | refuse snapshot =>
      rcases s.transportSnapshot_cases with ⟨g, c, a, w, hslot, hacquired, heq⟩ | ⟨g, hslot, heq⟩ |
        ⟨e, heq⟩ <;> rw [heq] at snapshot
      · cases (Prod.mk.inj snapshot).1
      · obtain rfl := (Prod.mk.inj snapshot).2
        intro c hc
        rw [spawn_connections] at hc
        refine (h c hc).spawn howned (fun hkept => ?_)
        rw [hslot] at hkept
        cases hkept
      · obtain rfl := (Prod.mk.inj snapshot).2
        exact h
  | @release a live =>
      unfold State.dropPermit
      cases Admission.release (s.gate.words a) <;>
        exact fun c hc => hflags (fun _ => rfl) rfl rfl id (h c hc)
  | @notify a due =>
      intro c hc
      refine (h c hc).mono (fun kept => .slot kept) (fun j r stage hj hguarded => ?_)
        (fun d hd hr => ?_) (fun hr => hr)
      · cases hnotified : (s.notifyWaiters a).cores j with
        | none =>
            have : s.tasks j = none := by
              simpa [State.cores, State.notifyWaiters] using hnotified
            simp [State.cores, this] at hj
        | some core =>
            obtain ⟨r', stage'⟩ := core
            obtain ⟨stage₀, hcore, -, hguards, -⟩ := notify_cores hnotified
            obtain ⟨rfl, rfl⟩ := Prod.mk.inj (Option.some.inj (hcore.symm.trans hj))
            exact .task hnotified (hguards ▸ hguarded)
      · refine @State.Held.shutdown _ c (d.notify a) ?_ ?_
        · simp [State.notifyWaiters, hd]
        · rw [← hr]
          unfold Shutdown.notify
          cases d.stage with
          | idling w => cases hret : d.retiring with
            | none => simp [hret]
            | some r => by_cases ha : r.admission = a <;> simp [hret, ha]
          | _ => rfl
  | retire generation =>
      rcases s.retireTransport_cases generation with ⟨c', a, hslot, heq⟩ | ⟨-, heq⟩
      · rw [heq]
        intro c hc
        rw [spawn_connections] at hc
        refine (h c hc).spawn howned (fun hkept => ?_)
        rw [hslot] at hkept
        exact hkept
      · rw [heq]
        exact h
  | @advance i t stage running step =>
      intro c hc
      have hguards := step.holds_nothing
      refine (h c hc).setTask running (fun _ => rfl) (fun hguarded => ?_) (fun kept => .slot kept)
        rfl rfl
      exact .task (State.setTask_cores s i _ i ▸ if_pos rfl)
        (Recovery.mem_guards_mono stage hguards.1 hguards.2 hguarded)
  | @drained i t w w' r running stage retiring polled =>
      intro c hc
      refine (h c hc).setTask running (fun _ => rfl) (fun hguarded => ?_) (fun kept => .slot kept)
        rfl rfl
      refine .task (State.setTask_cores s i _ i ▸ if_pos rfl) ?_
      exact Recovery.mem_guards_mono .confirming (by simp [stage]) (by simp [stage]) hguarded
  | closing running stage retiring =>
      exact fun c hc => hflags (fun _ => rfl) rfl rfl (requested_mono _) (h c hc)
  | @connect i t running stage =>
      intro c hc
      have hself : State.cores { s.setTask i (some { t with stage := .connected s.connections }) with
          connections := s.connections + 1 } i = some (t.recovery, .connected s.connections) :=
        (State.setTask_cores s i _ i).trans (if_pos rfl)
      rcases Nat.lt_succ_iff_lt_or_eq.mp hc with hlt | rfl
      · refine (h c hlt).setTask running (fun _ => rfl) (fun hguarded => ?_)
          (fun kept => .slot kept) rfl rfl
        exact .task hself
          (Recovery.mem_guards_mono _ (by simp [stage]) (by simp [stage]) hguarded)
      · exact .task hself (by simp [Recovery.guards])
  | @install i t c' gate running stage installed =>
      obtain ⟨⟨r, hslot⟩, -, rfl⟩ := Gate.installReplacement_eq_true installed
      intro c hc
      have hself : ∀ {s' : State}, s'.tasks =
          (s.setTask i (some { t with stage := .ended })).tasks →
          s'.cores i = some (t.recovery, .ended) := by
        intro s' htasks
        rw [State.cores, htasks]
        exact (State.setTask_cores s i _ i).trans (if_pos rfl)
      refine (h c hc).setTask running (fun _ => rfl) (fun hguarded => ?_) (fun kept => ?_) rfl rfl
      · rw [stage, Recovery.guards, List.mem_append] at hguarded
        rcases hguarded with hretiring | hnew
        · exact .task (hself rfl) (Recovery.mem_guards_retiring _ (by simpa using hretiring))
        · exact .slot (congrArg some (List.mem_singleton.mp hnew).symm)
      · exact .task (hself rfl)
          (howned.guards_kept running (by rw [stage]; rfl) hslot .ended kept)
  | @reject i t c' gate running stage rejected =>
      intro c hc
      have hself : State.cores { s.setTask i (some { t with stage := .orphaned c' }) with gate } i =
          some (t.recovery, .orphaned c') :=
        (State.setTask_cores s i _ i).trans (if_pos rfl)
      refine (h c hc).setTask running (fun _ => rfl) (fun hguarded => ?_) (fun kept => ?_) rfl rfl
      · rw [stage] at hguarded
        exact .task hself hguarded
      · rcases Gate.installReplacement_eq_false rejected with rfl | ⟨⟨r, hslot⟩, -⟩
        · exact .slot kept
        · exact .task hself (howned.guards_kept running (by rw [stage]; rfl) hslot _ kept)
  | @fail i t running stage =>
      intro c hc
      have hself : State.cores { s.setTask i (some { t with stage := .ended }) with
          gate := s.gate.failRecovery t.recovery.generation } i = some (t.recovery, .ended) :=
        (State.setTask_cores s i _ i).trans (if_pos rfl)
      refine (h c hc).setTask running (fun _ => rfl) (fun hguarded => ?_) (fun kept => ?_) rfl rfl
      · exact .task hself
          (Recovery.mem_guards_mono _ (by simp [stage]) (by simp [stage]) hguarded)
      · rcases s.gate.failRecovery_cases t.recovery.generation with heq | ⟨⟨r, hslot⟩, heq⟩
        · exact .slot (by rw [heq]; exact kept)
        · exact .task hself (howned.guards_kept running (by rw [stage]; rfl) hslot _ kept)
  | finish running ended => exact fun c hc => (h c hc).endTask running
  | abort running aborted => exact fun c hc => (h c hc).endTask running
  | requestShutdown =>
      have hcores : ∀ j, s.requestShutdown.cores j = s.cores j :=
        fun j => State.dropRecovery_cores { s with gate := s.gate.takeForResourceShutdown.2 } j
      have hconnections : s.requestShutdown.connections = s.connections := by
        simp only [State.requestShutdown, State.requestClose, State.dropRecovery]
        cases s.owned <;> rfl
      have hshutdown : s.requestShutdown.shutdown = s.shutdown := by
        simp only [State.requestShutdown, State.requestClose, State.dropRecovery]
        cases s.owned <;> rfl
      intro c hc
      rw [hconnections] at hc
      refine (h c hc).mono (fun kept => .requested (requested_mem ?_))
        (fun j r stage hj hguarded => .task ((hcores j).trans hj) hguarded)
        (fun d hd hr => .shutdown (hshutdown.trans hd) hr) (fun hr => requested_mono _ ?_)
      · exact Option.mem_toList.mpr (s.gate.takeForResourceShutdown_cases.1.trans kept)
      · unfold State.dropRecovery
        cases s.owned <;> exact hr
  | beginShutdown begun =>
      obtain ⟨hup, hcores, -, -, hshutdown, -, -, hconnections, hrequested⟩ :=
        State.beginShutdown_eq_some begun
      intro c hc
      rw [hconnections] at hc
      refine (h c hc).mono (fun kept => .shutdown hshutdown ?_)
        (fun j r stage hj hguarded => .task ((hcores j).trans hj) hguarded)
        (fun d hd hr => ?_) (fun hr => hrequested ▸ hr)
      · rw [s.gate.takeForResourceShutdown_cases.1]
        exact kept
      · obtain ⟨r, hslot⟩ := howned.down d hd
        exact absurd hslot (hup r)
  | @joined d recovery running stage ended =>
      intro c hc
      refine (h c hc).mono (fun kept => .slot kept) (fun j r stage hj hguarded => .task hj hguarded)
        (fun d' hd hr => ?_) id
      obtain rfl := Option.some.inj (running.symm.trans hd)
      exact .shutdown rfl hr
  | @poll d w w' r running stage retiring polled =>
      intro c hc
      refine (h c hc).mono (fun kept => .slot kept) (fun j r stage hj hguarded => .task hj hguarded)
        (fun d' hd hr => ?_) id
      obtain rfl := Option.some.inj (running.symm.trans hd)
      exact .shutdown rfl hr
  | @idled d w w' r running stage retiring polled =>
      intro c hc
      refine (h c hc).mono (fun kept => .slot kept) (fun j r stage hj hguarded => .task hj hguarded)
        (fun d' hd hr => ?_) (requested_mono _)
      obtain rfl := Option.some.inj (running.symm.trans hd)
      exact .shutdown rfl hr
  | @stop d running =>
      have hconnections : (s.endShutdown d).connections = s.connections := by
        unfold State.endShutdown
        cases d.stage with
        | joining recovery => cases recovery <;> rfl
        | _ => rfl
      intro c hc
      rw [hconnections] at hc
      refine (h c hc).mono (fun kept => .slot (by rw [State.endShutdown_slot]; exact kept))
        (fun j r stage hj hguarded => .task ((s.endShutdown_cores d j).trans hj) hguarded)
        (fun d' hd hr => ?_) (fun hr => requested_mono _ ?_)
      · obtain rfl := Option.some.inj (running.symm.trans hd)
        exact .requested (requested_mem (by rw [Option.mem_toList]; exact hr))
      · cases d.stage with
        | joining recovery => cases recovery <;> exact hr
        | _ => exact hr

/-! ### Whole runs -/

/-- What holds of every run and of the state it reaches. -/
structure Fenced (labels : List Action) (s : State) : Prop where
  /-- The generations of successive ready states, the first one zero, increase; the slot is at
  the last of them whenever it is ready. -/
  increasing : (0 :: installs labels).Pairwise (· < ·)
  current : ∀ g c a, s.gate.slot = .ready g c a → (0 :: installs labels).getLast? = some g
  /-- A retirement of any other generation changes nothing. -/
  retirement : ∀ g, (∀ c a, s.gate.slot ≠ .ready g c a) → s.retireTransport g = s
  /-- At most one task may still change the slot, and it recovers the slot's generation. -/
  owner : ∀ i t, s.tasks i = some t → t.stage.active = true →
    (s.gate.slot = .recovering t.recovery.generation t.recovery.retiring ∧ s.owned = some i ∨
      ∃ r, s.gate.slot = .shuttingDown r) ∧
    ∀ j u, s.tasks j = some u → u.stage.active = true → j = i
  /-- The count bits are the live permits, the closed bit tells that the word is retired. -/
  counts : ∀ a < s.gate.opened, (Admission.count (s.gate.words a)).toNat = s.permits.count a ∧
    (s.gate.words a &&& admissionClosed ≠ 0 ↔ s.gate.slot.openWord ≠ some a)
  /-- A generation that was ready and is so no more neither returns nor grants a permit. -/
  gone : ∀ before after m g c a, labels = before ++ after → Runs Step .start before m →
    Runs Step m after s → m.gate.slot = .ready g c a → (∀ c a, s.gate.slot ≠ .ready g c a) →
    ∀ labels' s', Runs Step s labels' s' →
      (∀ c a, s'.gate.slot ≠ .ready g c a) ∧ .granted g ∉ labels'
  /-- A replacement is installed only into a slot that recovers its generation. -/
  installation : ∀ recovery c gate, s.gate.installReplacement recovery c = (true, gate) →
    ∃ r, s.gate.slot = .recovering recovery r
  /-- After a shutdown has begun the slot is never ready. -/
  shutdown : .shutdownBegan ∈ labels → ∃ r, s.gate.slot = .shuttingDown r
  /-- A waiter returns only without live permits, and sleeps only while one is live or its
  notification is due. -/
  idle : ∀ a s', Step s (.idle a) s' → a ∉ s.permits
  awaited : s.Awaited
  /-- Every connection is answered for. -/
  connections : s.Kept

/-- The slot of a later state is at a later generation, or shuts down. -/
theorem not_ready_of_rank_lt {s : State} {g : ℕ}
    (h : WithTop.some (2 * g) < s.gate.slot.rank) (c a : ℕ) :
    s.gate.slot ≠ .ready g c a := by
  intro heq
  rw [heq] at h
  exact lt_irrefl _ h

/-- A generation that is left behind stays behind. -/
theorem rank_lt_of_left {m s : State} {after : List Action} {g c a : ℕ}
    (hrun : Runs Step m after s) (hready : m.gate.slot = .ready g c a)
    (hleft : ∀ c a, s.gate.slot ≠ .ready g c a) : WithTop.some (2 * g) < s.gate.slot.rank := by
  have hle := rank_le_of_runs hrun
  rw [hready] at hle
  refine lt_of_le_of_ne hle (fun heq => ?_)
  cases hslot : s.gate.slot with
  | ready g' c' a' =>
      rw [hslot] at heq
      have : 2 * g = 2 * g' := WithTop.coe_inj.mp heq
      obtain rfl : g = g' := by omega
      exact hleft c' a' hslot
  | recovering g' r =>
      rw [hslot] at heq
      have : 2 * g = 2 * g' + 1 := WithTop.coe_inj.mp heq
      omega
  | unavailable g' =>
      rw [hslot] at heq
      have : 2 * g = 2 * g' + 1 := WithTop.coe_inj.mp heq
      omega
  | shuttingDown r =>
      rw [hslot] at heq
      exact WithTop.coe_ne_top heq

/-- A permit is granted by a ready slot. -/
theorem Step.granted_slot {s s' : State} {g : ℕ} (h : Step s (.granted g) s') :
    ∃ c a, s.gate.slot = .ready g c a := by
  cases h with
  | grant snapshot =>
      rcases s.transportSnapshot_cases with ⟨g, c, a, w, hslot, hacquired, heq⟩ | ⟨g, hslot, heq⟩ |
        ⟨e, heq⟩ <;> rw [heq] at snapshot
      · obtain ⟨rfl, -⟩ := Prod.mk.inj (Except.ok.inj (Prod.mk.inj snapshot).1)
        exact ⟨c, a, hslot⟩
      · cases (Prod.mk.inj snapshot).1
      · cases (Prod.mk.inj snapshot).1

theorem Step.shutdownBegan_slot {s s' : State} (h : Step s .shutdownBegan s') :
    ∃ r, s'.gate.slot = .shuttingDown r := by
  cases h with
  | requestShutdown =>
      refine ⟨none, ?_⟩
      simp [State.requestShutdown, Gate.takeForResourceShutdown]
  | beginShutdown begun =>
      obtain ⟨-, -, hgate, -⟩ := State.beginShutdown_eq_some begun
      exact ⟨none, by rw [hgate]; rfl⟩

theorem kept_of_runs {s : State} {labels : List Action} (h : Runs Step .start labels s) :
    s.Kept := by
  refine h.invariant (I := fun _ s => s.Kept) (fun c hc => ?_)
    (fun _ _ _ _ hrun hs hstep => hs.step (owned_of_runs hrun) hstep)
  obtain rfl := Nat.lt_one_iff.mp hc
  exact .slot rfl

theorem awaited_of_runs {s : State} {labels : List Action} (h : Runs Step .start labels s) :
    s.Awaited := by
  refine h.invariant (I := fun _ s => s.Awaited) (fun a ha => ?_)
    (fun _ _ _ _ hrun hs hstep => hs.step (counted_of_runs hrun) hstep)
  cases ha with
  | task core word => simp [State.cores, State.start] at core
  | shutdown running stage word => simp [State.start] at running

/-- Transport generations are fenced in every run of attempts, recoveries and shutdowns. -/
theorem transport_generations_fenced {labels : List Action} {s : State}
    (hrun : Runs Step .start labels s) : Fenced labels s where
  increasing := (increasing_of_runs hrun).strict
  current := (increasing_of_runs hrun).current
  retirement g hother := by
    rcases s.retireTransport_cases g with ⟨c, a, hslot, -⟩ | ⟨-, heq⟩
    · exact absurd hslot (hother c a)
    · exact heq
  owner i t hi ha :=
    have howned := owned_of_runs hrun
    ⟨howned.active i _ _ (State.cores_of_task hi) ha, fun j u hj hu =>
      howned.single j i _ _ _ _ (State.cores_of_task hj) (State.cores_of_task hi) hu ha⟩
  counts a ha := by
    have hcounted := counted_of_runs hrun
    have hword := hcounted.word a ha
    have hfew := hcounted.few a
    refine ⟨hcounted.count_eq ha, ?_⟩
    rw [Admission.isClosed_iff]
    split at hword
    · next hopen => simp only [hopen, ne_eq, not_true, iff_false, not_le]; omega
    · next hopen => exact ⟨fun _ => hopen, fun _ => by omega⟩
  gone before after m g c a _ _ hafter hready hleft labels' s' hrun' := by
    have hlt := rank_lt_of_left hafter hready hleft
    refine ⟨not_ready_of_rank_lt (hlt.trans_le (rank_le_of_runs hrun')), fun hgranted => ?_⟩
    obtain ⟨l₁, l₂, rfl⟩ := List.append_of_mem hgranted
    obtain ⟨x, y, hx, hstep, -⟩ := hrun'.split
    obtain ⟨c', a', hslot⟩ := hstep.granted_slot
    exact not_ready_of_rank_lt (hlt.trans_le (rank_le_of_runs hx)) c' a' hslot
  installation recovery c gate h := (Gate.installReplacement_eq_true h).1
  shutdown hbegan := by
    obtain ⟨l₁, l₂, rfl⟩ := List.append_of_mem hbegan
    obtain ⟨x, y, -, hstep, hafter⟩ := hrun.split
    obtain ⟨r, hslot⟩ := hstep.shutdownBegan_slot
    have hle := rank_le_of_runs hafter
    rw [hslot] at hle
    cases hs : s.gate.slot with
    | shuttingDown r => exact ⟨r, rfl⟩
    | _ =>
        rw [hs] at hle
        exact absurd (top_le_iff.mp hle) WithTop.coe_ne_top
  idle a s' hstep := by
    rw [(counted_of_runs hrun).mem_permits_iff, not_not]
    cases hstep with
    | drained running stage retiring polled => exact Waiter.poll_returned polled
    | idled running stage retiring polled => exact Waiter.poll_returned polled
  awaited := awaited_of_runs hrun
  connections := kept_of_runs hrun

/-- The recovery of the first connection, at a stage. -/
def firstRecovery (stage : Stage) : Task := ⟨⟨0, some ⟨0, 0⟩⟩, stage, false, false⟩

/-- An attempt fails and retires the first connection, and a second failure of the same generation
finds it retired already. The recovery sleeps until the attempt is over, closes the connection and
installs the next one. -/
def replaced : List Action :=
  [.granted 0, .retired 0, .retired 0, .progressed, .progressed, .progressed, .released, .notified,
    .progressed, .progressed, .idle 0, .progressed, .progressed, .progressed, .progressed,
    .installed 1, .progressed]

/-- An attempt of the next generation outlives the begin of the shutdown, which waits for it. -/
def shutDown : List Action :=
  [.granted 1, .retired 0, .shutdownBegan, .released, .notified, .progressed, .progressed, .idle 1,
    .stopped, .refused]

theorem transport_generations_fenced_retired_once :
    ∃ s, Runs Step .start (replaced ++ shutDown) s ∧ installs (replaced ++ shutDown) = [1] ∧
      s.gate.slot = .shuttingDown none ∧ s.closeRequested 0 ∧ s.closeRequested 1 ∧
      Fenced (replaced ++ shutDown) s := by
  have hgrant : Step .start (.granted 0) State.start.transportSnapshot.2 :=
    @Step.grant _ _ 0 0 0 rfl
  have hretired := ((Runs.single hgrant).snoc (.retire 0)).snoc (.retire 0)
  have hasleep := ((hretired.snoc
    (@Step.advance _ 0 (firstRecovery .spawned) _ rfl (.begin_ rfl rfl))).snoc
    (@Step.advance _ 0 (firstRecovery (.idling .entering)) _ rfl (.poll rfl rfl rfl))).snoc
    (@Step.advance _ 0 (firstRecovery (.idling (.registered false))) _ rfl (.poll rfl rfl rfl))
  have hnotified := (hasleep.snoc (@Step.release _ 0 (by decide))).snoc
    (@Step.notify _ 0 (by decide))
  have hidle := ((hnotified.snoc
    (@Step.advance _ 0 (firstRecovery (.idling (.asleep true))) _ rfl (.poll rfl rfl rfl))).snoc
    (@Step.advance _ 0 (firstRecovery (.idling .entering)) _ rfl (.poll rfl rfl rfl))).snoc
    (@Step.drained _ 0 (firstRecovery (.idling (.registered false))) _ _ ⟨0, 0⟩ rfl rfl rfl rfl)
  have hclosed := ((hidle.snoc
    (@Step.advance _ 0 (firstRecovery .confirming) _ rfl (.confirmed rfl))).snoc
    (@Step.closing _ 0 (firstRecovery .closing) ⟨0, 0⟩ rfl rfl rfl)).snoc
    (@Step.advance _ 0 (firstRecovery .closing) _ rfl (.closed rfl (by decide)))
  have hreplaced := ((hclosed.snoc
    (@Step.connect _ 0 (firstRecovery .connecting) rfl rfl)).snoc
    (@Step.install _ 0 (firstRecovery (.connected 1)) 1 _ rfl rfl rfl)).snoc
    (@Step.finish _ 0 (firstRecovery .ended) rfl rfl)
  have hshutting := ((hreplaced.snoc
    (@Step.grant _ _ 1 1 1 rfl)).snoc (.retire 0)).snoc
    (.beginShutdown rfl)
  have hreleased := (hshutting.snoc (@Step.release _ 1 (by decide))).snoc
    (@Step.notify _ 1 (by decide))
  have hjoined := hreleased.snoc
    (@Step.joined _ ⟨some ⟨1, 1⟩, .joining (some 0)⟩ _ rfl rfl (by rintro i ⟨⟩; rfl))
  have hstopped := ((hjoined.snoc
    (@Step.poll _ ⟨some ⟨1, 1⟩, .idling .entering⟩ _ _ ⟨1, 1⟩ rfl rfl rfl rfl)).snoc
    (@Step.idled _ ⟨some ⟨1, 1⟩, .idling (.registered false)⟩ _ _ ⟨1, 1⟩ rfl rfl rfl rfl)).snoc
    (@Step.stop _ ⟨some ⟨1, 1⟩, .waiting⟩ rfl)
  have hrun := hstopped.snoc (.refuse rfl)
  exact ⟨_, hrun, rfl, rfl, rfl, rfl, transport_generations_fenced hrun⟩

end Rss.Amqp
