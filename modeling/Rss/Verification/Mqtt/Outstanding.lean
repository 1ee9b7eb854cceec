import Rss.Verification.Mqtt.Publications

/-! # What the driver holds

The driver's table of deliveries, against the receipts that were minted on the connection and what
the client library wrote there. -/

namespace Rss.Mqtt

open Rss.Messaging

/-! ### Histories of a connection -/

/-- What a label makes of the packets of a connection that wait for their acknowledgement. -/
def Label.tally (generation : ℕ) (held : List ℕ) : Label → List ℕ
  | .received _ g pkid => if g = generation then held ++ [pkid] else held
  | .written g pkid _ => if g = generation then held.filter (fun p => p ≠ pkid) else held
  | _ => held

/-- The packets for which a receipt was minted on a connection, which is what `received` shows, and
whose acknowledgement was not written there. -/
def unacknowledged (generation : ℕ) (log : List Label) : List ℕ :=
  log.foldl (Label.tally generation) []

theorem unacknowledged_snoc (generation : ℕ) (log : List Label) (a : Label) :
    unacknowledged generation (log ++ [a]) =
      a.tally generation (unacknowledged generation log) := by
  rw [unacknowledged, List.foldl_append]
  rfl

/-- The label is not about the connection. -/
def Label.Spares (generation : ℕ) (a : Label) : Prop :=
  ∀ held, a.tally generation held = held

/-- The packets in the table. -/
def State.keys (s : State) : List ℕ := s.outstanding.rows.map Prod.fst

/-- The table follows the label of the step. -/
structure Kept (s : State) (a : Label) (s' : State) : Prop where
  generation : s'.generation = s.generation
  keys : s'.keys = a.tally s.generation s.keys
  running : s'.cancelled = false → s.cancelled = false

/-- The generation is retired with its table, or was the last one. -/
def Retired (s s' : State) : Prop :=
  s'.keys = [] ∧ (s'.generation = s.generation + 1 ∨
    s'.generation = s.generation ∧ 2 ^ 64 ≤ s.generation + 1 ∧ s'.cancelled = true)

/-- What a step can do to the table. -/
structure Tracks (s : State) (a : Label) (s' : State) : Prop where
  others : ∀ g, g ≠ s.generation → a.Spares g
  table : Kept s a s' ∨ Retired s s'

section

variable {s s' : State} {a : Label}

/-- A step that leaves the table alone. -/
theorem Tracks.frame (hgeneration : s'.generation = s.generation) (hkeys : s'.keys = s.keys)
    (hrunning : s'.cancelled = false → s.cancelled = false) (ha : ∀ g, a.Spares g) :
    Tracks s a s' := by
  refine ⟨fun g _ => ha g, .inl ⟨hgeneration, ?_, hrunning⟩⟩
  rw [ha, hkeys]

theorem Tracks.retired (h : Retired s s') (ha : ∀ g, a.Spares g) : Tracks s a s' :=
  ⟨fun g _ => ha g, .inr h⟩

theorem retired_retireGeneration (s : State) : Retired s s.retireGeneration := by
  unfold Retired State.retireGeneration State.invalidate
  cases hnext : checkedAdd 64 s.generation 1 with
  | some generation => exact ⟨rfl, .inl (checkedAdd_eq_some.mp hnext).1⟩
  | none =>
      refine ⟨rfl, .inr ⟨rfl, ?_, rfl⟩⟩
      unfold checkedAdd at hnext
      split at hnext
      · cases hnext
      · rename_i hlast
        exact Nat.le_of_not_lt hlast

/-- What follows a retirement leaves its table alone. -/
theorem Retired.of_eq {t : State} (h : Retired s t) (hgeneration : s'.generation = t.generation)
    (hkeys : s'.keys = t.keys) (hcancelled : s'.cancelled = t.cancelled) : Retired s s' := by
  unfold Retired at h ⊢
  rwa [hgeneration, hkeys, hcancelled]

theorem retired_renew (s : State) : Retired s s.renew := by
  have hretired := retired_retireGeneration s
  unfold State.renew
  generalize s.retireGeneration = t at hretired ⊢
  exact hretired.of_eq rfl rfl rfl

theorem retired_lose (s : State) (cause : MqttError) (retryable : Bool) :
    Retired s (s.lose cause retryable) := by
  have hretired := retired_retireGeneration s
  unfold State.lose
  generalize s.retireGeneration = t at hretired ⊢
  cases retryable with
  | true => exact hretired.of_eq rfl rfl rfl
  | false => exact hretired.of_eq rfl rfl rfl

theorem retired_beginShutdown (s : State) : Retired s s.beginShutdown := by
  have hretired := retired_retireGeneration s
  unfold State.beginShutdown
  generalize s.retireGeneration = t at hretired ⊢
  exact hretired.of_eq rfl rfl rfl

theorem retired_finish (s : State) : Retired s s.finish := by
  have hretired : Retired s { s with closing := true }.retireGeneration :=
    retired_retireGeneration { s with closing := true }
  unfold State.finish
  generalize State.retireGeneration { s with closing := true } = t at hretired ⊢
  exact hretired.of_eq rfl rfl rfl

/-! ### Polls -/

theorem observation_spares {fresh : ℕ} {event : State.Event} {g : ℕ} (hg : g ≠ s.generation) :
    (s.observation fresh event).Spares g := by
  intro held
  cases event with
  | publish atLeastOnce pkid =>
      simp only [State.observation]
      split
      · exact if_neg (Ne.symm hg)
      · rfl
  | pubAckWritten pkid => exact if_neg (Ne.symm hg)
  | _ => rfl

/-- An event that ends the connection shows nothing. -/
theorem observation_of_error {fresh : ℕ} {event : State.Event} {error : MqttError}
    (h : s.event fresh event = .error error) (g : ℕ) : (s.observation fresh event).Spares g := by
  cases event with
  | publish atLeastOnce pkid =>
      unfold State.event State.receive at h
      cases atLeastOnce with
      | false => exact fun _ => rfl
      | true =>
          cases hentry : s.outstanding.get? pkid with
          | some entry => simp [hentry] at h
          | none =>
              by_cases hroom : s.maxDeliveries ≤ s.outstanding.rows.length
              · intro held
                simp [State.observation, Nat.not_lt.mpr hroom, Label.tally]
              · simp [hentry, hroom] at h
  | pubAckWritten pkid => cases h
  | _ => exact fun _ => rfl

theorem keys_delete (s : State) (pkid : ℕ) :
    (s.outstanding.delete (fun p => p = pkid)).rows.map Prod.fst =
      s.keys.filter (fun p => p ≠ pkid) := by
  rw [State.keys, List.filter_map]
  simp only [Table.delete, decide_not]
  rfl

theorem acknowledge_keys (s : State) (pkid : ℕ) :
    (s.acknowledge pkid).keys = s.keys.filter (fun p => p ≠ pkid) ∧
      (s.acknowledge pkid).generation = s.generation ∧
      (s.acknowledge pkid).cancelled = s.cancelled := by
  unfold State.acknowledge
  cases s.outstanding.get? pkid with
  | none => exact ⟨keys_delete s pkid, rfl, rfl⟩
  | some entry =>
      cases entry with
      | delivered => exact ⟨keys_delete s pkid, rfl, rfl⟩
      | settling deadline response =>
          by_cases hlate : deadline ≤ s.now
          · simp only [hlate, if_true]
            exact ⟨keys_delete s pkid, rfl, rfl⟩
          · simp only [hlate, if_false]
            exact ⟨keys_delete s pkid, rfl, rfl⟩

/-- The table follows what a poll shows. -/
theorem kept_event {s₁ : State} {fresh : ℕ} {event : State.Event}
    (h : s.event fresh event = .ok s₁) : Kept s (s.observation fresh event) s₁ := by
  cases event with
  | connAck sessionPresent tracked =>
      unfold State.event at h
      by_cases hsubscribes : s.subscribes = true
      · cases tracked with
        | true =>
            simp only [hsubscribes, Bool.not_true, Bool.false_eq_true, if_false, if_true] at h
            cases h
            exact ⟨rfl, rfl, id⟩
        | false => simp [hsubscribes] at h
      · simp only [hsubscribes, Bool.not_false, if_true] at h
        cases h
        exact ⟨rfl, rfl, id⟩
  | publish atLeastOnce pkid =>
      unfold State.event State.receive at h
      cases atLeastOnce with
      | false => cases h
      | true =>
          cases hentry : s.outstanding.get? pkid with
          | some entry =>
              simp only [hentry, Bool.not_true, Bool.false_eq_true, if_false, Option.isSome_some,
                if_true] at h
              cases h
              exact ⟨rfl, by simp [State.observation, hentry, Label.tally], id⟩
          | none =>
              by_cases hroom : s.maxDeliveries ≤ s.outstanding.rows.length
              · simp [hentry, hroom] at h
              · simp only [hentry, hroom, Bool.not_true, Bool.false_eq_true, if_false,
                  Option.isSome_none] at h
                cases h
                refine ⟨rfl, ?_, id⟩
                have hlt := Nat.lt_of_not_le hroom
                simp [State.observation, hentry, hlt, Label.tally, State.keys,
                  Table.rows_insertNew hentry]
  | pubAckReceived reason =>
      unfold State.event at h
      cases h
      by_cases hin : reason = .packetIdentifierInUse
      · simp only [hin, if_true]
        exact ⟨rfl, rfl, id⟩
      · simp only [hin, if_false]
        exact ⟨rfl, rfl, id⟩
  | pubAckWritten pkid =>
      cases h
      obtain ⟨hkeys, hgeneration, hcancelled⟩ := acknowledge_keys s pkid
      refine ⟨hgeneration, ?_, fun hrunning => hcancelled ▸ hrunning⟩
      rw [hkeys]
      exact (if_pos rfl).symm
  | other =>
      cases h
      exact ⟨rfl, rfl, id⟩

theorem tracks_handleEvent (s : State) (fresh : ℕ) (event : State.Event)
    (notice : State.Subscribed) :
    Tracks s (s.observation fresh event) (s.handleEvent fresh event notice) := by
  unfold State.handleEvent
  cases hevent : s.event fresh event with
  | error error => exact .frame rfl rfl id (observation_of_error hevent)
  | ok s₁ =>
      have hkept := kept_event hevent
      change Tracks s _ (s₁.inspect notice)
      refine ⟨fun g hg => observation_spares hg, ?_⟩
      rcases s₁.inspect_cases notice with ⟨connection, subscription, phase, -, heq⟩ | ⟨error, heq⟩
      · rw [heq]
        exact .inl ⟨hkept.generation, hkept.keys, hkept.running⟩
      · rw [heq]
        have hretired := retired_retireGeneration s₁
        rw [Retired, hkept.generation] at hretired
        generalize s₁.retireGeneration = t at hretired ⊢
        exact .inr (@Retired.of_eq s _ t hretired rfl rfl rfl)

/-! ### Steps -/

theorem submitSettlement_eq_ok {generation pkid deadline : ℕ} {accepts : Bool}
    (h : s.submitSettlement generation pkid deadline accepts = .ok ()) :
    generation = s.generation ∧ s.outstanding.get? pkid = some .delivered := by
  unfold State.submitSettlement at h
  split at h
  · cases h
  · split at h
    · cases h
    · split at h
      · cases h
      · split at h
        · cases h
        · rename_i hgeneration _ _ hentry
          exact ⟨not_not.mp hgeneration, not_not.mp hentry⟩

theorem resume_frame (s : State) : s.resume.generation = s.generation ∧ s.resume.keys = s.keys ∧
    s.resume.cancelled = s.cancelled := by
  unfold State.resume
  split <;> exact ⟨rfl, rfl, rfl⟩

/-- A settle command changes a row of the table at most. -/
theorem handleSettle_frame (s : State) (generation pkid deadline response : ℕ)
    (reason : PubAckReason) (accepts : Bool) :
    (s.handleSettle generation pkid reason deadline response accepts).generation = s.generation ∧
      (s.handleSettle generation pkid reason deadline response accepts).keys = s.keys ∧
      (s.handleSettle generation pkid reason deadline response accepts).cancelled =
        s.cancelled := by
  unfold State.handleSettle
  cases hresult : s.submitSettlement generation pkid deadline accepts with
  | error error => exact ⟨rfl, rfl, rfl⟩
  | ok u =>
      have hentry : (s.outstanding.get? pkid).isSome = true := by
        rw [(submitSettlement_eq_ok hresult).2]
        rfl
      refine ⟨rfl, ?_, rfl⟩
      simp only [State.keys, Table.upsert, hentry, if_true, Table.modify, Table.update,
        List.map_map]
      rfl

theorem tracks_settle {generation pkid deadline response : ℕ} {reason : PubAckReason}
    {rest : List Command} (accepts : Bool) :
    Tracks s (s.submission generation pkid reason deadline response accepts)
      ((s.dequeue rest).handleSettle generation pkid reason deadline response accepts).resume := by
  obtain ⟨hgeneration, hkeys, hcancelled⟩ :=
    handleSettle_frame (s.dequeue rest) generation pkid deadline response reason accepts
  obtain ⟨hgeneration', hkeys', hcancelled'⟩ := resume_frame
    ((s.dequeue rest).handleSettle generation pkid reason deadline response accepts)
  refine .frame (hgeneration'.trans hgeneration) (hkeys'.trans hkeys) (fun hrunning => ?_)
    (fun g held => ?_)
  · exact (hcancelled'.trans hcancelled).symm.trans hrunning
  · unfold State.submission
    split <;> rfl

theorem tracks_driverStep (hstep : DriverStep s a s') : Tracks s a s' := by
  have hquiet : ∀ g, Label.quiet.Spares g := fun _ _ => rfl
  cases hstep with
  | park top current => exact .frame rfl rfl id hquiet
  | retire top due => exact .retired (retired_renew s) hquiet
  | wake parked running permit => exact .frame rfl rfl id hquiet
  | timer parked running wait => exact .retired (retired_renew s) hquiet
  | poll parked running unused held notice => exact tracks_handleEvent _ _ _ _
  | lose parked running cause retryable => exact .retired (retired_lose s cause retryable) hquiet
  | retry waiting running => exact .frame rfl rfl id hquiet
  | stop awaits cancelled => exact .frame rfl rfl id hquiet
  | settle awaits running queue accepts => exact tracks_settle accepts
  | @take k deadline rest awaits running queue =>
      by_cases hqueued : (s.dequeue rest).stageOf k = some .queued
      · rw [takePublish_queued hqueued]
        exact .frame rfl rfl id hquiet
      · rw [takePublish_gone hqueued]
        unfold State.resume
        split
        · exact .frame rfl rfl id hquiet
        · exact .frame rfl rfl id hquiet
  | checkOpen publishing =>
      unfold State.checkPublish
      split <;> exact .frame rfl rfl id hquiet
  | checkDeadline publishing =>
      unfold State.checkPublish
      split <;> exact .frame rfl rfl id hquiet
  | @hand k deadline reconnecting publishing answer =>
      refine .frame rfl rfl id fun g held => ?_
      cases answer <;> rfl
  | @shutdown deadline rest awaits running queue =>
      exact .retired (retired_beginShutdown (s.dequeue rest)) hquiet
  | farewell closing result =>
      cases result <;> exact .frame rfl rfl id hquiet
  | finish gone => exact .retired (retired_finish s) hquiet

theorem tracks_step (hstep : Step s a s') : Tracks s a s' := by
  have hquiet : ∀ g, Label.quiet.Spares g := fun _ _ => rfl
  cases hstep with
  | settlement step => cases step <;> exact .frame rfl rfl id (fun _ _ => rfl)
  | call step => cases step <;> exact .frame rfl rfl id (fun _ _ => rfl)
  | driver step => exact tracks_driverStep step
  | owner step =>
      cases step with
      | cancel closing => exact .frame rfl rfl (fun h => by cases h) hquiet
      | _ => exact .frame rfl rfl id hquiet

/-! ### Runs -/

/-- The table against the log. -/
structure Tallied (log : List Label) (s : State) : Prop where
  ahead : ∀ g, s.generation < g → unacknowledged g log = []
  keys : s.cancelled = false ∨ s.generation + 1 < 2 ^ 64 →
    s.keys = unacknowledged s.generation log

variable {log : List Label}

theorem Tallied.step (h : Tallied log s) (hstep : Step s a s') : Tallied (log ++ [a]) s' := by
  obtain ⟨hothers, hkept | ⟨hempty, hnext | ⟨hlast, hfull, hcancelled⟩⟩⟩ := tracks_step hstep
  · constructor
    · intro g hg
      rw [hkept.generation] at hg
      rw [unacknowledged_snoc, hothers g hg.ne', h.ahead g hg]
    · intro hs'
      rw [hkept.generation] at hs'
      rw [hkept.keys, hkept.generation, unacknowledged_snoc,
        h.keys (hs'.imp_left hkept.running)]
  · constructor
    · intro g hg
      have hlt : s.generation < g := by omega
      rw [unacknowledged_snoc, hothers g hlt.ne', h.ahead g hlt]
    · intro _
      have hlt : s.generation < s'.generation := by omega
      rw [hempty, unacknowledged_snoc, hothers _ hlt.ne', h.ahead _ hlt]
  · constructor
    · intro g hg
      rw [hlast] at hg
      rw [unacknowledged_snoc, hothers g hg.ne', h.ahead g hg]
    · rintro (hrunning | hmore)
      · cases hcancelled.symm.trans hrunning
      · omega

/-- In every run, the driver's table holds the packets for which a receipt was minted on the current
connection and whose acknowledgement was not written there, each once, until the generations are
used up and the driver is cancelled. The order is only that of the listing. -/
theorem outstanding_exact {maxDeliveries room : ℕ} {subscribes : Bool}
    (h : Runs Step (State.start maxDeliveries subscribes room) log s)
    (hs : s.cancelled = false ∨ s.generation + 1 < 2 ^ 64) :
    s.outstanding.rows.map Prod.fst = unacknowledged s.generation log ∧
      (unacknowledged s.generation log).Nodup := by
  have htallied : Tallied log s := h.invariant ⟨fun _ _ => rfl, fun _ => rfl⟩
    (fun _ _ _ _ _ htallied hstep => htallied.step hstep)
  have hkeys : s.outstanding.rows.map Prod.fst = unacknowledged s.generation log :=
    htallied.keys hs
  exact ⟨hkeys, hkeys ▸ s.outstanding.nodup⟩

end

/-- Two deliveries, one of them sent again. -/
def resentRun : List Label :=
  [.quiet, .received 0 1 7, .quiet, .quiet, .quiet, .received 1 1 9]

theorem outstanding_exact_resent : ∃ s, Runs Step (State.start 2 false 1) resentRun s ∧
    s.outstanding.rows.map Prod.fst = unacknowledged s.generation resentRun ∧
      (unacknowledged s.generation resentRun).Nodup := by
  have h₁ := Runs.single (Step.driver (.park (s := State.start 2 false 1) rfl (by decide)))
  have h₂ := h₁.snoc (.driver (@DriverStep.poll _ 0 (.publish true 7) rfl rfl rfl
    (fun _ h => by cases h) .pending))
  have h₃ := h₂.snoc (.driver (.park rfl (by decide)))
  have h₄ := h₃.snoc (.driver (@DriverStep.poll _ 1 (.publish true 7) rfl rfl rfl
    (fun _ h => by cases h) .pending))
  have h₅ := h₄.snoc (.driver (.park rfl (by decide)))
  have h₆ := h₅.snoc (.driver (@DriverStep.poll _ 1 (.publish true 9) rfl rfl rfl
    (fun _ h => by cases h) .pending))
  exact ⟨_, h₆, outstanding_exact h₆ (.inl rfl)⟩

end Rss.Mqtt
