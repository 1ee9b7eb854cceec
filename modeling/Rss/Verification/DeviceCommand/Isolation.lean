import Rss.Verification.DeviceCommand.Authority

/-! # Isolation over whole runs

The properties of the store along every run of committed transactions, from the installation
of its tables on. -/

namespace Rss.DeviceCommand

open Rss.Sql

section Runs

variable {fingerprint : Message → Digest} {Sent : Message → Prop}

/-- The tables as the migration leaves them, in a database whose outbox may be in use. -/
structure State.Installed (fingerprint : Message → Digest) (Sent : Message → Prop) (s : State) :
    Prop where
  authorities : s.db.authorities = .empty
  commands : s.db.commands = .empty
  sent : ∀ key row, s.db.outbox.get? key = some row →
    ∃ message, Sent message ∧ row.domain = message.domain ∧ row.fingerprint = fingerprint message

theorem State.Installed.inv {s : State} (h : s.Installed fingerprint Sent) :
    s.db.Inv fingerprint Sent s.now := by
  refine ⟨?_, ?_, h.sent⟩
  · intro key r hr
    rw [h.commands] at hr
    cases hr
  · intro key r hr
    rw [h.commands] at hr
    cases hr

/-- Messages of other components leave the commands sound. -/
theorem OutboxGrows.inv {s : State} {outbox : Table (Uuid × String) OutboxRow} {elapsed : ℕ}
    (hi : s.db.Inv fingerprint Sent s.now)
    (h : OutboxGrows fingerprint Sent s.db.outbox outbox) :
    Db.Inv fingerprint Sent { s.db with outbox } (s.now + elapsed) := by
  refine ⟨?_, hi.known, ?_⟩
  · intro key r hr
    obtain ⟨hv, hp, hcur, sent, hs, hd, hf⟩ := hi.sound key r hr
    obtain ⟨status, hs'⟩ := h.kept _ _ hs
    exact ⟨hv, hp.mono (Int.le_add_of_nonneg_right (Int.natCast_nonneg _)), hcur, _, hs', hd, hf⟩
  · intro key row hrow
    cases hold : s.db.outbox.get? key with
    | none => exact h.sent key row hrow hold
    | some old =>
        obtain ⟨status, hs⟩ := h.kept key old hold
        cases hrow.symm.trans hs
        exact hi.sent key old hold

theorem Step.inv {s s' : State} {a : Action} (hdistinct : Distinct fingerprint Sent)
    (hi : s.db.Inv fingerprint Sent s.now) (h : Step fingerprint Sent s a s') :
    s'.db.Inv fingerprint Sent s'.now := by
  cases h with
  | @commit session steps pages call tx reply sent execute =>
      have hbegin : (s.begin session steps).db.Inv fingerprint Sent
          (s.begin session steps).clock.now := hi
      exact (Tx.execute_does hbegin.sound execute).inv hdistinct hbegin sent
  | other elapsed grows => exact grows.inv hi

theorem inv_of_runs {s₀ s : State} {steps : List Action} (hdistinct : Distinct fingerprint Sent)
    (h₀ : s₀.Installed fingerprint Sent) (h : Runs (Step fingerprint Sent) s₀ steps s) :
    s.db.Inv fingerprint Sent s.now :=
  h.invariant (I := fun _ s => s.db.Inv fingerprint Sent s.now) h₀.inv
    (fun _ _ _ _ _ hi hstep => hstep.inv hdistinct hi)

/-! ### Authority -/

/-- Every active command carries its device's current coordinate. -/
def Db.ActiveCurrent (db : Db) : Prop :=
  ∀ key r, db.commands.get? key = some r → r.status.isTerminal = false →
    db.authorities.get? (key.1, r.device) = some r.coordinate

theorem Db.Inv.activeCurrent {db : Db} {now : ℤ} (h : db.Inv fingerprint Sent now) :
    db.ActiveCurrent := by
  intro key r hr hactive
  have hsound := h.sound key r hr
  apply hsound.current
  have hterm := hsound.valid.terminal_iff
  rw [show (r.record key).status.isTerminal = false from hactive] at hterm
  simpa [Row.record] using hterm.symm

theorem Coordinate.Supersedes.trans {a b c : Coordinate} (h : a.Supersedes b)
    (h' : b.Supersedes c) : a.Supersedes c :=
  ⟨h'.1.trans h.1, h'.2.trans h.2⟩

/-- Every authority of the first state is kept or superseded in the second. -/
def Db.AuthorityAdvances (db db' : Db) : Prop :=
  ∀ key c, db.authorities.get? key = some c →
    ∃ c', db'.authorities.get? key = some c' ∧ (c' = c ∨ c'.Supersedes c)

theorem Db.AuthorityAdvances.trans {db db' db'' : Db} (h : db.AuthorityAdvances db')
    (h' : db'.AuthorityAdvances db'') : db.AuthorityAdvances db'' := by
  intro key c hc
  obtain ⟨c', hc', hle⟩ := h key c hc
  obtain ⟨c'', hc'', hle'⟩ := h' key c' hc'
  refine ⟨c'', hc'', ?_⟩
  rcases hle with rfl | hle
  · exact hle'
  · rcases hle' with rfl | hle'
    · exact .inr hle
    · exact .inr (hle'.trans hle)

theorem Step.authority {s s' : State} {a : Action} (hi : s.db.Inv fingerprint Sent s.now)
    (h : Step fingerprint Sent s a s') : s.db.AuthorityAdvances s'.db := by
  cases h with
  | @commit session steps pages call tx reply sent execute =>
      have hdoes := @Tx.execute_does fingerprint call (s.begin session steps) tx pages reply
        hi.sound execute
      exact fun key c hc => hdoes.authority hc
  | other elapsed grows => exact fun key c hc => ⟨c, hc, .inl rfl⟩

theorem authority_of_runs {s s' : State} {steps : List Action}
    (hdistinct : Distinct fingerprint Sent) (hi : s.db.Inv fingerprint Sent s.now)
    (h : Runs (Step fingerprint Sent) s steps s') : s.db.AuthorityAdvances s'.db := by
  have hboth : s'.db.Inv fingerprint Sent s'.now ∧ s.db.AuthorityAdvances s'.db := by
    refine h.invariant (I := fun _ m => m.db.Inv fingerprint Sent m.now ∧
      s.db.AuthorityAdvances m.db) ⟨hi, fun key c hc => ⟨c, hc, .inl rfl⟩⟩ ?_
    intro _ m a m' _ ih hstep
    exact ⟨hstep.inv hdistinct ih.1, ih.2.trans (hstep.authority ih.1)⟩
  exact hboth.2

/-! ### The loop of `advance` -/

/-- From this state an authority change ends: with more pages than active commands the call
returns, every active command was superseded by exactly one statement, none stays active and
the new authority holds. -/
def State.AdvanceEnds (fingerprint : Message → Digest) (s : State) : Prop :=
  ∀ session steps scope expected next pages, session.tenant = scope.tenant →
    s.db.authorities.get? (scope.tenant, scope.device) = some expected →
    next.Supersedes expected → (s.db.active scope).length < pages →
    ∃ tx, ∃ keys : List (Uuid × CommandId), (Call.advance scope expected next).execute fingerprint pages
        (s.begin session steps) = some (.ok (tx, .done)) ∧
      keys.Nodup ∧ (∀ key, key ∈ keys ↔ key ∈ s.db.active scope) ∧
      tx.writes = keys.map (fun key => .saved key .superseded) ∧
      (∀ key ∈ keys, ∃ r, tx.db.commands.get? key = some r ∧ r.status = .superseded) ∧
      tx.db.active scope = [] ∧
      tx.db.authorities.get? (scope.tenant, scope.device) = some next

theorem Db.Inv.advanceEnds {s : State} (hi : s.db.Inv fingerprint Sent s.now) :
    s.AdvanceEnds fingerprint := by
  intro session steps scope expected next pages htenant hcurrent hnext hpages
  have hs : (s.begin session steps).SoundAt (s.begin session steps).db.authorities.get? := hi.sound
  obtain ⟨keys, tx, hrun, hsup, hperm, hempty⟩ := Tx.advance_ends hs htenant hcurrent hnext hpages
  refine ⟨tx, keys, ?_, ?_, ?_, ?_, hsup.closed, hempty, ?_⟩
  · simp only [Call.execute, hrun, Option.map_some]
    rfl
  · exact hperm.nodup_iff.mpr (Db.active_nodup _ _)
  · exact fun key => hperm.mem_iff
  · rw [hsup.writes]
    rfl
  · rw [hsup.moves.authorities]
    exact Table.get?_modify_const hcurrent next

/-! ### Recovery -/

/-- Recovery from this state never supersedes a command and never reports an impossible
snapshot, neither at one of its rows nor as a whole. -/
structure State.RecoveryRegular (s : State) : Prop where
  branches : ∀ session steps scope current row,
    (s.begin session steps).authority scope = .ok current →
    ((∃ after limit rows, (s.begin session steps).page scope after limit = .ok rows ∧ row ∈ rows) ∨
      ∃ id, (s.begin session steps).read scope id = .ok (some row)) →
    ∀ tx : Tx, s.now ≤ tx.clock.now →
      (row.command.status.isTerminal = false →
        ∀ tx' time, tx.recoveryEvent current row ≠ .ok (tx', .supersede, time)) ∧
      tx.recoverStored current row ≠ .error .invalidSnapshot
  recover : ∀ session steps scope limit after,
    (s.begin session steps).recover scope limit after ≠ .error .invalidSnapshot
  recoverExact : ∀ session steps scope id,
    (s.begin session steps).recoverExact scope id ≠ .error .invalidSnapshot

/-- An active command under a sound device is under the device's authority. -/
theorem Tx.Holds.current {tx : Tx} {row : Stored} {current : Coordinate} {scope : Scope}
    (hs : tx.SoundAt tx.db.authorities.get?) (hold : tx.Holds row)
    (hscope : row.command.spec.scope = scope)
    (hcurrent : tx.db.authorities.get? (scope.tenant, scope.device) = some current)
    (hactive : row.command.status.isTerminal = false) : current = row.command.spec.coordinate := by
  obtain ⟨r, hr, hdecode⟩ := hold
  have hrec := (decode_eq_ok.mp hdecode).1
  have hnone : r.terminalAt = none := by
    have hterm := row.command.record_valid.terminal_iff
    rw [show row.command.record.status.isTerminal = false from hactive, hrec] at hterm
    simpa [Row.record] using hterm.symm
  have hkey : (row.key.1, r.device) = (scope.tenant, scope.device) := by
    rw [← hscope, Command.spec, hrec]
    rfl
  have hauth := (hs _ r hr).current hnone
  rw [hkey, hcurrent] at hauth
  rw [Option.some.inj hauth, Command.spec, hrec]
  rfl

theorem Db.Inv.recoveryRegular {s : State} (hi : s.db.Inv fingerprint Sent s.now) :
    s.RecoveryRegular := by
  have hs : ∀ session steps,
      (s.begin session steps).SoundAt (s.begin session steps).db.authorities.get? :=
    fun _ _ => hi.sound
  refine ⟨?_, ?_, ?_⟩
  · intro session steps scope current row hauth hread tx hle
    obtain ⟨hscope, hcurrent⟩ := Tx.authority_eq_ok hauth
    have hrow : (s.begin session steps).Holds row ∧ row.command.spec.scope = scope := by
      rcases hread with ⟨after, limit, rows, hpage, hmem⟩ | ⟨id, hread⟩
      · have hof := Tx.PageOf.of_page (hs session steps) hscope hpage
        exact ⟨hof.holds row hmem, hof.scope row hmem⟩
      · exact ⟨(Tx.read_some hread).1, (Tx.read_some hread).2.1⟩
    have hcur := hrow.1.current (hs session steps) hrow.2 hcurrent
    refine ⟨fun hactive tx' time => Tx.recoveryEvent_ne_supersede (hcur hactive), ?_⟩
    exact Tx.recoverStored_ne_invalidSnapshot hcur ((hrow.1.past (hs session steps)).mono hle)
  · intro session steps scope limit after h
    rcases bind_eq_error.mp h with h | ⟨current, hauth, h⟩
    · exact Tx.authority_ne_invalidSnapshot h
    · obtain ⟨hscope, hcurrent⟩ := Tx.authority_eq_ok hauth
      obtain ⟨rows, hrows, hof⟩ := Tx.page_of_sound (hs session steps) hscope after limit
      rw [hrows, ok_bind] at h
      rcases bind_eq_error.mp h with h | ⟨⟨tx, cs⟩, -, h⟩
      · refine Tx.recoverRows_ne_invalidSnapshot (hs session steps) hof.holds hof.nodup ?_ h
        intro row hmem
        exact (hof.holds row hmem).current (hs session steps) (hof.scope row hmem) hcurrent
      · cases h
  · intro session steps scope id h
    rcases bind_eq_error.mp h with h | ⟨current, hauth, h⟩
    · exact Tx.authority_ne_invalidSnapshot h
    · obtain ⟨hscope, hcurrent⟩ := Tx.authority_eq_ok hauth
      rcases bind_eq_error.mp h with h | ⟨found, hread, h⟩
      · exact Tx.read_ne_invalidSnapshot (hs session steps) h
      · cases found with
        | none => cases h
        | some row =>
            obtain ⟨hold, hrow, -⟩ := Tx.read_some hread
            have hcur := hold.current (hs session steps) hrow hcurrent
            rcases bind_eq_error.mp h with h | ⟨⟨tx, c⟩, -, h⟩
            · exact Tx.recoverStored_ne_invalidSnapshot hcur (hold.past (hs session steps)) h
            · cases h

/-! ### Enqueued commands -/

def Write.enqueuedId : Write → Option (Uuid × CommandId)
  | .enqueued key _ _ => some key
  | _ => none

/-- Tenant and id of the message an enqueued command is sent with, and its fingerprint. -/
def Write.enqueuedMessage : Write → Option ((Uuid × String) × Digest)
  | .enqueued key messageId fingerprint => some ((key.1, messageId), fingerprint)
  | _ => none

def Write.appendedMessage : Write → Option ((Uuid × String) × Digest)
  | .appended key fingerprint => some (key, fingerprint)
  | _ => none

def Action.writes : Action → List Write
  | .committed _ _ _ writes => writes
  | .other => []

/-- Each id is enqueued at most once and each message sent at most once, and a transaction
appends to the outbox exactly the messages of the commands it enqueues. -/
structure EnqueuedOnce (steps : List Action) : Prop where
  ids : ((steps.flatMap Action.writes).filterMap Write.enqueuedId).Nodup
  messages :
    (((steps.flatMap Action.writes).filterMap Write.appendedMessage).map Prod.fst).Nodup
  paired : ∀ a ∈ steps, a.writes.filterMap Write.appendedMessage =
    a.writes.filterMap Write.enqueuedMessage

/-- A queue call that was committed once returns the stored command and changes nothing. -/
def State.Replays (fingerprint : Message → Digest) (s : State) (steps : List Action) : Prop :=
  ∀ session spec message reply writes,
    .committed session (.queue spec message) reply writes ∈ steps →
    ∀ session' clock pages, session'.tenant = spec.scope.tenant →
      ∃ c : Command, c.spec = spec ∧
        (s.db.commands.get? (spec.scope.tenant, spec.id)).map
          (Row.record (spec.scope.tenant, spec.id)) = some c.record ∧
        (Call.queue spec message).execute fingerprint pages (s.begin session' clock) =
          some (.ok (s.begin session' clock, .command c))

/-- The row holds the command of the specification, sent with the message. -/
structure Row.Carries (fingerprint : Message → Digest) (spec : CommandSpec) (message : Message)
    (r : Row) : Prop where
  tenant : message.tenant = spec.scope.tenant
  spec : (r.record (spec.scope.tenant, spec.id)).spec = spec
  messageId : r.messageId = message.id
  fingerprint : r.fingerprint = fingerprint message
  domain : r.domain = message.domain

theorem Row.Carries.of_identity {spec : CommandSpec} {message : Message} {r r' : Row}
    (h : r.Carries fingerprint spec message) (hid : r'.identity = r.identity) :
    r'.Carries fingerprint spec message := by
  simp only [Row.identity, Prod.mk.injEq] at hid
  obtain ⟨hdev, hcoord, hexp, hdead, -, hm, hf, hd⟩ := hid
  refine ⟨h.tenant, ?_, hm.trans h.messageId, hf.trans h.fingerprint, hd.trans h.domain⟩
  have hspec := h.spec
  simp only [Row.record] at hspec ⊢
  rw [hdev, hcoord, hexp, hdead]
  exact hspec

/-- What the statements issued so far left in the tables. -/
structure Logged (fingerprint : Message → Digest) (steps : List Action) (db : Db) : Prop where
  once : EnqueuedOnce steps
  ids : ∀ key ∈ (steps.flatMap Action.writes).filterMap Write.enqueuedId,
    (db.commands.get? key).isSome
  messages : ∀ key ∈ ((steps.flatMap Action.writes).filterMap Write.appendedMessage).map Prod.fst,
    ∃ id r, db.commands.get? (key.1, id) = some r ∧ r.messageId = key.2
  queued : ∀ session spec message reply writes,
    .committed session (.queue spec message) reply writes ∈ steps →
    ∃ r, db.commands.get? (spec.scope.tenant, spec.id) = some r ∧ r.Carries fingerprint spec message

theorem filterMap_writes_snoc {β : Type} (f : Write → Option β) (steps : List Action) (a : Action) :
    ((steps ++ [a]).flatMap Action.writes).filterMap f =
      (steps.flatMap Action.writes).filterMap f ++ a.writes.filterMap f := by
  simp [List.flatMap_append]

theorem logged_nil (db : Db) : Logged fingerprint [] db :=
  ⟨⟨by simp, by simp, by simp⟩, by simp, by simp, by simp⟩

/-- A step that sends nothing and keeps the rows keeps the log. -/
theorem Logged.quiet {steps : List Action} {a : Action} {db db' : Db}
    (h : Logged fingerprint steps db)
    (hkept : ∀ key r, db.commands.get? key = some r →
      ∃ r', db'.commands.get? key = some r' ∧ r'.identity = r.identity)
    (hids : a.writes.filterMap Write.enqueuedId = [])
    (henqueued : a.writes.filterMap Write.enqueuedMessage = [])
    (hsent : a.writes.filterMap Write.appendedMessage = [])
    (hqueue : ∀ session spec message reply writes,
      a = .committed session (.queue spec message) reply writes →
      ∃ r, db.commands.get? (spec.scope.tenant, spec.id) = some r ∧
        r.Carries fingerprint spec message) :
    Logged fingerprint (steps ++ [a]) db' := by
  have hflat : ∀ {β : Type} (f : Write → Option β), a.writes.filterMap f = [] →
      ((steps ++ [a]).flatMap Action.writes).filterMap f =
        (steps.flatMap Action.writes).filterMap f := by
    intro β f hf
    rw [filterMap_writes_snoc, hf, List.append_nil]
  refine ⟨⟨?_, ?_, ?_⟩, ?_, ?_, ?_⟩
  · rw [hflat _ hids]
    exact h.once.ids
  · rw [hflat _ hsent]
    exact h.once.messages
  · intro b hb
    rcases List.mem_append.mp hb with hb | hb
    · exact h.once.paired b hb
    · rw [List.mem_singleton.mp hb, hsent, henqueued]
  · intro key hkey
    rw [hflat _ hids] at hkey
    obtain ⟨r, hr⟩ := Option.isSome_iff_exists.mp (h.ids key hkey)
    obtain ⟨r', hr', -⟩ := hkept key r hr
    exact Option.isSome_iff_exists.mpr ⟨r', hr'⟩
  · intro key hkey
    rw [hflat _ hsent] at hkey
    obtain ⟨id, r, hr, hid⟩ := h.messages key hkey
    obtain ⟨r', hr', hsame⟩ := hkept _ r hr
    simp only [Row.identity, Prod.mk.injEq] at hsame
    exact ⟨id, r', hr', hsame.2.2.2.2.2.1.trans hid⟩
  · intro session spec message reply writes hmem
    have hrow : ∃ r, db.commands.get? (spec.scope.tenant, spec.id) = some r ∧
        r.Carries fingerprint spec message := by
      rcases List.mem_append.mp hmem with hmem | hmem
      · exact h.queued session spec message reply writes hmem
      · exact hqueue session spec message reply writes (List.mem_singleton.mp hmem).symm
    obtain ⟨r, hr, hcarries⟩ := hrow
    obtain ⟨r', hr', hsame⟩ := hkept _ r hr
    exact ⟨r', hr', hcarries.of_identity hsame⟩

/-- Queueing a new command adds one id and one message to the log. -/
theorem Logged.queue {steps : List Action} {session : Session} {clock : ℕ → ℕ} {reply : Reply}
    {spec : CommandSpec} {message : Message} {s : State} {tx : Tx}
    (h : Logged fingerprint steps s.db)
    (hq : (s.begin session clock).Queues fingerprint spec message tx) :
    Logged fingerprint
      (steps ++ [.committed session (.queue spec message) reply tx.writes]) tx.db := by
  obtain ⟨r, hc, hspec, -, -, hid, hfp, hdomain⟩ := hq.commands
  have hwrites : tx.writes = [.enqueued (spec.scope.tenant, spec.id) message.id (fingerprint message),
      .appended (message.tenant, message.id) (fingerprint message)] := by
    rw [hq.writes]
    rfl
  have hnew : tx.db.commands.get? (spec.scope.tenant, spec.id) = some r := by
    rw [hc, Table.get?_insertNew_self, hq.fresh]
    rfl
  have hkept : ∀ key x, s.db.commands.get? key = some x → tx.db.commands.get? key = some x := by
    intro key x hx
    have hne : key ≠ (spec.scope.tenant, spec.id) := by
      rintro rfl
      rw [show s.db.commands.get? _ = none from hq.fresh] at hx
      cases hx
    rw [hc, Table.get?_insertNew, if_neg hne]
    exact hx
  have hids : tx.writes.filterMap Write.enqueuedId = [(spec.scope.tenant, spec.id)] := by
    rw [hwrites]
    rfl
  have hsent : tx.writes.filterMap Write.appendedMessage =
      [((message.tenant, message.id), fingerprint message)] := by
    rw [hwrites]
    rfl
  refine ⟨⟨?_, ?_, ?_⟩, ?_, ?_, ?_⟩
  · rw [filterMap_writes_snoc, Action.writes, hids, ← List.concat_eq_append]
    refine h.once.ids.concat (fun hmem => ?_)
    have := h.ids _ hmem
    rw [show s.db.commands.get? _ = none from hq.fresh] at this
    cases this
  · rw [filterMap_writes_snoc, Action.writes, hsent, List.map_append, List.map_singleton,
      ← List.concat_eq_append]
    refine h.once.messages.concat (fun hmem => ?_)
    obtain ⟨id, x, hx, hxid⟩ := h.messages _ hmem
    exact hq.unsent _ x hx hq.tenant hxid
  · intro a ha
    rcases List.mem_append.mp ha with ha | ha
    · exact h.once.paired a ha
    · cases List.mem_singleton.mp ha
      rw [Action.writes, hsent, hwrites, hq.tenant]
      rfl
  · intro key hkey
    rw [filterMap_writes_snoc, Action.writes, hids] at hkey
    rcases List.mem_append.mp hkey with hkey | hkey
    · obtain ⟨x, hx⟩ := Option.isSome_iff_exists.mp (h.ids key hkey)
      exact Option.isSome_iff_exists.mpr ⟨x, hkept key x hx⟩
    · rw [List.mem_singleton.mp hkey, hnew]
      rfl
  · intro key hkey
    rw [filterMap_writes_snoc, Action.writes, hsent, List.map_append] at hkey
    rcases List.mem_append.mp hkey with hkey | hkey
    · obtain ⟨id, x, hx, hxid⟩ := h.messages key hkey
      exact ⟨id, x, hkept _ x hx, hxid⟩
    · cases List.mem_singleton.mp hkey
      exact ⟨spec.id, r, hq.tenant ▸ hnew, hid⟩
  · intro session' spec' message' reply' writes hmem
    rcases List.mem_append.mp hmem with hmem | hmem
    · obtain ⟨x, hx, hcarries⟩ := h.queued session' spec' message' reply' writes hmem
      exact ⟨x, hkept _ x hx, hcarries⟩
    · cases List.mem_singleton.mp hmem
      exact ⟨r, hnew, hq.tenant, hspec, hid, hfp, hdomain⟩

/-- Without queueing, the statements of a call only save commands. -/
theorem Tx.Does.saves {call : Call} {s : State} {session : Session} {clock : ℕ → ℕ} {tx : Tx}
    (h : (s.begin session clock).Does fingerprint call tx)
    (hcall : ∀ spec message, call ≠ .queue spec message) :
    ∀ w ∈ tx.writes, ∃ key status, w = .saved key status := by
  have hmoves : ∀ {tx₀ : Tx}, tx₀.Moves tx → tx₀.writes = [] →
      ∀ w ∈ tx.writes, ∃ key status, w = .saved key status := by
    intro tx₀ hm hnil
    obtain ⟨ws, hws, hsaved⟩ := hm.writes
    rw [hnil, List.nil_append] at hws
    exact hws ▸ hsaved
  cases h with
  | moved h => exact hmoves h rfl
  | initialized s' coordinate h =>
      subst h
      intro w hw
      cases hw
  | advanced s' expected next keys _ _ closes _ _ => exact hmoves closes.moves rfl
  | queued spec message he _ => exact absurd he (hcall spec message)

theorem filterMap_saved {β : Type} {f : Write → Option β} {ws : List Write}
    (hf : ∀ key status, f (.saved key status) = none)
    (h : ∀ w ∈ ws, ∃ key status, w = .saved key status) : ws.filterMap f = [] := by
  refine List.filterMap_eq_nil_iff.mpr (fun w hw => ?_)
  obtain ⟨key, status, rfl⟩ := h w hw
  exact hf key status

theorem Logged.step {steps : List Action} {s s' : State} {a : Action}
    (hi : s.db.Inv fingerprint Sent s.now) (h : Logged fingerprint steps s.db)
    (hstep : Step fingerprint Sent s a s') : Logged fingerprint (steps ++ [a]) s'.db := by
  cases hstep with
  | other elapsed grows =>
      exact h.quiet (fun key r hr => ⟨r, hr, rfl⟩) rfl rfl rfl (fun _ _ _ _ _ he => by cases he)
  | @commit session clock pages call tx reply sent execute =>
      have hdoes := @Tx.execute_does fingerprint call (s.begin session clock) tx pages reply
        hi.sound execute
      by_cases hqueue : ∃ spec message, call = .queue spec message
      · obtain ⟨spec, message, rfl⟩ := hqueue
        obtain ⟨⟨tx₁, c⟩, hop, hret⟩ := bind_eq_ok.mp (Option.some.inj execute)
        cases hret
        obtain ⟨hspec, htenant, ⟨row, rfl, ⟨r, hr, hdecode⟩, rfl, hid, hfp, hdomain⟩ | hq⟩ :=
          Tx.queue_eq_ok hop
        · -- a replayed call finds its own row
          refine h.quiet (fun key r hr => ⟨r, hr, rfl⟩) rfl rfl rfl ?_
          intro session' spec' message' reply' writes he
          cases he
          obtain ⟨hrec, hid', hfp', hdomain'⟩ := decode_eq_ok.mp hdecode
          have hkey : row.key = (spec.scope.tenant, spec.id) := by rw [Stored.key, hspec]
          refine ⟨r, hkey ▸ hr, htenant, ?_, hid'.symm.trans hid, hfp'.symm.trans hfp,
            hdomain'.symm.trans hdomain⟩
          rw [← hkey, ← hrec]
          exact hspec
        · exact h.queue hq
      · push Not at hqueue
        have hsaves := hdoes.saves hqueue
        refine h.quiet (fun key r hr => hdoes.kept hr) (filterMap_saved (fun _ _ => rfl) hsaves)
          (filterMap_saved (fun _ _ => rfl) hsaves) (filterMap_saved (fun _ _ => rfl) hsaves) ?_
        intro session' spec' message' reply' writes he
        cases he
        exact absurd rfl (hqueue spec' message')

theorem logged_of_runs {s₀ s : State} {steps : List Action} (hdistinct : Distinct fingerprint Sent)
    (h₀ : s₀.Installed fingerprint Sent) (h : Runs (Step fingerprint Sent) s₀ steps s) :
    Logged fingerprint steps s.db :=
  h.invariant (I := fun steps s => Logged fingerprint steps s.db) (logged_nil _)
    (fun _ _ _ _ hrun ih hstep => ih.step (inv_of_runs hdistinct h₀ hrun) hstep)

/-- A row that carries the specification and the message answers the call. -/
theorem Logged.replays {steps : List Action} {s : State} (hi : s.db.Inv fingerprint Sent s.now)
    (h : Logged fingerprint steps s.db) : s.Replays fingerprint steps := by
  intro session spec message reply writes hmem session' clock pages htenant
  obtain ⟨r, hr, hc⟩ := h.queued session spec message reply writes hmem
  obtain ⟨hvalid, -, -, sent, hsent, hdomain, hfp⟩ := hi.sound _ r hr
  have hdev : r.device = spec.scope.device := congrArg (fun s => s.scope.device) hc.spec
  obtain ⟨current, hcurrent⟩ := Option.isSome_iff_exists.mp (hi.known _ r hr)
  rw [hdev] at hcurrent
  refine ⟨⟨r.record (spec.scope.tenant, spec.id), validate_eq_ok.mpr hvalid⟩, hc.spec,
    by rw [hr]; rfl, ?_⟩
  have hauth : (s.begin session' clock).authority spec.scope = .ok current := by
    rw [Tx.authority, Tx.scope_eq_ok.mpr htenant, ok_bind]
    exact okOr_eq_ok.mpr hcurrent
  have hread : (s.begin session' clock).read spec.scope spec.id = .ok (some
      ⟨⟨r.record (spec.scope.tenant, spec.id), validate_eq_ok.mpr hvalid⟩, r.messageId,
        r.fingerprint, r.domain⟩) := by
    rw [Tx.read, Tx.scope_eq_ok.mpr htenant, ok_bind]
    rw [show (s.begin session' clock).db.commands.get? (spec.scope.tenant, spec.id) = some r from hr]
    dsimp only
    rw [decode, Command.restore_of_valid hvalid, ok_bind, ok_bind]
    rw [if_neg]
    exact not_not.mpr (congrArg CommandSpec.scope hc.spec)
  have hpublished : (s.begin session' clock).isPublished r.domain r.messageId r.fingerprint =
      .ok (sent.status = .published) := by
    rw [Tx.isPublished]
    rw [show (s.begin session' clock).db.outbox.get? ((s.begin session' clock).session.tenant,
      r.messageId) = some sent from htenant ▸ hsent]
    simp [hdomain, hfp]
  have hsame : ¬ ((⟨r.record (spec.scope.tenant, spec.id), validate_eq_ok.mpr hvalid⟩ :
      Command).spec ≠ spec ∨ r.messageId ≠ message.id ∨ r.fingerprint ≠ fingerprint message ∨
      r.domain ≠ message.domain) := by
    push Not
    exact ⟨hc.spec, hc.messageId, hc.fingerprint, hc.domain⟩
  have hqueue : (s.begin session' clock).queue fingerprint spec message = .ok
      (s.begin session' clock, ⟨r.record (spec.scope.tenant, spec.id),
        validate_eq_ok.mpr hvalid⟩) := by
    rw [Tx.queue, hauth, ok_bind, if_neg (not_not.mpr hc.tenant), hread, ok_bind]
    dsimp only
    rw [if_neg hsame, hpublished]
    rfl
  simp only [Call.execute, hqueue]
  rfl

/-! ### The whole -/

/-- In every state the transactions can reach, active commands are under the current
authority, authorities only move forward, authority changes end, recovery is regular,
and every command is enqueued once with its message. -/
theorem authority_isolation {s₀ s : State} {steps : List Action}
    (hdistinct : Distinct fingerprint Sent) (h₀ : s₀.Installed fingerprint Sent)
    (h : Runs (Step fingerprint Sent) s₀ steps s) :
    s.db.ActiveCurrent ∧
      (∀ before after m, Runs (Step fingerprint Sent) s₀ before m →
        Runs (Step fingerprint Sent) m after s → m.db.AuthorityAdvances s.db) ∧
      s.AdvanceEnds fingerprint ∧ s.RecoveryRegular ∧ EnqueuedOnce steps ∧
      s.Replays fingerprint steps := by
  have hi := inv_of_runs hdistinct h₀ h
  have hlogged := logged_of_runs hdistinct h₀ h
  refine ⟨hi.activeCurrent, ?_, hi.advanceEnds, hi.recoveryRegular, hlogged.once,
    hlogged.replays hi⟩
  intro before after m hbefore hafter
  exact authority_of_runs hdistinct (inv_of_runs hdistinct h₀ hbefore) hafter

/-- Transactions of one call each, with a microsecond between two readings of the clock. -/
def commitAll (fingerprint : Message → Digest) (session : Session) :
    List Call → State → Option State
  | [], s => some s
  | call :: calls, s =>
      match call.execute fingerprint 8 (s.begin session (fun _ => 1)) with
      | some (.ok (tx, _)) => commitAll fingerprint session calls ⟨tx.db, tx.clock.now⟩
      | _ => none

theorem runs_of_commitAll {session : Session} {calls : List Call} {s s' : State}
    (hsent : ∀ spec message, .queue spec message ∈ calls → Sent message)
    (h : commitAll fingerprint session calls s = some s') :
    ∃ steps, Runs (Step fingerprint Sent) s steps s' := by
  induction calls generalizing s with
  | nil =>
      cases h
      exact ⟨[], .nil⟩
  | cons call calls ih =>
      rw [commitAll] at h
      split at h
      · rename_i tx reply hexec
        have hstep := Step.commit
          (fun spec message hc => hsent spec message (hc ▸ List.mem_cons_self)) hexec
        obtain ⟨steps, hrest⟩ :=
          ih (fun spec message hm => hsent spec message (List.mem_cons_of_mem _ hm)) h
        exact ⟨_, (Runs.single hstep).trans hrest⟩
      · cases h

end Runs

/-! A valve is opened by one command, which is superseded before it is received. -/

def valveScope : Scope := ⟨1, ⟨2, by decide⟩⟩

def valveFirst : Coordinate := ⟨1, 1, by decide, by decide⟩

def valveSecond : Coordinate := ⟨1, 2, by decide, by decide⟩

def valveOpen : CommandId := ⟨"open", by decide⟩

def valveSpec : CommandSpec := ⟨valveScope, valveOpen, valveFirst, 7, 100⟩

def valveMessage : Message := ⟨1, "m1", "device", []⟩

/-- SHA-256 of the canonical bytes of the valve's message. -/
def valveDigest (_ : Message) : Digest :=
  0x3ded6fabf3fb4f4f3d44326ae6b0bb64b114eb8faef5d55722a916e8df399b1e

def valveCalls : List Call :=
  [.initializeDevice valveScope valveFirst, .queue valveSpec valveMessage,
    .recoverExact valveScope valveOpen, .advance valveScope valveFirst valveSecond]

theorem authority_isolation_valve :
    ∃ steps s, Runs (Step valveDigest (· = valveMessage)) ⟨⟨.empty, .empty, .empty⟩, 0⟩ steps s ∧
      (s.db.commands.get? (1, valveOpen)).map Row.status = some .superseded ∧
      s.db.ActiveCurrent ∧ s.AdvanceEnds valveDigest ∧ s.RecoveryRegular ∧ EnqueuedOnce steps ∧
      s.Replays valveDigest steps := by
  have hstatus : (commitAll valveDigest ⟨1, "device", true⟩ valveCalls
      ⟨⟨.empty, .empty, .empty⟩, 0⟩).map
        (fun s => (s.db.commands.get? (1, valveOpen)).map Row.status) = some (some .superseded) := by
    decide +kernel
  obtain ⟨s, hs, hsuperseded⟩ := Option.map_eq_some_iff.mp hstatus
  obtain ⟨steps, hrun⟩ := @runs_of_commitAll _ (· = valveMessage) _ _ _ _
    (by simp [valveCalls]) hs
  have hdistinct : Distinct valveDigest (· = valveMessage) := by
    rintro m m' rfl rfl _
    rfl
  have hall := authority_isolation hdistinct ⟨rfl, rfl, fun _ _ h => by cases h⟩ hrun
  exact ⟨steps, s, hrun, hsuperseded, hall.1, hall.2.2.1, hall.2.2.2.1, hall.2.2.2.2.1,
    hall.2.2.2.2.2⟩

end Rss.DeviceCommand
