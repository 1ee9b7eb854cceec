import Rss.Library.Runs
import Rss.Verification.DeviceCommand.Supersession

/-! # Authority isolation

Whatever order the transactions on a device commit in, an active command carries the
device's current coordinate, and every command is sent once. -/

namespace Rss.DeviceCommand

open Rss.Sql

/-! ### What a transaction does -/

/-- A command was queued: its row and, unless it was there, its message were added. -/
structure Tx.Queues (fingerprint : Message → Digest) (tx : Tx) (spec : CommandSpec)
    (message : Message) (tx' : Tx) : Prop where
  tenant : message.tenant = spec.scope.tenant
  fresh : tx.db.commands.get? (spec.scope.tenant, spec.id) = none
  unsent : ∀ key r, tx.db.commands.get? key = some r → key.1 = spec.scope.tenant →
    r.messageId ≠ message.id
  current : tx.db.authorities.get? (spec.scope.tenant, spec.scope.device) = some spec.coordinate
  authorities : tx'.db.authorities = tx.db.authorities
  now_le : tx.clock.now ≤ tx'.clock.now
  commands : ∃ r, tx'.db.commands = tx.db.commands.insertNew (spec.scope.tenant, spec.id) r ∧
    (r.record (spec.scope.tenant, spec.id)).spec = spec ∧
    (r.record (spec.scope.tenant, spec.id)).Valid ∧
    (r.record (spec.scope.tenant, spec.id)).Past tx'.clock.now ∧ r.messageId = message.id ∧
    r.fingerprint = fingerprint message ∧ r.domain = message.domain
  outbox : (∃ sent, tx.db.outbox.get? (message.tenant, message.id) = some sent ∧
      sent.fingerprint = fingerprint message ∧ tx'.db.outbox = tx.db.outbox) ∨
    (tx.db.outbox.get? (message.tenant, message.id) = none ∧
      tx'.db.outbox = tx.db.outbox.insertNew (message.tenant, message.id)
        ⟨message.domain, fingerprint message, .pending⟩)
  writes : tx'.writes = tx.writes ++
    [.enqueued (spec.scope.tenant, spec.id) message.id (fingerprint message),
      .appended (message.tenant, message.id) (fingerprint message)]

/-- Everything a committed call can do. -/
inductive Tx.Does (fingerprint : Message → Digest) (call : Call) (tx tx' : Tx) : Prop where
  | moved (h : tx.Moves tx')
  | initialized (s : Scope) (coordinate : Coordinate)
      (h : tx' = { tx with db := { tx.db with
        authorities := tx.db.authorities.insertNew (s.tenant, s.device) coordinate } })
  | advanced (s : Scope) (expected next : Coordinate) (keys : List (Uuid × CommandId))
      (current : tx.db.authorities.get? (s.tenant, s.device) = some expected)
      (later : next.Supersedes expected)
      (closes : Tx.Supersedes { tx with db := { tx.db with
        authorities := tx.db.authorities.modify (s.tenant, s.device) (fun _ => next) } } keys tx')
      (perm : keys.Perm (tx.db.active s)) (none : tx'.db.active s = [])
  | queued (spec : CommandSpec) (message : Message) (hcall : call = .queue spec message)
      (h : tx.Queues fingerprint spec message tx')

namespace Tx

variable {fingerprint : Message → Digest} {call : Call} {tx tx' : Tx} {s : Scope}

theorem initializeDevice_does {coordinate : Coordinate}
    (h : tx.initializeDevice s coordinate = .ok tx') : tx.Does fingerprint call tx' := by
  obtain ⟨_, -, h⟩ := bind_eq_ok.mp h
  obtain ⟨stored, -, h⟩ := bind_eq_ok.mp h
  split at h
  · cases h
  · cases h
    exact .initialized s coordinate rfl

/-- With enough pages an authority change runs to its end. -/
theorem advance_ends {expected next : Coordinate} {pages : ℕ}
    (hs : tx.SoundAt tx.db.authorities.get?) (hscope : tx.session.tenant = s.tenant)
    (hcurrent : tx.db.authorities.get? (s.tenant, s.device) = some expected)
    (hnext : next.Supersedes expected) (hpages : (tx.db.active s).length < pages) :
    ∃ keys tx', tx.advance pages s expected next = some (.ok tx') ∧
      Tx.Supersedes { tx with db := { tx.db with
        authorities := tx.db.authorities.modify (s.tenant, s.device) (fun _ => next) } } keys tx' ∧
      keys.Perm (tx.db.active s) ∧ tx'.db.active s = [] := by
  obtain ⟨keys, tx₁, hloop, hsup, hkeys, hempty⟩ :=
    @supersedePages_ends { tx with db := { tx.db with
      authorities := tx.db.authorities.modify (s.tenant, s.device) (fun _ => next) } }
      s tx.db.authorities.get? next pages hs hscope
      (fun c hc => by cases hcurrent.symm.trans hc; exact hnext) hpages
  refine ⟨keys, tx₁, ?_, hsup, hkeys, hempty⟩
  have hne : expected ≠ next := by
    rintro rfl
    exact lt_irrefl _ hnext.2
  unfold advance authority advanceAuthority
  rw [if_neg (not_not.mpr hnext), scope_eq_ok.mpr hscope, ok_bind, hcurrent]
  simp only [okOr_some, if_neg hne, ne_eq, not_true_eq_false, if_false, hnext, and_self, if_true]
  exact hloop

theorem advance_does {expected next : Coordinate} {pages : ℕ}
    (hs : tx.SoundAt tx.db.authorities.get?)
    (h : tx.advance pages s expected next = some (.ok tx')) : tx.Does fingerprint call tx' := by
  have h₀ := h
  unfold advance at h
  split at h
  · cases h
  · rename_i hnext
    cases hauth : tx.authority s with
    | error e =>
        rw [hauth] at h
        cases h
    | ok current =>
        obtain ⟨hscope, hcurrent⟩ := authority_eq_ok hauth
        rw [hauth] at h
        dsimp only at h
        split at h
        · cases h
          exact .moved (.refl tx)
        · split at h
          · cases h
          · rename_i hexpected
            cases not_not.mp hexpected
            -- a longer loop, long enough to end, gives the same result
            obtain ⟨keys, tx₁, hend, hsup, hkeys, hempty⟩ := advance_ends hs hscope hcurrent
              (not_not.mp hnext) (Nat.lt_of_lt_of_le (Nat.lt_succ_self _) (Nat.le_max_right pages _))
            have hsame := advance_mono (Nat.le_max_left pages ((tx.db.active s).length + 1)) h₀
            cases hsame.symm.trans hend
            exact .advanced s expected next keys hcurrent (not_not.mp hnext) hsup hkeys hempty

/-! #### Queueing -/

theorem queue_record {spec : CommandSpec} {time : ℤ} {c : Command}
    (h : Command.queue spec time = .ok c) :
    c.record = ⟨spec, 1, .queued, time, none, none, none⟩ := by
  unfold Command.queue at h
  split at h
  · cases h
  · exact Command.restore_eq_ok.mp h

theorem enqueue_eq_ok {c : Command} {message : Message}
    (hcurrent : tx.db.authorities.get? (c.record.spec.scope.tenant, c.record.spec.scope.device) =
      some c.record.spec.coordinate)
    (h : tx.enqueue fingerprint c message = .ok tx') :
    tx.db.commands.get? (c.record.spec.scope.tenant, c.record.spec.id) = none ∧
      (∀ key r, tx.db.commands.get? key = some r → key.1 = c.record.spec.scope.tenant →
        r.messageId ≠ message.id) ∧
      tx' = { tx with
        db := { tx.db with
          commands := tx.db.commands.insertNew (c.record.spec.scope.tenant, c.record.spec.id)
            ⟨c.record.spec.scope.device, c.record.spec.coordinate, c.record.spec.expected, c.record.spec.deadline,
              c.record.queuedAt, .queued, 1, none, none, none, message.id, fingerprint message,
              message.domain⟩ }
        writes := tx.writes ++
          [.enqueued (c.record.spec.scope.tenant, c.record.spec.id) message.id (fingerprint message)] } := by
  unfold enqueue at h
  dsimp only at h
  rw [if_neg (not_not.mpr hcurrent)] at h
  split at h
  · cases h
  · rename_i hfree
    rw [not_or, not_or] at hfree
    cases h
    refine ⟨by simpa using hfree.1, ?_, rfl⟩
    intro key r hr hkey hid
    refine hfree.2.1 (List.any_eq_true.mpr ⟨(key, r), Table.mem_rows.mpr hr, ?_⟩)
    exact decide_eq_true ⟨hkey, hid⟩

theorem append_eq_ok {message : Message} (h : tx.append fingerprint message = .ok tx') :
    ∃ outbox, tx' = { tx with
        db := { tx.db with outbox }
        writes := tx.writes ++ [.appended (message.tenant, message.id) (fingerprint message)] } ∧
      ((∃ sent, tx.db.outbox.get? (message.tenant, message.id) = some sent ∧
          sent.fingerprint = fingerprint message ∧ outbox = tx.db.outbox) ∨
        (tx.db.outbox.get? (message.tenant, message.id) = none ∧
          outbox = tx.db.outbox.insertNew (message.tenant, message.id)
            ⟨message.domain, fingerprint message, .pending⟩)) := by
  unfold append at h
  dsimp only at h
  split at h
  · cases h
  · split at h
    · rename_i sent hsent
      split at h
      · rename_i hfp
        cases h
        exact ⟨_, rfl, .inl ⟨sent, hsent, hfp, rfl⟩⟩
      · cases h
    · rename_i hnone
      cases h
      exact ⟨_, rfl, .inr ⟨hnone, rfl⟩⟩

/-- A queue call either finds the command it would queue, or queues it. -/
theorem queue_eq_ok {spec : CommandSpec} {message : Message} {c : Command}
    (h : tx.queue fingerprint spec message = .ok (tx', c)) :
    c.spec = spec ∧ message.tenant = spec.scope.tenant ∧
      ((∃ row, tx' = tx ∧ tx.Holds row ∧ row.command = c ∧ row.messageId = message.id ∧
          row.fingerprint = fingerprint message ∧ row.domain = message.domain) ∨
        tx.Queues fingerprint spec message tx') := by
  obtain ⟨current, hcurrent, h⟩ := bind_eq_ok.mp h
  split at h
  · cases h
  · rename_i htenant
    have htenant := not_not.mp htenant
    obtain ⟨found, hread, h⟩ := bind_eq_ok.mp h
    cases found with
    | some row =>
        dsimp only at h
        split at h
        · cases h
        · rename_i hsame
          push Not at hsame
          obtain ⟨published, -, h⟩ := bind_eq_ok.mp h
          cases h
          obtain ⟨hspec, hid, hfp, hdomain⟩ := hsame
          exact ⟨hspec, htenant, .inl ⟨row, rfl, (read_some hread).1, rfl, hid, hfp, hdomain⟩⟩
    | none =>
        dsimp only at h
        split at h
        · cases h
        · rename_i hcoordinate
          have hcoordinate := not_not.mp hcoordinate
          obtain ⟨c', hc, h⟩ := bind_eq_ok.mp h
          obtain ⟨tx₁, hen, h⟩ := bind_eq_ok.mp h
          obtain ⟨tx₂, happ, h⟩ := bind_eq_ok.mp h
          cases h
          have hrec := queue_record hc
          have hspec : c.record.spec = spec := congrArg Record.spec hrec
          have hauth := hcoordinate ▸ (authority_eq_ok hcurrent).2
          obtain ⟨hfresh, hunsent, rfl⟩ := enqueue_eq_ok (hspec ▸ hauth) hen
          obtain ⟨outbox, rfl, hout⟩ := append_eq_ok happ
          rw [hspec] at hfresh hunsent
          have hvalid := c.record_valid
          rw [hrec] at hvalid
          refine ⟨hspec, htenant, .inr ⟨htenant, hfresh, hunsent, hauth, rfl, tx.clock.le_tick,
            ⟨⟨spec.scope.device, spec.coordinate, spec.expected, spec.deadline, tx.now.2, .queued, 1,
              none, none, none, message.id, fingerprint message, message.domain⟩, ?_, rfl, hvalid, ?_,
              rfl, rfl, rfl⟩, hout, ?_⟩⟩
          · simp only [hrec]
            rfl
          · simp [Record.Past, Record.mem_times, Row.record, Tx.now]
          · simp [hspec, Tx.now]

theorem queue_does {spec : CommandSpec} {message : Message} {c : Command}
    (h : tx.queue fingerprint spec message = .ok (tx', c)) :
    tx.Does fingerprint (.queue spec message) tx' := by
  rcases (queue_eq_ok h).2.2 with ⟨row, rfl, -⟩ | hq
  · exact .moved (.refl _)
  · exact .queued spec message rfl hq

/-- Every committed call does one of the four things. -/
theorem execute_does {pages : ℕ} {reply : Reply}
    (hs : tx.SoundAt tx.db.authorities.get?)
    (h : call.execute fingerprint pages tx = some (.ok (tx', reply))) : tx.Does fingerprint call tx' := by
  cases call with
  | initializeDevice scope coordinate =>
      obtain ⟨tx₁, hop, h⟩ := bind_eq_ok.mp (Option.some.inj h)
      cases h
      exact initializeDevice_does hop
  | advance scope expected next =>
      obtain ⟨r, hr, h⟩ := Option.map_eq_some_iff.mp h
      obtain ⟨tx₁, rfl, h⟩ := bind_eq_ok.mp h
      cases h
      exact advance_does hs hr
  | queue spec message =>
      obtain ⟨⟨tx₁, c⟩, hop, h⟩ := bind_eq_ok.mp (Option.some.inj h)
      cases h
      exact queue_does hop
  | load scope id =>
      obtain ⟨found, -, h⟩ := bind_eq_ok.mp (Option.some.inj h)
      cases h
      exact .moved (.refl _)
  | report input =>
      obtain ⟨⟨tx₁, outcome, c⟩, hop, h⟩ := bind_eq_ok.mp (Option.some.inj h)
      cases h
      exact .moved (report_moves hop)
  | cancel scope id coordinate =>
      obtain ⟨⟨tx₁, outcome, c⟩, hop, h⟩ := bind_eq_ok.mp (Option.some.inj h)
      cases h
      exact .moved (mutate_moves hop)
  | recover scope limit after =>
      obtain ⟨⟨tx₁, cs, next⟩, hop, h⟩ := bind_eq_ok.mp (Option.some.inj h)
      cases h
      exact .moved (recover_moves hs hop)
  | recoverExact scope id =>
      obtain ⟨⟨tx₁, c⟩, hop, h⟩ := bind_eq_ok.mp (Option.some.inj h)
      cases h
      exact .moved (recoverExact_moves hop)

end Tx

/-! ### The invariant -/

section Invariant

variable {fingerprint : Message → Digest} {Sent : Message → Prop} {call : Call} {tx tx' : Tx}

/-- No two messages of different domains share a fingerprint. -/
def Distinct (fingerprint : Message → Digest) (Sent : Message → Prop) : Prop :=
  ∀ m m', Sent m → Sent m' → fingerprint m = fingerprint m' → m.domain = m'.domain

structure Db.Inv (fingerprint : Message → Digest) (Sent : Message → Prop) (db : Db) (now : ℤ) :
    Prop where
  sound : db.SoundAt db.authorities.get? now
  known : ∀ key r, db.commands.get? key = some r → (db.authorities.get? (key.1, r.device)).isSome
  sent : ∀ key row, db.outbox.get? key = some row →
    ∃ message, Sent message ∧ row.domain = message.domain ∧ row.fingerprint = fingerprint message

/-- Rows are kept, with everything that identifies them. -/
theorem Tx.Does.kept (h : tx.Does fingerprint call tx') {key : Uuid × CommandId} {r : Row}
    (hr : tx.db.commands.get? key = some r) :
    ∃ r', tx'.db.commands.get? key = some r' ∧ r'.identity = r.identity := by
  have hmoves : ∀ {tx₀ : Tx}, tx₀.Moves tx' → tx₀.db.commands = tx.db.commands →
      ∃ r', tx'.db.commands.get? key = some r' ∧ r'.identity = r.identity := by
    intro tx₀ hm hsame
    have := hm.identity key
    rw [hsame, hr, Option.map_some, Option.map_eq_some_iff] at this
    exact this
  cases h with
  | moved h => exact hmoves h rfl
  | initialized s coordinate h =>
      subst h
      exact ⟨r, hr, rfl⟩
  | advanced s expected next keys _ _ closes _ _ => exact hmoves closes.moves rfl
  | queued spec message hcall h =>
      obtain ⟨r', hc, -⟩ := h.commands
      have hne : key ≠ (spec.scope.tenant, spec.id) := by
        rintro rfl
        rw [h.fresh] at hr
        cases hr
      refine ⟨r, ?_, rfl⟩
      rw [hc, Table.get?_insertNew, if_neg hne, hr]

/-- An authority is kept or replaced by one that supersedes it. -/
theorem Tx.Does.authority (h : tx.Does fingerprint call tx') {key : Uuid × DeviceId} {c : Coordinate}
    (hc : tx.db.authorities.get? key = some c) :
    ∃ c', tx'.db.authorities.get? key = some c' ∧ (c' = c ∨ c'.Supersedes c) := by
  cases h with
  | moved h => exact ⟨c, h.authorities ▸ hc, .inl rfl⟩
  | initialized s coordinate h =>
      subst h
      refine ⟨c, ?_, .inl rfl⟩
      rw [Table.get?_insertNew]
      split
      · rename_i hk
        rw [← hk, hc]
        rfl
      · exact hc
  | advanced s expected next keys current later closes _ _ =>
      rw [closes.moves.authorities, Table.get?_modify]
      split
      · rename_i hk
        cases hc.symm.trans (hk ▸ current)
        exact ⟨next, by rw [hc]; rfl, .inr later⟩
      · exact ⟨c, hc, .inl rfl⟩
  | queued spec message hcall h => exact ⟨c, h.authorities ▸ hc, .inl rfl⟩

theorem Tx.Moves.known (h : tx.Moves tx')
    (hk : ∀ key r, tx.db.commands.get? key = some r →
      (tx.db.authorities.get? (key.1, r.device)).isSome) :
    ∀ key r, tx'.db.commands.get? key = some r →
      (tx'.db.authorities.get? (key.1, r.device)).isSome := by
  intro key r hr
  have hid := h.identity key
  rw [hr, Option.map_some, eq_comm, Option.map_eq_some_iff] at hid
  obtain ⟨r₀, hr₀, hid⟩ := hid
  have hdev : r₀.device = r.device := congrArg Prod.fst hid
  rw [h.authorities, ← hdev]
  exact hk key r₀ hr₀

/-- Queueing adds one sound row and leaves the others as they were. -/
theorem Tx.Queues.inv {spec : CommandSpec} {message : Message} (hdistinct : Distinct fingerprint Sent)
    (hsent : Sent message) (hi : tx.db.Inv fingerprint Sent tx.clock.now)
    (h : tx.Queues fingerprint spec message tx') :
    tx'.db.Inv fingerprint Sent tx'.clock.now := by
  obtain ⟨r, hc, hspec, hvalid, hpast, hid, hfp, hdomain⟩ := h.commands
  -- the message is in the outbox afterwards, under its own domain
  have hout : ∃ sent, tx'.db.outbox.get? (message.tenant, message.id) = some sent ∧
      sent.domain = message.domain ∧ sent.fingerprint = fingerprint message := by
    rcases h.outbox with ⟨sent, hs, hf, ho⟩ | ⟨hn, ho⟩
    · obtain ⟨m, hm, hd, hf'⟩ := hi.sent _ _ hs
      refine ⟨sent, ho ▸ hs, hd.trans ?_, hf⟩
      exact hdistinct m message hm hsent (hf'.symm.trans hf)
    · refine ⟨⟨message.domain, fingerprint message, .pending⟩, ?_, rfl, rfl⟩
      rw [ho, Table.get?_insertNew_self, hn]
      rfl
  have hkeep : ∀ key sent, tx.db.outbox.get? key = some sent → tx'.db.outbox.get? key = some sent := by
    intro key sent hs
    rcases h.outbox with ⟨-, -, -, ho⟩ | ⟨hn, ho⟩
    · exact ho ▸ hs
    · have hne : key ≠ (message.tenant, message.id) := by
        rintro rfl
        rw [hn] at hs
        cases hs
      rw [ho, Table.get?_insertNew, if_neg hne, hs]
  have hdev : r.device = spec.scope.device := congrArg (fun s => s.scope.device) hspec
  have hcoord : r.coordinate = spec.coordinate := congrArg CommandSpec.coordinate hspec
  have hrow : ∀ key x, tx'.db.commands.get? key = some x →
      key = (spec.scope.tenant, spec.id) ∧ x = r ∨ tx.db.commands.get? key = some x := by
    intro key x hx
    rw [hc, Table.get?_insertNew] at hx
    split at hx
    · rename_i hk
      rw [h.fresh] at hx
      exact .inl ⟨hk, (Option.some.inj hx).symm⟩
    · exact .inr hx
  refine ⟨?_, ?_, ?_⟩
  · intro key x hx
    rcases hrow key x hx with ⟨rfl, rfl⟩ | hx
    · refine ⟨hvalid, hpast, ?_, ?_⟩
      · intro _
        rw [h.authorities, hdev, hcoord]
        exact h.current
      · rw [hid, hfp, hdomain]
        exact h.tenant ▸ hout
    · obtain ⟨hv, hp, hcur, sent, hs, hd, hf⟩ := hi.sound key x hx
      exact ⟨hv, hp.mono h.now_le, h.authorities ▸ hcur, sent, hkeep _ _ hs, hd, hf⟩
  · intro key x hx
    rw [h.authorities]
    rcases hrow key x hx with ⟨rfl, rfl⟩ | hx
    · rw [hdev, h.current]
      rfl
    · exact hi.known key x hx
  · intro key sent hs
    rcases h.outbox with ⟨-, -, -, ho⟩ | ⟨hn, ho⟩
    · exact hi.sent key sent (ho ▸ hs)
    · rw [ho, Table.get?_insertNew, hn] at hs
      split at hs
      · cases hs
        exact ⟨message, hsent, rfl, rfl⟩
      · exact hi.sent key sent hs

/-- Closing all the commands of a device makes room for its next authority. -/
theorem Tx.Does.inv (hdistinct : Distinct fingerprint Sent)
    (hi : tx.db.Inv fingerprint Sent tx.clock.now) (h : tx.Does fingerprint call tx')
    (hsent : ∀ spec message, call = .queue spec message → Sent message) :
    tx'.db.Inv fingerprint Sent tx'.clock.now := by
  cases h with
  | moved h =>
      refine ⟨?_, h.known hi.known, ?_⟩
      · rw [h.authorities]
        exact h.sound _ hi.sound
      · rw [h.outbox]
        exact hi.sent
  | initialized s coordinate h =>
      subst h
      have hgrow : ∀ key c, tx.db.authorities.get? key = some c →
          (tx.db.authorities.insertNew (s.tenant, s.device) coordinate).get? key = some c := by
        intro key c hc
        rw [Table.get?_insertNew]
        split
        · rename_i hk
          rw [← hk, hc]
          rfl
        · exact hc
      refine ⟨?_, ?_, hi.sent⟩
      · intro key r hr
        obtain ⟨hv, hp, hcur, hs⟩ := hi.sound key r hr
        exact ⟨hv, hp, fun hn => hgrow _ _ (hcur hn), hs⟩
      · intro key r hr
        obtain ⟨c, hc⟩ := Option.isSome_iff_exists.mp (hi.known key r hr)
        exact Option.isSome_iff_exists.mpr ⟨c, hgrow _ _ hc⟩
  | advanced s expected next keys current later closes perm none =>
      have hauth : ∀ key, key ≠ (s.tenant, s.device) →
          tx'.db.authorities.get? key = tx.db.authorities.get? key := by
        intro key hk
        rw [closes.moves.authorities]
        exact Table.get?_modify_of_ne _ hk _
      refine ⟨?_, closes.moves.known ?_, ?_⟩
      · intro key r hr
        obtain ⟨hv, hp, hcur, hs⟩ := closes.moves.sound tx.db.authorities.get? hi.sound key r hr
        refine ⟨hv, hp, ?_, hs⟩
        -- an active row belongs to another device, whose authority stayed
        intro hn
        rw [hauth]
        · exact hcur hn
        · intro hk
          have hmem : key ∈ tx'.db.active s :=
            Db.mem_active.mpr ⟨r, hr, congrArg Prod.fst hk, congrArg Prod.snd hk, hn⟩
          rw [none] at hmem
          cases hmem
      · intro key r hr
        dsimp only
        rw [Table.get?_modify]
        split
        · simpa using hi.known key r hr
        · exact hi.known key r hr
      · rw [closes.moves.outbox]
        exact hi.sent
  | queued spec message hcall h => exact h.inv hdistinct (hsent spec message hcall) hi

end Invariant

end Rss.DeviceCommand
