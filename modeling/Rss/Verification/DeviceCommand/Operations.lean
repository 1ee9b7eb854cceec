import Rss.Model.DeviceCommand.Store
import Rss.Verification.DeviceCommand.Reducer

/-! # The store's operations

What each operation of the store does to the tables of a sound transaction. Every change of
a command is a transition of the stored record that is then saved, so one lemma about the
two together carries all the operations. -/

namespace Rss.DeviceCommand

open Rss.Sql

/-! ### Sound rows -/

/-- A row holds a valid record of the past, is current while it is active, and its message
is in the outbox. -/
structure Row.Sound (authority : Uuid × DeviceId → Option Coordinate)
    (outbox : Table (Uuid × String) OutboxRow) (now : ℤ) (key : Uuid × CommandId) (r : Row) :
    Prop where
  valid : (r.record key).Valid
  past : (r.record key).Past now
  current : r.terminalAt = none → authority (key.1, r.device) = some r.coordinate
  dispatched : ∃ sent, outbox.get? (key.1, r.messageId) = some sent ∧ sent.domain = r.domain ∧
    sent.fingerprint = r.fingerprint

def Db.SoundAt (db : Db) (authority : Uuid × DeviceId → Option Coordinate) (now : ℤ) : Prop :=
  ∀ key r, db.commands.get? key = some r → r.Sound authority db.outbox now key

def Tx.SoundAt (tx : Tx) (authority : Uuid × DeviceId → Option Coordinate) : Prop :=
  tx.db.SoundAt authority tx.clock.now

/-- The table's constraints accept every valid record. -/
theorem Row.checked_of_valid {key : Uuid × CommandId} {r : Row} (h : (r.record key).Valid) :
    r.Checked := by
  obtain ⟨hqueued, hpublished, hreceived, hrejected⟩ := h.shaped
  exact {
    version := h.version_bounds.1
    deadline := h.deadline
    published := fun t ht => ⟨h.queued_le t ht, h.publishedAt t ht⟩
    received := fun t ht => by
      obtain ⟨p, hp, hle⟩ := h.published_le t ht
      exact ⟨p, hp, hle, h.receivedAt t ht⟩
    terminal := h.milestone_le
    closed := h.terminal_iff
    queuedShape := hqueued
    publishedShape := hpublished
    receivedShape := hreceived
    rejectedShape := hrejected
    timedOut := fun hs t ht => h.timedOut t ht hs
    applied := fun hs t ht => h.applied t ht hs }

/-! ### Stored commands -/

def Stored.key (row : Stored) : Uuid × CommandId :=
  (row.command.spec.scope.tenant, row.command.spec.id)

theorem decode_eq_ok {key : Uuid × CommandId} {r : Row} {row : Stored} :
    decode key r = .ok row ↔ row.command.record = r.record key ∧ row.messageId = r.messageId ∧
      row.fingerprint = r.fingerprint ∧ row.domain = r.domain := by
  obtain ⟨command, messageId, fingerprint, domain⟩ := row
  unfold decode
  rw [bind_eq_ok]
  simp only [Command.restore_eq_ok, Except.ok.injEq, Stored.mk.injEq]
  constructor
  · rintro ⟨c, hc, rfl, rfl, rfl, rfl⟩
    exact ⟨hc, rfl, rfl, rfl⟩
  · rintro ⟨hc, rfl, rfl, rfl⟩
    exact ⟨command, hc, rfl, rfl, rfl, rfl⟩

theorem key_of_decode {key : Uuid × CommandId} {r : Row} {row : Stored}
    (h : decode key r = .ok row) : row.key = key := by
  have hr := (decode_eq_ok.mp h).1
  simp [Stored.key, Command.spec, hr, Row.record]

/-- The table still holds the row as it was read. -/
def Tx.Holds (tx : Tx) (row : Stored) : Prop :=
  ∃ r, tx.db.commands.get? row.key = some r ∧ decode row.key r = .ok row

/-- The columns of a row that never change. -/
def Row.identity (r : Row) : DeviceId × Coordinate × Digest × ℤ × ℤ × String × Digest × String :=
  (r.device, r.coordinate, r.expected, r.deadline, r.queuedAt, r.messageId, r.fingerprint, r.domain)

/-- What an operation on existing commands may do. -/
structure Tx.Moves (tx tx' : Tx) : Prop where
  session : tx'.session = tx.session
  authorities : tx'.db.authorities = tx.db.authorities
  outbox : tx'.db.outbox = tx.db.outbox
  now_le : tx.clock.now ≤ tx'.clock.now
  identity : ∀ key, (tx'.db.commands.get? key).map Row.identity =
    (tx.db.commands.get? key).map Row.identity
  writes : ∃ ws, tx'.writes = tx.writes ++ ws ∧ ∀ w ∈ ws, ∃ key status, w = .saved key status
  sound : ∀ authority, tx.SoundAt authority → tx'.SoundAt authority

theorem Tx.Moves.refl (tx : Tx) : tx.Moves tx :=
  ⟨rfl, rfl, rfl, le_rfl, fun _ => rfl, ⟨[], by simp⟩, fun _ h => h⟩

theorem Tx.Moves.trans {tx tx' tx'' : Tx} (h : tx.Moves tx') (h' : tx'.Moves tx'') :
    tx.Moves tx'' := by
  obtain ⟨ws, hws, hsaved⟩ := h.writes
  obtain ⟨ws', hws', hsaved'⟩ := h'.writes
  refine ⟨h'.session.trans h.session, h'.authorities.trans h.authorities,
    h'.outbox.trans h.outbox, h.now_le.trans h'.now_le,
    fun key => (h'.identity key).trans (h.identity key), ⟨ws ++ ws', ?_, ?_⟩,
    fun authority hs => h'.sound authority (h.sound authority hs)⟩
  · rw [hws', hws, List.append_assoc]
  · intro w hw
    rcases List.mem_append.mp hw with hw | hw
    · exact hsaved w hw
    · exact hsaved' w hw

theorem Tx.now_moves (tx : Tx) : tx.Moves tx.now.1 := by
  refine ⟨rfl, rfl, rfl, tx.clock.le_tick, fun _ => rfl, ⟨[], by simp [Tx.now]⟩, ?_⟩
  intro authority hs key r hr
  obtain ⟨hvalid, hpast, hcurrent, hsent⟩ := hs key r hr
  exact ⟨hvalid, hpast.mono tx.clock.le_tick, hcurrent, hsent⟩

theorem Tx.Holds.now {tx : Tx} {row : Stored} (h : tx.Holds row) : tx.now.1.Holds row := h

theorem Tx.Holds.past {tx : Tx} {row : Stored} {authority : Uuid × DeviceId → Option Coordinate}
    (h : tx.Holds row) (hs : tx.SoundAt authority) : row.command.record.Past tx.clock.now := by
  obtain ⟨r, hr, hdecode⟩ := h
  rw [(decode_eq_ok.mp hdecode).1]
  exact (hs _ _ hr).past

/-! ### Saving a transition -/

/-- The row `save` writes. -/
def Row.saved (r : Row) (version : ℤ) (next : Record) : Row :=
  { r with
    version
    status := next.status
    publishedAt := next.publishedAt
    receivedAt := next.receivedAt
    terminalAt := next.terminalAt }

/-- Saving an advanced command replaces the columns of its row, and nothing else. -/
theorem Tx.save_advanced {tx : Tx} {row : Stored} {c : Command} {now : ℤ} (h : tx.Holds row)
    (hadv : row.command.Advances c now) :
    ∃ r r', tx.db.commands.get? row.key = some r ∧ r'.identity = r.identity ∧
      r'.record row.key = c.record ∧
      tx.save c row.command.version = .ok { tx with
        db := { tx.db with commands := tx.db.commands.modify row.key (fun _ => r') }
        writes := tx.writes ++ [.saved row.key c.status] } := by
  obtain ⟨r, hr, hdecode⟩ := h
  have hrecord := (decode_eq_ok.mp hdecode).1
  have hspec : c.record.spec = (r.record row.key).spec := by
    rw [← hrecord]
    exact hadv.spec
  have hkey : (c.record.spec.scope.tenant, c.record.spec.id) = row.key := by
    rw [hspec]
    rfl
  have hversion : r.version = row.command.version := (congrArg Record.version hrecord).symm
  have hterminal : r.terminalAt = none :=
    (congrArg Record.terminalAt hrecord).symm.trans hadv.active
  have hnext : (r.saved (row.command.version + 1) c.record).record row.key = c.record := by
    have hq : r.queuedAt = c.record.queuedAt :=
      ((congrArg Record.queuedAt hrecord).symm).trans hadv.queuedAt.symm
    have hv : row.command.version + 1 = c.record.version := hadv.version.symm
    have hs : (r.record row.key).spec = c.record.spec := hspec.symm
    cases hc : c.record with
    | mk spec version status queuedAt publishedAt receivedAt terminalAt =>
        rw [hc] at hq hv hs
        simp only [Row.record, Row.saved, Record.mk.injEq] at hs ⊢
        exact ⟨hs, hv, trivial, hq, trivial, trivial, trivial⟩
  refine ⟨r, r.saved (row.command.version + 1) c.record, hr, rfl, hnext, ?_⟩
  have hchecked := Row.checked_of_valid (hnext ▸ c.record_valid)
  have hne : c.version ≠ row.command.version := by
    rw [hadv.version]
    omega
  have hguard : r.device = c.record.spec.scope.device ∧ r.version = row.command.version ∧
      r.terminalAt = none := ⟨by rw [hspec]; rfl, hversion, hterminal⟩
  unfold save
  rw [if_neg hne]
  dsimp only
  rw [hkey, hr]
  dsimp only
  rw [if_pos hguard, Command.succ_version]
  simp only [okOr_some, ok_bind]
  rw [Row.saved] at hchecked ⊢
  rw [if_pos hchecked]
  rfl

/-- What saving the result of a transition does. -/
structure Tx.Settles (tx : Tx) (row : Stored) (outcome : Outcome) (c : Command) (tx' : Tx) :
    Prop where
  moves : tx.Moves tx'
  others : ∀ key, key ≠ row.key → tx'.db.commands.get? key = tx.db.commands.get? key
  advanced : outcome = .advanced → tx'.writes = tx.writes ++ [.saved row.key c.status] ∧
    ∃ r, tx'.db.commands.get? row.key = some r ∧ r.record row.key = c.record

/-- A transition at the transaction's time is always saved. -/
theorem Tx.save_settles {tx : Tx} {row : Stored} {event : Event} {current : Coordinate}
    {outcome : Outcome} {c : Command} (h : tx.Holds row)
    (ht : row.command.transition event current tx.clock.now = .ok (outcome, c)) :
    ∃ tx', tx.save c row.command.version = .ok tx' ∧ tx.Settles row outcome c tx' := by
  rcases (Command.transition_eq_ok ht).2 with ⟨hd, rfl⟩ | ⟨rfl, status, hd, hc⟩
  · refine ⟨tx, by simp [save], .refl tx, fun _ _ => rfl, ?_⟩
    rintro rfl
    exact absurd hd (decision_ne_advanced _ _ _)
  · have hadv := Command.advances_of_decision hd hc
    obtain ⟨r, r', hr, hid, hrec, hsave⟩ := save_advanced h hadv
    refine ⟨_, hsave, ⟨rfl, rfl, rfl, le_rfl, ?_, ⟨[.saved row.key c.status], rfl,
      fun w hw => ⟨row.key, c.status, List.mem_singleton.mp hw⟩⟩, ?_⟩, ?_, ?_⟩
    · intro key
      rw [Table.get?_modify]
      split
      · rename_i hk
        subst hk
        simp [hr, hid]
      · rfl
    · intro authority hs key x hx
      dsimp only at hx
      rw [Table.get?_modify] at hx
      split at hx
      · rename_i hk
        subst hk
        obtain rfl : r' = x := by simpa [hr] using hx
        obtain ⟨hvalid, hpast, hcurrent, hsent⟩ := hs _ _ hr
        simp only [Row.identity, Prod.mk.injEq] at hid
        obtain ⟨hdev, hcoord, -, -, -, hmid, hfp, hdom⟩ := hid
        have hold : row.command.record = r.record row.key := by
          obtain ⟨r₀, hr₀, hdecode⟩ := h
          obtain rfl : r = r₀ := Option.some.inj (hr.symm.trans hr₀)
          exact (decode_eq_ok.mp hdecode).1
        refine ⟨hrec ▸ c.record_valid, ?_, ?_, ?_⟩
        · rw [hrec]
          exact hadv.past (hold ▸ hpast)
        · intro _
          rw [hdev, hcoord]
          exact hcurrent ((congrArg Record.terminalAt hold).symm.trans hadv.active)
        · rw [hmid, hfp, hdom]
          exact hsent
      · exact hs key x hx
    · intro key hk
      exact Table.get?_modify_of_ne _ hk _
    · intro _
      exact ⟨rfl, r', by simp [hr], hrec⟩

/-! ### Reading -/

namespace Tx

variable {tx tx' : Tx} {s : Scope} {id : CommandId} {authority : Uuid × DeviceId → Option Coordinate}

theorem scope_eq_ok : tx.scope s = .ok () ↔ tx.session.tenant = s.tenant := by
  unfold scope
  split <;> simp_all

theorem authority_eq_ok {current : Coordinate} (h : tx.authority s = .ok current) :
    tx.session.tenant = s.tenant ∧ tx.db.authorities.get? (s.tenant, s.device) = some current := by
  obtain ⟨_, hscope, h⟩ := bind_eq_ok.mp h
  exact ⟨scope_eq_ok.mp hscope, okOr_eq_ok.mp h⟩

/-- A row that was read is held, and belongs to the scope and id asked for. -/
theorem read_some {row : Stored} (h : tx.read s id = .ok (some row)) :
    tx.Holds row ∧ row.command.spec.scope = s ∧ row.command.spec.id = id := by
  obtain ⟨-, -, h⟩ := bind_eq_ok.mp h
  split at h
  · cases h
  · rename_i r hr
    obtain ⟨stored, hdecode, h⟩ := bind_eq_ok.mp h
    split at h
    · cases h
    · rename_i hscope
      cases h
      have hkey := key_of_decode hdecode
      refine ⟨⟨r, hkey ▸ hr, hkey ▸ hdecode⟩, not_not.mp hscope, congrArg Prod.snd hkey⟩

/-- Sound rows decode, each to the command under its key. -/
theorem mapM_decode (rows : List ((Uuid × CommandId) × Row))
    (h : ∀ row ∈ rows, (row.2.record row.1).Valid) :
    ∃ found, rows.mapM (fun row => decode row.1 row.2) = .ok found ∧
      List.Forall₂ (fun row stored => decode row.1 row.2 = .ok stored) rows found := by
  induction rows with
  | nil => exact ⟨[], rfl, .nil⟩
  | cons row rows ih =>
      obtain ⟨found, hfound, hall⟩ := ih (fun row' h' => h row' (List.mem_cons_of_mem _ h'))
      have hrow := Command.restore_of_valid (h row List.mem_cons_self)
      obtain ⟨stored, hdecode⟩ : ∃ stored, decode row.1 row.2 = .ok stored := by
        rw [decode, hrow]
        exact ⟨_, rfl⟩
      refine ⟨stored :: found, ?_, .cons hdecode hall⟩
      rw [List.mapM_cons, hdecode, ok_bind, hfound]
      rfl

theorem keys_of_decoded {rows : List ((Uuid × CommandId) × Row)} {found : List Stored}
    (h : List.Forall₂ (fun row stored => decode row.1 row.2 = .ok stored) rows found) :
    found.map Stored.key = rows.map Prod.fst := by
  induction h with
  | nil => rfl
  | cons h _ ih => simp only [List.map_cons, key_of_decode h, ih]

theorem mem_pageRows {after : Option CommandId} {limit : ℕ} {row : (Uuid × CommandId) × Row}
    (h : row ∈ tx.pageRows s after limit) :
    tx.db.commands.get? row.1 = some row.2 ∧ row.1.1 = s.tenant ∧ row.2.device = s.device ∧
      row.2.terminalAt = none := by
  have h := (List.perm_insertionSort _ _).mem_iff.mp (List.mem_of_mem_take h)
  obtain ⟨hmem, hrow⟩ := List.mem_filter.mp h
  obtain ⟨ht, hd, hn, -⟩ := of_decide_eq_true hrow
  exact ⟨Table.mem_rows.mp hmem, ht, hd, hn⟩

theorem pageRows_nodup (tx : Tx) (s : Scope) (after : Option CommandId) (limit : ℕ) :
    ((tx.pageRows s after limit).map Prod.fst).Nodup := by
  refine ((List.take_sublist _ _).map Prod.fst).nodup ?_
  refine ((List.perm_insertionSort _ _).map Prod.fst).nodup_iff.mpr ?_
  exact (List.filter_sublist.map Prod.fst).nodup tx.db.commands.nodup

/-- What a page of a sound transaction holds. -/
structure PageOf (tx : Tx) (s : Scope) (after : Option CommandId) (limit : ℕ)
    (rows : List Stored) : Prop where
  keys : rows.map Stored.key = (tx.pageRows s after limit).map Prod.fst
  nodup : (rows.map Stored.key).Nodup
  holds : ∀ row ∈ rows, tx.Holds row
  scope : ∀ row ∈ rows, row.command.spec.scope = s
  active : ∀ row ∈ rows, row.command.record.terminalAt = none

theorem page_of_sound (hs : tx.SoundAt authority) (hscope : tx.session.tenant = s.tenant)
    (after : Option CommandId) (limit : ℕ) :
    ∃ rows, tx.page s after limit = .ok rows ∧ tx.PageOf s after limit rows := by
  obtain ⟨rows, hrows, hall⟩ := mapM_decode (tx.pageRows s after limit)
    (fun row h => (hs row.1 row.2 (mem_pageRows h).1).valid)
  have hkeys := keys_of_decoded hall
  -- each command of the page comes from a row of the table
  have hfrom : ∀ stored ∈ rows, ∃ row ∈ tx.pageRows s after limit,
      decode row.1 row.2 = .ok stored := by
    intro stored h
    obtain ⟨i, hi, rfl⟩ := List.getElem_of_mem h
    have hi' : i < (tx.pageRows s after limit).length := by
      rw [hall.length_eq]
      exact hi
    exact ⟨_, List.getElem_mem hi', hall.get hi' hi⟩
  refine ⟨rows, ?_, hkeys, hkeys ▸ pageRows_nodup tx s after limit, ?_, ?_, ?_⟩
  · rw [page, scope_eq_ok.mpr hscope, ok_bind, hrows]
  · intro stored h
    obtain ⟨row, hrow, hdecode⟩ := hfrom stored h
    exact ⟨row.2, key_of_decode hdecode ▸ (mem_pageRows hrow).1, key_of_decode hdecode ▸ hdecode⟩
  · intro stored h
    obtain ⟨row, hrow, hdecode⟩ := hfrom stored h
    obtain ⟨-, ht, hd, -⟩ := mem_pageRows hrow
    rw [Command.spec, (decode_eq_ok.mp hdecode).1, Row.record, ht, hd]
  · intro stored h
    obtain ⟨row, hrow, hdecode⟩ := hfrom stored h
    rw [(decode_eq_ok.mp hdecode).1]
    exact (mem_pageRows hrow).2.2.2

theorem PageOf.of_page {after : Option CommandId} {limit : ℕ} {rows : List Stored}
    (hs : tx.SoundAt authority) (hscope : tx.session.tenant = s.tenant)
    (h : tx.page s after limit = .ok rows) : tx.PageOf s after limit rows := by
  obtain ⟨rows', hrows, hpage⟩ := page_of_sound hs hscope after limit
  cases hrows.symm.trans h
  exact hpage

/-! ### Reports and cancellations -/

/-- Reading the clock, a transition and its saving, as the operations do in a row. -/
theorem now_save_settles {row : Stored} {event : Event} {current : Coordinate}
    {outcome : Outcome} {c : Command} (h : tx.Holds row)
    (ht : row.command.transition event current tx.now.2 = .ok (outcome, c)) :
    ∃ tx', tx.now.1.save c row.command.version = .ok tx' ∧ tx.now.1.Settles row outcome c tx' :=
  save_settles h.now ht

theorem report_moves {input : DeviceReport} {outcome : Outcome} {c : Command}
    (h : tx.report input = .ok (tx', outcome, c)) : tx.Moves tx' := by
  obtain ⟨current, -, h⟩ := bind_eq_ok.mp h
  obtain ⟨found, hread, h⟩ := bind_eq_ok.mp h
  obtain ⟨row, hfound, h⟩ := bind_eq_ok.mp h
  rw [okOr_eq_ok.mp hfound] at hread
  obtain ⟨⟨outcome', c'⟩, ht, h⟩ := bind_eq_ok.mp h
  obtain ⟨tx₁, hsave, h⟩ := bind_eq_ok.mp h
  cases h
  unfold Command.report at ht
  split at ht
  · cases ht
  · obtain ⟨tx₂, hsave₂, hset⟩ := now_save_settles (read_some hread).1 ht
    cases hsave.symm.trans hsave₂
    exact tx.now_moves.trans hset.moves

theorem mutate_moves {event : Event} {coordinate : Coordinate} {outcome : Outcome} {c : Command}
    (h : tx.mutate s id event coordinate = .ok (tx', outcome, c)) : tx.Moves tx' := by
  obtain ⟨current, -, h⟩ := bind_eq_ok.mp h
  split at h
  · cases h
  · obtain ⟨found, hread, h⟩ := bind_eq_ok.mp h
    obtain ⟨row, hfound, h⟩ := bind_eq_ok.mp h
    rw [okOr_eq_ok.mp hfound] at hread
    obtain ⟨⟨outcome', c'⟩, ht, h⟩ := bind_eq_ok.mp h
    obtain ⟨tx₁, hsave, h⟩ := bind_eq_ok.mp h
    cases h
    obtain ⟨tx₂, hsave₂, hset⟩ := now_save_settles (read_some hread).1 ht
    cases hsave.symm.trans hsave₂
    exact tx.now_moves.trans hset.moves

/-! ### Recovery -/

/-- The events recovery chooses between, with the transaction at the time of the choice. -/
theorem recoveryEvent_eq_ok {current : Coordinate} {row : Stored} {event : Event} {time : ℤ}
    (h : tx.recoveryEvent current row = .ok (tx', event, time)) :
    tx.Moves tx' ∧ tx'.db = tx.db ∧ time = tx'.clock.now ∧
      (event = .supersede ∧ current ≠ row.command.spec.coordinate ∨ event = .expire ∨
        event = .published ∧ row.command.status = .queued) := by
  unfold recoveryEvent at h
  dsimp only at h
  split_ifs at h with hcoord hdead hqueued
  · cases h
    exact ⟨tx.now_moves, rfl, rfl, .inl ⟨rfl, hcoord⟩⟩
  · cases h
    exact ⟨tx.now_moves, rfl, rfl, .inr (.inl rfl)⟩
  · obtain ⟨published, -, h⟩ := bind_eq_ok.mp h
    cases h
    refine ⟨tx.now_moves.trans tx.now.1.now_moves, rfl, rfl, .inr ?_⟩
    cases published
    · exact .inl rfl
    · exact .inr ⟨rfl, hqueued⟩
  · cases h
    exact ⟨tx.now_moves, rfl, rfl, .inr (.inl rfl)⟩

/-- Recovering one command moves it, and leaves the rows of all others alone. -/
theorem recoverStored_moves {current : Coordinate} {row : Stored} {c : Command}
    (hold : tx.Holds row) (h : tx.recoverStored current row = .ok (tx', c)) :
    tx.Moves tx' ∧
      ∀ key, key ≠ row.key → tx'.db.commands.get? key = tx.db.commands.get? key := by
  unfold recoverStored at h
  split at h
  · cases h
    exact ⟨.refl tx, fun _ _ => rfl⟩
  · obtain ⟨⟨tx₁, event, time⟩, hevent, h⟩ := bind_eq_ok.mp h
    obtain ⟨⟨outcome, c'⟩, ht, h⟩ := bind_eq_ok.mp h
    dsimp only at h ht
    split at h
    · cases h
    · obtain ⟨tx₂, hsave, h⟩ := bind_eq_ok.mp h
      cases h
      obtain ⟨hmoves, hdb, rfl, -⟩ := recoveryEvent_eq_ok hevent
      have hold₁ : tx₁.Holds row := by
        unfold Holds
        rw [hdb]
        exact hold
      obtain ⟨tx₃, hsave₃, hset⟩ := save_settles hold₁ ht
      cases hsave.symm.trans hsave₃
      refine ⟨hmoves.trans hset.moves, ?_⟩
      intro key hk
      rw [hset.others key hk, hdb]

theorem Holds.of_others {row other : Stored} (h : tx.Holds other) (hne : other.key ≠ row.key)
    (hothers : ∀ key, key ≠ row.key → tx'.db.commands.get? key = tx.db.commands.get? key) :
    tx'.Holds other := by
  unfold Holds
  rw [hothers _ hne]
  exact h

theorem recoverRows_moves {current : Coordinate} {rows : List Stored} {cs : List Command}
    (hold : ∀ row ∈ rows, tx.Holds row) (hnodup : (rows.map Stored.key).Nodup)
    (h : recoverRows current rows tx = .ok (tx', cs)) : tx.Moves tx' := by
  induction rows generalizing tx cs with
  | nil =>
      cases h
      exact .refl _
  | cons row rows ih =>
      obtain ⟨⟨tx₁, c⟩, hrow, h⟩ := bind_eq_ok.mp h
      obtain ⟨⟨tx₂, cs'⟩, hrows, h⟩ := bind_eq_ok.mp h
      cases h
      obtain ⟨hnot, hnodup⟩ := List.nodup_cons.mp hnodup
      obtain ⟨hmoves, hothers⟩ := recoverStored_moves (hold row List.mem_cons_self) hrow
      refine hmoves.trans (ih ?_ hnodup hrows)
      intro other hother
      have hne : other.key ≠ row.key := fun he => hnot (he ▸ List.mem_map_of_mem hother)
      exact (hold other (List.mem_cons_of_mem _ hother)).of_others hne hothers

theorem recover_moves {limit : ℕ} {after next : Option CommandId} {cs : List Command}
    (hs : tx.SoundAt authority) (h : tx.recover s limit after = .ok (tx', cs, next)) :
    tx.Moves tx' := by
  obtain ⟨current, hcurrent, h⟩ := bind_eq_ok.mp h
  obtain ⟨rows, hrows, h⟩ := bind_eq_ok.mp h
  obtain ⟨⟨tx₁, cs'⟩, hrec, h⟩ := bind_eq_ok.mp h
  cases h
  have hpage := PageOf.of_page hs (authority_eq_ok hcurrent).1 hrows
  exact recoverRows_moves hpage.holds hpage.nodup hrec

theorem recoverExact_moves {c : Option Command} (h : tx.recoverExact s id = .ok (tx', c)) :
    tx.Moves tx' := by
  obtain ⟨current, -, h⟩ := bind_eq_ok.mp h
  obtain ⟨found, hread, h⟩ := bind_eq_ok.mp h
  cases found with
  | none =>
      cases h
      exact .refl tx
  | some row =>
      obtain ⟨⟨tx₁, c'⟩, hrow, h⟩ := bind_eq_ok.mp h
      cases h
      exact (recoverStored_moves (read_some hread).1 hrow).1

/-! #### Branches recovery does not take -/

theorem decision_recovery {status : Status} {event : Event} {expired : Bool} {outcome : Outcome}
    (hactive : status.isTerminal = false)
    (hevent : event = .expire ∨ event = .published ∧ status = .queued)
    (h : decision status event expired = .error outcome) : outcome = .duplicate := by
  unfold decision at h
  rcases hevent with rfl | ⟨rfl, rfl⟩
  · cases status <;> cases expired <;> simp_all [Status.isTerminal]
  · cases expired <;> simp_all [Status.isTerminal]

theorem save_ne_invalidSnapshot {c : Command} {previous : ℤ} :
    tx.save c previous ≠ .error .invalidSnapshot := by
  intro h
  unfold save at h
  split at h
  · cases h
  · dsimp only at h
    split at h
    · cases h
    · split at h
      · rcases bind_eq_error.mp h with h | ⟨version, -, h⟩
        · cases (okOr_eq_error.mp h).2
        · split at h <;> cases h
      · cases h

theorem isPublished_ne_invalidSnapshot {domain messageId : String} {expected : Digest} :
    tx.isPublished domain messageId expected ≠ .error .invalidSnapshot := by
  unfold isPublished
  split
  · exact nofun
  · split <;> exact nofun

/-- Under the command's own authority recovery never supersedes. -/
theorem recoveryEvent_ne_supersede {current : Coordinate} {row : Stored} {time : ℤ}
    (hcurrent : current = row.command.spec.coordinate) :
    tx.recoveryEvent current row ≠ .ok (tx', .supersede, time) := by
  intro h
  rcases (recoveryEvent_eq_ok h).2.2.2 with ⟨-, hne⟩ | h | ⟨h, -⟩
  · exact hne hcurrent
  · cases h
  · cases h

/-- Nor does it find an impossible snapshot. -/
theorem recoverStored_ne_invalidSnapshot {current : Coordinate} {row : Stored}
    (hcurrent : row.command.status.isTerminal = false → current = row.command.spec.coordinate)
    (hp : row.command.record.Past tx.clock.now) :
    tx.recoverStored current row ≠ .error .invalidSnapshot := by
  intro h
  unfold recoverStored at h
  split at h
  · cases h
  · rename_i hterminal
    have hterminal : row.command.status.isTerminal = false := by simpa using hterminal
    rcases bind_eq_error.mp h with h | ⟨⟨tx₁, event, time⟩, hevent, h⟩
    · unfold recoveryEvent at h
      dsimp only at h
      split_ifs at h
      rcases bind_eq_error.mp h with h | ⟨published, -, h⟩
      · exact isPublished_ne_invalidSnapshot h
      · cases h
    · obtain ⟨hmoves, -, rfl, hchoice⟩ := recoveryEvent_eq_ok hevent
      rcases bind_eq_error.mp h with h | ⟨⟨outcome, c⟩, ht, h⟩
      · exact Command.transition_ne_invalidSnapshot (hp.mono hmoves.now_le) h
      · have hne : ¬ (outcome = .outOfOrder ∨ outcome = .late) := by
          rcases (Command.transition_eq_ok ht).2 with ⟨hd, -⟩ | ⟨rfl, -⟩
          · have hchoice := hchoice.resolve_left (fun hs => hs.2 (hcurrent hterminal))
            cases decision_recovery hterminal hchoice hd
            simp
          · simp
        dsimp only at h
        rw [if_neg hne] at h
        rcases bind_eq_error.mp h with h | ⟨tx₂, -, h⟩
        · exact save_ne_invalidSnapshot h
        · cases h

theorem recoverRows_ne_invalidSnapshot {current : Coordinate} {rows : List Stored}
    (hs : tx.SoundAt authority) (hold : ∀ row ∈ rows, tx.Holds row)
    (hnodup : (rows.map Stored.key).Nodup)
    (hcurrent : ∀ row ∈ rows, row.command.status.isTerminal = false →
      current = row.command.spec.coordinate) :
    recoverRows current rows tx ≠ .error .invalidSnapshot := by
  induction rows generalizing tx with
  | nil => exact nofun
  | cons row rows ih =>
      have hrow := hold row List.mem_cons_self
      obtain ⟨hnot, hnodup⟩ := List.nodup_cons.mp hnodup
      intro h
      rcases bind_eq_error.mp h with h | ⟨⟨tx₁, c⟩, hone, h⟩
      · exact recoverStored_ne_invalidSnapshot (hcurrent row List.mem_cons_self) (hrow.past hs) h
      · obtain ⟨hmoves, hothers⟩ := recoverStored_moves hrow hone
        rcases bind_eq_error.mp h with h | ⟨⟨tx₂, cs⟩, -, h⟩
        · refine ih (hmoves.sound _ hs) ?_ hnodup
            (fun other h => hcurrent other (List.mem_cons_of_mem _ h)) h
          intro other hother
          have hne : other.key ≠ row.key := fun he => hnot (he ▸ List.mem_map_of_mem hother)
          exact (hold other (List.mem_cons_of_mem _ hother)).of_others hne hothers
        · cases h

theorem read_ne_invalidSnapshot (hs : tx.SoundAt authority) :
    tx.read s id ≠ .error .invalidSnapshot := by
  intro h
  rcases bind_eq_error.mp h with h | ⟨_, -, h⟩
  · unfold scope at h
    split at h <;> cases h
  · split at h
    · cases h
    · rename_i r hr
      have hdecode := Command.restore_of_valid (hs _ r hr).valid
      rcases bind_eq_error.mp h with h | ⟨stored, -, h⟩
      · rw [decode, hdecode] at h
        cases h
      · split at h <;> cases h

theorem authority_ne_invalidSnapshot : tx.authority s ≠ .error .invalidSnapshot := by
  intro h
  rcases bind_eq_error.mp h with h | ⟨_, -, h⟩
  · unfold scope at h
    split at h <;> cases h
  · cases (okOr_eq_error.mp h).2

end Tx

end Rss.DeviceCommand
