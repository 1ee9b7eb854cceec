import Rss.Library.Runs
import Rss.Verification.DeviceCommand.Rows
import Rss.Verification.DeviceCommand.Snapshots

/-! # Histories of the stored commands

Every row a history writes carries the snapshot of the core it was written from. A caller may save a
command long after it read it: the version of the row says whether the row still carries it. -/

namespace Rss.DeviceCommand.Schema

open Rss.Sql Command

variable {db db' db₀ : Database} {s s' : State} {key : Uuid × String} {row : CommandRow}

/-! ### What holds throughout -/

/-- A command that was read is the snapshot of its row for as long as the row keeps the version. -/
def Held (db : Database) (c : Command) : Prop :=
  (keyOf c).1 ≠ 0 ∧ ∃ row, db.commands.get? (keyOf c) = some row ∧ c.version ≤ row.version ∧
    (row.version = c.version → ∃ st : Stored, st.command = c ∧ row = st.row)

structure Inv (db₀ : Database) (s : State) : Prop where
  admitted : ∀ key row, s.db.commands.get? key = some row → Admitted (checks key.2 row)
  decoded : ∀ key row, s.db.commands.get? key = some row →
    db₀.commands.get? key = some row ∨ ∃ st, decode key row = .ok st
  held : ∀ c ∈ s.held, Held s.db c

/-! ### Saving -/

/-- The next snapshot of the same command. -/
def Stored.advanced (st : Stored) (next : Command) : Stored := { st with command := next }

/-- The database with another row in the place of one. -/
def Database.put (db : Database) (key : Uuid × String) (row : CommandRow) : Database :=
  { db with commands := db.commands.modify key (fun _ => row) }

/-- The statement changes the row of the command at its version, unless it is terminal. -/
theorem Database.save_stored {st : Stored} {c next : Command} {now : ℤ} (hst : st.command = c)
    (hrow : db.commands.get? (keyOf c) = some st.row) (hadv : c.Advances next now) :
    db.save next.spec.scope.tenant next.spec.scope.device.uuid next.spec.id.value c.version
      next.status.asStr next.record.publishedAt next.record.receivedAt next.record.terminalAt =
    .ok (db.put (keyOf c) (st.advanced next).row, true) := by
  have hversion : ranged 64 (c.version + 1) = .ok (c.version + 1) := by
    have hbounds := c.record_valid.version_bounds
    have hlow : 0 < c.version := hbounds.1
    have hhigh : c.version ≤ 4 := hbounds.2
    refine ranged_eq_ok.mpr ⟨rfl, ?_, ?_⟩ <;> norm_num <;> omega
  have hnext : ({ st.row with
      status := next.status.asStr
      version := c.version + 1
      publishedAt := next.record.publishedAt
      receivedAt := next.record.receivedAt
      terminalAt := next.record.terminalAt } : CommandRow) =
      (st.advanced next).row := by
    unfold Stored.row Stored.typed columns Stored.advanced
    simp only [hst, hadv.spec, hadv.queuedAt, hadv.version]
  have hadmitted : Admitted (checks next.spec.id.value (st.advanced next).row) :=
    (st.advanced next).admitted
  have hactive : st.row.terminalAt = none := by
    show st.command.record.terminalAt = none
    rw [hst]
    exact hadv.active
  unfold Database.save
  rw [hadv.spec] at hadmitted ⊢
  have hkey : db.commands.get? (c.spec.scope.tenant, c.spec.id.value) = some st.row := hrow
  rw [hkey]
  dsimp only
  rw [if_pos ⟨by rw [← hst]; rfl, by rw [← hst]; rfl, hactive⟩, hversion, ok_bind, hnext,
    if_neg (not_not.mpr hadmitted)]
  rfl

/-- Saving a transition of a command that was read leaves the database alone, is refused, or puts the
next snapshot in the place of the one that was read. No constraint ever refuses it. -/
theorem save_cases {c next : Command} {event : Event} {current : Coordinate} {now : ℤ}
    {outcome : DeviceCommand.Outcome} (hheld : Held db c)
    (h : c.transition event current now = .ok (outcome, next)) :
    (outcome ≠ .advanced ∧ save db next c.version = .ok db) ∨
    save db next c.version = .error (.refused .fenced) ∨
    ∃ st : Stored, st.command = c ∧ db.commands.get? (keyOf c) = some st.row ∧
      c.record.terminalAt = none ∧ next.version = c.version + 1 ∧ keyOf next = keyOf c ∧
      save db next c.version = .ok (db.put (keyOf c) (st.advanced next).row) := by
  obtain ⟨-, ⟨hd, hsame⟩ | ⟨-, status, hd, hnext⟩⟩ := transition_eq_ok h
  · refine .inl ⟨fun he => decision_ne_advanced _ _ _ (he ▸ hd), ?_⟩
    rw [hsame]
    exact if_pos rfl
  have hadv := advances_of_decision hd hnext
  have hne : next.version ≠ c.version := by
    rw [hadv.version]
    omega
  obtain ⟨-, row, hrow, -, hcarries⟩ := hheld
  have hkeys : keyOf next = keyOf c := by
    unfold keyOf
    rw [hadv.spec]
  by_cases hversion : row.version = c.version
  · obtain ⟨st, hst, hrowst⟩ := hcarries hversion
    rw [hrowst] at hrow
    refine .inr (.inr ⟨st, hst, hrow, hadv.active, hadv.version, hkeys, ?_⟩)
    have hsave := Database.save_stored hst hrow hadv
    unfold save
    rw [if_neg hne]
    dsimp only
    rw [show next.record.spec = next.spec from rfl, show next.record.status = next.status from rfl,
      hsave]
    rfl
  · refine .inr (.inl ?_)
    have hkey : db.commands.get? (next.spec.scope.tenant, next.spec.id.value) = some row := by
      rw [hadv.spec]
      exact hrow
    unfold save Database.save
    rw [if_neg hne]
    dsimp only
    rw [show next.record.spec = next.spec from rfl, hkey]
    dsimp only
    rw [if_neg fun hrows => hversion hrows.2.1]
    rfl

/-! ### Enqueueing -/

/-- A queued command finds its authority elsewhere, or its snapshot is a new row. -/
theorem enqueue_cases {spec : CommandSpec} {now : ℤ} {c : Command} {m : MessageId} {f : Digest}
    {d : MessagingDomain} (hqueue : Command.queue spec now = .ok c)
    (h : enqueue db c m f d = .ok db') :
    db' = db ∨ db.commands.get? (keyOf c) = none ∧
      db' = { db with commands := db.commands.insertNew (keyOf c) (Stored.row ⟨c, m, f, d⟩) } := by
  obtain ⟨-, hrecord⟩ := queue_eq_ok.mp hqueue
  unfold enqueue at h
  have h := mapError_eq_ok.mp h
  unfold Database.enqueue at h
  dsimp only at h
  split at h
  · exact .inl (Except.ok.inj h).symm
  · split at h
    · cases h
    · split at h
      · cases h
      · next hnew =>
          have hnone : db.commands.get? (keyOf c) = none := by
            have hfresh := not_or.mp hnew
            exact Option.not_isSome_iff_eq_none.mp hfresh.1
          refine .inr ⟨hnone, ?_⟩
          rw [← Except.ok.inj h]
          have hstatus : c.status = .queued := congrArg Record.status hrecord
          have hversion : c.version = 1 := congrArg Record.version hrecord
          have hspec : c.spec = spec := congrArg Record.spec hrecord
          unfold Stored.row Stored.typed columns keyOf
          simp only [hstatus, hversion, hspec, hrecord]
          rfl

/-! ### One call -/

theorem Held.put {c d : Command} {next : Command} {st : Stored} (h : Held db d)
    (hst : st.command = c) (hrow : db.commands.get? (keyOf c) = some st.row)
    (hversion : next.version = c.version + 1) :
    Held (db.put (keyOf c) (st.advanced next).row) d := by
  obtain ⟨hne, row, hfound, hle, hcarries⟩ := h
  refine ⟨hne, ?_⟩
  by_cases hkey : keyOf d = keyOf c
  · rw [hkey, hrow] at hfound
    have hnext : (st.advanced next).row.version = c.version + 1 := hversion
    have hbefore : row.version = c.version := by
      rw [← Option.some.inj hfound, ← hst]
      rfl
    refine ⟨(st.advanced next).row, ?_, by omega, fun he => ?_⟩
    · rw [hkey]
      exact Table.get?_modify_const hrow _
    · omega
  · exact ⟨row, (Table.get?_modify_of_ne _ hkey _).trans hfound, hle, hcarries⟩

theorem Held.insertNew {c : Command} {row : CommandRow} (h : Held db c) :
    Held { db with commands := db.commands.insertNew key row } c := by
  obtain ⟨hne, own, hfound, hrest⟩ := h
  refine ⟨hne, own, ?_, hrest⟩
  rw [Table.get?_insertNew]
  by_cases hkey : keyOf c = key
  · rw [if_pos hkey, ← hkey, hfound]
    rfl
  · rw [if_neg hkey]
    exact hfound

/-- The snapshot's row is let through and decodes to it. -/
theorem Stored.decodes (st : Stored) (hne : (keyOf st.command).1 ≠ 0) :
    Admitted (checks (keyOf st.command).2 st.row) ∧ decode (keyOf st.command) st.row = .ok st :=
  ⟨st.admitted, decode_eq_ok.mpr ⟨hne, rfl, rfl⟩⟩

theorem Inv.step {call : Call} (hi : Inv db₀ s) (h : Step s call s') : Inv db₀ s' := by
  cases h with
  | initialized execute =>
      unfold Database.insertAuthority at execute
      split at execute <;> cases execute
      exact ⟨hi.admitted, hi.decoded, hi.held⟩
  | advance execute =>
      unfold Database.advance at execute
      split at execute
      · split at execute <;> cases execute
        exact ⟨hi.admitted, hi.decoded, hi.held⟩
      · cases execute
  | @enqueue db spec now c m f d tenant queue execute =>
      obtain rfl | ⟨hnone, rfl⟩ := enqueue_cases queue execute
      · exact hi
      have hspec : c.spec = spec := congrArg Record.spec (queue_eq_ok.mp queue).2
      have hnew := Stored.decodes ⟨c, m, f, d⟩ (by
        show c.spec.scope.tenant ≠ 0
        rw [hspec]
        exact tenant)
      constructor
      · intro key row hrow
        rw [Table.get?_insertNew] at hrow
        split at hrow
        · next hkey =>
            rw [hnone] at hrow
            cases hrow
            exact hkey ▸ hnew.1
        · exact hi.admitted key row hrow
      · intro key row hrow
        rw [Table.get?_insertNew] at hrow
        split at hrow
        · next hkey =>
            rw [hnone] at hrow
            cases hrow
            exact .inr ⟨_, hkey ▸ hnew.2⟩
        · exact hi.decoded key row hrow
      · exact fun c hc => (hi.held c hc).insertNew
  | @read key row st found decoded =>
      refine ⟨hi.admitted, hi.decoded, fun c hc => ?_⟩
      rcases List.mem_cons.mp hc with rfl | hc
      · obtain ⟨hne, hkey, hrow⟩ := decode_eq_ok.mp decoded
        refine ⟨hkey ▸ hne, row, hkey ▸ found, ?_, fun _ => ⟨st, rfl, hrow⟩⟩
        rw [hrow]
        exact le_refl _
      · exact hi.held c hc
  | @save db c next event current now outcome held transition execute =>
      have hheld := hi.held c held
      rcases save_cases hheld transition with ⟨-, hsave⟩ | hsave |
        ⟨st, hst, hrow, -, hversion, hkeys, hsave⟩
      · rw [hsave] at execute
        cases execute
        exact hi
      · rw [hsave] at execute
        cases execute
      · rw [hsave] at execute
        cases execute
        have hnew := (st.advanced next).decodes (by
          show (keyOf next).1 ≠ 0
          rw [hkeys]
          exact hheld.1)
        have hkey : keyOf (st.advanced next).command = keyOf c := hkeys
        rw [hkey] at hnew
        constructor
        · intro key row hput
          by_cases hk : key = keyOf c
          · rw [hk, Database.put, Table.get?_modify_const hrow] at hput
            cases hput
            exact hk ▸ hnew.1
          · exact hi.admitted key row ((Table.get?_modify_of_ne _ hk _).symm.trans hput)
        · intro key row hput
          by_cases hk : key = keyOf c
          · rw [hk, Database.put, Table.get?_modify_const hrow] at hput
            cases hput
            exact .inr ⟨_, hk ▸ hnew.2⟩
          · exact hi.decoded key row ((Table.get?_modify_of_ne _ hk _).symm.trans hput)
        · exact fun d hd => (hi.held d hd).put hst hrow hversion

theorem inv_of_runs {calls : List Call}
    (hchecked : ∀ key row, db₀.commands.get? key = some row → Admitted (checks key.2 row))
    (h : Runs Step ⟨db₀, []⟩ calls s) : Inv db₀ s := by
  induction h with
  | nil => exact ⟨hchecked, fun _ _ hrow => .inl hrow, fun c hc => absurd hc List.not_mem_nil⟩
  | snoc _ hstep ih => exact ih.step hstep

/-! ### Rows are snapshots -/

/-- What saving a transition of a command that was read does to the rows: nothing, or the row that
still carries it, active and at its version, comes to carry the next snapshot. -/
structure Saves (db : Database) (c next : Command) (outcome : DeviceCommand.Outcome) : Prop where
  admitted : ∀ fault, save db next c.version ≠ .error (.statement fault)
  changed : ∀ db', save db next c.version = .ok db' → ∀ key,
    db'.commands.get? key ≠ db.commands.get? key → key = keyOf c ∧
      ∃ row, db.commands.get? key = some row ∧ row.version = c.version ∧ row.terminalAt = none
  decodes : ∀ db', save db next c.version = .ok db' → outcome = .advanced →
    ∃ row st, db'.commands.get? (keyOf c) = some row ∧ decode (keyOf c) row = .ok st ∧
      st.command = next

theorem saves_of_held {c next : Command} {event : Event} {current : Coordinate} {now : ℤ}
    {outcome : DeviceCommand.Outcome} (hheld : Held db c)
    (h : c.transition event current now = .ok (outcome, next)) : Saves db c next outcome := by
  rcases save_cases hheld h with ⟨houtcome, hsave⟩ | hsave |
    ⟨st, hst, hrow, hactive, hversion, hkeys, hsave⟩
  · constructor
    · intro fault hfault
      rw [hsave] at hfault
      cases hfault
    · intro db' hdb key hne
      rw [hsave] at hdb
      cases hdb
      exact absurd rfl hne
    · exact fun _ _ hadvanced => absurd hadvanced houtcome
  · constructor
    · intro fault hfault
      rw [hsave] at hfault
      cases hfault
    all_goals
      intro db' hdb
      rw [hsave] at hdb
      cases hdb
  · constructor
    · intro fault hfault
      rw [hsave] at hfault
      cases hfault
    · intro db' hdb key hne
      rw [hsave] at hdb
      cases hdb
      by_cases hk : key = keyOf c
      · refine ⟨hk, st.row, hk ▸ hrow, ?_, ?_⟩
        · rw [← hst]
          rfl
        · rw [← hst] at hactive
          exact hactive
      · exact absurd (Table.get?_modify_of_ne _ hk _) hne
    · intro db' hdb _
      rw [hsave] at hdb
      cases hdb
      have hkey : keyOf (st.advanced next).command = keyOf c := hkeys
      have hdecodes := ((st.advanced next).decodes (hkey ▸ hheld.1)).2
      exact ⟨_, st.advanced next, Table.get?_modify_const hrow _, hkey ▸ hdecodes, rfl⟩

/-- The rows of the schema are the snapshots of the core, whatever rows the schema admits were there
before. Every snapshot is let through by the constraints; every row a history leaves is let through,
and it was there before or it decodes; a queued command's new row decodes to it; and no constraint
refuses to save a transition of a command that was read, which changes its row only at its version
and before it is terminal, and into one that decodes to the next snapshot. -/
theorem rows_are_snapshots {calls : List Call}
    (hchecked : ∀ key row, db₀.commands.get? key = some row → Admitted (checks key.2 row))
    (h : Runs Step ⟨db₀, []⟩ calls s) :
    (∀ st : Stored, Admitted (checks st.command.spec.id.value st.row)) ∧
    (∀ key row, s.db.commands.get? key = some row → Admitted (checks key.2 row) ∧
      (db₀.commands.get? key = some row ∨ ∃ st, decode key row = .ok st)) ∧
    (∀ c m f d s', Step s (.enqueue c m f d) s' → s'.db = s.db ∨
      s.db.commands.get? (keyOf c) = none ∧ ∃ row, s'.db.commands.get? (keyOf c) = some row ∧
        decode (keyOf c) row = .ok ⟨c, m, f, d⟩) ∧
    (∀ c ∈ s.held, ∀ event current now outcome next,
      c.transition event current now = .ok (outcome, next) → Saves s.db c next outcome) := by
  have hi := inv_of_runs hchecked h
  refine ⟨fun st => st.admitted, ?_, ?_, ?_⟩
  · exact fun key row hrow => ⟨hi.admitted key row hrow, hi.decoded key row hrow⟩
  · intro c m f d s' hstep
    cases hstep with
    | enqueue tenant queue execute =>
        rcases enqueue_cases queue execute with hsame | ⟨hnone, hdb⟩
        · exact .inl hsame
        refine .inr ⟨hnone, Stored.row ⟨c, m, f, d⟩, ?_, ?_⟩
        · show Table.get? (Database.commands _) _ = _
          rw [hdb, Table.get?_insertNew_self, hnone]
          rfl
        · have hspec : c.spec = _ := congrArg Record.spec (queue_eq_ok.mp queue).2
          refine (Stored.decodes ⟨c, m, f, d⟩ ?_).2
          show c.spec.scope.tenant ≠ 0
          rw [hspec]
          exact tenant
  · intro c hc event current now outcome next ht
    exact saves_of_held (hi.held c hc) ht

/-- A valve to be drained. -/
def valveSpec : CommandSpec where
  scope := ⟨1, ⟨6, by decide⟩⟩
  id := ⟨"drain", by decide⟩
  coordinate := ⟨1, 1, le_refl 1, le_refl 1⟩
  expected := 7
  deadline := 100

def valveQueued : Command :=
  ⟨⟨valveSpec, 1, .queued, 10, none, none, none⟩, by decide⟩

def valvePublished : Command :=
  ⟨⟨valveSpec, 2, .published, 10, some 20, none, none⟩, by decide⟩

def valveReceived : Command :=
  ⟨⟨valveSpec, 3, .received, 10, some 20, some 30, none⟩, by decide⟩

def valveStored : Stored := ⟨valveQueued, ⟨"m1", by decide⟩, 9, ⟨"device", by decide⟩⟩

/-- A command that the table held before. -/
def valveFilled : Stored :=
  ⟨⟨⟨{ valveSpec with id := ⟨"fill", by decide⟩ }, 4, .applied, 1, some 2, some 3, some 4⟩,
    by decide⟩, ⟨"m0", by decide⟩, 8, ⟨"device", by decide⟩⟩

def valveDatabase : Database where
  authorities := Table.empty.insertNew (1, 6) (1, 1)
  commands := Table.empty.insertNew (1, "fill") valveFilled.row

/-- The command is published after it is read, and read again. -/
def valveState : State where
  db := Database.put { valveDatabase with
    commands := valveDatabase.commands.insertNew (1, "drain") valveStored.row } (1, "drain")
      (valveStored.advanced valvePublished).row
  held := [valvePublished, valveQueued]

theorem valveDatabase_checked (key : Uuid × String) (row : CommandRow)
    (h : valveDatabase.commands.get? key = some row) : Admitted (checks key.2 row) := by
  have hrows := Table.mem_rows.mpr h
  rw [show valveDatabase.commands.rows = [((1, "fill"), valveFilled.row)] from rfl,
    List.mem_singleton] at hrows
  cases hrows
  exact valveFilled.admitted

/-- The row of the command that was published comes to carry its receipt, and the other stays. -/
theorem rows_are_snapshots_valve : ∃ calls, Runs Step ⟨valveDatabase, []⟩ calls valveState ∧
    valveState.db.commands.get? (1, "fill") = some valveFilled.row ∧
    (∃ st, decode (1, "drain") (valveStored.advanced valvePublished).row = .ok st) ∧
    valvePublished.transition .received valveSpec.coordinate 30 = .ok (.advanced, valveReceived) ∧
    Saves valveState.db valvePublished valveReceived .advanced := by
  have hrun : Runs Step ⟨valveDatabase, []⟩
      [.enqueue valveQueued valveStored.messageId valveStored.fingerprint valveStored.domain,
        .read (1, "drain"), .save valvePublished 1, .read (1, "drain")] valveState := by
    have hqueue : Command.queue valveSpec 10 = .ok valveQueued := rfl
    have hpublish : valveQueued.transition .published valveSpec.coordinate 20 =
        .ok (.advanced, valvePublished) := rfl
    have hqueued := valveStored.decodes (by decide)
    have hpublished := (valveStored.advanced valvePublished).decodes (by decide)
    exact (((Runs.single (.enqueue (by decide) hqueue rfl)).snoc (.read rfl hqueued.2)).snoc
      (.save (List.mem_singleton_self _) hpublish rfl)).snoc (.read rfl hpublished.2)
  have hreceive : valvePublished.transition .received valveSpec.coordinate 30 =
      .ok (.advanced, valveReceived) := rfl
  obtain ⟨-, hrows, -, hsaves⟩ := rows_are_snapshots valveDatabase_checked hrun
  refine ⟨_, hrun, rfl, ?_, hreceive, hsaves _ List.mem_cons_self _ _ _ _ _ hreceive⟩
  obtain ⟨-, hbefore | hdecodes⟩ := hrows (1, "drain") _ rfl
  · cases hbefore
  · exact hdecodes

end Rss.DeviceCommand.Schema
