import Rss.Model.Observation.Journal
import Rss.Verification.Observation.Chain

/-! # Coherent observation stores

What the stored functions check, what their writes keep, and what the upgrade establishes: the
positions of the applicable reports are those the journal row counts, and every stream is the
fold of its reports. -/

namespace Rss.Observation

namespace Store

/-! ### What the stored functions check -/

theorem lockObject_eq_ok {s : Store} {scope : Scope} :
    s.lockObject scope = .ok () ↔
      ∃ o, s.objects.get? scope.object = some o ∧ o.registration = some scope.registration := by
  unfold lockObject
  rw [← Option.bind_eq_some_iff]
  split <;> simp_all

theorem selectStream_eq_ok {s : Store} {scope : Scope} {row : StreamRow} :
    s.selectStream scope = .ok row ↔
      s.streams.get? scope = some row ∧
        ∀ other r, s.streams.get? other = some r → Scope.sameDataset other scope = true →
          r.activationRevision ≤ row.activationRevision := by
  unfold selectStream
  cases hget : s.streams.get? scope with
  | none => simp
  | some selected =>
      have hself : Scope.sameDataset scope scope = true := by simp [Scope.sameDataset]
      have hmem : selected.activationRevision ∈
          (s.streams.rows.filter (fun r => Scope.sameDataset r.1 scope)).map
            (fun r => r.2.activationRevision) :=
        List.mem_map.mpr ⟨(scope, selected),
          List.mem_filter.mpr ⟨Table.mem_rows.mpr hget, hself⟩, rfl⟩
      have hmax : ((s.streams.rows.filter (fun r => Scope.sameDataset r.1 scope)).map
            (fun r => r.2.activationRevision)).max? = some selected.activationRevision ↔
          ∀ other r, s.streams.get? other = some r → Scope.sameDataset other scope = true →
            r.activationRevision ≤ selected.activationRevision := by
        rw [List.max?_eq_some_iff]
        constructor
        · intro h other r hr hsame
          exact h.2 _ (List.mem_map.mpr ⟨(other, r),
            List.mem_filter.mpr ⟨Table.mem_rows.mpr hr, hsame⟩, rfl⟩)
        · intro h
          refine ⟨hmem, fun n hn => ?_⟩
          obtain ⟨⟨other, r⟩, hr, rfl⟩ := List.mem_map.mp hn
          obtain ⟨hr, hsame⟩ := List.mem_filter.mp hr
          exact h other r (Table.mem_rows.mp hr) hsame
      by_cases hall : ((s.streams.rows.filter (fun r => Scope.sameDataset r.1 scope)).map
            (fun r => r.2.activationRevision)).max? = some selected.activationRevision
      · simp only [hall, ne_eq, not_true_eq_false, if_false, Except.ok.injEq, Option.some.injEq]
        constructor
        · rintro rfl
          exact ⟨rfl, hmax.mp hall⟩
        · exact fun h => h.1
      · simp only [ne_eq, hall, not_false_eq_true, if_true, Option.some.injEq]
        constructor
        · intro h
          cases h
        · rintro ⟨rfl, h⟩
          exact absurd (hmax.mpr h) hall

theorem lockStream_eq_ok {s : Store} {scope : Scope} {row : StreamRow} :
    s.lockStream scope = .ok row ↔
      s.lockObject scope = .ok () ∧ s.selectStream scope = .ok row := by
  unfold lockStream
  rw [bind_eq_ok]
  constructor
  · rintro ⟨⟨⟩, h⟩
    exact h
  · exact fun h => ⟨(), h⟩

/-- A write of `activate` starts a new stream, one revision above its object. -/
theorem activate_eq_some {s : Store} {scope : Scope} {expected : Option ℕ} {policy : Policy}
    {revision : ℕ} {write : Write} :
    s.activate scope expected policy = .ok (revision, some write) ↔
      s.streams.get? scope = none ∧
        (expected = none ∧ ((s.objects.get? scope.object).getD ⟨none, 0⟩).revision = 0 ∨
          expected = some ((s.objects.get? scope.object).getD ⟨none, 0⟩).revision) ∧
        (((s.objects.get? scope.object).getD ⟨none, 0⟩).registration ≠ some scope.registration →
          ∀ other r, s.streams.get? other = some r → other.object = scope.object →
            other.registration ≠ scope.registration) ∧
        revision = ((s.objects.get? scope.object).getD ⟨none, 0⟩).revision + 1 ∧
        revision ≤ maxRevision ∧
        write = .activation scope expected policy revision := by
  unfold activate
  generalize (s.objects.get? scope.object).getD ⟨none, 0⟩ = current
  have hany : s.streams.rows.any (fun r => r.1.object = scope.object &&
      r.1.registration = scope.registration) = true ↔
      ∃ other r, s.streams.get? other = some r ∧ other.object = scope.object ∧
        other.registration = scope.registration := by
    simp [List.any_eq_true, Table.mem_rows]
  cases hget : s.streams.get? scope with
  | some prior =>
      by_cases h : prior.activationPrevious = expected ∧ prior.policy = policy <;> simp [h]
  | none =>
      dsimp only
      by_cases hcas : expected = none ∧ current.revision = 0 ∨ expected = some current.revision
      · by_cases hretired : current.registration ≠ some scope.registration ∧
          s.streams.rows.any (fun r => r.1.object = scope.object &&
            r.1.registration = scope.registration) = true
        · rw [if_neg (not_not.mpr hcas), if_pos hretired]
          obtain ⟨hne, other, r, hr, ho, hreg⟩ := And.imp_right hany.mp hretired
          simp only [reduceCtorEq, false_iff, not_and]
          exact fun _ _ h => absurd hreg (h hne other r hr ho)
        · rw [if_neg (not_not.mpr hcas), if_neg hretired]
          have hfree : current.registration ≠ some scope.registration →
              ∀ other r, s.streams.get? other = some r → other.object = scope.object →
                other.registration ≠ scope.registration :=
            fun hne other r hr ho hreg => hretired ⟨hne, hany.mpr ⟨other, r, hr, ho, hreg⟩⟩
          by_cases hmax : current.revision + 1 > maxRevision
          · rw [if_pos hmax]
            simp only [reduceCtorEq, false_iff, not_and]
            rintro _ _ _ rfl hle
            exact absurd hle (Nat.not_le.mpr hmax)
          · rw [if_neg hmax]
            simp only [Except.ok.injEq, Prod.mk.injEq, Option.some.injEq, true_and]
            constructor
            · rintro ⟨rfl, rfl⟩
              exact ⟨hcas, hfree, rfl, Nat.not_lt.mp hmax, rfl⟩
            · rintro ⟨-, -, rfl, -, rfl⟩
              exact ⟨rfl, rfl⟩
      · rw [if_pos hcas]
        simp only [reduceCtorEq, false_iff, not_and]
        exact fun _ h => absurd h hcas

/-- The row `commit_batch` writes, with the journal row, at this store. -/
theorem commitBatch_eq_ok {s : Store} {scope : Scope} {id : Id} {sequence : ℕ} {raw : Batch}
    {fingerprint : List UInt8} {receivedAt : ℕ} {policy : Policy} {decision : Decision}
    {expected : ℕ} {applicable : Bool} {write : Write} :
    s.commitBatch scope id sequence raw fingerprint receivedAt policy decision expected
        applicable = .ok write ↔
      (∃ current, s.lockStream scope = .ok current ∧ current.state.revision = expected ∧
        current.state = decision.before ∧ decision.after.revision = expected + 1 ∧
        current.policy = policy) ∧
      (∀ id' row, s.batches.get? (scope, id') = some row →
        id' ≠ id ∧ row.sequence ≠ sequence) ∧
      ∃ logPosition journal, s.nextPosition applicable = .ok (logPosition, journal) ∧
        write = .batch scope id
          ⟨sequence, raw, fingerprint, receivedAt, policy, decision, applicable, logPosition⟩
          journal := by
  have hany : s.batches.rows.any (fun r => r.1.1 = scope &&
      (r.1.2 = id || r.2.sequence = sequence)) = true ↔
      ¬ ∀ id' row, s.batches.get? (scope, id') = some row → id' ≠ id ∧ row.sequence ≠ sequence := by
    simp [List.any_eq_true, Table.mem_rows]
    grind
  unfold commitBatch
  rw [bind_eq_ok]
  constructor
  · rintro ⟨current, hcurrent, h⟩
    split at h
    · cases h
    · rename_i hcas
      simp only [not_or, not_not, ne_eq] at hcas
      obtain ⟨⟨logPosition, journal⟩, hnext, h⟩ := bind_eq_ok.mp h
      dsimp only at h
      split at h
      · cases h
      · rename_i hnone
        rw [hany, not_not] at hnone
        exact ⟨⟨current, hcurrent, hcas⟩, hnone, logPosition, journal, hnext,
          (Except.ok.inj h).symm⟩
  · rintro ⟨⟨current, hcurrent, hcas⟩, hnone, logPosition, journal, hnext, rfl⟩
    refine ⟨current, hcurrent, ?_⟩
    rw [if_neg (by simp only [not_or, not_not, ne_eq]; exact hcas), bind_eq_ok]
    refine ⟨(logPosition, journal), hnext, ?_⟩
    exact if_neg (fun h => hany.mp h hnone)

/-- Positions come with the journal row that grants them. -/
theorem nextPosition_eq_ok {s : Store} {applicable : Bool} {logPosition journal : Option ℕ}
    (h : s.nextPosition applicable = .ok (logPosition, journal)) :
    s.version = .v1 ∧ logPosition = none ∧ journal = none ∨
      s.version = .v2 ∧
        (applicable = true ∧ logPosition = some (s.lastPosition + 1) ∧
            journal = some (s.lastPosition + 1) ∨
          applicable = false ∧ logPosition = none ∧ journal = some s.lastPosition) := by
  unfold nextPosition at h
  cases hversion : s.version with
  | v1 =>
      rw [hversion] at h
      cases h
      exact .inl ⟨rfl, rfl, rfl⟩
  | v2 =>
      rw [hversion] at h
      dsimp only at h
      by_cases hlast : s.lastPosition = 2 ^ 63 - 1
      · rw [if_pos hlast] at h
        cases h
      · rw [if_neg hlast] at h
        cases applicable with
        | true =>
            cases h
            exact .inr ⟨rfl, .inl ⟨rfl, rfl, rfl⟩⟩
        | false =>
            cases h
            exact .inr ⟨rfl, .inr ⟨rfl, rfl, rfl⟩⟩

end Store

/-! ### Streams as folds -/

def BatchRow.report (row : BatchRow) : Report := ⟨row.raw, row.receivedAt, row.policy⟩

def BatchRow.entry (row : BatchRow) : Entry := ⟨row.report, row.decision.outcome⟩

theorem State.Step.revision_eq {s s' : State} {e : Entry} (h : s.Step e s') :
    s'.revision = s.revision + 1 := by
  cases h <;> rfl

theorem State.advance_eq_ok {s : State} {batch : Batch} {receivedAt : ℕ} {policy : Policy}
    {d : Decision} (h : s.advance batch receivedAt policy = .ok d) :
    d.version = 1 ∧ d.before = s ∧ d.after.revision = s.revision + 1 := by
  have hstep := (State.advance_step (r := ⟨batch, receivedAt, policy⟩) h).revision_eq
  obtain ⟨revision, -, h⟩ := bind_eq_ok.mp h
  obtain ⟨⟨after, outcome⟩, -, h⟩ := bind_eq_ok.mp h
  obtain rfl := Except.ok.inj h
  exact ⟨rfl, rfl, hstep⟩

/-- The reports of a stream in order, each decided at the state that those before it left. -/
inductive Chained (policy : Policy) : List BatchRow → State → Prop where
  | nil : Chained policy [] .initial
  | snoc {rows : List BatchRow} {state : State} {row : BatchRow} (before : Chained policy rows state)
      (bound : row.policy = policy)
      (decided : state.advance row.raw row.receivedAt row.policy = .ok row.decision) :
      Chained policy (rows ++ [row]) row.decision.after

namespace Chained

variable {policy : Policy} {rows : List BatchRow} {state : State}

theorem runs (h : Chained policy rows state) :
    Runs State.Step .initial (rows.map BatchRow.entry) state := by
  induction h with
  | nil => exact .nil
  | @snoc rows state row _ _ decided ih =>
      rw [List.map_append]
      exact .snoc ih (State.advance_step (r := row.report) decided)

/-- The stream is the fold of its reports, with the outcomes that are stored. -/
theorem fold_eq (h : Chained policy rows state) :
    State.fold .initial (rows.map BatchRow.report) = (state, rows.map BatchRow.entry) := by
  induction h with
  | nil => rfl
  | @snoc rows state row _ _ decided ih =>
      have hrecord : State.record (state, rows.map BatchRow.entry) row.report =
          (row.decision.after, rows.map BatchRow.entry ++ [row.entry]) := by
        unfold State.record
        rw [show (state, rows.map BatchRow.entry).1.advance row.report.batch
          row.report.receivedAt row.report.policy = .ok row.decision from decided]
        rfl
      rw [List.map_append, State.fold, List.foldl_append]
      rw [State.fold] at ih
      rw [ih, List.map_append]
      exact hrecord

theorem revision_eq (h : Chained policy rows state) : state.revision = rows.length := by
  induction h with
  | nil => rfl
  | snoc _ _ decided ih =>
      rw [(State.advance_eq_ok decided).2.2, ih, List.length_append]
      rfl

/-- The reports are in the order of the revisions they were decided at. -/
theorem revisions (h : Chained policy rows state) :
    rows.map (fun row => row.decision.before.revision) = List.range rows.length := by
  induction h with
  | nil => rfl
  | snoc before _ decided ih =>
      rw [List.map_append, ih, List.length_append, List.length_singleton, List.range_succ,
        List.map_singleton, (State.advance_eq_ok decided).2.1, before.revision_eq]

theorem decided (h : Chained policy rows state) {row : BatchRow} (hrow : row ∈ rows) :
    row.policy = policy ∧ row.decision.version = 1 ∧
      row.decision.before.validate = .ok () ∧ row.decision.after.validate = .ok () ∧
      row.decision.before.advance row.raw row.receivedAt row.policy = .ok row.decision := by
  induction h with
  | nil => cases hrow
  | @snoc rows state last before bound decided ih =>
      rcases List.mem_append.mp hrow with hrow | hrow
      · exact ih hrow
      · obtain rfl := List.mem_singleton.mp hrow
        obtain ⟨hversion, hbefore, -⟩ := State.advance_eq_ok decided
        have hsound := sound_of_runs before.runs
        refine ⟨bound, hversion, ?_, ?_, hbefore ▸ decided⟩
        · rw [hbefore]
          exact hsound.validate
        · exact (hsound.step (State.advance_step (r := row.report) decided)).validate

/-- An applicable report lies above everything the stream has recorded. -/
theorem lt_of_applicable (h : Chained policy rows state) {batch : Batch} {receivedAt : ℕ}
    {p : Policy} {d : Decision} (hd : state.advance batch receivedAt p = .ok d)
    (happlicable : d.outcome.isApplicable = true) {row : BatchRow} (hrow : row ∈ rows) :
    row.raw.sequence < batch.sequence := by
  obtain ⟨w, hw, hle⟩ := (tracks_of_runs h.runs).highWater row.entry (List.mem_map_of_mem hrow)
  refine lt_of_le_of_lt hle ?_
  have hstep := State.advance_step (r := ⟨batch, receivedAt, p⟩) hd
  generalize d.after = after at hstep
  cases hstep with
  | stale _ ho => simp [show d.outcome = .stale from ho, SyncOutcome.isApplicable] at happlicable
  | snapshot _ _ hnew => exact hnew w hw
  | delta _ _ _ _ _ hnew => exact hnew w hw
  | need _ ho => simp [show d.outcome = .needSnapshot _ from ho, SyncOutcome.isApplicable] at happlicable

/-- Positions play no part. -/
theorem reposition {α : Type} {keyed : List (α × BatchRow)}
    (h : Chained policy (keyed.map Prod.snd) state) (f : α → Option ℕ) :
    Chained policy (keyed.map (fun r => { r.2 with logPosition := f r.1 })) state := by
  generalize hrows : keyed.map Prod.snd = rows at h
  induction h generalizing keyed with
  | nil =>
      rw [List.map_eq_nil_iff.mp hrows]
      exact .nil
  | snoc _ bound decided ih =>
      obtain ⟨init, last, rfl, hinit, hlast⟩ := List.map_eq_append_iff.mp hrows
      obtain ⟨x, rfl, rfl⟩ := List.map_eq_singleton_iff.mp hlast
      rw [List.map_append]
      exact @Chained.snoc _ _ _ { x.2 with logPosition := f x.1 } (ih hinit) bound decided

end Chained

/-! ### Coherent stores -/

namespace Store

/-- The reports of a stream, in the order they were inserted. -/
def rowsOf (s : Store) (scope : Scope) : List BatchRow :=
  (s.batches.rows.filter (fun r => r.1.1 = scope)).map Prod.snd

theorem mem_rowsOf {s : Store} {scope : Scope} {row : BatchRow} :
    row ∈ s.rowsOf scope ↔ ∃ id, s.batches.get? (scope, id) = some row := by
  simp only [rowsOf, List.mem_map, List.mem_filter, decide_eq_true_eq, Prod.exists,
    exists_eq_right, Table.mem_rows]
  constructor
  · rintro ⟨scope', id, hrow, rfl⟩
    exact ⟨id, hrow⟩
  · rintro ⟨id, hrow⟩
    exact ⟨scope, id, hrow, rfl⟩

/-- The positions of the journal. -/
structure Positions (s : Store) : Prop where
  applicable : ∀ key row, s.batches.get? key = some row → row.logPosition.isSome = row.applicable
  range : ∀ p, (∃ key row, s.batches.get? key = some row ∧ row.logPosition = some p) ↔
    1 ≤ p ∧ p ≤ s.lastPosition
  injective : ∀ key key' row row' p, s.batches.get? key = some row →
    s.batches.get? key' = some row' → row.logPosition = some p → row'.logPosition = some p →
    key = key'
  ordered : ∀ scope id id' row row' p p', s.batches.get? (scope, id) = some row →
    s.batches.get? (scope, id') = some row' → row.logPosition = some p →
    row'.logPosition = some p' → p < p' → row.sequence < row'.sequence

/-- A row is what `receive` wrote for its key. -/
structure Stored (c : Codec) (s : Store) (key : Scope × Id) (row : BatchRow) : Prop where
  stream : ∃ r, s.streams.get? key.1 = some r
  valid : row.raw.validated c = .ok row.raw
  id : row.raw.id = key.2
  fingerprint : row.fingerprint = c.fingerprint key.1 row.raw
  sequence : row.sequence = row.raw.sequence
  applicable : row.applicable = row.decision.outcome.isApplicable

structure Coherent (c : Codec) (s : Store) : Prop where
  owned : ∀ scope r, s.streams.get? scope = some r →
    ∃ o, s.objects.get? scope.object = some o ∧ r.activationRevision ≤ o.revision
  distinct : ∀ a b ra rb, s.streams.get? a = some ra → s.streams.get? b = some rb →
    a.object = b.object → ra.activationRevision = rb.activationRevision → a = b
  chained : ∀ scope r, s.streams.get? scope = some r → Chained r.policy (s.rowsOf scope) r.state
  stored : ∀ key row, s.batches.get? key = some row → s.Stored c key row
  sequences : ∀ scope id id' row row', s.batches.get? (scope, id) = some row →
    s.batches.get? (scope, id') = some row' → row.sequence = row'.sequence → id = id'
  unnumbered : s.version = .v1 →
    s.journal = none ∧ ∀ key row, s.batches.get? key = some row → row.logPosition = none
  positions : s.version = .v2 → s.Positions

variable {c : Codec}

theorem coherent_empty : Coherent c .empty where
  owned := fun _ _ h => nomatch h
  distinct := fun _ _ _ _ h => nomatch h
  chained := fun _ _ h => nomatch h
  stored := fun _ _ h => nomatch h
  sequences := fun _ _ _ _ _ h => nomatch h
  unnumbered := fun _ => ⟨rfl, fun _ _ h => nomatch h⟩
  positions := fun h => nomatch h

/-! ### Activation -/

theorem get?_objects_activation (s : Store) (scope : Scope) (expected : Option ℕ)
    (policy : Policy) (revision : ℕ) (o : Id) :
    (s.apply (.activation scope expected policy revision)).objects.get? o =
      if o = scope.object then some ⟨some scope.registration, revision⟩
      else s.objects.get? o := by
  unfold apply
  rw [Table.get?_upsert]
  cases s.objects.get? scope.object <;> rfl

theorem get?_streams_activation {s : Store} {scope : Scope} (h : s.streams.get? scope = none)
    (expected : Option ℕ) (policy : Policy) (revision : ℕ) (other : Scope) :
    (s.apply (.activation scope expected policy revision)).streams.get? other =
      if other = scope then some ⟨expected, revision, policy, .initial⟩
      else s.streams.get? other := by
  unfold apply
  rw [Table.get?_insertNew, h]
  rfl

/-- The activation revisions of an object stay below its own. -/
theorem Coherent.revision_lt {s : Store} (h : s.Coherent c) {o : Id} {other : Scope}
    {r : StreamRow} (hr : s.streams.get? other = some r) (ho : other.object = o) :
    r.activationRevision < ((s.objects.get? o).getD ⟨none, 0⟩).revision + 1 := by
  obtain ⟨row, hrow, hle⟩ := h.owned other r hr
  rw [ho] at hrow
  rw [hrow]
  exact Nat.lt_succ_of_le hle

theorem Coherent.rowsOf_eq_nil {s : Store} (h : s.Coherent c) {scope : Scope}
    (hnone : s.streams.get? scope = none) : s.rowsOf scope = [] := by
  refine List.eq_nil_iff_forall_not_mem.mpr (fun row hrow => ?_)
  obtain ⟨id, hid⟩ := mem_rowsOf.mp hrow
  obtain ⟨r, hr⟩ := (h.stored _ row hid).stream
  cases hnone.symm.trans hr

theorem Coherent.activation {s : Store} {scope : Scope} {expected : Option ℕ} {policy : Policy}
    {revision : ℕ} {write : Write} (h : s.Coherent c)
    (hw : s.activate scope expected policy = .ok (revision, some write)) :
    (s.apply write).Coherent c := by
  obtain ⟨hnone, -, -, hrevision, -, rfl⟩ := activate_eq_some.mp hw
  have hstreams := get?_streams_activation hnone expected policy revision
  have hkept : ∀ other r, other ≠ scope → (s.apply (.activation scope expected policy
      revision)).streams.get? other = some r → s.streams.get? other = some r := by
    intro other r hne hr
    rwa [hstreams, if_neg hne] at hr
  have hnew : ∀ r, (s.apply (.activation scope expected policy revision)).streams.get? scope =
      some r → r = ⟨expected, revision, policy, .initial⟩ := by
    intro r hr
    rw [hstreams, if_pos rfl] at hr
    exact (Option.some.inj hr).symm
  have hlt : ∀ other r, s.streams.get? other = some r → other.object = scope.object →
      r.activationRevision < revision := by
    intro other r hr ho
    rw [hrevision]
    exact h.revision_lt hr ho
  refine ⟨?_, ?_, ?_, ?_, h.sequences, h.unnumbered, fun hv => ?_⟩
  · intro other r hr
    rw [get?_objects_activation]
    by_cases heq : other = scope
    · subst heq
      exact ⟨_, if_pos rfl, by rw [hnew r hr]⟩
    · have hr := hkept other r heq hr
      by_cases ho : other.object = scope.object
      · exact ⟨_, if_pos ho, (hlt other r hr ho).le⟩
      · rw [if_neg ho]
        exact h.owned other r hr
  · intro a b ra rb ha hb hab hrev
    by_cases heqa : a = scope
    · by_cases heqb : b = scope
      · rw [heqa, heqb]
      · subst heqa
        rw [hnew ra ha] at hrev
        exact absurd hrev.symm (hlt b rb (hkept b rb heqb hb) hab.symm).ne
    · by_cases heqb : b = scope
      · subst heqb
        rw [hnew rb hb] at hrev
        exact absurd hrev (hlt a ra (hkept a ra heqa ha) hab).ne
      · exact h.distinct a b ra rb (hkept a ra heqa ha) (hkept b rb heqb hb) hab hrev
  · intro other r hr
    by_cases heq : other = scope
    · subst heq
      rw [hnew r hr]
      have hrows : (s.apply (.activation other expected policy revision)).rowsOf other = [] :=
        h.rowsOf_eq_nil hnone
      rw [hrows]
      exact .nil
    · exact h.chained other r (hkept other r heq hr)
  · intro key row hrow
    have hstored := h.stored key row hrow
    obtain ⟨r, hr⟩ := hstored.stream
    have hne : key.1 ≠ scope := by
      intro heq
      rw [heq, hnone] at hr
      cases hr
    exact ⟨⟨r, by rw [hstreams, if_neg hne]; exact hr⟩, hstored.valid, hstored.id,
      hstored.fingerprint, hstored.sequence, hstored.applicable⟩
  · exact ⟨(h.positions hv).applicable, (h.positions hv).range, (h.positions hv).injective,
      (h.positions hv).ordered⟩

/-! ### Recording a report -/

theorem get?_batches_batch {s : Store} {scope : Scope} {id : Id}
    (h : s.batches.get? (scope, id) = none) (row : BatchRow) (journal : Option ℕ)
    (key : Scope × Id) :
    (s.apply (.batch scope id row journal)).batches.get? key =
      if key = (scope, id) then some row else s.batches.get? key := by
  unfold apply
  rw [Table.get?_insertNew, h]
  rfl

theorem get?_streams_batch (s : Store) (scope : Scope) (id : Id) (row : BatchRow)
    (journal : Option ℕ) (other : Scope) :
    (s.apply (.batch scope id row journal)).streams.get? other =
      if other = scope then
        (s.streams.get? other).map (fun r => { r with state := row.decision.after })
      else s.streams.get? other :=
  Table.get?_modify s.streams scope other _

theorem rowsOf_batch {s : Store} {scope : Scope} {id : Id}
    (h : s.batches.get? (scope, id) = none) (row : BatchRow) (journal : Option ℕ)
    (other : Scope) :
    (s.apply (.batch scope id row journal)).rowsOf other =
      s.rowsOf other ++ if other = scope then [row] else [] := by
  unfold rowsOf apply
  rw [Table.rows_insertNew h, List.filter_append, List.map_append]
  by_cases heq : other = scope
  · simp [heq]
  · simp [heq, Ne.symm heq]

/-- A report that takes no position leaves the journal as it is. -/
theorem Positions.skip {s : Store} {scope : Scope} {id : Id} {row : BatchRow} (h : s.Positions)
    (hnone : s.batches.get? (scope, id) = none) (happlicable : row.applicable = false)
    (hposition : row.logPosition = none) :
    (s.apply (.batch scope id row (some s.lastPosition))).Positions := by
  have hkept : ∀ key r p, (s.apply (.batch scope id row (some s.lastPosition))).batches.get? key =
      some r → r.logPosition = some p → s.batches.get? key = some r := by
    intro key r p hr hp
    rw [get?_batches_batch hnone] at hr
    by_cases hkey : key = (scope, id)
    · rw [if_pos hkey] at hr
      cases hr
      cases hposition.symm.trans hp
    · rwa [if_neg hkey] at hr
  refine ⟨?_, ?_, ?_, ?_⟩
  · intro key r hr
    rw [get?_batches_batch hnone] at hr
    by_cases hkey : key = (scope, id)
    · rw [if_pos hkey] at hr
      cases hr
      rw [hposition, happlicable]
      rfl
    · rw [if_neg hkey] at hr
      exact h.applicable key r hr
  · intro p
    rw [show (s.apply (.batch scope id row (some s.lastPosition))).lastPosition =
      s.lastPosition from rfl, ← h.range p]
    constructor
    · rintro ⟨key, r, hr, hp⟩
      exact ⟨key, r, hkept key r p hr hp, hp⟩
    · rintro ⟨key, r, hr, hp⟩
      refine ⟨key, r, ?_, hp⟩
      rw [get?_batches_batch hnone, if_neg, hr]
      rintro rfl
      cases hnone.symm.trans hr
  · intro key key' r r' p hr hr' hp hp'
    exact h.injective key key' r r' p (hkept key r p hr hp) (hkept key' r' p hr' hp') hp hp'
  · intro scope' id' id'' r r' p p' hr hr' hp hp'
    exact h.ordered scope' id' id'' r r' p p' (hkept _ r p hr hp) (hkept _ r' p' hr' hp') hp hp'

/-- An applicable report takes the next position. -/
theorem Positions.record {s : Store} {scope : Scope} {id : Id} {row : BatchRow} (h : s.Positions)
    (hnone : s.batches.get? (scope, id) = none) (happlicable : row.applicable = true)
    (hposition : row.logPosition = some (s.lastPosition + 1))
    (habove : ∀ id' r, s.batches.get? (scope, id') = some r → r.sequence < row.sequence) :
    (s.apply (.batch scope id row (some (s.lastPosition + 1)))).Positions := by
  have hget := get?_batches_batch hnone row (some (s.lastPosition + 1))
  -- a row with a position is the new one with the new position, or an old one below it
  have hcases : ∀ key r p, (s.apply (.batch scope id row (some (s.lastPosition + 1)))).batches.get?
      key = some r → r.logPosition = some p →
      (key = (scope, id) ∧ r = row ∧ p = s.lastPosition + 1) ∨
        (s.batches.get? key = some r ∧ p ≤ s.lastPosition) := by
    intro key r p hr hp
    rw [hget] at hr
    by_cases hkey : key = (scope, id)
    · rw [if_pos hkey] at hr
      cases hr
      exact .inl ⟨hkey, rfl, Option.some.inj (hp.symm.trans hposition)⟩
    · rw [if_neg hkey] at hr
      exact .inr ⟨hr, ((h.range p).mp ⟨key, r, hr, hp⟩).2⟩
  refine ⟨?_, ?_, ?_, ?_⟩
  · intro key r hr
    rw [hget] at hr
    by_cases hkey : key = (scope, id)
    · rw [if_pos hkey] at hr
      cases hr
      rw [hposition, happlicable]
      rfl
    · rw [if_neg hkey] at hr
      exact h.applicable key r hr
  · intro p
    rw [show (s.apply (.batch scope id row (some (s.lastPosition + 1)))).lastPosition =
      s.lastPosition + 1 from rfl]
    constructor
    · rintro ⟨key, r, hr, hp⟩
      rcases hcases key r p hr hp with ⟨-, -, rfl⟩ | ⟨hr, hle⟩
      · exact ⟨Nat.succ_le_succ (Nat.zero_le _), le_refl _⟩
      · exact ⟨((h.range p).mp ⟨key, r, hr, hp⟩).1, Nat.le_succ_of_le hle⟩
    · rintro ⟨hone, hle⟩
      by_cases hp : p = s.lastPosition + 1
      · exact ⟨(scope, id), row, by rw [hget, if_pos rfl], hp ▸ hposition⟩
      · obtain ⟨key, r, hr, hp⟩ := (h.range p).mpr ⟨hone, by omega⟩
        refine ⟨key, r, ?_, hp⟩
        rw [hget, if_neg, hr]
        rintro rfl
        cases hnone.symm.trans hr
  · intro key key' r r' p hr hr' hp hp'
    rcases hcases key r p hr hp with ⟨hkey, -, rfl⟩ | ⟨hold, hle⟩
    · rcases hcases key' r' _ hr' hp' with ⟨hkey', -, -⟩ | ⟨-, hle⟩
      · rw [hkey, hkey']
      · omega
    · rcases hcases key' r' p hr' hp' with ⟨-, -, rfl⟩ | ⟨hold', -⟩
      · omega
      · exact h.injective key key' r r' p hold hold' hp hp'
  · intro scope' id' id'' r r' p p' hr hr' hp hp' hlt
    rcases hcases (scope', id') r p hr hp with ⟨-, -, rfl⟩ | ⟨hold, hle⟩
    · rcases hcases (scope', id'') r' p' hr' hp' with ⟨-, -, rfl⟩ | ⟨-, hle⟩
      · omega
      · omega
    · rcases hcases (scope', id'') r' p' hr' hp' with ⟨hkey, rfl, -⟩ | ⟨hold', -⟩
      · cases hkey
        exact habove id' r hold
      · exact h.ordered scope' id' id'' r r' p p' hold hold' hp hp' hlt

/-- The row `receive` writes for a report it decided at the stream row. -/
def rowFor (input : VerifiedBatch c) (row : StreamRow) (receivedAt : ℕ) (decision : Decision)
    (logPosition : Option ℕ) : BatchRow :=
  ⟨input.batch.sequence, input.batch, input.fingerprint, receivedAt, row.policy, decision,
    decision.outcome.isApplicable, logPosition⟩

theorem Coherent.batch {s : Store} {input : VerifiedBatch c} {row : StreamRow} {receivedAt : ℕ}
    {decision : Decision} {logPosition journal : Option ℕ} (h : s.Coherent c)
    (hrow : s.streams.get? input.scope = some row)
    (hdecided : row.state.advance input.batch receivedAt row.policy = .ok decision)
    (hfresh : ∀ id r, s.batches.get? (input.scope, id) = some r →
      id ≠ input.batch.id ∧ r.sequence ≠ input.batch.sequence)
    (hnext : s.nextPosition decision.outcome.isApplicable = .ok (logPosition, journal)) :
    (s.apply (.batch input.scope input.batch.id
      (rowFor input row receivedAt decision logPosition) journal)).Coherent c := by
  have hnone : s.batches.get? (input.scope, input.batch.id) = none := by
    cases hget : s.batches.get? (input.scope, input.batch.id) with
    | none => rfl
    | some r => exact absurd rfl (hfresh _ r hget).1
  have hchain := h.chained input.scope row hrow
  have hstreams := get?_streams_batch s input.scope input.batch.id
    (rowFor input row receivedAt decision logPosition) journal
  have hbatches := get?_batches_batch hnone (rowFor input row receivedAt decision logPosition)
    journal
  -- every stream keeps its activation
  have hkept : ∀ other r, (s.apply (.batch input.scope input.batch.id
      (rowFor input row receivedAt decision logPosition) journal)).streams.get? other = some r →
      ∃ r₀, s.streams.get? other = some r₀ ∧ r₀.activationRevision = r.activationRevision := by
    intro other r hr
    rw [hstreams] at hr
    by_cases heq : other = input.scope
    · rw [if_pos heq] at hr
      obtain ⟨r₀, hr₀, rfl⟩ := Option.map_eq_some_iff.mp hr
      exact ⟨r₀, hr₀, rfl⟩
    · rw [if_neg heq] at hr
      exact ⟨r, hr, rfl⟩
  refine ⟨?_, ?_, ?_, ?_, ?_, ?_, ?_⟩
  · intro other r hr
    obtain ⟨r₀, hr₀, heq⟩ := hkept other r hr
    rw [← heq]
    exact h.owned other r₀ hr₀
  · intro a b ra rb ha hb hab hrev
    obtain ⟨ra₀, ha₀, heqa⟩ := hkept a ra ha
    obtain ⟨rb₀, hb₀, heqb⟩ := hkept b rb hb
    exact h.distinct a b ra₀ rb₀ ha₀ hb₀ hab (heqa.trans (hrev.trans heqb.symm))
  · intro other r hr
    rw [rowsOf_batch hnone]
    rw [hstreams] at hr
    by_cases heq : other = input.scope
    · subst heq
      rw [if_pos rfl, hrow] at hr
      cases hr
      rw [if_pos rfl]
      exact @Chained.snoc _ _ _ (rowFor input row receivedAt decision logPosition) hchain rfl
        hdecided
    · rw [if_neg heq] at hr
      rw [if_neg heq, List.append_nil]
      exact h.chained other r hr
  · intro key r hr
    have hstream : ∀ scope r₀, s.streams.get? scope = some r₀ → ∃ r₁, (s.apply (.batch input.scope
        input.batch.id (rowFor input row receivedAt decision logPosition)
        journal)).streams.get? scope = some r₁ := by
      intro scope r₀ hr₀
      rw [hstreams]
      by_cases heq : scope = input.scope
      · exact ⟨_, by rw [if_pos heq, hr₀]; rfl⟩
      · exact ⟨r₀, by rw [if_neg heq, hr₀]⟩
    rw [hbatches] at hr
    by_cases hkey : key = (input.scope, input.batch.id)
    · rw [if_pos hkey] at hr
      cases hr
      subst hkey
      exact ⟨hstream _ row hrow, input.valid, rfl, rfl, rfl, rfl⟩
    · rw [if_neg hkey] at hr
      have hstored := h.stored key r hr
      obtain ⟨r₀, hr₀⟩ := hstored.stream
      exact ⟨hstream _ r₀ hr₀, hstored.valid, hstored.id, hstored.fingerprint, hstored.sequence,
        hstored.applicable⟩
  · intro scope id id' r r' hr hr' hsequence
    rw [hbatches] at hr hr'
    by_cases hkey : (scope, id) = (input.scope, input.batch.id)
    · rw [if_pos hkey] at hr
      cases hr
      cases hkey
      by_cases hkey' : (input.scope, id') = (input.scope, input.batch.id)
      · cases hkey'
        rfl
      · rw [if_neg hkey'] at hr'
        exact absurd hsequence.symm (hfresh id' r' hr').2
    · rw [if_neg hkey] at hr
      by_cases hkey' : (scope, id') = (input.scope, input.batch.id)
      · rw [if_pos hkey'] at hr'
        cases hr'
        cases hkey'
        exact absurd hsequence (hfresh id r hr).2
      · rw [if_neg hkey'] at hr'
        exact h.sequences scope id id' r r' hr hr' hsequence
  · intro hversion
    rcases nextPosition_eq_ok hnext with ⟨-, rfl, rfl⟩ | ⟨hv2, -⟩
    · obtain ⟨hjournal, hpositions⟩ := h.unnumbered hversion
      refine ⟨hjournal, fun key r hr => ?_⟩
      rw [hbatches] at hr
      by_cases hkey : key = (input.scope, input.batch.id)
      · rw [if_pos hkey] at hr
        cases hr
        rfl
      · rw [if_neg hkey] at hr
        exact hpositions key r hr
    · cases hv2.symm.trans hversion
  · intro hversion
    have hpositions := h.positions hversion
    rcases nextPosition_eq_ok hnext with ⟨hv1, -⟩ | ⟨-, hcases⟩
    · cases hv1.symm.trans hversion
    · rcases hcases with ⟨happlicable, rfl, rfl⟩ | ⟨happlicable, rfl, rfl⟩
      · refine hpositions.record hnone happlicable rfl (fun id' r hr => ?_)
        rw [(h.stored _ r hr).sequence]
        exact hchain.lt_of_applicable hdecided happlicable (mem_rowsOf.mpr ⟨id', hr⟩)
      · exact hpositions.skip hnone happlicable rfl

/-! ### The backfill -/

theorem mem_numbered {s : Store} {key : Scope × Id} :
    key ∈ s.numbered c ↔ ∃ row, s.batches.get? key = some row ∧ row.applicable = true := by
  rw [numbered, mem_ranking]
  simp only [List.mem_map, List.mem_filter, Prod.exists, exists_and_right, exists_eq_right,
    Table.mem_rows]

theorem nodup_applicable (s : Store) :
    ((s.batches.rows.filter (fun r => r.2.applicable)).map Prod.fst).Nodup :=
  (List.filter_sublist.map Prod.fst).nodup s.batches.nodup

theorem get?_batches_upgrade (s : Store) (key : Scope × Id) :
    (s.upgrade c).batches.get? key = (s.batches.get? key).map
      (fun row => { row with logPosition := rowNumber (s.numbered c) key }) := by
  rw [upgrade, Table.get?_update]

theorem lastPosition_upgrade (s : Store) :
    (s.upgrade c).lastPosition = (s.numbered c).length := by
  unfold upgrade lastPosition
  by_cases h : s.numbered c = [] <;> simp [h]

theorem get?_upgrade_eq_some {s : Store} {key : Scope × Id} {row : BatchRow} :
    (s.upgrade c).batches.get? key = some row ↔ ∃ r, s.batches.get? key = some r ∧
      row = { r with logPosition := rowNumber (s.numbered c) key } := by
  rw [get?_batches_upgrade, Option.map_eq_some_iff]
  simp only [eq_comm]

/-- The backfill numbers the applicable reports, each stream by sequence. -/
theorem Coherent.positions_upgrade {s : Store} (h : s.Coherent c) : (s.upgrade c).Positions := by
  refine ⟨?_, ?_, ?_, ?_⟩
  · intro key row hrow
    obtain ⟨r, hr, rfl⟩ := get?_upgrade_eq_some.mp hrow
    rw [Bool.eq_iff_iff, isSome_rowNumber, mem_numbered]
    constructor
    · rintro ⟨r', hr', ha⟩
      cases hr.symm.trans hr'
      exact ha
    · exact fun ha => ⟨r, hr, ha⟩
  · intro p
    rw [lastPosition_upgrade, numbered, ← exists_rowNumber (nodup_ranking _ s.nodup_applicable)]
    constructor
    · rintro ⟨key, row, hrow, hp⟩
      obtain ⟨r, -, rfl⟩ := get?_upgrade_eq_some.mp hrow
      exact ⟨key, hp⟩
    · rintro ⟨key, hp⟩
      obtain ⟨r, hr, -⟩ := mem_numbered.mp (rowNumber_eq_some.mp hp).1
      exact ⟨key, _, get?_upgrade_eq_some.mpr ⟨r, hr, rfl⟩, hp⟩
  · intro key key' row row' p hrow hrow' hp hp'
    obtain ⟨r, -, rfl⟩ := get?_upgrade_eq_some.mp hrow
    obtain ⟨r', -, rfl⟩ := get?_upgrade_eq_some.mp hrow'
    exact rowNumber_inj hp hp'
  · intro scope id id' row row' p p' hrow hrow' hp hp' hlt
    obtain ⟨r, hr, rfl⟩ := get?_upgrade_eq_some.mp hrow
    obtain ⟨r', hr', rfl⟩ := get?_upgrade_eq_some.mp hrow'
    have hmem : ∀ {i : Id} {r : BatchRow} {p : ℕ}, s.batches.get? (scope, i) = some r →
        rowNumber (s.numbered c) (scope, i) = some p →
        ((scope, i), r) ∈ s.batches.rows.filter (fun r => r.2.applicable) := by
      intro i r p hr hp
      obtain ⟨r', hr', ha⟩ := mem_numbered.mp (rowNumber_eq_some.mp hp).1
      cases hr.symm.trans hr'
      exact List.mem_filter.mpr ⟨Table.mem_rows.mpr hr, ha⟩
    have hkey := key_le_of_rowNumber_lt s.nodup_applicable (hmem hr hp) (hmem hr' hp') hp hp' hlt
    have hle : r.sequence ≤ r'.sequence := by
      rcases Prod.Lex.le_iff.mp hkey with htext | ⟨-, hrest⟩
      · exact absurd htext (lt_irrefl _)
      · exact (Prod.Lex.le_iff.mp hrest).elim le_of_lt (fun h => le_of_eq h.1)
    refine lt_of_le_of_ne hle (fun heq => ?_)
    obtain rfl := h.sequences scope id id' r r' hr hr' heq
    exact lt_irrefl _ (Option.some.inj (hp.symm.trans hp') ▸ hlt)

theorem rowsOf_upgrade (s : Store) (scope : Scope) :
    (s.upgrade c).rowsOf scope =
      (s.batches.rows.filter (fun r => r.1.1 = scope)).map
        (fun r => { r.2 with logPosition := rowNumber (s.numbered c) r.1 }) := by
  unfold rowsOf upgrade Table.update
  rw [List.filter_map, List.map_map]
  rfl

theorem Coherent.upgrade {s : Store} (h : s.Coherent c) : (s.upgrade c).Coherent c := by
  refine ⟨h.owned, h.distinct, ?_, ?_, ?_, (fun hv => nomatch hv), fun _ => h.positions_upgrade⟩
  · intro scope r hr
    rw [rowsOf_upgrade]
    exact (h.chained scope r hr).reposition (rowNumber (s.numbered c))
  · intro key row hrow
    obtain ⟨r, hr, rfl⟩ := get?_upgrade_eq_some.mp hrow
    have hstored := h.stored key r hr
    exact ⟨hstored.stream, hstored.valid, hstored.id, hstored.fingerprint, hstored.sequence,
      hstored.applicable⟩
  · intro scope id id' row row' hrow hrow' hsequence
    obtain ⟨r, hr, rfl⟩ := get?_upgrade_eq_some.mp hrow
    obtain ⟨r', hr', rfl⟩ := get?_upgrade_eq_some.mp hrow'
    exact h.sequences scope id id' r r' hr hr' hsequence

end Store

end Rss.Observation
