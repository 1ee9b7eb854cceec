import Rss.Model.TimeseriesPostgres.Maintain

/-! # What a transaction does to the admission tables

Receipts, identities, raw rows and the state of the streams are written by a handful of functions.
One lemma for each call of the store says which of them it ran, and what it left alone. -/

namespace Rss.TimeseriesPostgres

open Rss.Timeseries

variable {D : Digests} {s s' s'' : Store}

/-! ### Tables that stay -/

/-- The admission tables are as they were; a stream may have been entered. -/
structure Frame (s s' : Store) : Prop where
  streams : ∀ stream row, s.streams.get? stream = some row → s'.streams.get? stream = some row
  entered : ∀ stream row, s'.streams.get? stream = some row →
    s.streams.get? stream = some row ∨ row = ⟨false, false⟩
  namespaces : ∀ scope, (s.namespaces.get? scope).isSome → (s'.namespaces.get? scope).isSome
  batches : s'.batches = s.batches
  identities : s'.identities = s.identities
  samples : s'.samples = s.samples

namespace Frame

theorem refl (s : Store) : Frame s s where
  streams := fun _ _ h => h
  entered := fun _ _ h => .inl h
  namespaces := fun _ h => h
  batches := rfl
  identities := rfl
  samples := rfl

theorem trans (h : Frame s s') (h' : Frame s' s'') : Frame s s'' where
  streams := fun stream row hrow => h'.streams stream row (h.streams stream row hrow)
  entered := by
    intro stream row hrow
    rcases h'.entered stream row hrow with hold | hnew
    · exact h.entered stream row hold
    · exact .inr hnew
  namespaces := fun scope hs => h'.namespaces scope (h.namespaces scope hs)
  batches := h'.batches.trans h.batches
  identities := h'.identities.trans h.identities
  samples := h'.samples.trans h.samples

theorem closed (h : Frame s s') (stream : Stream) : s'.closed stream = s.closed stream := by
  unfold Store.closed
  cases hrow : s.streams.get? stream with
  | some row => rw [h.streams stream row hrow]
  | none =>
      cases hrow' : s'.streams.get? stream with
      | none => rfl
      | some row =>
          rcases h.entered stream row hrow' with hold | rfl
          · rw [hrow] at hold
            cases hold
          · rfl

theorem reclaimed (h : Frame s s') (stream : Stream) :
    s'.reclaimed stream = s.reclaimed stream := by
  unfold Store.reclaimed
  cases hrow : s.streams.get? stream with
  | some row => rw [h.streams stream row hrow]
  | none =>
      cases hrow' : s'.streams.get? stream with
      | none => rfl
      | some row =>
          rcases h.entered stream row hrow' with hold | rfl
          · rw [hrow] at hold
            cases hold
          · rfl

/-- Only the other tables differ, and no namespace is left. -/
theorem of_eq (hstreams : s'.streams = s.streams)
    (hnamespaces : ∀ scope, (s.namespaces.get? scope).isSome → (s'.namespaces.get? scope).isSome)
    (hbatches : s'.batches = s.batches) (hidentities : s'.identities = s.identities)
    (hsamples : s'.samples = s.samples) : Frame s s' where
  streams := fun stream row h => by rw [hstreams]; exact h
  entered := fun stream row h => .inl (by rw [← hstreams]; exact h)
  namespaces := hnamespaces
  batches := hbatches
  identities := hidentities
  samples := hsamples

end Frame

theorem isSome_insertNew {κ ρ : Type} [DecidableEq κ] {t : Table κ ρ} {k k' : κ} {v : ρ}
    (h : (t.get? k).isSome) : ((t.insertNew k' v).get? k).isSome := by
  rw [Table.get?_insertNew]
  split
  · rfl
  · exact h

theorem lockNamespace_frame (s : Store) (scope : Scope) : Frame s (s.lockNamespace scope).2 :=
  .of_eq rfl (fun _ h => isSome_insertNew h) rfl rfl rfl

theorem lockStream_frame (s : Store) (stream : Stream) : Frame s (s.lockStream stream) where
  streams := by
    intro stream' row h
    show ((s.streams.insertNew stream ⟨false, false⟩).get? stream') = some row
    rw [Table.get?_insertNew]
    split
    · rename_i heq
      subst heq
      rw [h]
      rfl
    · exact h
  entered := by
    intro stream' row h
    change ((s.streams.insertNew stream ⟨false, false⟩).get? stream') = some row at h
    rw [Table.get?_insertNew] at h
    split at h
    · rename_i heq
      subst heq
      cases hrow : s.streams.get? stream' with
      | some old =>
          rw [hrow] at h
          exact .inl h
      | none =>
          rw [hrow] at h
          exact .inr (Option.some.inj h).symm
    · exact .inl h
  namespaces := fun _ h => isSome_insertNew h
  batches := rfl
  identities := rfl
  samples := rfl

theorem invalidate_frame {scope : Scope} {sel : Selection} {lo hi : ℕ}
    (h : s.invalidate scope sel lo hi = .ok s') : Frame s s' := by
  unfold Store.invalidate at h
  simp only at h
  split at h
  · cases h
    refine .of_eq rfl ?_ rfl rfl rfl
    intro scope' hs
    show (((s.namespaces.insertNew scope 0).modify scope _).get? scope').isSome
    rw [Table.get?_modify]
    have hnew := @isSome_insertNew _ _ _ _ _ scope 0 hs
    split
    · rw [Option.isSome_map]
      exact hnew
    · exact hnew
  · cases h

theorem putSummary_frame (s : Store) (spec : SummarySpec) (summary : Summary) :
    Frame s (s.putSummary spec summary) :=
  (lockNamespace_frame s spec.stream.scope).trans (.of_eq rfl (fun _ h => h) rfl rfl rfl)

theorem registerSummary_frame (s : Store) (spec : SummarySpec) (window : Interval) :
    Frame s (s.registerSummary spec window) :=
  (lockNamespace_frame s spec.stream.scope).trans (.of_eq rfl (fun _ h => h) rfl rfl rfl)

theorem putFence_frame {scope : Scope} {id : String} {f : Fence}
    (h : s.putFence scope id f = .ok s') : Frame s s' := by
  unfold Store.putFence at h
  simp only at h
  have hlock := lockNamespace_frame s scope
  split at h
  · cases h
  · split at h
    · cases h
      exact hlock.trans (.of_eq rfl (fun _ h => h) rfl rfl rfl)
    · cases h
      exact hlock.trans (.of_eq rfl (fun _ h => h) rfl rfl rfl)
    · refine hlock.trans (Frame.trans ?_ (invalidate_frame h))
      exact .of_eq rfl (fun _ h => h) rfl rfl rfl

theorem restoreFence_frame {scope : Scope} {id : String} {sel : Selection} {window : Interval}
    {now : ℕ} (h : s.restoreFence scope id sel window now = .ok s') : Frame s s' := by
  unfold Store.restoreFence at h
  simp only at h
  have hlock := lockNamespace_frame s scope
  split at h
  · split at h
    · refine hlock.trans (Frame.trans ?_ (invalidate_frame h))
      exact .of_eq rfl (fun _ h => h) rfl rfl rfl
    · cases h
  · cases h

theorem putPlan_frame {r : MaintenanceRequest} {state : PlanState} {done : Bool}
    (h : s.putPlan r state done = .ok s') : Frame s s' := by
  unfold Store.putPlan at h
  simp only at h
  have hlock := lockNamespace_frame s r.scope
  split at h
  · split at h
    · cases h
      exact hlock.trans (.of_eq rfl (fun _ h => h) rfl rfl rfl)
    · cases h
  · cases h
    exact hlock.trans (.of_eq rfl (fun _ h => h) rfl rfl rfl)

/-- A definition is written to its own tables. -/
theorem putDefinition_tables {d : Definition} {digest : Digest} {retire : Bool}
    (h : s.putDefinition d digest retire = .ok s') :
    ∃ heads definitions, s' = { s with heads := heads, definitions := definitions } := by
  unfold Store.putDefinition at h
  simp only at h
  split at h
  · split at h
    · cases h
    · split at h
      · cases h
        exact ⟨_, _, rfl⟩
      · cases h
        exact ⟨_, _, rfl⟩
  · split at h
    · cases h
    · cases h
      exact ⟨_, _, rfl⟩

theorem invalidate_fences {scope : Scope} {sel : Selection} {lo hi : ℕ}
    (h : s.invalidate scope sel lo hi = .ok s') :
    s'.fences = s.fences ∧ s'.definitions = s.definitions ∧ s'.plans = s.plans := by
  unfold Store.invalidate at h
  simp only at h
  split at h
  · cases h
    exact ⟨rfl, rfl, rfl⟩
  · cases h

/-! ### Samples -/

/-- What a new sample needs. -/
structure Admissible (s : Store) (x : Sample) : Prop where
  opened : s.closed x.stream = false
  unfenced : ∀ f ∈ s.fencesOf x.stream.scope, f.encloses x.stream x.series x.observedAt = false
  defined : ∃ row, s.definitions.get? ⟨x.stream.scope, x.series.definition.key,
    x.series.definition.version⟩ = some row ∧ row.raw = x.series.definition ∧ row.retired = false

/-- The tables after a new sample. -/
def Store.insertSample (s : Store) (x : Sample) (digest : Digest) (received : ℕ) : Store :=
  { s with
    identities := s.identities.insertNew (Store.identityOf x) ⟨digest, x.observedAt, received⟩
    samples := s.samples.insertNew (Store.identityOf x, x.observedAt) ⟨x, received⟩ }

theorem pinned_eq_ok {x : Sample} {row : DefinitionRow} (h : s.pinned x = .ok row) :
    s.definitions.get? ⟨x.stream.scope, x.series.definition.key, x.series.definition.version⟩ =
      some row ∧ row.raw = x.series.definition := by
  unfold Store.pinned at h
  split at h
  · split at h
    · cases h
      exact ⟨by assumption, by assumption⟩
    · cases h
  · cases h

/-- A sample is a replay of its identity, or it is admissible and entered. -/
theorem putSample_eq_ok {x : Sample} {digest : Digest} {received : ℕ} {inserted : Bool}
    (h : s.putSample x digest received = .ok (inserted, s')) :
    (inserted = false ∧ s' = s.lockStream x.stream ∧
      ∃ row, s.identities.get? (Store.identityOf x) = some row ∧ row.digest = digest) ∨
    (inserted = true ∧ s.identities.get? (Store.identityOf x) = none ∧ Admissible s x ∧
      ((s.lockStream x.stream).insertSample x digest received).invalidate x.stream.scope
        (.exact x.stream x.series) x.observedAt (x.observedAt + 1) = .ok s') := by
  have hlock := lockStream_frame s x.stream
  unfold Store.putSample at h
  simp only at h
  split at h
  · rename_i old hold
    split at h
    · cases h
    · rename_i hdigest
      cases h
      exact .inl ⟨rfl, rfl, old, hold, not_not.mp hdigest⟩
  · rename_i hnone
    split at h
    · cases h
    · rename_i hclear
      rw [not_or] at hclear
      obtain ⟨definition, hpinned, h⟩ := bind_eq_ok.mp h
      split at h
      · cases h
      · rename_i hactive
        obtain ⟨s₁, hs₁, h⟩ := bind_eq_ok.mp h
        cases h
        obtain ⟨hget, hraw⟩ := pinned_eq_ok hpinned
        refine .inr ⟨rfl, hnone, ⟨?_, ?_, definition, hget, hraw, ?_⟩, hs₁⟩
        · rw [← hlock.closed]
          simpa using hclear.1
        · intro f hf
          have hany := hclear.2
          simp only [List.any_eq_true, not_exists, not_and, Bool.not_eq_true] at hany
          exact hany f hf
        · simpa using hactive

/-- The samples are entered: those of a known identity are replays of it, the others are
admissible and have their rows now. -/
structure Entered (D : Digests) (now : ℕ) (s : Store) (xs : List Sample) (s' : Store) : Prop where
  others : Frame { s with identities := s'.identities, samples := s'.samples } s'
  fences : s'.fences = s.fences
  definitions : s'.definitions = s.definitions
  plans : s'.plans = s.plans
  kept : ∀ k row, s.identities.get? k = some row → s'.identities.get? k = some row
  rows : ∀ k row, s.samples.get? k = some row → s'.samples.get? k = some row
  replayed : ∀ x ∈ xs, ∀ row, s.identities.get? (Store.identityOf x) = some row →
    row.digest = D.sample x
  admissible : ∀ x ∈ xs, s.identities.get? (Store.identityOf x) = none → Admissible s x
  entered : ∀ x ∈ xs, s.identities.get? (Store.identityOf x) = none →
    s'.identities.get? (Store.identityOf x) = some ⟨D.sample x, x.observedAt, now⟩ ∧
    (s.samples.get? (Store.identityOf x, x.observedAt) = none →
      s'.samples.get? (Store.identityOf x, x.observedAt) = some ⟨x, now⟩)
  only : ∀ k, s.identities.get? k = none → (s'.identities.get? k).isSome →
    ∃ x ∈ xs, Store.identityOf x = k
  onlyRows : ∀ k, s.samples.get? k = none → (s'.samples.get? k).isSome →
    ∃ x ∈ xs, (Store.identityOf x, x.observedAt) = k ∧
      s.identities.get? (Store.identityOf x) = none

/-- The samples of unknown identity. -/
def Store.fresh (s : Store) (xs : List Sample) : List Sample :=
  xs.filter (fun x => (s.identities.get? (Store.identityOf x)).isNone)

theorem Admissible.of_frame {x : Sample} (hframe : ∀ stream, s'.closed stream = s.closed stream)
    (hfences : s'.fences = s.fences) (hdefinitions : s'.definitions = s.definitions)
    (h : Admissible s' x) : Admissible s x where
  opened := by rw [← hframe]; exact h.opened
  unfenced := by
    intro f hf
    apply h.unfenced
    unfold Store.fencesOf
    rw [hfences]
    exact hf
  defined := by
    rw [← hdefinitions]
    exact h.defined

theorem Entered.closed {now : ℕ} {xs : List Sample} (h : Entered D now s xs s')
    (stream : Stream) : s'.closed stream = s.closed stream :=
  h.others.closed stream

/-- One sample. -/
theorem putSample_entered {x : Sample} {now : ℕ} {inserted : Bool}
    (h : s.putSample x (D.sample x) now = .ok (inserted, s')) :
    Entered D now s [x] s' ∧
      inserted = (s.identities.get? (Store.identityOf x)).isNone := by
  rcases putSample_eq_ok h with ⟨rfl, rfl, row, hrow, hdigest⟩ | ⟨rfl, hnone, hadm, hinv⟩
  · refine ⟨?_, by rw [hrow]; rfl⟩
    exact {
      others := lockStream_frame s x.stream
      fences := rfl
      definitions := rfl
      plans := rfl
      kept := fun _ _ h => h
      rows := fun _ _ h => h
      replayed := by
        intro y hy row' hrow'
        rw [List.mem_singleton.mp hy] at hrow' ⊢
        rw [hrow, Option.some.injEq] at hrow'
        rw [← hrow']
        exact hdigest
      admissible := by
        intro y hy hnone
        rw [List.mem_singleton.mp hy, hrow] at hnone
        cases hnone
      entered := by
        intro y hy hnone
        rw [List.mem_singleton.mp hy, hrow] at hnone
        cases hnone
      only := by
        intro k hk hk'
        rw [show (s.lockStream x.stream).identities = s.identities from rfl, hk] at hk'
        cases hk'
      onlyRows := by
        intro k hk hk'
        rw [show (s.lockStream x.stream).samples = s.samples from rfl, hk] at hk'
        cases hk' }
  · refine ⟨?_, by rw [hnone]; rfl⟩
    have hframe := invalidate_frame hinv
    obtain ⟨hfences, hdefinitions, hplans⟩ := invalidate_fences hinv
    have hidentities : s'.identities =
        s.identities.insertNew (Store.identityOf x) ⟨D.sample x, x.observedAt, now⟩ :=
      hframe.identities
    have hsamples : s'.samples =
        s.samples.insertNew (Store.identityOf x, x.observedAt) ⟨x, now⟩ := hframe.samples
    exact {
      others := by
        have hlock := lockStream_frame
          { s with identities := s'.identities, samples := s'.samples } x.stream
        exact {
          streams := fun stream row hrow => hframe.streams _ _ (hlock.streams stream row hrow)
          entered := by
            intro stream row hrow
            rcases hframe.entered stream row hrow with hold | hnew
            · exact hlock.entered stream row hold
            · exact .inr hnew
          namespaces := fun scope hs => hframe.namespaces scope (hlock.namespaces scope hs)
          batches := hframe.batches
          identities := rfl
          samples := rfl }
      fences := hfences
      definitions := hdefinitions
      plans := hplans
      kept := by
        intro k row hrow
        rw [hidentities, Table.get?_insertNew]
        split
        · rename_i heq
          rw [heq, hnone] at hrow
          cases hrow
        · exact hrow
      rows := by
        intro k row hrow
        rw [hsamples, Table.get?_insertNew]
        split
        · rename_i heq
          rw [heq] at hrow
          rw [hrow]
          rfl
        · exact hrow
      replayed := by
        intro y hy row hrow
        rw [List.mem_singleton.mp hy, hnone] at hrow
        cases hrow
      admissible := by
        intro y hy _
        rw [List.mem_singleton.mp hy]
        exact hadm
      entered := by
        intro y hy _
        rw [List.mem_singleton.mp hy, hidentities, hsamples, Table.get?_insertNew_self, hnone]
        refine ⟨rfl, fun hrow => ?_⟩
        rw [Table.get?_insertNew_self, hrow]
        rfl
      only := by
        intro k hk hk'
        rw [hidentities, Table.get?_insertNew] at hk'
        split at hk'
        · rename_i heq
          exact ⟨x, List.mem_singleton_self x, heq.symm⟩
        · rw [hk] at hk'
          cases hk'
      onlyRows := by
        intro k hk hk'
        rw [hsamples, Table.get?_insertNew] at hk'
        split at hk'
        · rename_i heq
          exact ⟨x, List.mem_singleton_self x, heq.symm, hnone⟩
        · rw [hk] at hk'
          cases hk' }

/-- The identity of a sample that is not among those entered stays as it was. -/
theorem Entered.identity_of_not_mem {now : ℕ} {xs : List Sample} {k : Identity}
    (h : Entered D now s xs s') (hk : ∀ x ∈ xs, Store.identityOf x ≠ k) :
    s'.identities.get? k = s.identities.get? k := by
  cases hrow : s.identities.get? k with
  | some row => exact h.kept k row hrow
  | none =>
      cases hrow' : s'.identities.get? k with
      | none => rfl
      | some row =>
          obtain ⟨x, hx, hxk⟩ := h.only k hrow (by rw [hrow']; rfl)
          exact absurd hxk (hk x hx)

theorem Entered.row_of_not_mem {now : ℕ} {xs : List Sample} {k : Identity} {t : ℕ}
    (h : Entered D now s xs s') (hk : ∀ x ∈ xs, Store.identityOf x ≠ k) :
    s'.samples.get? (k, t) = s.samples.get? (k, t) := by
  cases hrow : s.samples.get? (k, t) with
  | some row => exact h.rows (k, t) row hrow
  | none =>
      cases hrow' : s'.samples.get? (k, t) with
      | none => rfl
      | some row =>
          obtain ⟨x, hx, hxk, -⟩ := h.onlyRows (k, t) hrow (by rw [hrow']; rfl)
          exact absurd (Prod.ext_iff.mp hxk).1 (hk x hx)

theorem Entered.nil (D : Digests) (now : ℕ) (s : Store) : Entered D now s [] s where
  others := .refl s
  fences := rfl
  definitions := rfl
  plans := rfl
  kept := fun _ _ h => h
  rows := fun _ _ h => h
  replayed := fun _ hx => absurd hx List.not_mem_nil
  admissible := fun _ hx => absurd hx List.not_mem_nil
  entered := fun _ hx => absurd hx List.not_mem_nil
  only := by
    intro k hk hk'
    rw [hk] at hk'
    cases hk'
  onlyRows := by
    intro k hk hk'
    rw [hk] at hk'
    cases hk'

theorem Entered.cons {now : ℕ} {x : Sample} {xs : List Sample} (h : Entered D now s [x] s')
    (h' : Entered D now s' xs s'') (hx : ∀ y ∈ xs, Store.identityOf y ≠ Store.identityOf x) :
    Entered D now s (x :: xs) s'' := by
  have hself : ∀ y ∈ xs, ∀ z ∈ [x], Store.identityOf z ≠ Store.identityOf y := by
    intro y hy z hz
    rw [List.mem_singleton.mp hz]
    exact (hx y hy).symm
  exact {
    others := {
      streams := fun stream row hrow => h'.others.streams stream row (h.others.streams stream row hrow)
      entered := by
        intro stream row hrow
        rcases h'.others.entered stream row hrow with hold | hnew
        · exact h.others.entered stream row hold
        · exact .inr hnew
      namespaces := fun scope hs => h'.others.namespaces scope (h.others.namespaces scope hs)
      batches := h'.others.batches.trans h.others.batches
      identities := rfl
      samples := rfl }
    fences := h'.fences.trans h.fences
    definitions := h'.definitions.trans h.definitions
    plans := h'.plans.trans h.plans
    kept := fun k row hrow => h'.kept k row (h.kept k row hrow)
    rows := fun k row hrow => h'.rows k row (h.rows k row hrow)
    replayed := by
      intro y hy row hrow
      rcases List.mem_cons.mp hy with rfl | hy
      · exact h.replayed y (List.mem_singleton_self y) row hrow
      · exact h'.replayed y hy row (h.kept _ row hrow)
    admissible := by
      intro y hy hnone
      rcases List.mem_cons.mp hy with rfl | hy
      · exact h.admissible y (List.mem_singleton_self y) hnone
      · rw [← h.identity_of_not_mem (hself y hy)] at hnone
        exact (h'.admissible y hy hnone).of_frame h.closed h.fences h.definitions
    entered := by
      intro y hy hnone
      rcases List.mem_cons.mp hy with rfl | hy
      · obtain ⟨hident, hrow⟩ := h.entered y (List.mem_singleton_self y) hnone
        refine ⟨h'.kept _ _ hident, fun hsample => ?_⟩
        exact h'.rows _ _ (hrow hsample)
      · rw [← h.identity_of_not_mem (hself y hy)] at hnone
        rw [← h.row_of_not_mem (hself y hy)]
        exact h'.entered y hy hnone
    only := by
      intro k hk hk''
      cases hk' : s'.identities.get? k with
      | none =>
          obtain ⟨y, hy, hyk⟩ := h'.only k hk' hk''
          exact ⟨y, List.mem_cons_of_mem _ hy, hyk⟩
      | some row =>
          obtain ⟨y, hy, hyk⟩ := h.only k hk (by rw [hk']; rfl)
          exact ⟨y, List.mem_cons.mpr (.inl (List.mem_singleton.mp hy)), hyk⟩
    onlyRows := by
      intro k hk hk''
      cases hk' : s'.samples.get? k with
      | none =>
          obtain ⟨y, hy, hyk, hnone⟩ := h'.onlyRows k hk' hk''
          refine ⟨y, List.mem_cons_of_mem _ hy, hyk, ?_⟩
          rw [← h.identity_of_not_mem (hself y hy)]
          exact hnone
      | some row =>
          obtain ⟨y, hy, hyk, hnone⟩ := h.onlyRows k hk (by rw [hk']; rfl)
          exact ⟨y, List.mem_cons.mpr (.inl (List.mem_singleton.mp hy)), hyk, hnone⟩ }

/-- The samples of a batch, one after another. -/
theorem putSamples_entered {now added : ℕ} {xs : List Sample}
    (h : Store.putSamples D now s xs = .ok (added, s'))
    (hdistinct : (xs.map Store.identityOf).Nodup) :
    Entered D now s xs s' ∧ added = (s.fresh xs).length := by
  induction xs generalizing s added with
  | nil =>
      cases h
      exact ⟨.nil D now _, rfl⟩
  | cons x xs ih =>
      rw [List.map_cons, List.nodup_cons] at hdistinct
      have hx : ∀ y ∈ xs, Store.identityOf y ≠ Store.identityOf x := by
        intro y hy heq
        exact hdistinct.1 (heq ▸ List.mem_map_of_mem hy)
      obtain ⟨⟨inserted, s₁⟩, hput, h⟩ := bind_eq_ok.mp h
      obtain ⟨⟨rest, s₂⟩, hrest, h⟩ := bind_eq_ok.mp h
      cases h
      obtain ⟨hone, hinserted⟩ := putSample_entered hput
      obtain ⟨hmany, hadded⟩ := ih hrest hdistinct.2
      refine ⟨hone.cons hmany hx, ?_⟩
      have hfresh : s₁.fresh xs = s.fresh xs := by
        apply List.filter_congr
        intro y hy
        rw [hone.identity_of_not_mem]
        intro z hz
        rw [List.mem_singleton.mp hz]
        exact (hx y hy).symm
      rw [hadded, hfresh, hinserted]
      unfold Store.fresh
      rw [List.filter_cons]
      split <;> rfl

/-! ### Batches -/

theorem identities_nodup (batch : Batch) : (batch.samples.map Store.identityOf).Nodup := by
  have hmap : (batch.samples.map Store.identityOf).map Prod.snd =
      batch.samples.map (fun x => x.id) := by
    rw [List.map_map]
    rfl
  exact List.Nodup.of_map Prod.snd (hmap ▸ batch.distinct)

/-- The query that names the receipt of a batch. -/
def receiptQuery (D : Digests) (batch : Batch) : ReceiptQuery :=
  ⟨batch.stream, batch.id, D.batch batch⟩

/-- The row of a new receipt. -/
def Receipt.row (r : Receipt) : BatchRow :=
  ⟨r.identity.digest, r.receivedAt, r.newSamples, r.replayedSamples, r.replayUntil, false⟩

/-- What the checks of the table guarantee of a row. -/
structure BatchRow.Checked (row : BatchRow) : Prop where
  promised : row.receivedAt < row.replayUntil
  total_pos : 1 ≤ row.newSamples + row.replayedSamples
  total_le : row.newSamples + row.replayedSamples ≤ Batch.maxSamples

theorem fromDurable_eq_ok {r r' : Receipt} (h : r.fromDurable = .ok r') : r' = r := by
  unfold Receipt.fromDurable at h
  obtain ⟨total, -, h⟩ := bind_eq_ok.mp h
  split at h
  · cases h
  · cases h
    rfl

theorem BatchRow.Checked.fromDurable {row : BatchRow} (h : row.Checked) (q : ReceiptQuery) :
    (row.receipt q).fromDurable = .ok (row.receipt q) := by
  have hle : row.newSamples + row.replayedSamples ≤ 4096 := h.total_le
  have hadd : checkedAdd 32 row.newSamples row.replayedSamples =
      some (row.newSamples + row.replayedSamples) := checkedAdd_of_lt (by omega)
  have hpos := h.total_pos
  have hpromised := h.promised
  show okOr (checkedAdd 32 row.newSamples row.replayedSamples) Error.invariant >>= _ = _
  rw [hadd, okOr_some, ok_bind, if_neg]
  · rfl
  · rintro (hzero | hmax | hlate)
    · omega
    · exact absurd hmax (Nat.not_lt.mpr h.total_le)
    · exact absurd hlate (Nat.not_le.mpr hpromised)

/-- What a lookup finds. -/
theorem lookup_eq_ok {q : ReceiptQuery} {found : Lookup Receipt} (h : s.lookup q = .ok found) :
    (s.batches.get? (q.stream, q.batchId) = none ∧
      found = if s.reclaimed q.stream then .expired else .notVisible) ∨
    ∃ row, s.batches.get? (q.stream, q.batchId) = some row ∧ row.digest = q.digest ∧
      ((row.expired = true ∧ found = .expired) ∨
        (row.expired = false ∧ found = .found (row.receipt q))) := by
  unfold Store.lookup at h
  split at h
  · rename_i hnone
    cases h
    exact .inl ⟨hnone, rfl⟩
  · rename_i row hrow
    refine .inr ⟨row, hrow, ?_⟩
    split at h
    · cases h
    · rename_i hdigest
      refine ⟨not_not.mp hdigest, ?_⟩
      split at h
      · rename_i hexpired
        cases h
        exact .inl ⟨hexpired, rfl⟩
      · rename_i hexpired
        cases hdurable : (row.receipt q).fromDurable with
        | error e =>
            rw [hdurable] at h
            cases h
        | ok r =>
            rw [hdurable] at h
            cases h
            rw [fromDurable_eq_ok hdurable]
            exact .inr ⟨by simpa using hexpired, rfl⟩

theorem lookup_notVisible {q : ReceiptQuery} (h : s.lookup q = .ok .notVisible) :
    s.reclaimed q.stream = false := by
  rcases lookup_eq_ok h with ⟨-, hfound⟩ | ⟨row, -, -, ⟨-, hfound⟩ | ⟨-, hfound⟩⟩
  · split at hfound
    · cases hfound
    · rename_i hreclaimed
      simpa using hreclaimed
  · cases hfound
  · cases hfound

theorem lookup_lockStream (s : Store) (stream : Stream) (q : ReceiptQuery) :
    (s.lockStream stream).lookup q = s.lookup q := by
  unfold Store.lookup
  rw [(lockStream_frame s stream).reclaimed]
  rfl

/-- A new batch: its samples are entered and its row counts the new ones. -/
structure Admitted (D : Digests) (s : Store) (batch : Batch) (now : ℕ) (receipt : Receipt)
    (s' : Store) : Prop where
  opened : s.closed batch.stream = false
  unknown : s.batches.get? (batch.stream, batch.id) = none
  unreclaimed : s.reclaimed batch.stream = false
  entered : Entered D now s batch.samples { s' with batches := s.batches }
  batches : s'.batches = s.batches.insertNew (batch.stream, batch.id) receipt.row
  checked : receipt.row.Checked
  identity : receipt.identity = receiptQuery D batch
  counted : receipt.newSamples = (s.fresh batch.samples).length
  total : receipt.newSamples + receipt.replayedSamples = batch.samples.length
  stream : (s'.streams.get? batch.stream).isSome
  scope : (s'.namespaces.get? batch.stream.scope).isSome

theorem putBatch_eq_ok {key : Identity} {row : BatchRow} (h : s.putBatch key row = .ok s') :
    s.batches.get? key = none ∧ row.Checked ∧
      s' = { s.lockStream key.1 with batches := s.batches.insertNew key row } := by
  unfold Store.putBatch at h
  simp only at h
  split at h
  · cases h
  · rename_i hnone
    split at h
    · rename_i hchecked
      cases h
      exact ⟨Option.not_isSome_iff_eq_none.mp hnone, ⟨hchecked.1, hchecked.2.1, hchecked.2.2⟩, rfl⟩
    · cases h

theorem isSome_lockStream (s : Store) (stream : Stream) :
    ((s.lockStream stream).streams.get? stream).isSome ∧
      ((s.lockStream stream).namespaces.get? stream.scope).isSome := by
  constructor
  · show ((s.streams.insertNew stream ⟨false, false⟩).get? stream).isSome
    rw [Table.get?_insertNew_self]
    rfl
  · show ((s.namespaces.insertNew stream.scope 0).get? stream.scope).isSome
    rw [Table.get?_insertNew_self]
    rfl

theorem Entered.of_lockStream {now : ℕ} {xs : List Sample} {stream : Stream}
    (h : Entered D now (s.lockStream stream) xs s') : Entered D now s xs s' :=
  { h with
    others := Frame.trans (lockStream_frame
      { s with identities := s'.identities, samples := s'.samples } stream) h.others
    admissible := fun x hx hnone => (h.admissible x hx hnone).of_frame
      (lockStream_frame s stream).closed rfl rfl }

theorem Entered.lockStream {now : ℕ} {xs : List Sample} (stream : Stream)
    (h : Entered D now s xs s') : Entered D now s xs (s'.lockStream stream) :=
  { h with
    others := h.others.trans (lockStream_frame s' stream) }

/-- A batch is the replay of its receipt, or it is admitted. -/
theorem admitBatch_eq_ok {batch : Batch} {horizon now : ℕ} {outcome : Outcome Receipt}
    (h : s.admitBatch D batch horizon now = .ok (outcome, s')) :
    (∃ receipt, outcome = .replay receipt ∧ s.lookup (receiptQuery D batch) = .ok (.found receipt) ∧
      s' = s.lockStream batch.stream) ∨
    ∃ receipt, outcome = .accepted receipt ∧ Admitted D s batch now receipt s' := by
  unfold Store.admitBatch at h
  obtain ⟨found, hlookup, h⟩ := bind_eq_ok.mp h
  rw [lookup_lockStream] at hlookup
  cases found with
  | found old =>
      cases h
      exact .inl ⟨old, rfl, hlookup, rfl⟩
  | expired => cases h
  | notVisible =>
      simp only [Store.admitNew] at h
      split at h
      · cases h
      · rename_i hopen
        rw [(lockStream_frame s batch.stream).closed] at hopen
        obtain ⟨⟨⟩, -, h⟩ := bind_eq_ok.mp h
        split at h
        · cases h
        · obtain ⟨⟨added, s₁⟩, hput, h⟩ := bind_eq_ok.mp h
          obtain ⟨s₂, hbatch, h⟩ := bind_eq_ok.mp h
          obtain ⟨again, hagain, h⟩ := bind_eq_ok.mp h
          obtain ⟨hentered, hadded⟩ := putSamples_entered hput (identities_nodup batch)
          obtain ⟨hnone, hchecked, rfl⟩ := putBatch_eq_ok hbatch
          have hbatches : s₁.batches = s.batches := hentered.others.batches
          cases again with
          | expired => cases h
          | notVisible => cases h
          | found result =>
              simp only at h
              split at h
              · cases h
              · rename_i htotal
                cases h
                refine .inr ⟨result, rfl, ?_⟩
                rcases lookup_eq_ok hagain with ⟨-, hmissing⟩ | ⟨row, hrow, -, hfound⟩
                · split at hmissing <;> cases hmissing
                · change (s₁.batches.insertNew (batch.stream, batch.id) _).get?
                    (batch.stream, batch.id) = some row at hrow
                  rw [Table.get?_insertNew_self, hnone, Option.getD_none, Option.some.injEq] at hrow
                  subst hrow
                  rcases hfound with ⟨hexpired, -⟩ | ⟨-, hfound⟩
                  · cases hexpired
                  · cases hfound
                    have hsome := isSome_lockStream s₁ batch.stream
                    exact {
                      opened := by simpa using hopen
                      unknown := by rw [← hbatches]; exact hnone
                      unreclaimed := lookup_notVisible hlookup
                      entered := by
                        have hlocked := hentered.of_lockStream.lockStream batch.stream
                        exact { hlocked with others := { hlocked.others with batches := rfl } }
                      batches := by
                        show s₁.batches.insertNew _ _ = _
                        rw [hbatches]
                        rfl
                      checked := hchecked
                      identity := rfl
                      counted := hadded
                      total := not_not.mp htotal
                      stream := hsome.1
                      scope := hsome.2 }

end Rss.TimeseriesPostgres
