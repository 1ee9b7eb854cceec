import Rss.Verification.TimeseriesPostgres.Resumption

/-! # What a plan rests on

A plan that recomputes rests on the rows of its series, on the fences that may cut it, on the
stored summaries of its specification and on the revision of its namespace. Whatever is committed
raises the revision or leaves all of them, steps that recompute the specification or prune its
series apart. -/

namespace Rss.TimeseriesPostgres

open Rss.Timeseries

variable {D : Digests} {s s' t : Store} {e : Event} {r : MaintenanceRequest} {spec : SummarySpec}
  {window : Interval} {limits : Limits}

/-- What the plans of the specification rest on is the same. -/
structure Undisturbed (spec : SummarySpec) (s s' : Store) : Prop where
  revision : s'.revision spec.stream.scope = s.revision spec.stream.scope
  rows : s'.rowsOf spec = s.rowsOf spec
  cuts : s'.cutsOf spec = s.cutsOf spec
  summaries : ∀ lo, s'.summaries.get? (spec, lo) = s.summaries.get? (spec, lo)

/-- What changes of it is announced by a new revision of the namespace. -/
def Announced (spec : SummarySpec) (s s' : Store) : Prop :=
  s.revision spec.stream.scope < s'.revision spec.stream.scope ∨ Undisturbed spec s s'

theorem Undisturbed.refl (spec : SummarySpec) (s : Store) : Undisturbed spec s s :=
  ⟨rfl, rfl, rfl, fun _ => rfl⟩

theorem Undisturbed.trans {s'' : Store} (h : Undisturbed spec s s') (h' : Undisturbed spec s' s'') :
    Undisturbed spec s s'' :=
  ⟨h'.revision.trans h.revision, h'.rows.trans h.rows, h'.cuts.trans h.cuts,
    fun lo => (h'.summaries lo).trans (h.summaries lo)⟩

theorem Announced.trans {s'' : Store} (h : Announced spec s s') (h' : Announced spec s' s'') :
    Announced spec s s'' := by
  rcases h with hraised | hsame
  · rcases h' with hraised' | hsame'
    · exact .inl (hraised.trans hraised')
    · exact .inl (by rw [hsame'.revision]; exact hraised)
  · rcases h' with hraised' | hsame'
    · exact .inl (by rw [← hsame.revision]; exact hraised')
    · exact .inr (hsame.trans hsame')

theorem Quiet.undisturbed (h : Quiet s s')
    (hsummaries : ∀ lo, s'.summaries.get? (spec, lo) = s.summaries.get? (spec, lo)) :
    Undisturbed spec s s' := by
  refine ⟨h.revision _, ?_, ?_, hsummaries⟩
  · unfold Store.rowsOf
    rw [h.samples]
  · unfold Store.cutsOf
    rw [h.fences]

theorem lockNamespace_undisturbed (s : Store) (scope : Scope) :
    Undisturbed spec s (s.lockNamespace scope).2 :=
  (lockNamespace_quiet s scope).undisturbed fun _ => rfl

theorem lockStream_quiet (s : Store) (stream : Stream) : Quiet s (s.lockStream stream) :=
  @Quiet.of_eq s _ stream.scope rfl rfl rfl

theorem lockStream_undisturbed (s : Store) (stream : Stream) :
    Undisturbed spec s (s.lockStream stream) :=
  (lockStream_quiet s stream).undisturbed fun _ => rfl

/-! ### Revisions -/

theorem invalidate_revision {scope : Scope} {sel : Selection} {lo hi : ℕ}
    (h : s.invalidate scope sel lo hi = .ok s') : s.revision scope < s'.revision scope := by
  unfold Store.invalidate at h
  simp only at h
  split at h
  · cases h
    show _ < (((s.namespaces.insertNew scope 0).modify scope _).get? scope).getD 0
    rw [Table.get?_modify_self, Table.get?_insertNew_self]
    exact Nat.lt_succ_self _
  · cases h

/-- A new revision of one namespace leaves the others. -/
theorem invalidate_undisturbed {scope : Scope} {sel : Selection} {lo hi : ℕ}
    (hscope : scope ≠ spec.stream.scope) (h : s.invalidate scope sel lo hi = .ok s') :
    Undisturbed spec s s' := by
  unfold Store.invalidate at h
  simp only at h
  split at h
  · cases h
    refine ⟨?_, rfl, rfl, fun lo => ?_⟩
    · show (((s.namespaces.insertNew scope 0).modify scope _).get? spec.stream.scope).getD 0 = _
      rw [Table.get?_modify_of_ne _ hscope.symm, Table.get?_insertNew, if_neg hscope.symm]
      rfl
    · show (Table.update _ _).get? (spec, lo) = _
      rw [Table.get?_update]
      simp only [hscope.symm, false_and, if_false]
      exact Option.map_id'
  · cases h

/-- What precedes a new revision need only leave the plans of other namespaces. -/
theorem invalidate_announced {scope : Scope} {sel : Selection} {lo hi : ℕ}
    (h : t.invalidate scope sel lo hi = .ok s')
    (hrevision : t.revision spec.stream.scope = s.revision spec.stream.scope)
    (hother : scope ≠ spec.stream.scope → Undisturbed spec s t) : Announced spec s s' := by
  by_cases hscope : scope = spec.stream.scope
  · refine .inl ?_
    rw [← hrevision, ← hscope]
    exact invalidate_revision h
  · exact .inr ((hother hscope).trans (invalidate_undisturbed hscope h))

/-! ### Batches -/

theorem insertSample_undisturbed {x : Sample} {digest : Digest} {received : ℕ}
    (hscope : x.stream.scope ≠ spec.stream.scope) :
    Undisturbed spec s (s.insertSample x digest received) := by
  refine ⟨rfl, Table.filter_insertNew _ ?_, rfl, fun _ => rfl⟩
  have hstream : x.stream ≠ spec.stream := fun heq => hscope (by rw [heq])
  simp [Store.identityOf, hstream]

theorem putSample_announced {x : Sample} {digest : Digest} {received : ℕ} {inserted : Bool}
    (h : s.putSample x digest received = .ok (inserted, s')) : Announced spec s s' := by
  have hlock := @lockStream_undisturbed spec s x.stream
  rcases putSample_eq_ok h with ⟨-, rfl, -⟩ | ⟨-, -, -, hinvalidate⟩
  · exact .inr hlock
  · exact invalidate_announced hinvalidate hlock.revision
      fun hscope => hlock.trans (insertSample_undisturbed hscope)

theorem putSamples_announced {received added : ℕ} {xs : List Sample}
    (h : Store.putSamples D received s xs = .ok (added, s')) : Announced spec s s' := by
  induction xs generalizing s added with
  | nil =>
      cases h
      exact .inr (.refl spec _)
  | cons x xs ih =>
      obtain ⟨⟨inserted, s₁⟩, hput, h⟩ := bind_eq_ok.mp h
      obtain ⟨⟨n, s₂⟩, hrest, h⟩ := bind_eq_ok.mp h
      cases h
      exact (putSample_announced hput).trans (ih hrest)

/-- A batch raises the revision of its namespace unless all of its samples are known. -/
theorem admitBatch_announced {batch : Batch} {horizon now : ℕ} {outcome : Outcome Receipt}
    (h : s.admitBatch D batch horizon now = .ok (outcome, s')) : Announced spec s s' := by
  have hlock : Announced spec s (s.lockStream batch.stream) :=
    .inr (lockStream_undisturbed s batch.stream)
  unfold Store.admitBatch at h
  obtain ⟨found, -, h⟩ := bind_eq_ok.mp h
  cases found with
  | found old =>
      cases h
      exact hlock
  | expired => cases h
  | notVisible =>
      unfold Store.admitNew at h
      simp only at h
      split at h
      · cases h
      · obtain ⟨⟨⟩, -, h⟩ := bind_eq_ok.mp h
        split at h
        · cases h
        · obtain ⟨⟨added, s₁⟩, hput, h⟩ := bind_eq_ok.mp h
          obtain ⟨s₂, hbatch, h⟩ := bind_eq_ok.mp h
          obtain ⟨found, -, h⟩ := bind_eq_ok.mp h
          have hsamples : Announced spec (s.lockStream batch.stream) s₁ := putSamples_announced hput
          have hwritten : Announced spec s₁ s₂ := by
            obtain ⟨-, -, rfl⟩ := putBatch_eq_ok hbatch
            refine .inr (Quiet.undisturbed ?_ fun _ => rfl)
            exact @Quiet.of_eq s₁ _ batch.stream.scope rfl rfl rfl
          cases found with
          | found result =>
              simp only at h
              split at h
              · cases h
              · cases h
                exact hlock.trans (hsamples.trans hwritten)
          | expired => cases h
          | notVisible => cases h

/-! ### Fences -/

/-- A fence takes the place of those of its kind and selection only. -/
theorem replaceFences_cuts {scope : Scope} {id : String} {f : Fence}
    (h : f.cuts spec scope = false) :
    (s.replaceFences scope id f).rows.filter (fun row => row.2.cuts spec row.1.1) =
      s.cutsOf spec := by
  have hsame : ∀ g : Fence, g.kind = f.kind → g.selection = f.selection →
      g.cuts spec scope = false := by
    intro g hkind hsel
    unfold Fence.cuts at h ⊢
    rw [hkind, hsel]
    exact h
  unfold Store.replaceFences
  simp only
  rw [Table.filter_insertNew _ (hsame _ rfl rfl), Table.filter_delete]
  · rfl
  · intro row hrow hcuts
    rw [decide_eq_false_iff_not]
    intro hmem
    obtain ⟨row', hearlier, hkey⟩ := List.mem_map.mp hmem
    obtain ⟨hrow', hin⟩ := List.mem_filter.mp hearlier
    have hget := Table.mem_rows.mp hrow'
    rw [hkey, Table.mem_rows.mp hrow] at hget
    simp only [Bool.and_eq_true, decide_eq_true_eq] at hin
    obtain ⟨⟨hscope, hkind⟩, hsel⟩ := hin
    rw [Option.some.inj hget, ← hkey, hscope, hsame _ hkind hsel] at hcuts
    cases hcuts

theorem putFence_announced {scope : Scope} {id : String} {f : Fence}
    (hcuts : f.kind ≠ .delete → f.cuts spec scope = false)
    (h : s.putFence scope id f = .ok s') : Announced spec s s' := by
  have hlock := @lockNamespace_undisturbed spec s scope
  have hreplaced : f.kind ≠ .delete → Announced spec s { (s.lockNamespace scope).2 with
      fences := (s.lockNamespace scope).2.replaceFences scope id f } := fun hkind =>
    .inr (hlock.trans ⟨rfl, rfl, replaceFences_cuts (hcuts hkind), fun _ => rfl⟩)
  unfold Store.putFence at h
  simp only at h
  split at h
  · cases h
  · split at h
    · next hkind =>
        cases h
        exact hreplaced (by rw [hkind]; decide)
    · next hkind =>
        cases h
        exact hreplaced (by rw [hkind]; decide)
    · refine invalidate_announced h hlock.revision fun hscope => ?_
      refine hlock.trans ⟨rfl, rfl, Table.filter_insertNew _ ?_, fun _ => rfl⟩
      simp [Fence.cuts, hscope]

theorem restoreFence_announced {scope : Scope} {id : String} {sel : Selection} {now : ℕ}
    (h : s.restoreFence scope id sel window now = .ok s') : Announced spec s s' := by
  have hlock := @lockNamespace_undisturbed spec s scope
  unfold Store.restoreFence at h
  simp only at h
  split at h
  · split at h
    · refine invalidate_announced h hlock.revision fun hscope => ?_
      refine hlock.trans ⟨rfl, rfl, Table.filter_modify _ _ fun f => ?_, fun _ => rfl⟩
      simp [Fence.cuts, hscope]
    · cases h
  · cases h

/-! ### Pruning -/

/-- Rows of other series may go. -/
theorem pruneRows_undisturbed {scope : Scope} {sel : Selection} {raw summaries cap clock : ℕ}
    (hfiled : Filed s) (hsel : sel.matches_ spec.stream spec.series = false) :
    Undisturbed spec s (Store.pruneRows D s scope sel raw summaries cap clock).2 := by
  refine ⟨(@lockNamespace_undisturbed spec s scope).revision, Table.filter_delete _ ?_,
    Table.filter_delete _ ?_, fun lo => ?_⟩
  · intro row hrow hin
    rw [decide_eq_false_iff_not]
    intro hmem
    obtain ⟨v, hv, hselected⟩ := Table.exists_of_mem_select hmem
    have hget : s.samples.get? row.1 = some row.2 := Table.mem_rows.mp hrow
    change s.samples.get? row.1 = some v at hv
    rw [hv] at hget
    obtain rfl := Option.some.inj hget
    obtain ⟨hkey, -⟩ := hfiled _ _ _ hv
    simp only [Bool.and_eq_true, decide_eq_true_eq] at hin hselected
    have hstream : row.2.raw.stream = spec.stream := (congrArg Prod.fst hkey).trans hin.1
    rw [hstream, hin.2, hsel] at hselected
    cases hselected.2
  · intro row hrow hin
    rw [decide_eq_false_iff_not]
    intro hmem
    obtain ⟨v, hv, hselected⟩ := Table.exists_of_mem_select hmem
    have hget : s.fences.get? row.1 = some row.2 := Table.mem_rows.mp hrow
    change s.fences.get? row.1 = some v at hv
    rw [hv] at hget
    obtain rfl := Option.some.inj hget
    simp only [Bool.and_eq_true, decide_eq_true_eq] at hselected
    unfold Fence.cuts at hin
    rw [hselected.1.1.2, hsel] at hin
    simp at hin
  · show (Table.delete _ _).get? (spec, lo) = _
    rw [Table.get?_delete]
    split
    · next hmem =>
        obtain ⟨v, hv, hselected⟩ := Table.exists_of_mem_select (of_decide_eq_true hmem)
        simp only [Bool.and_eq_true, decide_eq_true_eq] at hselected
        rw [hsel] at hselected
        cases hselected.2
    · rfl

theorem placeFence_eq_ok {selection : Selection} {rawLimit : Option ℕ} {limit placed : ℕ}
    (h : s.placeFence r selection rawLimit limit = .ok (placed, s')) :
    s' = s ∨ ∃ fences, s' = { (s.lockNamespace r.scope).2 with fences := fences } := by
  unfold Store.placeFence at h
  split at h
  · cases h
    exact .inl rfl
  · obtain ⟨s₁, hput, heq⟩ := map_eq_ok.mp h
    cases heq
    unfold Store.putFence at hput
    simp only at hput
    split at hput
    · cases hput
    · cases hput
      exact .inr ⟨_, rfl⟩

theorem placeFence_announced {selection : Selection} {rawLimit : Option ℕ} {limit placed : ℕ}
    (hsel : selection.matches_ spec.stream spec.series = false)
    (h : s.placeFence r selection rawLimit limit = .ok (placed, s')) : Announced spec s s' := by
  unfold Store.placeFence at h
  split at h
  · cases h
    exact .inr (.refl spec _)
  · obtain ⟨s₁, hput, heq⟩ := map_eq_ok.mp h
    cases heq
    refine putFence_announced (fun _ => ?_) hput
    simp [Fence.cuts, hsel]

/-- A prune of other series. -/
theorem prune_announced {selection : Selection} {rawBefore summariesBefore now clock : ℕ}
    {state state' : PlanState} {result : Work} (hfiled : Filed s)
    (hsel : selection.matches_ spec.stream spec.series = false)
    (h : s.prune D r selection rawBefore summariesBefore state now clock limits =
      .ok (result, state', s')) : Announced spec s s' := by
  unfold Store.prune at h
  obtain ⟨safe, -, h⟩ := bind_eq_ok.mp h
  cases safe with
  | error reason =>
      cases h
      exact .inr (.refl spec _)
  | ok limit =>
      obtain ⟨⟨placed, s₁⟩, hplace, h⟩ := bind_eq_ok.mp h
      have hplaced := placeFence_announced hsel hplace
      simp only at h
      split at h
      · cases h
        exact hplaced
      · cases h
        refine hplaced.trans (.inr (pruneRows_undisturbed ?_ hsel))
        rcases placeFence_eq_ok hplace with rfl | ⟨fences, rfl⟩
        · exact hfiled
        · exact hfiled

/-! ### Steps of other plans -/

theorem reclaim_announced {stream : Stream} {now : ℕ} {result : Work}
    (h : s.reclaim r stream now = .ok (result, s')) : Announced spec s s' := by
  unfold Store.reclaim at h
  split at h
  · cases h
    exact .inr (.refl spec _)
  · split at h
    · cases h
      exact .inr (.refl spec _)
    · split at h
      · cases h
        exact .inr (.refl spec _)
      · obtain ⟨⟨count, s₁⟩, hrows, h⟩ := bind_eq_ok.mp h
        cases h
        unfold Store.reclaimRows at hrows
        simp only at hrows
        split at hrows
        · cases hrows
          refine .inr (Quiet.undisturbed ?_ fun _ => rfl)
          exact @Quiet.of_eq s _ stream.scope rfl rfl rfl
        · cases hrows

theorem expire_announced {stream : Stream} {before now clock : ℕ} :
    Announced spec s (s.expire r stream before now clock).2 := by
  unfold Store.expire
  split
  · exact .inr (.refl spec s)
  · refine .inr (Quiet.undisturbed ?_ fun _ => rfl)
    exact @Quiet.of_eq s _ stream.scope rfl rfl rfl

theorem simple_announced {now clock : ℕ} {result : Work}
    (h : s.simple r now clock limits = .ok (result, s')) : Announced spec s s' := by
  unfold Store.simple at h
  split at h
  · obtain ⟨found, -, h⟩ := bind_eq_ok.mp h
    split at h
    · cases h
    · obtain ⟨s₁, hput, h⟩ := bind_eq_ok.mp h
      cases h
      exact putFence_announced (fun _ => by simp [Fence.cuts]) hput
  · split at h
    · cases h
    · obtain ⟨s₁, hput, h⟩ := bind_eq_ok.mp h
      cases h
      exact putFence_announced (fun hkind => absurd rfl hkind) hput
  · obtain ⟨s₁, hrestore, h⟩ := bind_eq_ok.mp h
    cases h
    exact restoreFence_announced hrestore
  · next stream _ =>
      cases h
      refine .inr (Quiet.undisturbed ?_ fun _ => rfl)
      exact @Quiet.of_eq s _ stream.scope rfl rfl rfl
  · cases h

/-- The request does not recompute the specification, nor prune its series. -/
structure Apart (r : MaintenanceRequest) (spec : SummarySpec) : Prop where
  recompute : ∀ window, r.action ≠ .recompute spec window
  prune : ∀ selection rawBefore summariesBefore,
    r.action = .prune selection rawBefore summariesBefore →
      selection.matches_ spec.stream spec.series = false

theorem work_announced {state state' : PlanState} {revision now clock : ℕ} {result : Work}
    (hfiled : Filed s) (hapart : Apart r spec)
    (h : s.work D r state revision now clock limits = .ok (result, state', s')) :
    Announced spec s s' := by
  unfold Store.work at h
  split at h
  · next other window haction =>
      obtain ⟨hquiet, hsummaries⟩ := recompute_quiet h
      have hne : spec ≠ other := by
        rintro rfl
        exact hapart.recompute window haction
      exact .inr (hquiet.undisturbed fun lo => hsummaries spec lo hne)
  · next haction => exact prune_announced hfiled (hapart.prune _ _ _ haction) h
  · cases h
    exact expire_announced
  · obtain ⟨⟨done, s₁⟩, hreclaim, heq⟩ := map_eq_ok.mp h
    cases heq
    exact reclaim_announced hreclaim
  · obtain ⟨⟨done, s₁⟩, hsimple, heq⟩ := map_eq_ok.mp h
    cases heq
    exact simple_announced hsimple

theorem maintain_announced {after : Option ℕ} {now clock : ℕ}
    {outcome : Outcome Store.MaintenanceProgress} (hfiled : Filed s) (hapart : Apart r spec)
    (h : s.maintain D r after now clock limits = .ok (outcome, s')) : Announced spec s s' := by
  have hlock : Announced spec s (s.lockNamespace r.scope).2 := .inr (lockNamespace_undisturbed s _)
  rcases maintain_eq_ok h with ⟨p, -, rfl⟩ | ⟨state, result, state', s₁, ordinal, -, hwork, -, hput,
    -⟩
  · exact hlock
  · obtain ⟨hquiet, hsummaries, -⟩ := putPlan_quiet hput
    have hlocked : Filed (s.lockNamespace r.scope).2 := hfiled
    exact hlock.trans ((work_announced hlocked hapart hwork).trans
      (.inr (hquiet.undisturbed fun lo => by rw [hsummaries])))

/-! ### Transactions -/

/-- The event is a step that recomputes the specification. -/
def Event.Recomputes (e : Event) (spec : SummarySpec) : Prop :=
  ∃ r window after now clock, e.call = .maintain r after now clock ∧
    r.action = .recompute spec window

/-- The event is a step that prunes the series of the specification. -/
def Event.Prunes (e : Event) (spec : SummarySpec) : Prop :=
  ∃ r selection rawBefore summariesBefore after now clock, e.call = .maintain r after now clock ∧
    r.action = .prune selection rawBefore summariesBefore ∧
    selection.matches_ spec.stream spec.series = true

/-- Whatever else is committed, in any namespace, announces what it changes. -/
theorem step_announced (hfiled : Filed s) (hstep : Step D s e s')
    (hrecomputes : ¬ e.Recomputes spec) (hprunes : ¬ e.Prunes spec) : Announced spec s s' := by
  cases hstep with
  | commit limits body =>
      next call answer =>
      cases call with
      | write batch now =>
          obtain ⟨⟨outcome, s₁⟩, hadmit, heq⟩ := map_eq_ok.mp body
          cases heq
          exact admitBatch_announced hadmit
      | register d expected =>
          obtain ⟨⟨outcome, s₁⟩, hregister, heq⟩ := map_eq_ok.mp body
          cases heq
          obtain ⟨heads, definitions, rfl⟩ := register_tables hregister
          exact .inr ⟨rfl, rfl, rfl, fun _ => rfl⟩
      | retire id expected =>
          obtain ⟨⟨outcome, s₁⟩, hretire, heq⟩ := map_eq_ok.mp body
          cases heq
          obtain ⟨heads, definitions, rfl⟩ := retire_tables hretire
          exact .inr ⟨rfl, rfl, rfl, fun _ => rfl⟩
      | maintain r after now clock =>
          obtain ⟨⟨outcome, s₁⟩, hmaintain, heq⟩ := map_eq_ok.mp body
          cases heq
          refine maintain_announced hfiled ⟨fun window haction => ?_,
            fun selection rawBefore summariesBefore haction => ?_⟩ hmaintain
          · exact hrecomputes ⟨r, window, after, now, clock, rfl, haction⟩
          · rw [Bool.eq_false_iff]
            intro hsel
            exact hprunes ⟨r, selection, rawBefore, summariesBefore, after, now, clock, rfl,
              haction, hsel⟩
  | refuse limits body => exact .inr (.refl spec s)
  | abort call => exact .inr (.refl spec s)

/-! ### Rows of the series -/

/-- The revision does not fall, and while it stays no row enters the series. -/
structure Shrunk (spec : SummarySpec) (s s' : Store) : Prop where
  revision : s.revision spec.stream.scope ≤ s'.revision spec.stream.scope
  rows : s'.revision spec.stream.scope = s.revision spec.stream.scope →
    (s'.rowsOf spec).length ≤ (s.rowsOf spec).length

theorem Announced.shrunk (h : Announced spec s s') : Shrunk spec s s' := by
  rcases h with hraised | hsame
  · exact ⟨hraised.le, fun heq => by omega⟩
  · exact ⟨hsame.revision.ge, fun _ => by rw [hsame.rows]⟩

theorem Quiet.shrunk (h : Quiet s s') : Shrunk spec s s' := by
  refine ⟨(h.revision _).ge, fun _ => ?_⟩
  unfold Store.rowsOf
  rw [h.samples]

theorem Shrunk.trans {s'' : Store} (h : Shrunk spec s s') (h' : Shrunk spec s' s'') :
    Shrunk spec s s'' := by
  have hle := h.revision
  have hle' := h'.revision
  exact ⟨hle.trans hle', fun heq => (h'.rows (by omega)).trans (h.rows (by omega))⟩

theorem prune_shrunk {selection : Selection} {rawBefore summariesBefore now clock : ℕ}
    {state state' : PlanState} {result : Work}
    (h : s.prune D r selection rawBefore summariesBefore state now clock limits =
      .ok (result, state', s')) : Shrunk spec s s' := by
  have hrefl := @Quiet.shrunk s s spec (.refl s)
  unfold Store.prune at h
  obtain ⟨safe, -, h⟩ := bind_eq_ok.mp h
  cases safe with
  | error reason =>
      cases h
      exact hrefl
  | ok limit =>
      obtain ⟨⟨placed, s₁⟩, hplace, h⟩ := bind_eq_ok.mp h
      have hplaced : Shrunk spec s s₁ := by
        rcases placeFence_eq_ok hplace with rfl | ⟨fences, rfl⟩
        · exact hrefl
        · exact ⟨((lockNamespace_quiet s r.scope).revision _).ge, fun _ => le_rfl⟩
      simp only at h
      split at h
      · cases h
        exact hplaced
      · cases h
        refine hplaced.trans ⟨((lockNamespace_quiet s₁ r.scope).revision _).ge, fun _ => ?_⟩
        exact (List.filter_sublist.filter _).length_le

theorem maintain_shrunk {after : Option ℕ} {now clock : ℕ}
    {outcome : Outcome Store.MaintenanceProgress}
    (h : s.maintain D r after now clock limits = .ok (outcome, s')) : Shrunk spec s s' := by
  have hlock := @Quiet.shrunk s _ spec (lockNamespace_quiet s r.scope)
  rcases maintain_eq_ok h with ⟨p, -, rfl⟩ | ⟨state, result, state', s₁, ordinal, -, hwork, -, hput,
    -⟩
  · exact hlock
  · refine hlock.trans (Shrunk.trans ?_ (putPlan_quiet hput).1.shrunk)
    unfold Store.work at hwork
    split at hwork
    · exact (recompute_quiet hwork).1.shrunk
    · exact prune_shrunk hwork
    · cases hwork
      exact expire_announced.shrunk
    · obtain ⟨⟨done, s₂⟩, hreclaim, heq⟩ := map_eq_ok.mp hwork
      cases heq
      exact (reclaim_announced hreclaim).shrunk
    · obtain ⟨⟨done, s₂⟩, hsimple, heq⟩ := map_eq_ok.mp hwork
      cases heq
      exact (simple_announced hsimple).shrunk

/-- No transaction lowers the revision, and none adds a row to the series without raising it. -/
theorem step_shrunk (hfiled : Filed s) (hstep : Step D s e s') : Shrunk spec s s' := by
  by_cases hmaintain : ∃ r after now clock, e.call = .maintain r after now clock
  · obtain ⟨r, after, now, clock, hcall⟩ := hmaintain
    cases hstep with
    | commit limits body =>
        cases hcall
        obtain ⟨⟨outcome, s₁⟩, hmaintain, heq⟩ := map_eq_ok.mp body
        cases heq
        exact maintain_shrunk hmaintain
    | refuse limits body => exact (Quiet.refl s).shrunk
    | abort call => exact (Quiet.refl s).shrunk
  · refine (step_announced hfiled hstep ?_ ?_).shrunk
    · rintro ⟨r, window, after, now, clock, hcall, -⟩
      exact hmaintain ⟨r, after, now, clock, hcall⟩
    · rintro ⟨r, selection, rawBefore, summariesBefore, after, now, clock, hcall, -⟩
      exact hmaintain ⟨r, after, now, clock, hcall⟩

end Rss.TimeseriesPostgres
