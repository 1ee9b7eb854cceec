import Rss.Verification.TimeseriesPostgres.Announcements

/-! # Runs of a plan that recomputes

Between the steps of a plan other transactions are committed. Each of them raises the revision of
the namespace, keeps what the plan rests on, or takes another plan of the specification on. -/

namespace Rss.TimeseriesPostgres

open Rss.Timeseries

variable {D : Digests} {labels labels' : List Event} {s s' m : Store} {e : Event}
  {r : MaintenanceRequest} {spec : SummarySpec} {window : Interval} {fold : Fold}
  {rest : List Sample} {limits : Limits}

/-! ### What one transaction does -/

/-- The event is a step of the plan. -/
def Event.OfPlan (e : Event) (r : MaintenanceRequest) : Prop :=
  ∃ after now clock, e.call = .maintain r after now clock

/-- The plan went on and the step answered. -/
def Event.Reports (e : Event) (r : MaintenanceRequest) (p : Store.MaintenanceProgress) : Prop :=
  e.OfPlan r ∧ e.ending = .committed (.progress (.accepted p))

/-- Some plan of the specification has a fold of the present revision. -/
def Underway (spec : SummarySpec) (s : Store) : Prop :=
  ∃ r window state f, r.action = .recompute spec window ∧ s.load r = .ok (state, false) ∧
    state.fold = some f ∧ f.revision = s.revision spec.stream.scope

/-- A transaction; a prune of the series announces what it changes of a plan that is underway. -/
def PlanStep (D : Digests) (spec : SummarySpec) (s : Store) (e : Event) (s' : Store) : Prop :=
  Step D s e s' ∧ (e.Prunes spec → Underway spec e.before → Announced spec e.before e.after)

/-- The revision is raised, or what a fold rests on is kept. -/
def Preserved (spec : SummarySpec) (s s' : Store) : Prop :=
  s.revision spec.stream.scope < s'.revision spec.stream.scope ∨
    (s'.revision spec.stream.scope = s.revision spec.stream.scope ∧ SameReads spec s s' ∧
      ∀ lo, Published s spec lo → Published s' spec lo)

theorem Preserved.refl (spec : SummarySpec) (s : Store) : Preserved spec s s :=
  .inr ⟨rfl, .of_eq rfl rfl, fun _ h => h⟩

theorem Announced.preserved (hfiled : Filed s) (h : Announced spec s s') : Preserved spec s s' := by
  rcases h with hraised | hkept
  · exact .inl hraised
  · have hsame := SameReads.of_rows hfiled hkept.rows hkept.cuts
    exact .inr ⟨hkept.revision, hsame, fun lo hlo => hlo.congr hsame (hkept.summaries lo)⟩

/-- Only the steps of a plan write its row. -/
theorem execute_load {call : Call} {answer : Answer} {state : PlanState} {done : Bool}
    (hguarded : PlansGuarded s) (h : s.execute D limits call = .ok (answer, s'))
    (hother : ∀ after now clock, call ≠ .maintain r after now clock)
    (hload : s'.load r = .ok (state, done)) : s.load r = .ok (state, done) := by
  have hsame : ∀ t : Store, t.plans = s.plans → t.load r = .ok (state, done) →
      s.load r = .ok (state, done) := by
    intro t ht hload
    unfold Store.load at hload ⊢
    rwa [ht] at hload
  cases call with
  | write batch now =>
      obtain ⟨⟨outcome, s₁⟩, hadmit, heq⟩ := map_eq_ok.mp h
      cases heq
      rcases admitBatch_eq_ok hadmit with ⟨receipt, -, -, rfl⟩ | ⟨receipt, -, hadmitted⟩
      · exact hsame _ rfl hload
      · exact hsame _ hadmitted.entered.plans hload
  | register d expected =>
      obtain ⟨⟨outcome, s₁⟩, hregister, heq⟩ := map_eq_ok.mp h
      cases heq
      exact hsame _ (register_frame hregister).2.2 hload
  | retire id expected =>
      obtain ⟨⟨outcome, s₁⟩, hretire, heq⟩ := map_eq_ok.mp h
      cases heq
      exact hsame _ (retire_frame hretire).2.2 hload
  | maintain r' after now clock =>
      obtain ⟨⟨outcome, s₁⟩, hmaintain, heq⟩ := map_eq_ok.mp h
      cases heq
      rcases maintain_eq_ok hmaintain with ⟨p, -, rfl⟩ | ⟨state', result, state'', s₂, ordinal,
        hload', hwork, -, hput, -⟩
      · exact hsame _ rfl hload
      · have hguarded₁ : PlansGuarded (s.lockNamespace r'.scope).2 := hguarded.mono (.of_eq rfl) rfl
        have hplans := (work_worked hwork (load_guarded hload' hguarded₁)).2.2.1
        obtain ⟨-, -, hplan⟩ := putPlan_quiet hput
        rw [load_eq_ok, hplan] at hload
        split at hload
        · rcases hload with ⟨hnone, -⟩ | hrow
          · cases hnone
          · cases hrow
            exact absurd rfl (hother after now clock)
        · rw [← load_eq_ok (s := s₂)] at hload
          exact hsame _ hplans hload

/-! ### The fold through a run -/

/-- Every plan of the specification may go on from where its fold stands. -/
def AllOngoing (s : Store) (spec : SummarySpec) : Prop :=
  ∀ r window, r.action = .recompute spec window → Ongoing s r spec window

theorem scope_of_recompute (haction : r.action = .recompute spec window) :
    r.scope = spec.stream.scope := by
  unfold MaintenanceRequest.scope MaintenanceAction.scope
  rw [haction]

/-- A plan whose row stays goes on where what its fold rests on is kept. -/
theorem Ongoing.kept (h : Ongoing s r spec window) (haction : r.action = .recompute spec window)
    (hrevision : s.revision spec.stream.scope ≤ s'.revision spec.stream.scope)
    (hpreserved : Underway spec s → Preserved spec s s')
    (hload : ∀ state, s'.load r = .ok (state, false) → s.load r = .ok (state, false)) :
    Ongoing s' r spec window := by
  intro state hstate f hf
  obtain ⟨hle, hstanding⟩ := h state (hload state hstate) f hf
  rw [scope_of_recompute haction] at hle hstanding ⊢
  refine ⟨hle.trans hrevision, fun heq => ?_⟩
  have hcurrent : f.revision = s.revision spec.stream.scope := by omega
  obtain ⟨rest, hrest⟩ := hstanding hcurrent
  rcases hpreserved ⟨r, window, state, f, haction, hload state hstate, hf, hcurrent⟩ with
    hraised | ⟨-, hsame, hpublished⟩
  · omega
  · exact ⟨rest, hrest.congr hsame hpublished⟩

/-- An accepted step leaves the plan where its fold stands. -/
theorem Advanced.ongoing {result : Work} {state : PlanState}
    (h : Advanced s s' spec window fold rest result state.fold)
    (hrevision : fold.revision = s'.revision r.scope)
    (hload : s'.load r = .ok (state, Store.Work.isDone result)) : Ongoing s' r spec window := by
  intro state' hload' f hf
  rw [hload] at hload'
  obtain ⟨rfl, -⟩ := Prod.mk.inj (Except.ok.inj hload')
  rw [hf] at h
  cases h with
  | read pos standing revision same shorter kept =>
      rw [revision, hrevision]
      exact ⟨le_rfl, fun _ => ⟨_, standing⟩⟩
  | publish stores standing revision next =>
      rw [revision, hrevision]
      exact ⟨le_rfl, fun _ => ⟨_, standing⟩⟩

/-- What one transaction does to the plan. -/
inductive PlanMoved (s : Store) (r : MaintenanceRequest) (spec : SummarySpec) (window : Interval)
    (e : Event) (s' : Store) : Prop where
  | kept (load : ∀ state, s'.load r = .ok (state, false) → s.load r = .ok (state, false))
      (shrunk : Shrunk spec s s') (preserved : Underway spec s → Preserved spec s s')
      (silent : ∀ p, ¬ e.Reports r p)
  | stepped {state state' : PlanState} {rest : List Sample} {result : Work}
      (tiled : Tiled spec window) (load : s.load r = .ok (state, false))
      (standing : Standing s spec window
        (Store.resume state.fold window (s.revision r.scope)) rest)
      (revision : (Store.resume state.fold window (s.revision r.scope)).revision =
        s.revision r.scope)
      (quiet : Quiet s s')
      (advanced : Advanced s s' spec window
        (Store.resume state.fold window (s.revision r.scope)) rest result state'.fold)
      (written : s'.load r = .ok (state', Store.Work.isDone result))
      (reports : ∀ p, e.Reports r p ↔ p = Store.progressOf r state'.ordinal result)

/-- A step that recomputes keeps what the other plans of the specification rest on. -/
theorem Step.recomputes_preserved (hfiled : Filed s) (hall : AllOngoing s spec)
    (h : Step D s e s') (hrecomputes : e.Recomputes spec) : Preserved spec s s' := by
  obtain ⟨r, window, after, now, clock, hcall, haction⟩ := hrecomputes
  cases h with
  | commit limits body =>
      cases hcall
      obtain ⟨⟨outcome, s₁⟩, hmaintain, heq⟩ := map_eq_ok.mp body
      cases heq
      cases outcome with
      | replay p =>
          rcases maintain_eq_ok hmaintain with ⟨p', -, rfl⟩ | ⟨_, _, _, _, _, -, -, -, -, heq⟩
          · have hlock := lockNamespace_quiet s r.scope
            exact .inr ⟨hlock.revision _, hlock.same, fun lo hlo => hlo.congr hlock.same rfl⟩
          · cases heq
      | accepted p =>
          obtain ⟨state, rest, result, state', -, -, -, -, hquiet, hadvanced, -⟩ :=
            maintain_advanced hfiled haction (hall r window haction) hmaintain
          exact .inr ⟨hquiet.revision _, hquiet.same, fun lo => hadvanced.published hquiet.same⟩
  | refuse limits body => exact .refl spec s
  | abort call => exact .refl spec s

theorem PlanStep.preserved (hfiled : Filed s) (hall : AllOngoing s spec)
    (h : PlanStep D spec s e s') (hunderway : Underway spec s) : Preserved spec s s' := by
  obtain ⟨hstep, hprune⟩ := h
  obtain ⟨hbefore, hafter⟩ := hstep.ends
  rw [hbefore, hafter] at hprune
  by_cases hrecomputes : e.Recomputes spec
  · exact hstep.recomputes_preserved hfiled hall hrecomputes
  · by_cases hprunes : e.Prunes spec
    · exact (hprune hprunes hunderway).preserved hfiled
    · exact (step_announced hfiled hstep hrecomputes hprunes).preserved hfiled

theorem PlanStep.moved (hinv : Inv D labels s) (haction : r.action = .recompute spec window)
    (hall : AllOngoing s spec) (h : PlanStep D spec s e s') :
    PlanMoved s r spec window e s' := by
  have hfiled := filed_of_inv hinv
  have hshrunk : Shrunk spec s s' := step_shrunk hfiled h.1
  have hpreserved := h.preserved hfiled hall
  obtain ⟨hstep, -⟩ := h
  by_cases hplan : e.OfPlan r
  · obtain ⟨after, now, clock, hcall⟩ := hplan
    cases hstep with
    | commit limits body =>
        cases hcall
        obtain ⟨⟨outcome, s₁⟩, hmaintain, heq⟩ := map_eq_ok.mp body
        cases heq
        cases outcome with
        | replay p =>
            rcases maintain_eq_ok hmaintain with ⟨p', -, rfl⟩ | ⟨_, _, _, _, _, -, -, -, -, heq⟩
            · refine .kept (fun state hload => hload) hshrunk hpreserved fun p'' hreports => ?_
              cases hreports.2
            · cases heq
        | accepted p =>
            obtain ⟨state, rest, result, state', htiled, hload, hstanding, hrevision, hquiet,
              hadvanced, hwritten, rfl⟩ :=
              maintain_advanced hfiled haction (hall r window haction) hmaintain
            refine .stepped htiled hload hstanding hrevision hquiet hadvanced hwritten fun p => ?_
            constructor
            · intro hreports
              cases hreports.2
              rfl
            · intro hp
              rw [hp]
              exact ⟨⟨after, now, clock, rfl⟩, rfl⟩
    | refuse limits body =>
        refine .kept (fun _ hload => hload) hshrunk hpreserved fun p hreports => ?_
        cases hreports.2
    | abort call =>
        refine .kept (fun _ hload => hload) hshrunk hpreserved fun p hreports => ?_
        cases hreports.2
  · refine .kept (fun state hload => ?_) hshrunk hpreserved fun p hreports => hplan hreports.1
    cases hstep with
    | commit limits body =>
        exact execute_load hinv.guarded body (fun after now clock hcall =>
          hplan ⟨after, now, clock, hcall⟩) hload
    | refuse limits body => exact hload
    | abort call => exact hload

theorem PlanMoved.ongoing (h : PlanMoved s r spec window e s')
    (haction : r.action = .recompute spec window) (hongoing : Ongoing s r spec window) :
    Ongoing s' r spec window := by
  cases h with
  | kept load shrunk preserved silent =>
      exact hongoing.kept haction shrunk.revision preserved load
  | stepped tiled load standing revision quiet advanced written reports =>
      refine advanced.ongoing ?_ written
      rw [revision, quiet.revision]

theorem PlanStep.allOngoing (hinv : Inv D labels s) (hall : AllOngoing s spec)
    (h : PlanStep D spec s e s') : AllOngoing s' spec :=
  fun r window haction =>
    (h.moved hinv haction hall).ongoing haction (hall r window haction)

/-- Steps a fold may still take: the samples left in its bucket, and in each later bucket no more
than so many rows and one. -/
def workLeft (s : Store) (spec : SummarySpec) (window : Interval) (rows : ℕ) (fold : Fold) : ℕ :=
  (window.stop - fold.at_) * (rows + 1) +
    (s.remaining spec (spec.bucket fold.at_) fold.last).length

/-- Steps a whole plan may take over so many rows. -/
def wholeWork (window : Interval) (rows : ℕ) : ℕ :=
  (window.stop - window.start) * (rows + 1) + rows

theorem remaining_length_le (bucket : Interval) (last : Option (ℕ × ℕ × String)) :
    (s.remaining spec bucket last).length ≤ (s.rowsOf spec).length :=
  (List.length_filter_le _ _).trans (seriesWithin_length_le _ _)

/-- A bucket that is stored takes more work with it than the next one may bring. -/
theorem workLeft_publish {fold' : Fold} {rows : ℕ} (hrows : (s'.rowsOf spec).length ≤ rows)
    (hupper : fold'.at_ < window.stop) (hat : fold.at_ < fold'.at_) :
    workLeft s' spec window rows fold' < workLeft s spec window rows fold := by
  have hrest := (@remaining_length_le s' spec (spec.bucket fold'.at_) fold'.last).trans hrows
  have hnext : window.stop - fold'.at_ + 1 ≤ window.stop - fold.at_ := by omega
  have hmul := Nat.mul_le_mul_right (rows + 1) hnext
  rw [Nat.add_mul, Nat.one_mul] at hmul
  unfold workLeft
  omega

/-- The plan goes on for at most so many steps. -/
structure Left (D : Digests) (r : MaintenanceRequest) (spec : SummarySpec) (window : Interval)
    (rows : ℕ) (s : Store) (n : ℕ) : Prop where
  reached : ∃ labels, Inv D labels s
  ongoing : AllOngoing s spec
  rows_le : (s.rowsOf spec).length ≤ rows
  idle : ∀ state, s.load r = .ok (state, false) →
    (∀ f, state.fold = some f → f.revision ≠ s.revision r.scope) → wholeWork window rows ≤ n
  work : ∀ state f, s.load r = .ok (state, false) → state.fold = some f →
    f.revision = s.revision r.scope → workLeft s spec window rows f ≤ n

/-- The next step begins with no more work. -/
theorem Left.resume {rows n : ℕ} {state : PlanState} (h : Left D r spec window rows s n)
    (hload : s.load r = .ok (state, false)) :
    workLeft s spec window rows (Store.resume state.fold window (s.revision r.scope)) ≤ n := by
  have hfresh : workLeft s spec window rows ⟨window.start, s.revision r.scope, none, none⟩ ≤
      wholeWork window rows :=
    Nat.add_le_add_left (remaining_length_le _ _ |>.trans h.rows_le) _
  unfold Store.resume
  split
  · next f hf =>
      split
      · next hcurrent => exact h.work state f hload hf hcurrent
      · next hstale =>
          refine hfresh.trans (h.idle state hload fun f' hf' => ?_)
          rw [hf] at hf'
          cases hf'
          exact hstale
  · next hnone =>
      refine hfresh.trans (h.idle state hload fun f hf => ?_)
      rw [hnone] at hf
      cases hf

/-- The accepted step of a plan that is not its last. -/
def Event.proceeds (r : MaintenanceRequest) (e : Event) : Bool :=
  match e.call, e.ending with
  | .maintain r' _ _ _, .committed (.progress (.accepted (.more _ _))) => decide (r' = r)
  | _, _ => false

theorem proceeds_iff : e.proceeds r = true ↔ ∃ processed next, e.Reports r (.more processed next) := by
  constructor
  · intro h
    unfold Event.proceeds at h
    split at h
    · next r' after now clock processed next hcall hending =>
        obtain rfl := of_decide_eq_true h
        exact ⟨processed, next, ⟨after, now, clock, hcall⟩, hending⟩
    · cases h
  · rintro ⟨processed, next, ⟨after, now, clock, hcall⟩, hending⟩
    unfold Event.proceeds
    rw [hcall, hending]
    simp

/-- While the revision stays, a transaction that is no step of the plan brings it no work. -/
theorem Left.kept {rows n : ℕ} (h : Left D r spec window rows s n)
    (haction : r.action = .recompute spec window) (hinv : ∃ labels, Inv D labels s')
    (hongoing : AllOngoing s' spec) (hshrunk : Shrunk spec s s')
    (hpreserved : Underway spec s → Preserved spec s s')
    (hrevision : s'.revision r.scope = s.revision r.scope)
    (hload : ∀ state, s'.load r = .ok (state, false) → s.load r = .ok (state, false)) :
    Left D r spec window rows s' n := by
  have hscope := scope_of_recompute haction
  refine ⟨hinv, hongoing, (hshrunk.rows (hscope ▸ hrevision)).trans h.rows_le,
    fun state hstate hstale => ?_, fun state f hstate hf hcurrent => ?_⟩
  · rw [hrevision] at hstale
    exact h.idle state (hload state hstate) hstale
  · rw [hrevision] at hcurrent
    have hle := h.work state f (hload state hstate) hf hcurrent
    rw [hscope] at hcurrent hrevision
    rcases hpreserved ⟨r, window, state, f, haction, hload state hstate, hf, hcurrent⟩ with
      hraised | ⟨-, hsame, -⟩
    · omega
    · unfold workLeft at hle ⊢
      rwa [hsame.remaining]

theorem Left.step {rows n : ℕ} (haction : r.action = .recompute spec window)
    (h : Left D r spec window rows s n) (hstep : PlanStep D spec s e s')
    (hrevision : e.after.revision r.scope = e.before.revision r.scope) :
    ∃ k, Left D r spec window rows s' k ∧ k + (if e.proceeds r then 1 else 0) ≤ n := by
  obtain ⟨before, hinv⟩ := h.reached
  obtain ⟨hbefore, hafter⟩ := hstep.1.ends
  rw [hbefore, hafter] at hrevision
  have hinv' : ∃ labels, Inv D labels s' := ⟨_, hinv.step hstep.1⟩
  have hongoing := hstep.allOngoing hinv h.ongoing
  cases hstep.moved hinv haction h.ongoing with
  | kept load shrunk preserved silent =>
      have hnot : e.proceeds r = false := by
        rw [Bool.eq_false_iff, ne_eq, proceeds_iff]
        rintro ⟨processed, next, hreports⟩
        exact silent _ hreports
      refine ⟨n, ?_, by rw [hnot]; simp⟩
      exact h.kept haction hinv' hongoing shrunk preserved hrevision load
  | @stepped state state' rest result tiled load standing revision quiet advanced written reports =>
      have hle := h.resume load
      have hfiled := filed_of_inv hinv
      have hfiled' := filed_of_inv hinv'.choose_spec
      have hrows : (s'.rowsOf spec).length ≤ rows :=
        (quiet.shrunk.rows (quiet.revision _)).trans h.rows_le
      -- What a fold of the present revision has left is what the plan has left.
      have hleft : ∀ f, state'.fold = some f → f.revision = s.revision r.scope →
          Left D r spec window rows s' (workLeft s' spec window rows f) := by
        intro f hf hrev
        refine ⟨hinv', hongoing, hrows, fun state'' hload' hstale => ?_,
          fun state'' f' hload' hf' _ => ?_⟩
        · rw [written] at hload'
          obtain ⟨rfl, -⟩ := Prod.mk.inj (Except.ok.inj hload')
          exact absurd (hrev.trans hrevision.symm) (hstale f hf)
        · rw [written] at hload'
          obtain ⟨rfl, -⟩ := Prod.mk.inj (Except.ok.inj hload')
          rw [hf] at hf'
          cases hf'
          exact le_rfl
      have hone : (if e.proceeds r then 1 else 0) ≤ 1 := by
        split
        all_goals omega
      generalize hkept : state'.fold = kept at advanced hleft
      cases advanced with
      | @read processed fold' rest' pos standing' revision' same shorter kept =>
          refine ⟨_, hleft fold' rfl (revision'.trans revision), ?_⟩
          unfold workLeft at hle ⊢
          rw [standing.paused.remaining hfiled] at hle
          rw [standing'.paused.remaining hfiled', same]
          omega
      | @publish processed fold' rest' stores standing' revision' next =>
          refine ⟨_, hleft fold' rfl (revision'.trans revision), ?_⟩
          have hlt := @workLeft_publish s s' spec window _ fold' rows hrows standing'.upper next
          omega
      | @complete processed stores published =>
          have hnot : e.proceeds r = false := by
            rw [Bool.eq_false_iff, ne_eq, proceeds_iff]
            rintro ⟨processed', next, hreports⟩
            cases (reports _).mp hreports
          refine ⟨0, ⟨hinv', hongoing, hrows, fun state'' hload' _ => ?_,
            fun state'' f hload' _ _ => ?_⟩, by rw [hnot]; simp⟩
          · rw [written] at hload'
            cases hload'
          · rw [written] at hload'
            cases hload'

def laterSample : Sample where
  stream := meterStream
  series := ⟨meterDefinition, "line", "meter", []⟩
  id := "d"
  sequence := 2
  observedAt := 200
  interval := none
  reading := .valid (.number (.u64 9))
  valid := {
    observed_lt := by decide
    scope := rfl
    accepts := by
      intro v hv
      cases hv
      rfl
    interval_stop := fun _ h => nomatch h
    counter_interval := fun _ _ h => nomatch h }

def laterBatch : Batch where
  stream := meterStream
  id := "c"
  samples := [laterSample]
  nonempty := by decide
  length_le := by decide
  of_stream := by simp [laterSample]
  distinct := by simp

def laterReceipt : Receipt := ⟨⟨meterStream, "c", 2⟩, 510, 1, 0, 1460⟩

def meteredTwice : Store :=
  { metered with
    namespaces := ((Table.empty.insertNew meterScope 0).modify meterScope (fun _ => 1)).modify
      meterScope (fun _ => 2)
    identities := (Table.empty.insertNew (meterStream, "a") ⟨1, 100, 500⟩).insertNew
      (meterStream, "d") ⟨1, 200, 510⟩
    samples := (Table.empty.insertNew ((meterStream, "a"), 100) ⟨meterSample, 500⟩).insertNew
      ((meterStream, "d"), 200) ⟨laterSample, 510⟩
    batches := (Table.empty.insertNew (meterStream, "b") ⟨2, 500, 1, 0, 1450, false⟩).insertNew
      (meterStream, "c") ⟨2, 510, 1, 0, 1460, false⟩ }

def meterSpec : SummarySpec := ⟨meterStream, meterSample.series, 1000, .observedOnly, none⟩

def meterWindow : Interval := ⟨0, 1000, by decide⟩

def meterPlan : MaintenanceRequest where
  id := "p"
  action := .recompute meterSpec meterWindow
  rows := 1
  buckets := 1
  rows_pos := Nat.one_pos
  buckets_pos := Nat.one_pos
  valid := ⟨rfl, by decide, by decide, by decide⟩

/-- No more than one item may be read. -/
def narrowLimits : Limits := { meterLimits with maxPoints := 1, maxPoints_pos := Nat.one_pos }

theorem metered_written : meterDefined.execute meterDigests meterLimits (.write meterBatch 500) =
    .ok (.receipt (.accepted meterReceipt), metered) := by
  have hdefinitions : Store.batchDefinitions [meterSample] = [meterDefinition] := by
    simp [Store.batchDefinitions, meterSample]
  have hadmit : meterDefined.admitBatch meterDigests meterBatch 950 500 =
      .ok (.accepted meterReceipt, metered) := by
    unfold Store.admitBatch Store.admitNew
    simp only [show meterBatch.samples = [meterSample] from rfl, hdefinitions]
    rfl
  exact map_eq_ok.mpr ⟨_, hadmit, rfl⟩

theorem meteredTwice_written : metered.execute meterDigests meterLimits (.write laterBatch 510) =
      .ok (.receipt (.accepted laterReceipt), meteredTwice) := by
  have hdefinitions : Store.batchDefinitions [laterSample] = [meterDefinition] := by
    simp [Store.batchDefinitions, laterSample]
  have hadmit : metered.admitBatch meterDigests laterBatch 950 510 =
      .ok (.accepted laterReceipt, meteredTwice) := by
    unfold Store.admitBatch Store.admitNew
    simp only [show laterBatch.samples = [laterSample] from rfl, hdefinitions]
    rfl
  exact map_eq_ok.mpr ⟨_, hadmit, rfl⟩

/-- What the summaries of these tables read. -/
theorem meteredTwice_reads {t : Store} (h : SameReads meterSpec meteredTwice t) :
    t.seriesWithin meterSpec 0 1000 = [meterSample, laterSample] ∧
      ∀ window kinds limit, FenceKind.cutoff ∉ kinds →
        t.fencesWithin meterSpec.selection window kinds limit = .ok [] := by
  constructor
  · rw [h.series]
    change List.mergeSort [meterSample, laterSample] _ = _
    apply List.mergeSort_of_pairwise
    decide
  · intro window kinds limit hkinds
    rw [h.fencesWithin window hkinds, fencesWithin_eq]
    have hrows : meteredTwice.fenceRows meterSpec.selection window kinds = [] := by
      change List.mergeSort [] _ = []
      simp
    rw [hrows]
    simp

theorem deletions_twice {t : Store} (h : SameReads meterSpec meteredTwice t) (w : Interval)
    (limit : ℕ) : t.deletions meterSpec w limit = .ok [] := by
  unfold Store.deletions
  rw [(meteredTwice_reads h).2 _ _ _ (by decide)]
  simp

/-- The builder after the first sample. -/
def meterBuilder : SummaryBuilder :=
  ⟨meterSpec, ⟨⟨0, 1000, by decide⟩, meterSpec.semantics, 0, ∅, .numeric (.empty .u64)⟩, none,
    some meterSample⟩

def foldedOnce : Store :=
  { meteredTwice with
    ranges := Table.empty.insertNew (meterSpec, 0, 1000) ()
    plans := Table.empty.insertNew (meterScope, "p")
      ⟨meterPlan, ⟨1, some ⟨0, 2, some meterBuilder, some (100, 1, "a")⟩, none⟩, false⟩ }

theorem foldedOnce_stepped :
    meteredTwice.execute meterDigests narrowLimits (.maintain meterPlan none 600 600) =
      .ok (.progress (.accepted (.more 1 1)), foldedOnce) := by
  generalize ht : (meteredTwice.lockNamespace meterScope).2.enroll meterSpec meterWindow none = t
  have hreads : SameReads meterSpec meteredTwice t := by
    rw [← ht]
    exact .of_eq rfl rfl
  obtain ⟨hseries, hfences⟩ := meteredTwice_reads hreads
  have hadvance : t.advanceFold meterPlan meterSpec meterWindow ⟨0, none, none⟩ ⟨0, 2, none, none⟩
      narrowLimits = .ok (.more 1, ⟨0, some ⟨0, 2, some meterBuilder, some (100, 1, "a")⟩, none⟩,
        t) := by
    rw [@advanceFold_of t meterPlan meterSpec meterWindow ⟨0, 2, none, none⟩
      [meterSample, laterSample] narrowLimits ⟨0, none, none⟩
      { meterBuilder with pending := none } meterBuilder []]
    · rfl
    · rfl
    · exact gapsAfter_eq_ok.mpr ⟨by decide, deletions_twice hreads _ _⟩
    · unfold Store.remaining
      change (t.seriesWithin meterSpec 0 1000).filter _ = _
      rw [hseries]
      rfl
    · rfl
  have hrecompute : (meteredTwice.lockNamespace meterScope).2.recompute meterPlan meterSpec
      meterWindow ⟨0, none, none⟩ 2 narrowLimits =
        .ok (.more 1, ⟨0, some ⟨0, 2, some meterBuilder, some (100, 1, "a")⟩, none⟩, t) := by
    unfold Store.recompute Store.prunedWithin
    change (Store.fencesWithin _ meterSpec.selection _ _ _ >>= fun _ => _) >>= _ = _
    rw [(@meteredTwice_reads (meteredTwice.lockNamespace meterScope).2 (.of_eq rfl rfl)).2 _ _ _
      (by decide)]
    simp only [ht]
    exact hadvance
  have hput : t.putPlan meterPlan ⟨1, some ⟨0, 2, some meterBuilder, some (100, 1, "a")⟩, none⟩
      false = .ok foldedOnce := by
    rw [← ht]
    rfl
  exact map_eq_ok.mpr ⟨_, maintain_of (by decide) (by decide) (by decide) rfl (by decide) hrecompute
    rfl hput, rfl⟩

/-- The second step stores the bucket. -/
theorem foldedOnce_completed : ∃ s, foldedOnce.execute meterDigests narrowLimits
    (.maintain meterPlan none 610 610) = .ok (.progress (.accepted (.complete 1 "p")), s) ∧
      SameReads meterSpec meteredTwice s := by
  generalize ht : (foldedOnce.lockNamespace meterScope).2 = t
  have hreads : SameReads meterSpec meteredTwice t := by
    rw [← ht]
    exact .of_eq rfl rfl
  obtain ⟨hseries, hfences⟩ := meteredTwice_reads hreads
  obtain ⟨s₁, s', hboth, hput, hkept⟩ : ∃ s₁ s',
      (maskAndPush [] 1 meterBuilder [laterSample] >>= fun c =>
        (foldedOnce.lockNamespace meterScope).2.closeBucket meterSpec meterWindow
        ⟨1, some ⟨0, 2, some meterBuilder, some (100, 1, "a")⟩, none⟩
        ⟨0, 2, some meterBuilder, some (100, 1, "a")⟩ [] c 1 narrowLimits) =
          .ok (.done 1, ⟨1, none, none⟩, s₁) ∧
      s₁.putPlan meterPlan ⟨2, none, none⟩ true = .ok s' ∧ SameReads meterSpec meteredTwice s' :=
        ⟨_, _, rfl, rfl, .of_eq rfl rfl⟩
  obtain ⟨c, hfold, hclose⟩ := bind_eq_ok.mp hboth
  rw [ht] at hclose
  have hadvance : t.advanceFold meterPlan meterSpec meterWindow
      ⟨1, some ⟨0, 2, some meterBuilder, some (100, 1, "a")⟩, none⟩
      ⟨0, 2, some meterBuilder, some (100, 1, "a")⟩ narrowLimits =
        .ok (.done 1, ⟨1, none, none⟩, s₁) := by
    rw [@advanceFold_of t meterPlan meterSpec meterWindow
      ⟨0, 2, some meterBuilder, some (100, 1, "a")⟩ [laterSample] narrowLimits _ meterBuilder c []]
    · exact hclose
    · rfl
    · exact gapsAfter_eq_ok.mpr ⟨by decide, deletions_twice hreads _ _⟩
    · unfold Store.remaining
      change (t.seriesWithin meterSpec 0 1000).filter _ = _
      rw [hseries]
      rfl
    · exact hfold
  have hrecompute : (foldedOnce.lockNamespace meterScope).2.recompute meterPlan meterSpec
      meterWindow ⟨1, some ⟨0, 2, some meterBuilder, some (100, 1, "a")⟩, none⟩ 2 narrowLimits =
        .ok (.done 1, ⟨1, none, none⟩, s₁) := by
    rw [ht]
    unfold Store.recompute Store.prunedWithin
    rw [hfences _ _ _ (by decide)]
    exact hadvance
  exact ⟨s', map_eq_ok.mpr ⟨_, maintain_of (by decide) (by decide) (by decide) rfl (by decide)
    hrecompute rfl hput, rfl⟩, hkept⟩

end Rss.TimeseriesPostgres
