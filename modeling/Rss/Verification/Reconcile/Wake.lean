import Rss.Verification.Reconcile.Exclusion

/-! # No wake is lost

A woken target stays queued until a completion that has seen the wake ends its work. -/

namespace Rss.Reconcile

open Rss.Sql

/-! ### The queue -/

/-- A target is due at some time exactly when it has a ticket, and a claimed target is
due. -/
structure Target.Queued (row : Target) : Prop where
  ticket : row.nextRun = none ↔ row.queueTicket = none
  claimed : row.token.isSome → row.nextRun.isSome

theorem Target.Queued.ticket_ne {row : Target} (h : row.Queued) (htoken : row.token.isSome) :
    row.queueTicket ≠ none := by
  rw [Ne, ← h.ticket]
  exact Option.isSome_iff_ne_none.mp (h.claimed htoken)

/-- The next run a completion leaves is absent only when it ends the work on the version
it has seen. -/
theorem Target.finished_nextRun {row : Target} {outcome : Outcome}
    {version now delay f ticket : ℤ}
    (h : (row.finished outcome version now delay f ticket).nextRun = none) :
    row.wakeVersion = version ∧ outcome.final = true := by
  by_cases hv : row.wakeVersion = version
  · refine ⟨hv, ?_⟩
    by_contra hf
    simp [finished, hv, hf] at h
  · simp [finished, hv] at h

theorem Target.Queued.finished {row : Target} {outcome : Outcome}
    {version now delay f ticket : ℤ} (h : row.Queued) (htoken : row.token.isSome) :
    (row.finished outcome version now delay f ticket).Queued := by
  have hticket := h.ticket_ne htoken
  refine ⟨?_, by simp [Target.finished]⟩
  by_cases hnone : (row.finished outcome version now delay f ticket).nextRun = none
  · simp only [hnone, true_iff]
    simp only [Target.finished] at hnone ⊢
    rw [if_pos hnone]
  · simp only [hnone, false_iff]
    simp only [Target.finished] at hnone ⊢
    rw [if_neg hnone]
    split
    · exact hticket
    · simp

theorem Effect.Does.queued {s s' : State} {key : Key} {e : Effect} (h : e.Does s key s')
    (hq : ∀ key row, s.db.targets.get? key = some row → row.Queued) :
    ∀ key row, s'.db.targets.get? key = some row → row.Queued := by
  intro key' row' hrow'
  by_cases hne : key' = key
  · subst hne
    have hchange := h.row
    rw [hrow'] at hchange
    generalize hold : s.db.targets.get? key' = old at hchange
    cases hchange with
    | same => exact hq key' row' hold
    | inserted ticket => exact ⟨by simp [newTarget], by simp [newTarget]⟩
    | woken ticket => exact ⟨by simp [Target.woken], by simp [Target.woken]⟩
    | bound =>
        obtain ⟨hticket, hclaimed⟩ := hq key' _ hold
        exact ⟨hticket, hclaimed⟩
    | granted hrun => exact ⟨(hq key' _ hold).ticket, fun _ => hrun⟩
    | renewed _ _ =>
        obtain ⟨hticket, hclaimed⟩ := hq key' _ hold
        exact ⟨hticket, hclaimed⟩
    | applied htoken => exact ⟨by simp [(hq key' _ hold).ticket_ne htoken], by simp⟩
    | finished htoken _ _ => exact (hq key' _ hold).finished htoken
    | released => exact ⟨(hq key' _ hold).ticket, by simp⟩
  · exact hq key' row' ((h.others key' hne).symm.trans hrow')

theorem Run.queued {s₀ t : State} (h₀ : s₀.Installed) (hrun : Run s₀ t) :
    ∀ key row, t.db.targets.get? key = some row → row.Queued := by
  refine hrun.invariant (fun _ _ _ _ hdo hq => hdo.queued hq) ?_
  intro key row hrow
  obtain ⟨hticket, hclaimed⟩ := h₀.queue key row hrow
  exact ⟨hticket, hclaimed⟩

/-! ### From a wake to the completion that has seen it -/

def Action.Wakes (a : Action) (key : Key) : Prop :=
  ∃ session steps keys claims, a = .commit session steps (.wake key keys) claims

/-- The action ends the work on a version that includes wake `v`. -/
def Action.Completes (a : Action) (key : Key) (v : ℤ) : Prop :=
  ∃ w outcome, a.Finishes key w outcome ∧ outcome.final = true ∧ v ≤ w

/-- A run in which no completion has seen wake `v`. -/
def RunBefore (key : Key) (v : ℤ) : State → State → Prop :=
  Relation.ReflTransGen (fun s s' => ∃ a, Step s a s' ∧ ¬ a.Completes key v)

/-- The target is due and carries wake `v` or a later one. -/
def Woken (s : State) (key : Key) (v : ℤ) : Prop :=
  ∃ row, s.db.targets.get? key = some row ∧ v ≤ row.wakeVersion ∧ row.nextRun.isSome

theorem Effect.Does.woken {s s' : State} {key key' : Key} {e : Effect} {v : ℤ}
    (h : e.Does s key s') (hw : Woken s key' v)
    (hopen : ∀ w outcome, key = key' → e = .finish w outcome → outcome.final = true → w < v) :
    Woken s' key' v := by
  obtain ⟨row, hrow, hv, hrun⟩ := hw
  by_cases hne : key' = key
  · subst hne
    have hchange := h.row
    rw [hrow] at hchange
    generalize hnew : s'.db.targets.get? key' = new at hchange
    cases hchange with
    | same => exact ⟨row, hnew, hv, hrun⟩
    | woken ticket => exact ⟨_, hnew, Int.le_add_one hv, rfl⟩
    | bound => exact ⟨_, hnew, hv, hrun⟩
    | granted _ => exact ⟨_, hnew, hv, hrun⟩
    | renewed _ _ => exact ⟨_, hnew, hv, hrun⟩
    | applied _ => exact ⟨_, hnew, hv, rfl⟩
    | finished _ _ _ =>
        refine ⟨_, hnew, hv, ?_⟩
        rw [Option.isSome_iff_ne_none]
        intro hnone
        obtain ⟨hversion, hfinal⟩ := Target.finished_nextRun hnone
        have := hopen _ _ rfl rfl hfinal
        omega
    | released => exact ⟨_, hnew, hv, hrun⟩
  · exact ⟨row, (h.others key' hne).trans hrow, hv, hrun⟩

theorem RunBefore.woken {s t : State} {key : Key} {v : ℤ} (h : RunBefore key v s t)
    (hw : Woken s key v) : Woken t key v := by
  induction h with
  | refl => exact hw
  | tail _ hstep ih =>
      obtain ⟨a, hstep, hopen⟩ := hstep
      refine hstep.effects.1.invariant (I := fun m => Woken m key v) ?_ ih
      intro m m' key' e hadm hdo hw
      refine hdo.woken hw ?_
      rintro w outcome rfl rfl hfinal
      by_contra hle
      exact hopen ⟨w, outcome, hadm.finish w outcome rfl, hfinal, not_lt.mp hle⟩

/-- A wake queues the target and clears its failures. -/
theorem Step.wakes {s s' : State} {a : Action} {key : Key} (h : Step s a s')
    (ha : a.Wakes key) :
    ∃ row, s'.db.targets.get? key = some row ∧ row.nextRun.isSome ∧ row.failures = 0 ∧
      ∀ old, s.db.targets.get? key = some old → row.wakeVersion = old.wakeVersion + 1 := by
  obtain ⟨session, steps, keys, claims, rfl⟩ := ha
  cases h with
  | commit h =>
      obtain ⟨⟨db, clock⟩, hop, h⟩ := bind_eq_ok.mp h
      cases h
      obtain ⟨db₁, clock₁, hdo, hbind⟩ := wake_does hop
      have hmid : ∃ row, db₁.targets.get? key = some row ∧ row.nextRun.isSome ∧
          row.failures = 0 ∧ ∀ old, s.db.targets.get? key = some old →
            row.wakeVersion = old.wakeVersion + 1 := by
        have hchange := hdo.row
        generalize hold : s.db.targets.get? key = old at hchange
        generalize hnew : db₁.targets.get? key = new at hchange
        cases hchange with
        | inserted ticket => exact ⟨_, rfl, rfl, rfl, by simp⟩
        | woken ticket => exact ⟨_, rfl, rfl, rfl, fun _ ho => by cases ho; rfl⟩
      obtain ⟨row, hrow, hrun, hfail, hversion⟩ := hmid
      rcases bindResources_does hbind with ⟨rfl, rfl⟩ | hbind
      · exact ⟨row, hrow, hrun, hfail, hversion⟩
      · have hchange := hbind.row
        simp only [hrow] at hchange
        generalize hnew : Table.get? _ key = new at hchange
        cases hchange with
        | bound => exact ⟨_, rfl, hrun, hfail, hversion⟩

/-! ### Completions that have not seen the last wake -/

/-- What a wake during a claim leaves to it: as long as the claim is the target's last one,
a wake version above the claimed one comes with cleared failures. -/
def WokenDuring (s : State) (key : Key) (claimed : Target) : Prop :=
  ∃ row, s.db.targets.get? key = some row ∧ claimed.epoch ≤ row.epoch ∧
    (row.token.isSome → row.epoch = claimed.epoch →
      claimed.wakeVersion < row.wakeVersion → row.failures = 0)

theorem Effect.Does.wokenDuring {s s' : State} {key key' : Key} {e : Effect} {claimed : Target}
    (h : e.Does s key s') (hw : WokenDuring s key' claimed) : WokenDuring s' key' claimed := by
  obtain ⟨row, hrow, hge, hfail⟩ := hw
  by_cases hne : key' = key
  · subst hne
    have hchange := h.row
    rw [hrow] at hchange
    generalize hnew : s'.db.targets.get? key' = new at hchange
    cases hchange with
    | same => exact ⟨row, hnew, hge, hfail⟩
    | woken ticket => exact ⟨_, hnew, hge, fun _ _ _ => rfl⟩
    | bound => exact ⟨_, hnew, hge, hfail⟩
    | granted _ =>
        refine ⟨_, hnew, Int.le_add_one hge, ?_⟩
        intro _ hepoch
        simp only [Target.claimed] at hepoch
        omega
    | renewed _ _ => exact ⟨_, hnew, hge, hfail⟩
    | applied _ => exact ⟨_, hnew, hge, hfail⟩
    | finished _ _ _ => exact ⟨_, hnew, hge, fun h => by cases h⟩
    | released => exact ⟨_, hnew, hge, fun h => by cases h⟩
  · exact ⟨row, (h.others key' hne).trans hrow, hge, hfail⟩

theorem ClaimedIn.wokenDuring {s₀ t : State} {key : Key} {claimed : Target} {R : List String}
    (h : ClaimedIn s₀ t key claimed R) : WokenDuring t key claimed := by
  obtain ⟨s, a, s', -, hstep, hrun, hmem, -⟩ := h.exists_step
  obtain ⟨m, m', -, hdo, hpost⟩ := hstep.effects.2 _ hmem
  have hstart : WokenDuring m' key claimed := by
    have hchange := hdo.row
    generalize m.db.targets.get? key = old at hchange
    generalize hnew : m'.db.targets.get? key = new at hchange
    cases hchange with
    | granted _ => exact ⟨_, hnew, le_rfl, fun _ _ h => absurd h (lt_irrefl _)⟩
  refine hrun.invariant (fun _ _ _ _ hdo hw => hdo.wokenDuring hw) ?_
  exact hpost.invariant (fun _ _ _ _ _ hdo hw => hdo.wokenDuring hw) hstart

/-- A completion with an old wake version leaves the target due, pending and in its place. -/
theorem Step.finishes_older {s s' : State} {a : Action} {key : Key} {w : ℤ} {outcome : Outcome}
    {row : Target} (h : Step s a s') (ha : a.Finishes key w outcome)
    (hrow : s.db.targets.get? key = some row) (hw : w < row.wakeVersion) :
    ∃ row', s'.db.targets.get? key = some row' ∧ (∃ n ∈ row'.nextRun, n ≤ s'.now) ∧
      row'.result = .pending ∧ row'.queueTicket = row.queueTicket ∧
      row'.failures = row.failures := by
  obtain ⟨session, steps, k, g, b, delay, f, claims, rfl⟩ := ha
  cases h with
  | commit h =>
      obtain ⟨⟨db, clock⟩, hop, h⟩ := bind_eq_ok.mp h
      cases h
      obtain ⟨version, result, hv, ho, hdo⟩ := finish_does hop
      cases hv
      cases ho
      have hchange := hdo.row
      simp only [hrow] at hchange
      generalize hnew : Table.get? _ key = new at hchange
      cases hchange with
      | @finished _ _ _ time _ _ _ htoken hversion htime =>
          have hne : row.wakeVersion ≠ w := hw.ne'
          refine ⟨_, rfl, ⟨least row.nextRun time, ?_, (least_le _ _).trans htime⟩, ?_, ?_, ?_⟩ <;>
            simp [Target.finished, hne]

/-- No wake is lost, in every run of an installed store. A wake queues its target until a
completion ends the work on that version or a later one; a completion that has not seen
the last wake leaves the target due, pending and in its place with the failures untouched,
which are the cleared ones if it carries the version of its own claim; and a target is due
exactly when it has a ticket. -/
theorem no_lost_wake {s₀ : State} (h₀ : s₀.Installed) :
    (∀ s a s' key, Run s₀ s → Step s a s' → a.Wakes key →
      ∃ row, s'.db.targets.get? key = some row ∧ row.failures = 0 ∧
        ∀ t, RunBefore key row.wakeVersion s' t → ∃ row', t.db.targets.get? key = some row' ∧
          row'.nextRun.isSome ∧ row'.queueTicket.isSome) ∧
    (∀ s a s' key w outcome row, Run s₀ s → Step s a s' → a.Finishes key w outcome →
      s.db.targets.get? key = some row → w < row.wakeVersion →
      ∃ row', s'.db.targets.get? key = some row' ∧ (∃ n ∈ row'.nextRun, n ≤ s'.now) ∧
        row'.result = .pending ∧ row'.queueTicket = row.queueTicket ∧
        row'.failures = row.failures) ∧
    (∀ s session steps key claimed R b outcome delay f s' row, ClaimedIn s₀ s key claimed R →
      Step s (.commit session steps (.finish key claimed.token (some claimed.epoch) b
        (some claimed.wakeVersion) (some outcome) delay f) []) s' →
      s.db.targets.get? key = some row → claimed.wakeVersion < row.wakeVersion →
      ∃ row', s'.db.targets.get? key = some row' ∧ row'.failures = 0) ∧
    (∀ t, Run s₀ t → ∀ key row, t.db.targets.get? key = some row →
      (row.nextRun = none ↔ row.queueTicket = none)) := by
  refine ⟨?_, fun s a s' key w outcome row _ hstep ha hrow hw =>
    hstep.finishes_older ha hrow hw, ?_, fun t hrun key row hrow =>
      (hrun.queued h₀ key row hrow).ticket⟩
  · intro s a s' key hrun hstep hwake
    obtain ⟨row, hrow, hnext, hfail, -⟩ := hstep.wakes hwake
    refine ⟨row, hrow, hfail, ?_⟩
    intro t hbefore
    obtain ⟨row', hrow', -, hnext'⟩ := hbefore.woken ⟨row, hrow, le_rfl, hnext⟩
    have hreach : Run s₀ t := (hrun.tail ⟨a, hstep⟩).trans
      (Relation.ReflTransGen.mono (fun _ _ ⟨a, hs, _⟩ => ⟨a, hs⟩) _ _ hbefore)
    have hq := (hreach.queued h₀ key row' hrow').ticket
    refine ⟨row', hrow', hnext', ?_⟩
    rw [Option.isSome_iff_ne_none] at hnext' ⊢
    rwa [Ne, ← hq]
  · intro s session steps key claimed R b outcome delay f s' row hclaimed hstep hrow hw
    obtain ⟨row', hrow', -, -, -, hfail'⟩ :=
      hstep.finishes_older ⟨_, _, _, _, _, _, _, _, rfl⟩ hrow hw
    refine ⟨row', hrow', hfail'.trans ?_⟩
    obtain ⟨old, hold, -, hcleared⟩ := hclaimed.wokenDuring
    obtain rfl := Option.some.inj (hrow.symm.trans hold)
    cases hstep with
    | commit h =>
        -- the completion was admitted, so its claim is still the target's last one
        obtain ⟨row₁, hauth⟩ := execute_authority rfl h
        obtain rfl := Option.some.inj (hrow.symm.trans hauth.get)
        obtain ⟨token, -, htoken⟩ := hauth.token
        exact hcleared (by simp [htoken]) (Option.some.inj hauth.epoch).symm hw

theorem no_lost_wake_order :
    ∃ t row, Run vacant t ∧ t.db.targets.get? orderKey = some row ∧ row.token = some 7 ∧
      row.nextRun.isSome ∧ row.queueTicket.isSome := by
  obtain ⟨s, t, _, hwake, hclaim, hrow, -, -⟩ := order_steps
  obtain ⟨_, -, -, hkept⟩ := (no_lost_wake vacant_installed).1 vacant _ s orderKey .refl hwake
    ⟨_, _, _, _, rfl⟩
  have hopen : ∀ v, ¬ Action.Completes (.commit (some 1) (fun _ => 1) orderClaim
      [(orderKey, orderClaimed)]) orderKey v := by
    rintro v ⟨w, outcome, ⟨_, _, _, _, _, _, _, _, h⟩, -⟩
    cases h
  obtain ⟨row, hrow', hnext, hticket⟩ := hkept t (.single ⟨_, hclaim, hopen _⟩)
  obtain rfl := Option.some.inj (hrow.symm.trans hrow')
  exact ⟨t, orderClaimed, .tail (.single ⟨_, hwake⟩) ⟨_, hclaim⟩, hrow, rfl, hnext, hticket⟩

/-! ### A completion that carries the version of no wake of its claim -/

/-- The first claim of the order ends with three failures. -/
def orderFails : Call :=
  .finish orderKey (some 7) (some 1) (some 1) (some 1) (some .retry) (some 1) (some 3)

/-- The second one ends with a version from before the only wake. -/
def orderEndsOlder : Call :=
  .finish orderKey (some 7) (some 2) (some 1) (some 0) (some .retry) (some 1) (some 0)

theorem execute_older :
    (do
      let (db, clock, _) ← execute vacant.db ⟨0, fun _ => 1000⟩ (some 1) orderWake
      let (db, clock, _) ← execute db ⟨clock.now, fun _ => 1000⟩ (some 1) orderClaim
      let (db, clock, _) ← execute db ⟨clock.now, fun _ => 1000⟩ (some 1) orderFails
      let (db, clock, _) ← execute db ⟨clock.now, fun _ => 1000⟩ (some 1) orderClaim
      let (db', _, _) ← execute db ⟨clock.now, fun _ => 1000⟩ (some 1) orderEndsOlder
      .ok ((db.targets.get? orderKey).map Target.wakeVersion,
        (db'.targets.get? orderKey).map Target.failures) : Except Failure _) =
      .ok (some 1, some 3) := by
  decide +kernel

/-- The wake clears the failures, a claim that has seen it counts three, and the next claim
ends with an older version: the three failures stay. -/
theorem older_version_keeps_failures :
    ¬ ∀ s₀ s a s' t b t' key w outcome row, State.Installed s₀ → Run s₀ s → Step s a s' →
      a.Wakes key → Run s' t → Step t b t' → b.Finishes key w outcome →
      t.db.targets.get? key = some row → w < row.wakeVersion →
      ∃ row', t'.db.targets.get? key = some row' ∧ row'.failures = 0 := by
  intro h
  obtain ⟨⟨db₁, clock₁, claims₁⟩, h₁, hrest⟩ := bind_eq_ok.mp execute_older
  obtain ⟨⟨db₂, clock₂, claims₂⟩, h₂, hrest⟩ := bind_eq_ok.mp hrest
  obtain ⟨⟨db₃, clock₃, claims₃⟩, h₃, hrest⟩ := bind_eq_ok.mp hrest
  obtain ⟨⟨db₄, clock₄, claims₄⟩, h₄, hrest⟩ := bind_eq_ok.mp hrest
  obtain ⟨⟨db₅, clock₅, claims₅⟩, h₅, hrest⟩ := bind_eq_ok.mp hrest
  obtain ⟨hversion, hfailures⟩ := Prod.mk.inj (Except.ok.inj hrest)
  obtain ⟨row, hrow, hwake⟩ := Option.map_eq_some_iff.mp hversion
  have hrun : Run ⟨db₁, clock₁.now⟩ ⟨db₄, clock₄.now⟩ :=
    .tail (.tail (.single ⟨_, .commit h₂⟩) ⟨_, .commit h₃⟩) ⟨_, .commit h₄⟩
  obtain ⟨row', hrow', hcleared⟩ := h vacant vacant _ _ _ _ _ orderKey 0 .retry row
    vacant_installed .refl (.commit h₁) ⟨_, _, _, _, rfl⟩ hrun (.commit h₅)
    ⟨_, _, _, _, _, _, _, _, rfl⟩ hrow (by rw [hwake]; exact one_pos)
  rw [hrow'] at hfailures
  have := Option.some.inj hfailures
  omega

end Rss.Reconcile
