import Rss.Model.TimeseriesPostgres.Cursor
import Rss.Verification.TimeseriesPostgres.Plans

/-! # Steps of a plan and their continuations

A plan counts the steps it applied. What a call finds of that count in its continuation decides
whether it works, answers again, or is rejected. -/

namespace Rss.TimeseriesPostgres

open Rss.Timeseries

variable {τ : Type} {K : CursorKey τ} {P : Provider τ} {s s' : Store}
  {r : MaintenanceRequest} {token : Option (Continuation τ)} {now clock : ℕ} {limits : Limits}

/-! ### Tokens -/

/-- The domains differ before the payload begins. -/
theorem Domain.text_append {a b : Domain} {x y : String} (h : a.text ++ x = b.text ++ y) :
    a = b := by
  have hlist : (a.text ++ x).toList.take 20 = (b.text ++ y).toList.take 20 := by rw [h]
  rw [String.toList_append, String.toList_append] at hlist
  have hlength : ∀ d : Domain, 20 ≤ d.text.toList.length := fun d => by cases d <;> decide
  rw [List.take_append_of_le_length (hlength a), List.take_append_of_le_length (hlength b)] at hlist
  cases a <;> cases b <;> first | rfl | exact absurd hlist (by decide)

section Tokens

variable [DecidableEq τ]

/-- What opens was written for the request and the instance, and tagged in the domain. -/
theorem open_eq_ok {domain : Domain} {cursor : Continuation τ} {binding : Binding}
    {instance_ : String} {o : ℕ}
    (h : K.open_ domain cursor binding instance_ now = .ok o) :
    cursor.binding = binding ∧ ∃ t p, cursor.token = some t ∧
      K.mac (domain.text ++ t.payload) = t.tag ∧ K.read t.payload = some p ∧ p.version = 2 ∧
      p.binding = binding ∧ p.instance_ = instance_ ∧ now < p.expires ∧ p.ordinal = o := by
  unfold CursorKey.open_ at h
  split at h
  · cases h
  · next hbinding =>
      split at h
      · cases h
      · next t ht =>
          split at h
          · cases h
          · next htag =>
              split at h
              · cases h
              · next p hp =>
                  split at h
                  · cases h
                  · next hp' =>
                      cases h
                      simp only [not_or, not_not, not_le] at hp'
                      obtain ⟨hversion, hnamed, hinstance, hexpires⟩ := hp'
                      exact ⟨not_not.mp hbinding, t, p, ht, not_not.mp htag, hp, hversion,
                        hnamed, hinstance, hexpires, rfl⟩

/-- A token opens where it was sealed for, until it expires. -/
theorem open_seal {domain : Domain} {p : Payload} (hread : K.read (K.write p) = some p)
    (hversion : p.version = 2) (hnow : now < p.expires) :
    K.open_ domain (K.seal_ domain p) p.binding p.instance_ now = .ok p.ordinal := by
  unfold CursorKey.open_ CursorKey.seal_
  simp only [ne_eq, not_true, if_false, hread, hversion, false_or]
  rw [if_neg (not_le.mpr hnow)]

/-- The key tells the two texts apart if they differ. -/
def CursorKey.NoCollision (K : CursorKey τ) (text text' : String) : Prop :=
  K.mac text = K.mac text' → text = text'

/-- A token of another domain, request or instance, or an expired one, does not open, whatever
request its continuation names. -/
theorem open_foreign {d domain : Domain} {p : Payload} {named binding : Binding}
    {instance_ : String} {o : ℕ}
    (hforeign : (d ≠ domain ∧ K.NoCollision (domain.text ++ K.write p) (d.text ++ K.write p)) ∨
      (K.read (K.write p) = some p ∧
        (p.binding ≠ binding ∨ p.instance_ ≠ instance_ ∨ p.expires ≤ now))) :
    K.open_ domain ⟨named, (K.seal_ d p).token⟩ binding instance_ now ≠ .ok o := by
  intro h
  obtain ⟨-, t, q, ht, htag, hq, -, hbinding, hinstance, hexpires, -⟩ := open_eq_ok h
  cases ht
  rcases hforeign with ⟨hdomain, hcollision⟩ | ⟨hread, hother⟩
  · exact hdomain (Domain.text_append (hcollision htag)).symm
  · rw [hread] at hq
    cases hq
    rcases hother with hne | hne | hle
    · exact hne hbinding
    · exact hne hinstance
    · exact absurd hexpires (not_lt.mpr hle)

/-! ### A step is the maintenance of what its token opens to -/

/-- The bounds a step is checked against before its token. -/
structure Provider.Fits (r : MaintenanceRequest) (now : ℕ) (limits : Limits) : Prop where
  rows : r.rows ≤ limits.maxPoints
  buckets : r.buckets ≤ limits.maxPoints
  width : r.rows < 2 ^ 31
  expires : now + limits.cursorMicros < 2 ^ 63

theorem step_of {state : PlanState} {done : Bool} {after : Option ℕ}
    (hfits : Provider.Fits r now limits) (hload : s.load r = .ok (state, done))
    (hafter : P.after r token now = .ok after) :
    P.step s r token now clock limits =
      (s.maintain P.digests r after now clock limits).map
        (fun (outcome, s') => (P.sealed r (now + limits.cursorMicros) outcome, s')) := by
  have hrows := hfits.rows
  have hbuckets := hfits.buckets
  have hwidth := hfits.width
  have hexpires := hfits.expires
  have hload' : (s.lockNamespace r.scope).2.load r = .ok (state, done) := hload
  unfold Provider.step Store.maintain
  rw [if_neg (by omega), if_neg (by omega), hload', ok_bind, if_neg (by omega), hafter, ok_bind]
  cases (s.lockNamespace r.scope).2.resumePlan P.digests r after (s.lockNamespace r.scope).1 now
    clock limits <;> rfl

theorem step_eq_ok {outcome : Outcome (Progress τ)}
    (h : P.step s r token now clock limits = .ok (outcome, s')) :
    Provider.Fits r now limits ∧ (∃ state done, s.load r = .ok (state, done)) ∧
      ∃ after o, P.after r token now = .ok after ∧
        s.maintain P.digests r after now clock limits = .ok (o, s') ∧
        outcome = P.sealed r (now + limits.cursorMicros) o := by
  unfold Provider.step at h
  split at h
  · cases h
  · next hbudget =>
      obtain ⟨⟨state, done⟩, hload, h⟩ := bind_eq_ok.mp h
      split at h
      · cases h
      · next hexpires =>
          obtain ⟨after, hafter, h⟩ := bind_eq_ok.mp h
          obtain ⟨⟨o, s₁⟩, hresume, h⟩ := bind_eq_ok.mp h
          cases h
          refine ⟨⟨by omega, by omega, by omega, by omega⟩, ⟨state, done, hload⟩, after, o, hafter,
            ?_, rfl⟩
          unfold Store.maintain
          rw [if_neg hbudget]
          exact hresume

/-- A step whose token does not open is rejected. -/
theorem step_of_closed (h : ∀ after, P.after r token now ≠ .ok after) :
    ∃ e, P.step s r token now clock limits = .error e := by
  cases hstep : P.step s r token now clock limits with
  | error e => exact ⟨e, rfl⟩
  | ok answer =>
      obtain ⟨outcome, s'⟩ := answer
      obtain ⟨-, -, after, o, hafter, -⟩ := step_eq_ok hstep
      exact absurd hafter (h after)

end Tokens

/-! ### The plan of a request -/

namespace Store

/-- The row of the plan, when it is the one of the request. -/
def plan (s : Store) (r : MaintenanceRequest) : Option PlanRow :=
  (s.plans.get? (r.scope, r.id)).filter (fun row => row.binding = r)

/-- The steps the plan has counted. -/
def ordinal (s : Store) (r : MaintenanceRequest) : ℕ := (s.plan r).elim 0 (fun row => row.state.ordinal)

def completed (s : Store) (r : MaintenanceRequest) : Bool := (s.plan r).elim false (fun row => row.done)

end Store

theorem plan_of_load {state : PlanState} {done : Bool} (h : s.load r = .ok (state, done)) :
    s.ordinal r = state.ordinal ∧ s.completed r = done := by
  unfold Store.ordinal Store.completed Store.plan
  rcases load_eq_ok.mp h with ⟨hnone, rfl, rfl⟩ | hrow
  · rw [hnone]
    exact ⟨rfl, rfl⟩
  · rw [hrow, Option.filter_some, if_pos (decide_eq_true rfl)]
    exact ⟨rfl, rfl⟩

/-- A plan that has counted a step or is complete is stored. -/
theorem load_of_plan (h : s.completed r = true ∨ 0 < s.ordinal r) :
    ∃ state, s.load r = .ok (state, s.completed r) ∧ state.ordinal = s.ordinal r ∧
      (s.plans.get? (r.scope, r.id)).isSome := by
  unfold Store.ordinal Store.completed at h ⊢
  cases hplan : s.plan r with
  | none =>
      rw [hplan] at h
      rcases h with h | h
      · cases h
      · exact absurd h (Nat.lt_irrefl 0)
  | some row =>
      obtain ⟨hrow, hbinding⟩ := Option.filter_eq_some_iff.mp hplan
      obtain ⟨binding, state, done⟩ := row
      obtain rfl := of_decide_eq_true hbinding
      exact ⟨state, load_eq_ok.mpr (.inr hrow), rfl, by rw [hrow]; rfl⟩

/-! ### What one exchange does -/

def Progress.isBlocked : Progress τ → Bool
  | .blocked _ => true
  | _ => false

def Progress.isComplete : Progress τ → Bool
  | .complete _ _ => true
  | _ => false

/-- The answer, when the exchange is a step of the plan that worked. -/
def Exchange.worked (r : MaintenanceRequest) (e : Exchange τ) : Option (Progress τ) :=
  match e.attempt, e.verdict with
  | .step r' _ _ _, .committed (.progress (.accepted p)) => if r' = r then some p else none
  | _, _ => none

/-- The step worked and counts. -/
def Exchange.applies (r : MaintenanceRequest) (e : Exchange τ) : Bool :=
  (e.worked r).any (fun p => !p.isBlocked)

def Exchange.completes (r : MaintenanceRequest) (e : Exchange τ) : Bool :=
  (e.worked r).any Progress.isComplete

theorem worked_eq_some {e : Exchange τ} {p : Progress τ} :
    e.worked r = some p ↔ (∃ token now clock, e.attempt = .step r token now clock) ∧
      e.verdict = .committed (.progress (.accepted p)) := by
  unfold Exchange.worked
  constructor
  · intro h
    split at h
    · next r' token now clock p' hattempt hverdict =>
        split at h
        · next heq =>
            cases h
            subst heq
            exact ⟨⟨token, now, clock, hattempt⟩, hverdict⟩
        · cases h
    · cases h
  · rintro ⟨⟨token, now, clock, hattempt⟩, hverdict⟩
    rw [hattempt, hverdict]
    exact if_pos rfl

/-- The work may not proceed. -/
def Store.Work.isBlocked : Work → Bool
  | .blocked _ => true
  | _ => false

theorem isBlocked_seal (expires ordinal : ℕ) (result : Work) :
    (P.seal_ r expires (Store.progressOf r ordinal result)).isBlocked = Store.Work.isBlocked result := by
  cases result <;> rfl

theorem isComplete_seal (expires ordinal : ℕ) (result : Work) :
    (P.seal_ r expires (Store.progressOf r ordinal result)).isComplete = Store.Work.isDone result := by
  cases result <;> rfl

/-- The plans that take effect in one step. -/
def MaintenanceAction.isSimple : MaintenanceAction → Bool
  | .advanceCutoff _ _ | .delete _ _ _ | .restore _ _ _ | .closeStream _ => true
  | _ => false

theorem simple_done {result : Work} (h : s.simple r now clock limits = .ok (result, s')) :
    result = .done 1 := by
  unfold Store.simple at h
  split at h
  · obtain ⟨found, -, h⟩ := bind_eq_ok.mp h
    split at h
    · cases h
    · obtain ⟨s₁, -, h⟩ := bind_eq_ok.mp h
      cases h
      rfl
  · split at h
    · cases h
    · obtain ⟨s₁, -, h⟩ := bind_eq_ok.mp h
      cases h
      rfl
  · obtain ⟨s₁, -, h⟩ := bind_eq_ok.mp h
    cases h
    rfl
  · cases h
    rfl
  · cases h

theorem work_simple {D : Digests} {state state' : PlanState} {revision : ℕ} {result : Work}
    (hsimple : MaintenanceAction.isSimple r.action = true)
    (h : s.work D r state revision now clock limits = .ok (result, state', s')) :
    Store.Work.isDone result = true := by
  unfold Store.work at h
  split at h
  · next haction =>
      rw [haction] at hsimple
      cases hsimple
  · next haction =>
      rw [haction] at hsimple
      cases hsimple
  · next haction =>
      rw [haction] at hsimple
      cases hsimple
  · next haction =>
      rw [haction] at hsimple
      cases hsimple
  · obtain ⟨⟨done, s₁⟩, hdone, heq⟩ := map_eq_ok.mp h
    cases heq
    rw [simple_done hdone]
    rfl

theorem recompute_ordinal {spec : SummarySpec} {window : Interval} {state state' : PlanState}
    {revision : ℕ} {result : Work}
    (h : s.recompute r spec window state revision limits = .ok (result, state', s')) :
    state'.ordinal = state.ordinal := by
  unfold Store.recompute at h
  split at h
  · cases h
  · obtain ⟨pruned, -, h⟩ := bind_eq_ok.mp h
    split at h
    · cases h
    · unfold Store.advanceFold at h
      obtain ⟨builder, -, h⟩ := bind_eq_ok.mp h
      obtain ⟨gapWindow, -, h⟩ := bind_eq_ok.mp h
      obtain ⟨gaps, -, h⟩ := bind_eq_ok.mp h
      obtain ⟨builder, -, h⟩ := bind_eq_ok.mp h
      split at h
      · cases h
        rfl
      · unfold Store.closeBucket at h
        obtain ⟨builder, -, h⟩ := bind_eq_ok.mp h
        obtain ⟨summary, -, h⟩ := bind_eq_ok.mp h
        simp only at h
        split at h <;> (cases h; rfl)

theorem prune_ordinal {D : Digests} {selection : Selection} {rawBefore summariesBefore : ℕ}
    {state state' : PlanState} {result : Work}
    (h : s.prune D r selection rawBefore summariesBefore state now clock limits =
      .ok (result, state', s')) : state'.ordinal = state.ordinal := by
  unfold Store.prune at h
  obtain ⟨safe, -, h⟩ := bind_eq_ok.mp h
  cases safe with
  | error reason =>
      cases h
      rfl
  | ok limit =>
      obtain ⟨⟨placed, s₁⟩, -, h⟩ := bind_eq_ok.mp h
      simp only at h
      split at h <;> (cases h; rfl)

/-- The work itself does not count. -/
theorem work_ordinal {D : Digests} {state state' : PlanState} {revision : ℕ} {result : Work}
    (h : s.work D r state revision now clock limits = .ok (result, state', s')) :
    state'.ordinal = state.ordinal := by
  unfold Store.work at h
  split at h
  · exact recompute_ordinal h
  · exact prune_ordinal h
  · cases h
    rfl
  · obtain ⟨⟨done, s₁⟩, -, heq⟩ := map_eq_ok.mp h
    cases heq
    rfl
  · obtain ⟨⟨done, s₁⟩, -, heq⟩ := map_eq_ok.mp h
    cases heq
    rfl

theorem nextOrdinal_eq_ok {state : PlanState} {result : Work} {ordinal : ℕ}
    (h : Store.nextOrdinal state result = .ok ordinal) :
    ordinal = state.ordinal + if Store.Work.isBlocked result then 0 else 1 := by
  cases result with
  | blocked reason =>
      cases h
      rfl
  | more processed => exact (checkedAdd_eq_some.mp (okOr_eq_ok.mp h)).1
  | done processed => exact (checkedAdd_eq_some.mp (okOr_eq_ok.mp h)).1

/-- A step that worked: the plan was open, and its row is written with the count. -/
structure Worked (r : MaintenanceRequest) (s : Store) (p : Progress τ) (s' : Store) : Prop where
  opened : s.completed r = false
  free : ∀ row, s.plans.get? (r.scope, r.id) = some row → row.binding = r
  counted : ∃ state, state.ordinal = s.ordinal r + (if p.isBlocked then 0 else 1) ∧
    ∀ k, s'.plans.get? k =
      if k = (r.scope, r.id) then some ⟨r, state, p.isComplete⟩ else s.plans.get? k
  namespaces : ∀ scope, (s.namespaces.get? scope).isSome → (s'.namespaces.get? scope).isSome
  entered : (s'.namespaces.get? r.scope).isSome
  once : MaintenanceAction.isSimple r.action = true → p.isComplete = true

/-- A step works on its plan, or answers again and leaves it. -/
theorem step_worked [DecidableEq τ] {outcome : Outcome (Progress τ)} (hguarded : PlansGuarded s)
    (h : P.step s r token now clock limits = .ok (outcome, s')) :
    (∃ p, outcome = .replay p ∧ s' = (s.lockNamespace r.scope).2) ∨
      ∃ p, outcome = .accepted p ∧ Worked r s p s' := by
  obtain ⟨-, -, after, o, -, hmaintain, rfl⟩ := step_eq_ok h
  rcases maintain_eq_ok hmaintain with ⟨p, rfl, rfl⟩ | ⟨state, result, state', s₁, ordinal, hload,
    hwork, hordinal, hput, rfl⟩
  · exact .inl ⟨_, rfl, rfl⟩
  · refine .inr ⟨_, rfl, ?_⟩
    have hguarded₁ : PlansGuarded (s.lockNamespace r.scope).2 := hguarded.mono (.of_eq rfl) rfl
    obtain ⟨hcleaned, -, hplans, -⟩ := work_worked hwork (load_guarded hload hguarded₁)
    obtain ⟨-, -, hplan⟩ := putPlan_quiet hput
    obtain ⟨hcount, hopened⟩ := plan_of_load hload
    have hkept := (hcleaned.trans (putPlan_frame hput).cleaned).namespaces
    exact {
      opened := hopened
      free := by
        intro row hrow
        rcases load_eq_ok.mp hload with ⟨hnone, -⟩ | hsome
        · rw [hnone] at hrow
          cases hrow
        · rw [hsome] at hrow
          cases hrow
          rfl
      counted := by
        refine ⟨{ state' with ordinal }, ?_, ?_⟩
        · rw [isBlocked_seal, hcount, ← work_ordinal hwork]
          exact nextOrdinal_eq_ok hordinal
        · intro k
          rw [isComplete_seal, hplan, hplans]
          rfl
      namespaces := fun scope hscope =>
        hkept scope ((lockNamespace_frame s r.scope).namespaces scope hscope)
      entered := by
        refine hkept r.scope ?_
        show ((s.namespaces.insertNew r.scope 0).get? r.scope).isSome
        rw [Table.get?_insertNew_self]
        rfl
      once := by
        intro hsimple
        rw [isComplete_seal]
        exact work_simple hsimple hwork }

/-- An exchange that worked on no plan; a step among them leaves all tables. -/
structure Idle (s s' : Store) (e : Exchange τ) : Prop where
  plans : s'.plans = s.plans
  namespaces : ∀ scope, (s.namespaces.get? scope).isSome → (s'.namespaces.get? scope).isSome
  silent : ∀ r, e.worked r = none
  quiet : ∀ r token now clock, e.attempt = .step r token now clock →
    s' = s ∨ s' = (s.lockNamespace r.scope).2

variable {e : Exchange τ} {labels : List (Exchange τ)}

theorem idle_same (h : ∀ outcome, e.verdict ≠ .committed (.progress outcome)) : Idle s s e := by
  refine ⟨rfl, fun _ h => h, fun r => ?_, fun _ _ _ _ _ => .inl rfl⟩
  rw [Option.eq_none_iff_forall_ne_some]
  intro p hp
  exact h _ (worked_eq_some.mp hp).2

/-- An exchange works on one plan, or on none. -/
theorem Served.moved [DecidableEq τ] (hguarded : PlansGuarded s) (h : Served P s e s') :
    (∃ r token now clock p, e.attempt = .step r token now clock ∧
      e.verdict = .committed (.progress (.accepted p)) ∧ Worked r s p s') ∨
    Idle s s' e := by
  cases h with
  | refuse limits body => exact .inr (idle_same fun _ h => by cases h)
  | abort attempt => exact .inr (idle_same fun _ h => by cases h)
  | @commit _ attempt reply limits body =>
      cases attempt with
      | write batch now =>
          obtain ⟨⟨outcome, s₁⟩, hadmit, heq⟩ := map_eq_ok.mp body
          cases heq
          right
          rcases admitBatch_eq_ok hadmit with ⟨receipt, -, -, rfl⟩ | ⟨receipt, -, hadmitted⟩
          · exact ⟨rfl, (lockStream_frame s batch.stream).namespaces, fun _ => rfl,
              fun _ _ _ _ h => by cases h⟩
          · exact ⟨hadmitted.entered.plans, hadmitted.entered.others.namespaces, fun _ => rfl,
              fun _ _ _ _ h => by cases h⟩
      | register d expected =>
          obtain ⟨⟨outcome, s₁⟩, hregister, heq⟩ := map_eq_ok.mp body
          cases heq
          obtain ⟨hframe, -, hplans⟩ := register_frame hregister
          exact .inr ⟨hplans, hframe.namespaces, fun _ => rfl, fun _ _ _ _ h => by cases h⟩
      | retire id expected =>
          obtain ⟨⟨outcome, s₁⟩, hretire, heq⟩ := map_eq_ok.mp body
          cases heq
          obtain ⟨hframe, -, hplans⟩ := retire_frame hretire
          exact .inr ⟨hplans, hframe.namespaces, fun _ => rfl, fun _ _ _ _ h => by cases h⟩
      | step r token now clock =>
          obtain ⟨⟨outcome, s₁⟩, hstep, heq⟩ := map_eq_ok.mp body
          cases heq
          rcases step_worked hguarded hstep with ⟨p, rfl, rfl⟩ | ⟨p, rfl, hworked⟩
          · refine .inr ⟨rfl, (lockNamespace_frame s r.scope).namespaces, fun _ => rfl, ?_⟩
            intro r' token' now' clock' h
            cases h
            exact .inr rfl
          · exact .inl ⟨r, token, now, clock, p, rfl, rfl, hworked⟩

/-- Every exchange is a transaction of the tables. -/
theorem Served.stepped [DecidableEq τ] (h : Served P s e s') : ∃ e', Step P.digests s e' s' := by
  cases h with
  | refuse limits body => exact ⟨_, .abort (.retire ⟨⟨0, ""⟩, "", 0⟩ 0)⟩
  | abort attempt => exact ⟨_, .abort (.retire ⟨⟨0, ""⟩, "", 0⟩ 0)⟩
  | @commit _ attempt reply limits body =>
      cases attempt with
      | write batch now =>
          obtain ⟨⟨outcome, s₁⟩, hadmit, heq⟩ := map_eq_ok.mp body
          cases heq
          have hbody : s.execute P.digests limits (.write batch now) = .ok (.receipt outcome, s') :=
            map_eq_ok.mpr ⟨_, hadmit, rfl⟩
          exact ⟨_, .commit limits hbody⟩
      | register d expected =>
          obtain ⟨⟨outcome, s₁⟩, hregister, heq⟩ := map_eq_ok.mp body
          cases heq
          have hbody : s.execute P.digests limits (.register d expected) = .ok (.definition outcome, s') :=
            map_eq_ok.mpr ⟨_, hregister, rfl⟩
          exact ⟨_, .commit limits hbody⟩
      | retire id expected =>
          obtain ⟨⟨outcome, s₁⟩, hretire, heq⟩ := map_eq_ok.mp body
          cases heq
          have hbody : s.execute P.digests limits (.retire id expected) = .ok (.definition outcome, s') :=
            map_eq_ok.mpr ⟨_, hretire, rfl⟩
          exact ⟨_, .commit limits hbody⟩
      | step r token now clock =>
          obtain ⟨⟨outcome, s₁⟩, hstep, heq⟩ := map_eq_ok.mp body
          cases heq
          obtain ⟨-, -, after, o, -, hmaintain, -⟩ := step_eq_ok hstep
          have hbody : s.execute P.digests limits (.maintain r after now clock) =
              .ok (.progress o, s') := map_eq_ok.mpr ⟨_, hmaintain, rfl⟩
          exact ⟨_, .commit limits hbody⟩

theorem inv_of_served [DecidableEq τ] (h : Runs (Served P) .empty labels s) :
    ∃ events, Inv P.digests events s := by
  suffices hrun : ∃ events, Runs (Step P.digests) .empty events s by
    obtain ⟨events, hrun⟩ := hrun
    exact ⟨events, inv_of_runs hrun⟩
  induction h with
  | nil => exact ⟨[], .nil⟩
  | snoc _ hserved ih =>
      obtain ⟨events, hrun⟩ := ih
      obtain ⟨e', hstep⟩ := hserved.stepped
      exact ⟨_, hrun.snoc hstep⟩

/-! ### The count of a plan over a run -/

/-- The plans count what the exchanges applied. -/
structure Tracked (labels : List (Exchange τ)) (s : Store) : Prop where
  ordinal : ∀ r, s.ordinal r = labels.countP (Exchange.applies r)
  completed : ∀ r, labels.countP (Exchange.completes r) = (s.completed r).toNat
  entered : ∀ k, (s.plans.get? k).isSome → (s.namespaces.get? k.1).isSome

theorem plan_congr (h : s'.plans = s.plans) (r : MaintenanceRequest) : s'.plan r = s.plan r := by
  unfold Store.plan
  rw [h]

theorem tracked_empty : Tracked ([] : List (Exchange τ)) .empty :=
  ⟨fun _ => rfl, fun _ => rfl, fun _ h => by cases h⟩

theorem applies_of_worked (h : e.worked r = none) :
    e.applies r = false ∧ e.completes r = false := by
  unfold Exchange.applies Exchange.completes
  rw [h]
  exact ⟨rfl, rfl⟩

/-- The plan of the step counts it, and no other plan is touched. -/
theorem Worked.plans {p : Progress τ} (h : Worked r s p s') :
    s'.ordinal r = s.ordinal r + (if p.isBlocked then 0 else 1) ∧ s'.completed r = p.isComplete ∧
      ∀ r', r' ≠ r → s'.plan r' = s.plan r' := by
  obtain ⟨state, hcount, hplans⟩ := h.counted
  have hown : s'.plan r = some ⟨r, state, p.isComplete⟩ := by
    unfold Store.plan
    rw [hplans, if_pos rfl, Option.filter_some, if_pos (decide_eq_true rfl)]
  refine ⟨?_, ?_, fun r' hne => ?_⟩
  · rw [← hcount]
    unfold Store.ordinal
    rw [hown]
    rfl
  · unfold Store.completed
    rw [hown]
    rfl
  · unfold Store.plan
    rw [hplans]
    split
    · next hkey =>
        rw [hkey, Option.filter_some, if_neg (by simpa using fun heq => hne heq.symm)]
        symm
        rw [Option.filter_eq_none_iff]
        intro row hrow hbinding
        rw [h.free row hrow] at hbinding
        exact hne (of_decide_eq_true hbinding).symm
    · rfl

theorem Tracked.step [DecidableEq τ] (h : Tracked labels s) (hguarded : PlansGuarded s)
    (hserved : Served P s e s') : Tracked (labels ++ [e]) s' := by
  rcases hserved.moved hguarded with ⟨r, token, now, clock, p, hattempt, hverdict, hworked⟩ | hidle
  · obtain ⟨hordinal, hcompleted, hothers⟩ := hworked.plans
    obtain ⟨state, -, hplans⟩ := hworked.counted
    have hsome : e.worked r = some p := worked_eq_some.mpr ⟨⟨token, now, clock, hattempt⟩, hverdict⟩
    have hnone : ∀ r', r' ≠ r → e.worked r' = none := by
      intro r' hne
      rw [Option.eq_none_iff_forall_ne_some]
      intro p' hp'
      obtain ⟨⟨token', now', clock', hattempt'⟩, -⟩ := worked_eq_some.mp hp'
      rw [hattempt] at hattempt'
      cases hattempt'
      exact hne rfl
    refine ⟨fun r' => ?_, fun r' => ?_, fun k hk => ?_⟩
    · rw [List.countP_append, List.countP_singleton, ← h.ordinal r']
      by_cases hr : r' = r
      · subst hr
        rw [hordinal]
        unfold Exchange.applies
        rw [hsome, Option.any_some]
        cases p.isBlocked <;> rfl
      · rw [(applies_of_worked (hnone r' hr)).1]
        unfold Store.ordinal
        rw [hothers r' hr]
        rfl
    · rw [List.countP_append, List.countP_singleton, h.completed r']
      by_cases hr : r' = r
      · subst hr
        rw [hcompleted, hworked.opened]
        unfold Exchange.completes
        rw [hsome, Option.any_some]
        cases p.isComplete <;> rfl
      · rw [(applies_of_worked (hnone r' hr)).2]
        unfold Store.completed
        rw [hothers r' hr]
        rfl
    · rw [hplans] at hk
      split at hk
      · next hkey =>
          rw [hkey]
          exact hworked.entered
      · exact hworked.namespaces k.1 (h.entered k hk)
  · refine ⟨fun r => ?_, fun r => ?_, fun k hk => ?_⟩
    · rw [List.countP_append, List.countP_singleton, ← h.ordinal r,
        (applies_of_worked (hidle.silent r)).1]
      unfold Store.ordinal
      rw [plan_congr hidle.plans]
      rfl
    · rw [List.countP_append, List.countP_singleton, h.completed r,
        (applies_of_worked (hidle.silent r)).2]
      unfold Store.completed
      rw [plan_congr hidle.plans]
      rfl
    · rw [hidle.plans] at hk
      exact hidle.namespaces k.1 (h.entered k hk)

theorem tracked_of_runs [DecidableEq τ] (h : Runs (Served P) .empty labels s) : Tracked labels s := by
  refine h.invariant (I := fun labels s => Tracked labels s) tracked_empty ?_
  intro labels s e s' hrun htracked hserved
  obtain ⟨events, hinv⟩ := inv_of_served hrun
  exact htracked.step hinv.guarded hserved

/-! ### Answers that repeat -/

/-- The progress a plan has made, as a repeated call is told. -/
def Store.current (s : Store) (r : MaintenanceRequest) : Store.MaintenanceProgress :=
  if s.completed r then .complete 0 r.id else .more 0 (s.ordinal r)

theorem lockNamespace_eq_self {scope : Scope} (h : (s.namespaces.get? scope).isSome) :
    (s.lockNamespace scope).2 = s := by
  unfold Store.lockNamespace
  simp only
  rw [insertNew_eq_self 0 h]

/-- A complete plan, or one that is past the continuation, answers again. -/
theorem maintain_again {D : Digests} {state : PlanState} {after : Option ℕ}
    (hfits : Provider.Fits r now limits) (hload : s.load r = .ok (state, s.completed r))
    (hentered : (s.namespaces.get? r.scope).isSome) (hnot : ∀ o ∈ after, o ≤ s.ordinal r)
    (hagain : s.completed r = true ∨ ∃ o ∈ after, o < s.ordinal r) :
    s.maintain D r after now clock limits = .ok (.replay (s.current r), s) := by
  have hrows := hfits.rows
  have hbuckets := hfits.buckets
  have hwidth := hfits.width
  have hexpires := hfits.expires
  have hordinal := (plan_of_load hload).1
  have hahead : after.any (fun o => decide (state.ordinal < o)) = false := by
    cases after with
    | none => rfl
    | some o => exact decide_eq_false (by rw [← hordinal]; exact not_lt.mpr (hnot o rfl))
  unfold Store.maintain Store.resumePlan Store.current
  rw [if_neg (by omega), lockNamespace_eq_self hentered, hload, ok_bind]
  simp only [hahead, Bool.false_eq_true, if_false]
  rw [if_neg (by omega)]
  cases hdone : s.completed r with
  | true => rfl
  | false =>
      rw [hdone] at hagain
      obtain ⟨o, ho, hlt⟩ := hagain.resolve_left Bool.false_ne_true
      have hbehind : after.any (fun o => decide (o < state.ordinal)) = true := by
        rw [Option.mem_def.mp ho]
        exact decide_eq_true (hordinal ▸ hlt)
      simp only [hbehind, Bool.false_eq_true, if_false, if_true, hordinal]
      rfl

/-- A continuation ahead of the plan is rejected. -/
theorem maintain_ahead {D : Digests} {o : ℕ} (h : s.ordinal r < o) :
    ∀ answer, s.maintain D r (some o) now clock limits ≠ .ok answer := by
  intro answer hok
  unfold Store.maintain at hok
  split at hok
  · cases hok
  · unfold Store.resumePlan at hok
    obtain ⟨⟨state, done⟩, hload, hok⟩ := bind_eq_ok.mp hok
    have hordinal := (@plan_of_load s r state done hload).1
    simp only at hok
    split at hok
    · cases hok
    · rw [if_pos] at hok
      · cases hok
      · exact decide_eq_true (hordinal ▸ h)

/-- An open plan that has counted no step has no earlier answer. -/
theorem maintain_fresh {D : Digests} {after : Option ℕ} {p : Store.MaintenanceProgress}
    {state : PlanState} (hload : s.load r = .ok (state, false)) (hzero : state.ordinal = 0) :
    s.maintain D r after now clock limits ≠ .ok (.replay p, s') := by
  intro h
  rcases maintain_eq_ok h with ⟨p', heq, -⟩ | ⟨_, _, _, _, _, -, -, -, -, heq⟩
  · unfold Store.maintain at h
    split at h
    · cases h
    · unfold Store.resumePlan at h
      rw [show (s.lockNamespace r.scope).2.load r = .ok (state, false) from hload, ok_bind] at h
      have hbehind : after.any (fun o => decide (o < state.ordinal)) = false := by
        rw [hzero]
        cases after <;> rfl
      simp only [Bool.false_eq_true, if_false, hbehind] at h
      split at h
      · cases h
      · split at h
        · cases h
        · obtain ⟨_, -, h⟩ := bind_eq_ok.mp h
          obtain ⟨_, -, h⟩ := bind_eq_ok.mp h
          obtain ⟨_, -, h⟩ := bind_eq_ok.mp h
          cases h
  · cases heq

/-! ### Every step at most once -/

/-- The call is a step of the plan. -/
def Exchange.Steps (e : Exchange τ) (r : MaintenanceRequest) : Prop :=
  ∃ token now clock, e.attempt = .step r token now clock

/-- What a history of calls did to its plans, and what the next call of any of them may do. -/
structure AppliedOnce [DecidableEq τ] (P : Provider τ) (labels : List (Exchange τ)) (s : Store) :
    Prop where
  /-- The ordinal counts the steps that were applied. -/
  counted : ∀ r, s.ordinal r = labels.countP (Exchange.applies r)
  /-- A step works on an open plan, and then counts unless it is blocked; otherwise it changes
  nothing. -/
  each : ∀ (before : List (Exchange τ)) (e : Exchange τ) (after : List (Exchange τ)),
    labels = before ++ e :: after → ∀ r, e.Steps r →
    (∃ p, e.worked r = some p ∧ e.before.completed r = false ∧
      e.after.ordinal r = e.before.ordinal r + (if p.isBlocked then 0 else 1) ∧
      e.after.completed r = p.isComplete) ∨ (e.worked r = none ∧ e.after = e.before)
  /-- A call behind the plan, or after its completion, is told the progress again. -/
  again : ∀ r token now clock limits after, Provider.Fits r now limits →
    P.after r token now = .ok after → (∀ o ∈ after, o ≤ s.ordinal r) →
    (s.completed r = true ∨ ∃ o ∈ after, o < s.ordinal r) →
    P.step s r token now clock limits =
      .ok (.replay (P.seal_ r (now + limits.cursorMicros) (s.current r)), s)
  ahead : ∀ r token now clock limits o, P.after r token now = .ok (some o) → s.ordinal r < o →
    ∃ e, P.step s r token now clock limits = .error e
  /-- A token of another domain, request or instance, or one that is over, is rejected. Only the
  domain rests on the key, which tags the payload under either domain. -/
  foreign : ∀ r now clock limits domain p named,
    ((domain ≠ .maintenance ∧ P.key.NoCollision (Domain.maintenance.text ++ P.key.write p)
        (domain.text ++ P.key.write p)) ∨
      (P.key.read (P.key.write p) = some p ∧
        (p.binding ≠ .maintenance r ∨ p.instance_ ≠ P.instance_ ∨ p.expires ≤ now))) →
    ∃ e, P.step s r (some ⟨named, (P.key.seal_ domain p).token⟩) now clock limits = .error e
  /-- A name in use for another request is rejected. -/
  reused : ∀ r token now clock limits row, s.plans.get? (r.scope, r.id) = some row →
    row.binding ≠ r → ∃ e, P.step s r token now clock limits = .error e
  /-- A plan of one step takes effect once, when it first answers. -/
  once : ∀ r, MaintenanceAction.isSimple r.action = true →
    labels.countP (Exchange.applies r) ≤ 1 ∧
    (∀ e ∈ labels, e.Steps r → (∃ reply, e.verdict = .committed reply) →
      labels.countP (Exchange.applies r) = 1)

variable [DecidableEq τ]

theorem Served.ends (h : Served P s e s') : e.before = s ∧ e.after = s' := by
  cases h <;> exact ⟨rfl, rfl⟩

/-- A step whose answer repeats leaves the tables as they were. -/
theorem Served.repeated (htracked : Tracked labels s) (h : Served P s e s') (hsteps : e.Steps r)
    (hsilent : e.worked r = none) (hguarded : PlansGuarded s) : s' = s := by
  obtain ⟨token, now, clock, hattempt⟩ := hsteps
  cases h with
  | refuse limits body => rfl
  | abort attempt => rfl
  | commit limits body =>
      cases hattempt
      obtain ⟨⟨outcome, s₁⟩, hstep, heq⟩ := map_eq_ok.mp body
      cases heq
      obtain ⟨-, ⟨state, done, hload⟩, after, o, -, hmaintain, rfl⟩ := step_eq_ok hstep
      rcases step_worked hguarded hstep with ⟨p, hreplay, rfl⟩ | ⟨p, haccepted, -⟩
      · refine lockNamespace_eq_self ?_
        -- Only a plan that is stored answers again.
        cases hrow : s.plans.get? (r.scope, r.id) with
        | some row => exact htracked.entered (r.scope, r.id) (by rw [hrow]; rfl)
        | none =>
            exfalso
            have hfresh : s.load r = .ok (⟨0, none, none⟩, false) :=
              load_eq_ok.mpr (.inl ⟨hrow, rfl, rfl⟩)
            cases o with
            | accepted q => cases hreplay
            | replay q => exact maintain_fresh hfresh rfl hmaintain
      · rw [worked_eq_some.mpr ⟨⟨token, now, clock, rfl⟩, by rw [haccepted]⟩] at hsilent
        cases hsilent

/-- The count of completions is at most one, and every counted step of a simple plan is one. -/
theorem Tracked.once (h : Tracked labels s) (hrun : Runs (Served P) .empty labels s)
    (hsimple : MaintenanceAction.isSimple r.action = true) :
    labels.countP (Exchange.applies r) = (s.completed r).toNat := by
  rw [← h.completed r]
  refine List.countP_congr fun e he => ?_
  obtain ⟨before, after, rfl⟩ := List.append_of_mem he
  obtain ⟨t, t', hbefore, hserved, -⟩ := hrun.split
  obtain ⟨events, hinv⟩ := inv_of_served hbefore
  unfold Exchange.applies Exchange.completes
  cases hworked : e.worked r with
  | none => rfl
  | some p =>
      rcases hserved.moved hinv.guarded with ⟨r', token, now, clock, p', hattempt, hverdict, hmoved⟩ |
        hidle
      · obtain ⟨⟨token', now', clock', hattempt'⟩, hverdict'⟩ := worked_eq_some.mp hworked
        rw [hattempt] at hattempt'
        rw [hverdict] at hverdict'
        cases hattempt'
        cases hverdict'
        have hcomplete := hmoved.once hsimple
        rw [Option.any_some, Option.any_some, hcomplete]
        cases p with
        | more processed next => cases hcomplete
        | complete processed fence => simp [Progress.isBlocked]
        | blocked reason => cases hcomplete
      · rw [hidle.silent r] at hworked
        cases hworked

/-- Once a simple plan has answered, it is complete. -/
theorem Tracked.answered {reply : Reply τ} (h : Tracked labels s)
    (hrun : Runs (Served P) .empty labels s)
    (hsimple : MaintenanceAction.isSimple r.action = true) (he : e ∈ labels) (hsteps : e.Steps r)
    (hreply : e.verdict = .committed reply) : s.completed r = true := by
  obtain ⟨before, after, rfl⟩ := List.append_of_mem he
  obtain ⟨t, t', hbefore, hserved, hafter⟩ := hrun.split
  have htracked := tracked_of_runs hbefore
  have honce := h.once hrun hsimple
  suffices hpositive : 0 < (before ++ e :: after).countP (Exchange.applies r) by
    cases hdone : s.completed r with
    | true => rfl
    | false =>
        rw [hdone] at honce
        exact absurd honce hpositive.ne'
  rw [List.countP_append, List.countP_cons]
  cases happlies : e.applies r with
  | true => exact Nat.add_pos_right _ (Nat.succ_pos _)
  | false =>
      refine Nat.add_pos_left ?_ _
      rw [htracked.once hbefore hsimple]
      obtain ⟨token, now, clock, hattempt⟩ := hsteps
      cases hdone : t.completed r with
      | true => exact Nat.one_pos
      | false =>
          exfalso
          obtain ⟨events, hinv⟩ := inv_of_served hbefore
          cases hserved with
          | refuse limits body => cases hreply
          | abort attempt => cases hreply
          | commit limits body =>
              cases hattempt
              obtain ⟨⟨outcome, s₁⟩, hstep, heq⟩ := map_eq_ok.mp body
              cases heq
              obtain ⟨-, ⟨state, done, hload⟩, after', o, -, hmaintain, rfl⟩ := step_eq_ok hstep
              obtain ⟨hordinal, hcompleted⟩ := plan_of_load hload
              rw [hdone] at hcompleted
              subst hcompleted
              rcases step_worked hinv.guarded hstep with ⟨p, hreplay, -⟩ | ⟨p, haccepted, hworked⟩
              · cases o with
                | accepted q => cases hreplay
                | replay q =>
                    refine maintain_fresh hload ?_ hmaintain
                    rw [← hordinal, htracked.ordinal r, htracked.once hbefore hsimple, hdone]
                    rfl
              · have hcomplete := hworked.once hsimple
                have hsome : Exchange.worked r ⟨.step r token now clock,
                    .committed (.progress (P.sealed r (now + limits.cursorMicros) o)), t, t'⟩ = some p :=
                  worked_eq_some.mpr ⟨⟨token, now, clock, rfl⟩, by rw [haccepted]⟩
                unfold Exchange.applies at happlies
                rw [hsome, Option.any_some] at happlies
                cases p with
                | more processed next => cases hcomplete
                | complete processed fence => cases happlies
                | blocked reason => cases hcomplete

/-- Over every run of calls, with any continuations and whatever the callers learn, each step of a
plan is applied at most once. -/
theorem plans_apply_once (h : Runs (Served P) .empty labels s) : AppliedOnce P labels s := by
  have htracked := tracked_of_runs h
  exact {
    counted := htracked.ordinal
    each := by
      rintro before e after rfl r hsteps
      obtain ⟨t, t', hbefore, hserved, -⟩ := h.split
      have htracked' := tracked_of_runs hbefore
      obtain ⟨events, hinv⟩ := inv_of_served hbefore
      obtain ⟨rfl, rfl⟩ := hserved.ends
      cases hworked : e.worked r with
      | none => exact .inr ⟨rfl, hserved.repeated htracked' hsteps hworked hinv.guarded⟩
      | some p =>
          left
          rcases hserved.moved hinv.guarded with
            ⟨r', token, now, clock, p', hattempt, hverdict, hmoved⟩ | hidle
          · obtain ⟨⟨token', now', clock', hattempt'⟩, hverdict'⟩ := worked_eq_some.mp hworked
            rw [hattempt] at hattempt'
            rw [hverdict] at hverdict'
            cases hattempt'
            cases hverdict'
            obtain ⟨hordinal, hcompleted, -⟩ := hmoved.plans
            exact ⟨p, rfl, hmoved.opened, hordinal, hcompleted⟩
          · rw [hidle.silent r] at hworked
            cases hworked
    again := by
      intro r token now clock limits after hfits hafter hnot hagain
      have hplan : s.completed r = true ∨ 0 < s.ordinal r :=
        hagain.imp_right fun ⟨o, _, hlt⟩ => (Nat.zero_le o).trans_lt hlt
      obtain ⟨state, hload, -, hstored⟩ := load_of_plan hplan
      rw [step_of hfits hload hafter,
        maintain_again hfits hload (htracked.entered (r.scope, r.id) hstored) hnot hagain]
      rfl
    ahead := by
      intro r token now clock limits o hafter hlt
      cases hstep : P.step s r token now clock limits with
      | error e => exact ⟨e, rfl⟩
      | ok answer =>
          obtain ⟨outcome, s'⟩ := answer
          obtain ⟨-, -, after, q, hafter', hmaintain, -⟩ := step_eq_ok hstep
          rw [hafter] at hafter'
          cases hafter'
          exact absurd hmaintain (maintain_ahead hlt _)
    foreign := by
      intro r now clock limits domain p named hforeign
      refine step_of_closed fun after hafter => ?_
      obtain ⟨o, hopen, -⟩ := map_eq_ok.mp hafter
      exact open_foreign hforeign hopen
    reused := by
      intro r token now clock limits row hrow hne
      cases hstep : P.step s r token now clock limits with
      | error e => exact ⟨e, rfl⟩
      | ok answer =>
          obtain ⟨outcome, s'⟩ := answer
          obtain ⟨-, ⟨state, done, hload⟩, -⟩ := step_eq_ok hstep
          rcases load_eq_ok.mp hload with ⟨hnone, -⟩ | hsome
          · rw [hnone] at hrow
            cases hrow
          · rw [hsome] at hrow
            cases hrow
            exact absurd rfl hne
    once := by
      intro r hsimple
      have hcount := htracked.once h hsimple
      refine ⟨by rw [hcount]; exact Bool.toNat_le _, ?_⟩
      rintro e he hsteps ⟨reply, hreply⟩
      rw [hcount]
      have hdone := htracked.answered h hsimple he hsteps hreply
      rw [hdone]
      rfl }

/-! ### The plan of a meter -/

def meterPayload : Payload := ⟨2, .maintenance meterPlan, "plant", 1550, 1⟩

/-- A key that writes and reads the one token of the history, with a tag of four bytes. -/
def plantKey : CursorKey ℕ where
  mac := fun text => text.toList.foldl (fun tag c => (tag * 31 + c.toNat) % 2 ^ 32) 7
  write := fun p => if p = meterPayload then "[2,1550,1]" else "[]"
  read := fun text => if text = "[2,1550,1]" then some meterPayload else none

def plant : Provider ℕ := ⟨meterDigests, plantKey, "plant"⟩

def meterToken : Continuation ℕ := plantKey.seal_ .maintenance meterPayload

/-- The token of a plan does what no token does. -/
theorem maintain_current {D : Digests} {state : PlanState} (hload : s.load r = .ok (state, false)) :
    s.maintain D r (some state.ordinal) now clock limits =
      s.maintain D r none now clock limits := by
  have hload' : (s.lockNamespace r.scope).2.load r = .ok (state, false) := hload
  unfold Store.maintain Store.resumePlan
  rw [hload', ok_bind, ok_bind]
  simp

theorem meterToken_opens (h : now < 1550) : plant.after meterPlan (some meterToken) now = .ok (some 1) := by
  have hopen : plantKey.open_ .maintenance meterToken (.maintenance meterPlan) "plant" now = .ok 1 :=
    open_seal (K := plantKey) (p := meterPayload) rfl rfl h
  unfold Provider.after
  exact congrArg (Except.map some) hopen

theorem narrow_fits (h : now ≤ 2000) : Provider.Fits meterPlan now narrowLimits :=
  ⟨le_rfl, le_rfl, by decide, by
    show now + 950 < 2 ^ 63
    omega⟩

/-- The plan hands out its token and completes with it. -/
theorem plant_runs : ∃ labels s, Runs (Served plant) .empty labels s ∧
    (∃ e ∈ labels, e.worked meterPlan = some (.more 1 meterToken)) ∧
    s.completed meterPlan = true ∧ s.ordinal meterPlan = 2 := by
  obtain ⟨s, hcompleted, -⟩ := foldedOnce_completed
  have hregister : plant.serve meterLimits .empty (.register meterDefinition none) =
      .ok (.definition (.accepted ⟨meterDefinition, .active⟩), meterDefined) := rfl
  obtain ⟨⟨receipt, s₁⟩, hadmit, heq⟩ := map_eq_ok.mp metered_written
  cases heq
  have hwrite : plant.serve meterLimits meterDefined (.write meterBatch 500) =
      .ok (.receipt (.accepted meterReceipt), metered) := map_eq_ok.mpr ⟨_, hadmit, rfl⟩
  obtain ⟨⟨receipt, s₂⟩, hadmit', heq⟩ := map_eq_ok.mp meteredTwice_written
  cases heq
  have hlater : plant.serve meterLimits metered (.write laterBatch 510) =
      .ok (.receipt (.accepted laterReceipt), meteredTwice) := map_eq_ok.mpr ⟨_, hadmit', rfl⟩
  obtain ⟨⟨outcome, s₃⟩, hfirst, heq⟩ := map_eq_ok.mp foldedOnce_stepped
  cases heq
  have hstep : plant.step meteredTwice meterPlan none 600 600 narrowLimits =
      .ok (.accepted (.more 1 meterToken), foldedOnce) := by
    rw [step_of (narrow_fits (by decide)) (rfl : meteredTwice.load meterPlan = .ok (⟨0, none, none⟩,
      false)) (rfl : plant.after meterPlan none 600 = .ok none)]
    exact map_eq_ok.mpr ⟨_, hfirst, rfl⟩
  obtain ⟨⟨outcome, s₄⟩, hsecond, heq⟩ := map_eq_ok.mp hcompleted
  cases heq
  have hload : foldedOnce.load meterPlan =
      .ok (⟨1, some ⟨0, 2, some meterBuilder, some (100, 1, "a")⟩, none⟩, false) := rfl
  have hlast : plant.step foldedOnce meterPlan (some meterToken) 610 610 narrowLimits =
      .ok (.accepted (.complete 1 "p"), s) := by
    rw [step_of (narrow_fits (by decide)) hload (meterToken_opens (by decide)), maintain_current hload]
    exact map_eq_ok.mpr ⟨_, hsecond, rfl⟩
  have hfirst' : plant.serve narrowLimits meteredTwice (.step meterPlan none 600 600) =
      .ok (.progress (.accepted (.more 1 meterToken)), foldedOnce) := map_eq_ok.mpr ⟨_, hstep, rfl⟩
  have hsecond' : plant.serve narrowLimits foldedOnce (.step meterPlan (some meterToken) 610 610) =
      .ok (.progress (.accepted (.complete 1 "p")), s) := map_eq_ok.mpr ⟨_, hlast, rfl⟩
  have hrun := ((((@Runs.nil _ _ (Served plant) .empty).snoc (.commit meterLimits hregister)).snoc
    (.commit meterLimits hwrite)).snoc (.commit meterLimits hlater)).snoc
    (.commit narrowLimits hfirst')
  obtain ⟨events, hinv⟩ := inv_of_served hrun
  have htracked := tracked_of_runs hrun
  rcases step_worked hinv.guarded hlast with ⟨p, hreplay, -⟩ | ⟨p, haccepted, hworked⟩
  · cases hreplay
  · cases haccepted
    obtain ⟨hordinal, hdone, -⟩ := hworked.plans
    refine ⟨_, s, hrun.snoc (.commit narrowLimits hsecond'), ?_, hdone, hordinal⟩
    refine ⟨_, List.mem_append_left _ (List.mem_append_right _ (List.mem_singleton_self _)), ?_⟩
    exact worked_eq_some.mpr ⟨⟨none, 600, 600, rfl⟩, rfl⟩

/-- The same payload, sealed for a raw query. -/
def rawToken : Continuation ℕ :=
  ⟨.maintenance meterPlan, (plantKey.seal_ .raw meterPayload).token⟩

/-- The last call is repeated with the token it was made with, and refused with one of another
domain. -/
theorem plans_apply_once_meter : ∃ labels s, Runs (Served plant) .empty labels s ∧
    labels.countP (Exchange.applies meterPlan) = 2 ∧
    plant.step s meterPlan (some meterToken) 620 620 narrowLimits =
      .ok (.replay (.complete 0 "p"), s) ∧
    ∃ e, plant.step s meterPlan (some rawToken) 620 620 narrowLimits = .error e := by
  obtain ⟨labels, s, hrun, -, hdone, hordinal⟩ := plant_runs
  have happlied := plans_apply_once hrun
  have hcollision : plantKey.NoCollision (Domain.maintenance.text ++ plantKey.write meterPayload)
      (Domain.raw.text ++ plantKey.write meterPayload) := by
    intro h
    exact absurd h (by decide)
  refine ⟨labels, s, hrun, (happlied.counted meterPlan).symm.trans hordinal, ?_,
    happlied.foreign meterPlan 620 620 narrowLimits .raw meterPayload _
      (.inl ⟨by decide, hcollision⟩)⟩
  rw [happlied.again meterPlan (some meterToken) 620 620 narrowLimits (some 1)
    (narrow_fits (by decide)) (meterToken_opens (by decide)) (by simp [hordinal]) (.inl hdone)]
  unfold Store.current
  rw [hdone]
  rfl

/-- The plan is complete, and a call with its own token is refused once the token is over. -/
theorem expired_token_refused : ∃ labels s, Runs (Served plant) .empty labels s ∧
    (∃ e ∈ labels, e.worked meterPlan = some (.more 1 meterToken)) ∧
    s.completed meterPlan = true ∧
    plant.step s meterPlan (some meterToken) 1600 1600 narrowLimits = .error .invalidCursor := by
  obtain ⟨labels, s, hrun, hgiven, hdone, hordinal⟩ := plant_runs
  refine ⟨labels, s, hrun, hgiven, hdone, ?_⟩
  obtain ⟨state, hload, -, -⟩ := load_of_plan (.inl hdone)
  have hload' : (s.lockNamespace meterPlan.scope).2.load meterPlan = .ok (state, s.completed meterPlan) :=
    hload
  unfold Provider.step
  rw [if_neg (by decide), hload', ok_bind, if_neg (by decide)]
  rfl

end Rss.TimeseriesPostgres
