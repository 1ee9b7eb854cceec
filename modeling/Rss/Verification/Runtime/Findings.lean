import Rss.Library.Chronicle
import Rss.Model.Runtime.Shutdown

/-! # Findings

How a resource came out is read off the events before its terminal observation. -/

namespace Rss.Shutdown

/-! ### Events -/

def Event.isTerminal (i : ℕ) : Event → Bool
  | .terminal j => j = i
  | _ => false

def Event.isDeadline : Event → Bool
  | .deadline => true
  | _ => false

def Event.outcome (i : ℕ) : Event → Option Outcome
  | .ended j outcome => if j = i then some outcome else none
  | _ => none

/-- The resource that an event is about. -/
def Event.index : Event → Option ℕ
  | .started i | .cancelled i | .ended i _ | .aborted i | .timer i | .terminal i => some i
  | .broadcast | .deadline => none

/-- The events before the terminal observation of a resource. -/
def before (i : ℕ) (log : List Event) : List Event := log.takeWhile fun e => !e.isTerminal i

/-- How a resource came out, by what happened before. -/
def finding (r : Resource) (i : ℕ) (events : List Event) : Option ShutdownFailureKind :=
  if events.any Event.isDeadline then some .budgetExhausted
  else
    match events.findSome? (Event.outcome i) with
    | some (.returned (.ok ())) => if r.name.isSome && r.shutdownTimeout.isSome then none else some .panicked
    | some (.returned (.error source)) => some (observeReturnedShutdownError source)
    | some .panicked | some .cancelled => some .panicked
    | none => some (.timedOut (r.shutdownTimeout.getD defaultShutdownTimeout))

def verdict (log : List Event) (entry : Resource × ℕ) : Option ShutdownFailureKind :=
  finding entry.1 entry.2 (before entry.2 log)

/-- The failures of some resources, in their order. -/
def reports (log : List Event) (entries : List (Resource × ℕ)) : List ResourceShutdownError :=
  entries.filterMap fun entry =>
    (verdict log entry).map fun kind => ⟨safeResourceName entry.1, kind⟩

/-- The task of the resource is no more. -/
def Gone (i : ℕ) (events : List Event) : Prop :=
  (∃ outcome, .ended i outcome ∈ events) ∨ .aborted i ∈ events

theorem before_append {i : ℕ} {log : List Event} (h : .terminal i ∈ log) (events : List Event) :
    before i (log ++ events) = before i log :=
  takeWhile_append_of_mem h (by simp [Event.isTerminal]) events

theorem isTerminal_iff {i : ℕ} {e : Event} : e.isTerminal i = true ↔ e = .terminal i := by
  cases e <;> simp [Event.isTerminal]

theorem before_terminal {i : ℕ} {log : List Event} (h : .terminal i ∉ log) (events : List Event) :
    before i (log ++ .terminal i :: events) = log := by
  refine takeWhile_append_of_all (fun e he => ?_) (by simp [Event.isTerminal]) events
  rw [Bool.not_eq_true', ← Bool.not_eq_true, isTerminal_iff]
  exact fun heq => h (heq ▸ he)

theorem verdict_append {entry : Resource × ℕ} {log : List Event} (h : .terminal entry.2 ∈ log)
    (events : List Event) : verdict (log ++ events) entry = verdict log entry := by
  rw [verdict, before_append h, verdict]

theorem reports_append {entries : List (Resource × ℕ)} {log : List Event}
    (h : ∀ entry ∈ entries, .terminal entry.2 ∈ log) (events : List Event) :
    reports (log ++ events) entries = reports log entries := by
  unfold reports
  induction entries with
  | nil => rfl
  | cons entry entries ih =>
      rw [List.forall_mem_cons] at h
      simp only [List.filterMap_cons, verdict_append h.1, ih h.2]

theorem outcome_eq_none {i : ℕ} {e : Event} (h : e.index ≠ some i) : e.outcome i = none := by
  cases e with
  | ended j outcome => exact if_neg fun heq => h (congrArg some heq)
  | _ => rfl

/-! ### Verdicts -/

/-- What reading the metadata of a resource comes to. -/
theorem safeResourceMetadata_eq (r : Resource) : safeResourceMetadata r =
    (safeResourceName r, r.shutdownTimeout.getD defaultShutdownTimeout,
      if r.name.isSome && r.shutdownTimeout.isSome then none
      else some ⟨safeResourceName r, .panicked⟩) := by
  unfold safeResourceMetadata
  cases r.shutdownTimeout <;> cases r.name <;> rfl

theorem any_isDeadline {events : List Event} :
    events.any Event.isDeadline = true ↔ .deadline ∈ events := by
  rw [List.any_eq_true]
  constructor
  · intro h
    obtain ⟨e, he, hdeadline⟩ := h
    cases e <;> first | exact he | cases hdeadline
  · intro h
    exact ⟨_, h, rfl⟩

theorem finding_timedOut {r : Resource} {i : ℕ} {events : List Event}
    (houtcome : events.findSome? (Event.outcome i) = none) (hdeadline : .deadline ∉ events) :
    finding r i events = some (.timedOut (r.shutdownTimeout.getD defaultShutdownTimeout)) := by
  have hany : events.any Event.isDeadline = false := by
    rw [← Bool.not_eq_true, any_isDeadline]
    exact hdeadline
  unfold finding
  rw [hany, if_neg Bool.false_ne_true, houtcome]

theorem exists_ended {outcome : Outcome} {i : ℕ} {events : List Event}
    (h : events.findSome? (Event.outcome i) = some outcome) : .ended i outcome ∈ events := by
  obtain ⟨e, he, heq⟩ := List.exists_of_findSome?_eq_some h
  cases e with
  | ended j o =>
      rw [Event.outcome, Option.ite_none_right_eq_some, Option.some.injEq] at heq
      obtain ⟨rfl, rfl⟩ := heq
      exact he
  | _ => cases heq

theorem finding_ended {outcome : Outcome} {r : Resource} {i : ℕ} {events : List Event}
    (houtcome : events.findSome? (Event.outcome i) = some outcome) (hdeadline : .deadline ∉ events) :
    finding r i events ≠ some .budgetExhausted := by
  have hany : events.any Event.isDeadline = false := by
    rw [← Bool.not_eq_true, any_isDeadline]
    exact hdeadline
  unfold finding
  rw [hany, if_neg Bool.false_ne_true, houtcome]
  cases outcome with
  | returned result =>
      cases result with
      | error source => cases source <;> simp [observeReturnedShutdownError]
      | ok =>
          simp only
          split <;> simp
  | panicked => simp
  | cancelled => simp

/-- The resource finished cleanly: its task succeeded before the total deadline, and its metadata
could be read. -/
def Cleanly (r : Resource) (i : ℕ) (events : List Event) : Prop :=
  .deadline ∉ events ∧ events.findSome? (Event.outcome i) = some (.returned (.ok ())) ∧
    r.name.isSome = true ∧ r.shutdownTimeout.isSome = true

theorem finding_eq_exhausted {r : Resource} {i : ℕ} {events : List Event} :
    finding r i events = some .budgetExhausted ↔ .deadline ∈ events := by
  constructor
  · intro h
    by_contra hdeadline
    cases houtcome : events.findSome? (Event.outcome i) with
    | none =>
        rw [finding_timedOut houtcome hdeadline] at h
        cases h
    | some outcome => exact finding_ended houtcome hdeadline h
  · intro h
    rw [finding, any_isDeadline.mpr h, if_pos rfl]

theorem finding_eq_none {r : Resource} {i : ℕ} {events : List Event} :
    finding r i events = none ↔ Cleanly r i events := by
  by_cases hdeadline : .deadline ∈ events
  · rw [finding_eq_exhausted.mpr hdeadline]
    exact iff_of_false (by simp) fun h => h.1 hdeadline
  · have hany : events.any Event.isDeadline = false := by
      rw [← Bool.not_eq_true, any_isDeadline]
      exact hdeadline
    unfold finding Cleanly
    rw [hany, if_neg Bool.false_ne_true]
    cases events.findSome? (Event.outcome i) with
    | none => simp
    | some outcome =>
        rcases outcome with (source | _) | _ | _ <;>
          simp [hdeadline, Option.isSome_iff_ne_none]

theorem reports_eq_nil {events : List Event} {entries : List (Resource × ℕ)} :
    reports events entries = [] ↔ ∀ e ∈ entries, verdict events e = none := by
  rw [reports, List.filterMap_eq_nil_iff]
  simp only [Option.map_eq_none_iff]

theorem reports_of_exhausted {events : List Event} {entries : List (Resource × ℕ)}
    (h : ∀ e ∈ entries, verdict events e = some .budgetExhausted) :
    reports events entries =
      entries.map fun entry => budgetExhausted (safeResourceName entry.1) := by
  unfold reports
  induction entries with
  | nil => rfl
  | cons entry entries ih =>
      rw [List.forall_mem_cons] at h
      rw [List.filterMap_cons, h.1, List.map_cons, ← ih h.2]
      rfl

/-! ### Places in the stack -/

/-- The stack in the order of the drain. -/
def stack (resources : List Resource) : List (Resource × ℕ) := resources.zipIdx.reverse

variable {resources : List Resource} {s s' : State}

theorem mem_stack {r : Resource} {i : ℕ} :
    (r, i) ∈ stack resources ↔ resources[i]? = some r := by
  rw [stack, List.mem_reverse, List.mem_zipIdx_iff_getElem?]

theorem pairwise_stack (resources : List Resource) :
    (stack resources).Pairwise (fun a b => b.2 < a.2) := by
  rw [stack, List.pairwise_reverse]
  have h : (resources.zipIdx.map Prod.snd).Pairwise (fun a b => a < b) := by
    rw [List.zipIdx_map_snd]
    exact List.pairwise_lt_range' ..
  exact List.pairwise_map.mp h

/-- What is registered later comes before in the drain. -/
theorem mem_past {past rest : List (Resource × ℕ)} {entry : Resource × ℕ} {j : ℕ}
    (h : stack resources = past ++ entry :: rest) (hj : entry.2 < j) (hlt : j < resources.length) :
    ∃ r, (r, j) ∈ past := by
  have hmem : (resources[j], j) ∈ stack resources := mem_stack.mpr (List.getElem?_eq_getElem hlt)
  have hpairwise := pairwise_stack resources
  rw [h] at hmem hpairwise
  rcases List.mem_append.mp hmem with hpast | hrest
  · exact ⟨_, hpast⟩
  · rcases List.mem_cons.mp hrest with heq | hrest
    · rw [← heq] at hj
      exact absurd hj (Nat.lt_irrefl j)
    · have := List.rel_of_pairwise_cons (List.pairwise_append.mp hpairwise).2.1 hrest
      omega

theorem index_ne {past rest : List (Resource × ℕ)} {entry : Resource × ℕ}
    (h : stack resources = past ++ entry :: rest) :
    (∀ e ∈ past, e.2 ≠ entry.2) ∧ ∀ e ∈ rest, e.2 ≠ entry.2 := by
  have hpairwise := pairwise_stack resources
  rw [h] at hpairwise
  obtain ⟨-, hrest, hpast⟩ := List.pairwise_append.mp hpairwise
  constructor
  · intro e he
    have := hpast e he entry List.mem_cons_self
    omega
  · intro e he
    have := List.rel_of_pairwise_cons hrest he
    omega

end Rss.Shutdown
