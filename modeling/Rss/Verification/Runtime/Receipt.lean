import Rss.Verification.Runtime.Invariant

/-! # The receipt of a drain

What a drain reports, against what happened. -/

namespace Rss.Shutdown

variable {resources : List Resource} {s s' : State}

/-! ### Progress -/

/-- The steps that the driver takes by itself, the death of a task that it aborted included. -/
def Action.isDriver : Action → Bool
  | .take | .poll | .join | .abortTask => true
  | _ => false

theorem take_next {r : Resource} {i : ℕ} {rest : List (Resource × ℕ)} (hphase : s.phase = .between)
    (hremaining : s.remaining = (r, i) :: rest) :
    ∃ s', Step s .take s' ∧ .started i ∈ s'.log := by
  refine ⟨_, by rw [Step, State.step, State.take, hphase, hremaining], ?_⟩
  simp [State.emit]

/-- The driver is on its way to the next resource: nothing is in flight, the task of a timed-out
resource is awaited, or the one in flight came out before the total deadline fired. -/
inductive State.Advances (s : State) : Prop where
  | between (hphase : s.phase = .between)
  | joining (c : Current) (hphase : s.phase = .joining c false)
  | selecting (c : Current) (hphase : s.phase = .selecting c) (hdeadline : s.deadlineFired = false)
      (hready : c.task.outcome.isSome = true ∨ c.timerFired = true)

/-- The driver is on its way to the receipt: no resource is left, or the total deadline fired before
the one in flight came out. -/
inductive State.Concludes (s : State) : Prop where
  | last (hadvances : s.Advances) (hremaining : s.remaining = [])
  | joining (c : Current) (hphase : s.phase = .joining c true)
  | selecting (c : Current) (hphase : s.phase = .selecting c) (hdeadline : s.deadlineFired = true)

/-- Steps of the driver alone. -/
def Drives (s s' : State) : Prop :=
  ∃ actions, Runs Step s actions s' ∧ ∀ a ∈ actions, a.isDriver = true

theorem Drives.refl (s : State) : Drives s s :=
  ⟨[], .nil, by simp⟩

theorem Drives.snoc {t u : State} {a : Action} (h : Drives s t) (hstep : Step t a u)
    (ha : a.isDriver = true) : Drives s u := by
  obtain ⟨actions, hruns, hdriver⟩ := h
  refine ⟨_, .snoc hruns hstep, ?_⟩
  simpa [or_imp, forall_and, ha] using hdriver

theorem Drives.trans {t u : State} (h : Drives s t) (h' : Drives t u) : Drives s u := by
  obtain ⟨actions, hruns, hdriver⟩ := h
  obtain ⟨actions', hruns', hdriver'⟩ := h'
  refine ⟨_, hruns.trans hruns', ?_⟩
  simpa [or_imp, forall_and] using ⟨hdriver, hdriver'⟩

/-- A task that is awaited is gone, at the latest by its abortion. -/
theorem drives_joined {c : Current} {exhausted : Bool} (hphase : s.phase = .joining c exhausted) :
    ∃ s₁ outcome, Drives s s₁ ∧ s₁.phase = .joining { c with task := .ended outcome } exhausted ∧
      s₁.remaining = s.remaining := by
  by_cases hended : ∃ outcome, c.task = .ended outcome
  · obtain ⟨outcome, htask⟩ := hended
    refine ⟨s, outcome, .refl s, ?_, rfl⟩
    rw [hphase, ← htask]
  · have habort : Step s .abortTask ((s.setCurrent { c with task := .ended .cancelled }).emit
        (State.cancel c.resource c.index ++ [.aborted c.index])) := by
      cases htask : c.task with
      | ended outcome => exact absurd ⟨outcome, htask⟩ hended
      | _ => simp [Step, State.step, State.abortTask, hphase, htask]
    refine ⟨_, .cancelled, (Drives.refl s).snoc habort rfl, ?_, ?_⟩
    · simp [State.emit, State.setCurrent, hphase]
    · simp [State.emit, State.setCurrent, hphase]

theorem drives_of_joining {c : Current} (hphase : s.phase = .joining c false) :
    ∃ s₁, Drives s s₁ ∧ s₁.phase = .between ∧ s₁.remaining = s.remaining := by
  obtain ⟨s₁, outcome, hdrives, hjoining, hsame⟩ := drives_joined hphase
  have hjoin : Step s₁ .join { s₁ with
      phase := .between
      failures := s₁.failures ++ [⟨c.name, .timedOut c.budget⟩] } := by
    simp [Step, State.step, State.join, hjoining]
  exact ⟨_, hdrives.snoc hjoin rfl, rfl, hsame⟩

/-- However the resource in flight comes out, the driver is done with it. -/
theorem State.Advances.drives (h : s.Advances) :
    ∃ s₁, Drives s s₁ ∧ s₁.phase = .between ∧ s₁.remaining = s.remaining := by
  cases h with
  | between hphase => exact ⟨s, .refl s, hphase, rfl⟩
  | joining c hphase => exact drives_of_joining hphase
  | selecting c hphase hdeadline hready =>
      by_cases hended : ∃ outcome, c.task = .ended outcome
      · obtain ⟨outcome, htask⟩ := hended
        have hpoll : Step s .poll (({ s with
            phase := .between
            failures := s.failures ++ (State.failure c outcome).toList } : State).emit
              [.terminal c.index]) := by
          simp [Step, State.step, State.poll, hphase, hdeadline, htask]
        exact ⟨_, (Drives.refl s).snoc hpoll rfl, rfl, rfl⟩
      · have htimer : c.timerFired = true := by
          refine hready.resolve_left fun houtcome => ?_
          cases htask : c.task with
          | ended outcome => exact hended ⟨outcome, htask⟩
          | _ => rw [htask] at houtcome; cases houtcome
        have hpoll : Step s .poll
            (({ s with phase := .joining c false } : State).emit [.terminal c.index]) := by
          cases htask : c.task with
          | ended outcome => exact absurd ⟨outcome, htask⟩ hended
          | _ => simp [Step, State.step, State.poll, hphase, hdeadline, htask, htimer]
        obtain ⟨s₁, hdrives, hbetween, hsame⟩ := drives_of_joining
          (s := ({ s with phase := .joining c false } : State).emit [.terminal c.index]) rfl
        exact ⟨s₁, ((Drives.refl s).snoc hpoll rfl).trans hdrives, hbetween, hsame⟩

theorem State.Advances.next_started (h : s.Advances) {r : Resource} {i : ℕ}
    {rest : List (Resource × ℕ)} (hremaining : s.remaining = (r, i) :: rest) :
    ∃ s', Drives s s' ∧ .started i ∈ s'.log := by
  obtain ⟨s₁, hdrives, hbetween, hsame⟩ := h.drives
  obtain ⟨s', htake, hstarted⟩ := take_next hbetween (hsame.trans hremaining)
  exact ⟨s', hdrives.snoc htake rfl, hstarted⟩

theorem receipt_of_joining {c : Current} (hphase : s.phase = .joining c true) :
    ∃ s', Drives s s' ∧ s'.receipt.isSome = true := by
  obtain ⟨s₁, outcome, hdrives, hjoining, -⟩ := drives_joined hphase
  have hjoin : Step s₁ .join (s₁.drainBudgetExhausted c.name) := by
    simp [Step, State.step, State.join, hjoining]
  exact ⟨_, hdrives.snoc hjoin rfl, rfl⟩

theorem State.Concludes.receipt (h : s.Concludes) :
    ∃ s', Drives s s' ∧ s'.receipt.isSome = true := by
  cases h with
  | last hadvances hremaining =>
      obtain ⟨s₁, hdrives, hbetween, hsame⟩ := hadvances.drives
      have htake : Step s₁ .take { s₁ with phase := .returned } := by
        rw [Step, State.step, State.take, hbetween, hsame, hremaining]
      exact ⟨_, hdrives.snoc htake rfl, rfl⟩
  | joining c hphase => exact receipt_of_joining hphase
  | selecting c hphase hdeadline =>
      have hpoll : Step s .poll
          (({ s with phase := .joining c true } : State).emit [.terminal c.index]) := by
        simp [Step, State.step, State.poll, hphase, hdeadline]
      obtain ⟨s', hdrives, hreceipt⟩ := receipt_of_joining
        (s := ({ s with phase := .joining c true } : State).emit [.terminal c.index]) rfl
      exact ⟨s', ((Drives.refl s).snoc hpoll rfl).trans hdrives, hreceipt⟩

/-! ### The receipt -/

theorem Inv.finished {receipt : ShutdownReceipt} (h : Inv resources s)
    (hreceipt : s.receipt = some receipt) :
    receipt = ⟨resources.length, s.completion, s.failures⟩ ∧
      (Base resources (stack resources) [] s ∨
        ∃ past rest last, Exhausted resources past rest last s) := by
  have hshape := h.shape
  unfold State.receipt at hreceipt
  unfold Shape at hshape
  cases hphase : s.phase with
  | returned =>
      rw [hphase] at hreceipt hshape
      cases hreceipt
      exact ⟨by rw [h.registered], hshape⟩
  | between => rw [hphase] at hreceipt; cases hreceipt
  | selecting c => rw [hphase] at hreceipt; cases hreceipt
  | joining c exhausted => rw [hphase] at hreceipt; cases hreceipt

section Exhausted

variable {past rest : List (Resource × ℕ)} {last : Resource × ℕ}

/-- Where the drain was exhausted: at the last resource that it started. -/
theorem Exhausted.verdict_iff (h : Exhausted resources past rest last s) {entry : Resource × ℕ}
    (hentry : entry ∈ stack resources) :
    Shutdown.verdict s.log entry = some .budgetExhausted ↔ entry.2 ≤ last.2 := by
  have hpairwise := pairwise_stack resources
  rw [h.split] at hentry hpairwise
  obtain ⟨-, hlater, hbefore⟩ := List.pairwise_append.mp hpairwise
  rcases List.mem_append.mp hentry with hpast | hrest
  · have hlt := hbefore entry hpast last List.mem_cons_self
    exact iff_of_false (h.closed entry hpast).within (Nat.not_le_of_gt hlt)
  · refine iff_of_true (h.verdict entry hrest) ?_
    rcases List.mem_cons.mp hrest with rfl | hrest
    · exact Nat.le_refl _
    · exact Nat.le_of_lt (List.rel_of_pairwise_cons hlater hrest)

theorem Exhausted.last_mem (h : Exhausted resources past rest last s) :
    last ∈ stack resources := by
  rw [h.split]
  exact List.mem_append_right past List.mem_cons_self

theorem Exhausted.skipped_of_lt (h : Exhausted resources past rest last s) {i : ℕ}
    (hi : i < last.2) : .started i ∉ s.log := by
  have hlt : i < resources.length := by
    have hlast := (List.getElem?_eq_some_iff.mp (mem_stack.mp h.last_mem)).1
    omega
  have hmem : (resources[i], i) ∈ stack resources := mem_stack.mpr (List.getElem?_eq_getElem hlt)
  have hpairwise := pairwise_stack resources
  rw [h.split] at hmem hpairwise
  obtain ⟨-, -, hbefore⟩ := List.pairwise_append.mp hpairwise
  rcases List.mem_append.mp hmem with hpast | hrest
  · have := hbefore _ hpast last List.mem_cons_self
    omega
  · rcases List.mem_cons.mp hrest with heq | hrest
    · rw [← heq] at hi
      exact absurd hi (Nat.lt_irrefl i)
    · exact h.skipped _ hrest

theorem Exhausted.cancelled_of_mem (h : Exhausted resources past rest last s)
    {entry : Resource × ℕ} (hentry : entry ∈ stack resources) (hdeferred : entry.1.isDeferred = true) :
    .cancelled entry.2 ∈ s.log := by
  rw [h.split] at hentry
  rcases List.mem_append.mp hentry with hpast | hrest
  · exact (h.closed entry hpast).cancelled hdeferred
  · exact h.cancelled entry hrest hdeferred

end Exhausted

/-- The drain starts a resource after all that were registered later are terminal and gone, and
cancels no deferred token sooner. Whatever the outcome of a resource, a hang included, the driver
starts the next by its own steps while the total deadline has not fired, and comes to the receipt
when it has or when none is left. The receipt reports the resources that did not finish cleanly, in
the reverse order of registration. It tells the total budget exhausted when the total deadline fired
before a terminal observation: then one resource in flight and all those below it are reported as
exhausted, and those below it never started. All deferred tokens are cancelled. -/
theorem drain_accounts {actions : List Action}
    (h : Runs Step (spawnOwnedDrain resources) actions s) :
    Chronicle (Sequential resources.length) s.log ∧
    (s.Advances → ∀ r i rest, s.remaining = (r, i) :: rest →
      ∃ s', Drives s s' ∧ .started i ∈ s'.log) ∧
    (s.Concludes → ∃ s', Drives s s' ∧ s'.receipt.isSome = true) ∧
    ∀ receipt, s.receipt = some receipt →
      receipt.registeredResources = resources.length ∧
      receipt.failures = reports s.log (stack resources) ∧
      (receipt.completion = .budgetExhausted ↔
        ∃ i < resources.length, .deadline ∈ before i s.log) ∧
      (receipt.completion = .budgetExhausted → ∃ k < resources.length, .started k ∈ s.log ∧
        (∀ r i, resources[i]? = some r →
          (verdict s.log (r, i) = some .budgetExhausted ↔ i ≤ k)) ∧
        ∀ i < k, .started i ∉ s.log) ∧
      (∀ r i, resources[i]? = some r →
        (verdict s.log (r, i) = none ↔ Cleanly r i (before i s.log)) ∧
        (r.isDeferred = true → .cancelled i ∈ s.log) ∧
        (receipt.completion = .complete → .started i ∈ s.log)) ∧
      (receipt.isClean = true ↔
        ∀ r i, resources[i]? = some r → Cleanly r i (before i s.log)) := by
  have hinv := inv_of_runs h
  refine ⟨hinv.order, fun h r i rest hremaining => h.next_started hremaining,
    fun h => h.receipt, fun receipt hreceipt => ?_⟩
  · obtain ⟨rfl, hfinished⟩ := hinv.finished hreceipt
    rcases hfinished with hbase | ⟨past, rest, last, hexhausted⟩
    · have hclosed : ∀ r i, resources[i]? = some r → Closed s.log (r, i) :=
        fun r i hr => hbase.closed _ (mem_stack.mpr hr)
      have hwithin : ¬ ∃ i < resources.length, .deadline ∈ before i s.log := fun hex => by
        obtain ⟨i, hi, hmem⟩ := hex
        exact (hclosed _ i (List.getElem?_eq_getElem hi)).within (finding_eq_exhausted.mpr hmem)
      refine ⟨rfl, hbase.failures, iff_of_false ?_ hwithin, fun hbudget => ?_, fun r i hr =>
        ⟨finding_eq_none, (hclosed r i hr).cancelled, fun _ => (hclosed r i hr).started⟩, ?_⟩
      · simp [hbase.completion]
      · simp [hbase.completion] at hbudget
      · simp only [ShutdownReceipt.isClean, hbase.completion, hbase.failures, decide_true,
          Bool.true_and, List.isEmpty_iff, reports_eq_nil]
        constructor
        · intro hnone r i hr
          exact finding_eq_none.mp (hnone (r, i) (mem_stack.mpr hr))
        · intro hclean entry hentry
          exact finding_eq_none.mpr (hclean entry.1 entry.2 (mem_stack.mp hentry))
    · have hlast := mem_stack.mp hexhausted.last_mem
      have hlt := (List.getElem?_eq_some_iff.mp hlast).1
      have hverdict := hexhausted.verdict last List.mem_cons_self
      refine ⟨rfl, hexhausted.failures, iff_of_true hexhausted.completion
        ⟨last.2, hlt, finding_eq_exhausted.mp hverdict⟩, fun _ => ⟨last.2, hlt, hexhausted.started,
          fun r i hr => hexhausted.verdict_iff (mem_stack.mpr hr),
          fun i hi => hexhausted.skipped_of_lt hi⟩, fun r i hr => ⟨finding_eq_none,
            hexhausted.cancelled_of_mem (mem_stack.mpr hr), fun hcomplete => ?_⟩, ?_⟩
      · simp [hexhausted.completion] at hcomplete
      · refine iff_of_false ?_ fun hclean => ?_
        · simp [ShutdownReceipt.isClean, hexhausted.completion]
        · rw [verdict, finding_eq_none.mpr (hclean last.1 last.2 hlast)] at hverdict
          cases hverdict

theorem runs_of_foldlM (actions : List Action) {s s' : State}
    (h : actions.foldlM State.step s = some s') : Runs Step s actions s' := by
  induction actions generalizing s with
  | nil =>
      cases h
      exact .nil
  | cons a actions ih =>
      rw [List.foldlM_cons] at h
      obtain ⟨s₁, hstep, hrest⟩ := Option.bind_eq_some_iff.mp h
      exact (Runs.single hstep).trans (ih hrest)

/-- A worker hangs and is aborted; the pool that it depends on is started from there and drains. -/
theorem drain_accounts_worker :
    let resources := [.plain (some "pool") (some 5), .deferred "worker" 5]
    (∃ (s s' : State) (c : Current), s.phase = .joining c false ∧ Drives s s' ∧
      .started 0 ∈ s'.log) ∧
    ∃ (s : State) (receipt : ShutdownReceipt), s.receipt = some receipt ∧
      receipt.failures = [⟨"worker", .timedOut 5⟩] ∧
      receipt.failures = reports s.log (stack resources) := by
  intro resources
  have hhung := runs_of_foldlM (s := spawnOwnedDrain resources)
    [.take, .pollTask, .fireTimer, .poll] rfl
  obtain ⟨s', hdrives, hstarted⟩ := (drain_accounts hhung).2.1 (.joining _ rfl) _ _ _ rfl
  have hrun := runs_of_foldlM (s := spawnOwnedDrain resources)
    [.take, .pollTask, .fireTimer, .poll, .abortTask, .join, .take, .pollTask,
      .endTask (.returned (.ok ())), .poll, .take] rfl
  exact ⟨⟨_, s', _, rfl, hdrives, hstarted⟩, _, _, rfl, rfl,
    ((drain_accounts hrun).2.2.2 _ rfl).2.1⟩

end Rss.Shutdown
