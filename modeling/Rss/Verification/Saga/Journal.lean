import Rss.Verification.Saga.Reservation
import Mathlib.Data.List.Chain

/-! # The meaning of a whole journal

What an accepted event list says about the saga it records: the order of the forward
steps, the single abort, the reverse compensation, the pairing of intents with their
settlements and the numbering of attempts. -/

namespace Rss.Saga

/-! ### Journals as runs of the machine -/

/-- The journal leads from the empty progress to the given one. -/
inductive Progress.Runs (d : Definition) : List Event → Progress → Prop where
  | nil : Runs d [] Progress.empty
  | snoc {es : List Event} {p q : Progress} {e : Event} :
      Runs d es p → Progress.Step d p e q → Runs d (es ++ [e]) q

theorem Progress.Runs.inv {d : Definition} {es : List Event} {p : Progress} (hd : d.Valid)
    (h : Progress.Runs d es p) : p.Inv d := by
  induction h with
  | nil => exact Progress.inv_empty hd
  | snoc _ hstep ih => exact hstep.inv hd ih

theorem Snapshot.replay_eq_ok {s s' : Snapshot} {e : Event} :
    s.replay e = .ok s' ↔ ∃ h, s.prepare e false = .ok h ∧ s' = s.accept e h := by
  simp only [Snapshot.replay, bind_eq_ok, Except.ok.injEq]
  exact exists_congr (fun h => and_congr_right (fun _ => eq_comm))

theorem Snapshot.prepare_replay {s : Snapshot} {e : Event} {h : HistoryHead}
    (hp : s.prepare e false = .ok h) :
    e.seq = s.revision ∧ ∃ q n, Progress.Step s.definition s.progress e q ∧
      e.encodedBytes = .ok n ∧ h = s.headAfter q n ∧ h.checkRead s.read = .ok () := by
  unfold Snapshot.prepare at hp
  split at hp
  · cases hp
  · rename_i hseq
    obtain ⟨after, ht, hp⟩ := bind_eq_ok.mp hp
    obtain ⟨_, hread, hp⟩ := bind_eq_ok.mp hp
    obtain ⟨q, n, hq, hn, -, -, rfl⟩ := Snapshot.transition_eq_ok.mp ht
    obtain rfl := Except.ok.inj hp
    exact ⟨not_not.mp hseq, q, n, hq, hn, rfl, hread⟩

/-- Replaying from the empty snapshot follows the machine and keeps the list itself. -/
theorem Snapshot.runs_of_replay {s s' : Snapshot} {es : List Event}
    (hr : Progress.Runs s.definition s.events s.progress)
    (h : es.foldlM Snapshot.replay s = .ok s') :
    s'.definition = s.definition ∧ s'.events = s.events ++ es ∧
      Progress.Runs s'.definition s'.events s'.progress := by
  induction es generalizing s with
  | nil =>
      cases h
      simpa using hr
  | cons e es ih =>
      obtain ⟨t, ht, h⟩ := bind_eq_ok.mp h
      obtain ⟨head, hprep, rfl⟩ := Snapshot.replay_eq_ok.mp ht
      obtain ⟨-, q, n, hq, -, rfl, -⟩ := Snapshot.prepare_replay hprep
      obtain ⟨hd, he, hrun⟩ := ih (.snoc hr hq) h
      refine ⟨hd, ?_, hrun⟩
      rw [he]
      simp [Snapshot.accept]

/-! ### Intents and settlements alternate -/

def EventKind.IsIntent (k : EventKind) : Prop :=
  k = .forwardIntent ∨ k = .compensationIntent

instance (k : EventKind) : Decidable k.IsIntent := inferInstanceAs (Decidable (_ ∨ _))

/-- The intent kind a settlement kind answers, if it is one. -/
def EventKind.settled : EventKind → Option EventKind
  | .forwardApplied | .forwardNotApplied | .forwardProbeNotApplied => some .forwardIntent
  | .compensationApplied | .compensationNotApplied | .compensationFailed =>
      some .compensationIntent
  | _ => none

/-- The second event settles the intent recorded by the first. -/
def Event.SettledBy (f e : Event) : Prop :=
  e.kind.settled = some f.kind ∧ e.step = f.step ∧ e.attempt = f.attempt

/-- What one event may follow another: an intent is followed by its settlement, and a
settlement follows its intent. -/
def Event.Follows (f e : Event) : Prop :=
  (f.kind.IsIntent → f.SettledBy e) ∧ (e.kind.settled.isSome → f.SettledBy e)

/-- The intent an event leaves pending. -/
def Event.opened (e : Event) : Option Intent :=
  if e.kind.IsIntent then some ⟨e.step, e.attempt, e.kind⟩ else none

theorem Progress.Step.opened_eq {d : Definition} {p q : Progress} {e : Event}
    (h : Progress.Step d p e q) : q.pending = e.opened := by
  cases h with
  | abort hk hr hn ha hs hp hf hat hm hl => simp [Event.opened, EventKind.IsIntent, hk, hp]
  | resume hk hr hn ha hs hp hc hat => simp [Event.opened, EventKind.IsIntent, hk, hp]
  | _ => simp_all [Event.opened, EventKind.IsIntent]

theorem Progress.Step.pending_before {d : Definition} {p q : Progress} {e : Event}
    (h : Progress.Step d p e q) :
    p.pending = e.kind.settled.map (fun k => ⟨e.step, e.attempt, k⟩) := by
  cases h <;> simp_all [EventKind.settled]

/-- The pending intent is the one opened by the last event. -/
theorem Progress.Runs.pending_eq {d : Definition} {es : List Event} {p : Progress}
    (h : Progress.Runs d es p) : p.pending = es.getLast?.bind Event.opened := by
  cases h with
  | nil => rfl
  | snoc _ hstep => simpa using hstep.opened_eq

theorem Event.follows_of_opened {f e : Event}
    (h : e.kind.settled.map (fun k => (⟨e.step, e.attempt, k⟩ : Intent)) = f.opened) :
    f.Follows e := by
  unfold Event.opened at h
  split at h
  · obtain ⟨k, hk, hi⟩ := Option.map_eq_some_iff.mp h
    simp only [Intent.mk.injEq] at hi
    obtain ⟨hstep, hat, rfl⟩ := hi
    exact ⟨fun _ => ⟨hk, hstep, hat⟩, fun _ => ⟨hk, hstep, hat⟩⟩
  · rename_i hf
    have hk : e.kind.settled = none := Option.map_eq_none_iff.mp h
    exact ⟨fun hi => absurd hi hf, fun hs => by simp [hk] at hs⟩

theorem Progress.Runs.follows {d : Definition} {es : List Event} {p : Progress}
    (h : Progress.Runs d es p) :
    es.IsChain Event.Follows ∧ ∀ e ∈ es.head?, e.kind.settled = none := by
  induction h with
  | nil => simp
  | @snoc es p q e hrun hstep ih =>
      have hlast := hrun.pending_eq
      rw [hstep.pending_before] at hlast
      refine ⟨List.isChain_append.mpr ⟨ih.1, by simp, ?_⟩, ?_⟩
      · intro f hf e' he'
        simp only [List.head?_cons, Option.mem_def, Option.some.injEq] at hf he'
        subst e'
        rw [hf, Option.bind_some] at hlast
        exact Event.follows_of_opened hlast
      · cases es with
        | nil =>
            intro f hf
            obtain rfl : e = f := by simpa using hf
            simpa using hlast
        | cons f es => simpa using ih.2

/-! ### Forward steps in order -/

/-- Steps of the events of one kind, in journal order. -/
def stepsOf (kind : EventKind) (es : List Event) : List ℕ :=
  (es.filter (fun e => e.kind = kind)).map Event.step

theorem stepsOf_snoc (kind : EventKind) (es : List Event) (e : Event) :
    stepsOf kind (es ++ [e]) = stepsOf kind es ++ if e.kind = kind then [e.step] else [] := by
  by_cases h : e.kind = kind <;> simp [stepsOf, List.filter_append, h]

theorem Progress.Runs.forwardApplied_steps {d : Definition} {es : List Event} {p : Progress}
    (hd : d.Valid) (h : Progress.Runs d es p) :
    stepsOf .forwardApplied es = List.range p.forward := by
  induction h with
  | nil => rfl
  | @snoc es p q e hrun hstep ih =>
      have hi := hrun.inv hd
      rw [stepsOf_snoc, ih]
      cases hstep with
      | forwardApplied r hk hr hn ha hs hp hra hrs =>
          obtain ⟨hf, -⟩ := hi.pendingForward hp rfl
          have hstep : e.step = p.forward := congrArg Intent.step (hf.pending_eq _ hp).1
          simp [hk, hstep, List.range_succ]
      | _ => simp [*]

/-! ### The abort splits the journal -/

/-- Before the abort: forward events only. -/
def ForwardOnly (es : List Event) : Prop :=
  ∀ e ∈ es, e.kind.phase = .forward ∧ e.kind ≠ .abort

/-- The journal has one abort; forward events stand before it and compensation events
after it. -/
def AbortedOnce (es : List Event) : Prop :=
  ∃ (before : List Event) (abort : Event) (after : List Event), es = before ++ abort :: after ∧
    abort.kind = .abort ∧ ForwardOnly before ∧ ∀ e ∈ after, e.kind.phase = .compensation

theorem ForwardOnly.snoc {es : List Event} {e : Event} (h : ForwardOnly es)
    (hp : e.kind.phase = .forward) (hk : e.kind ≠ .abort) : ForwardOnly (es ++ [e]) := by
  intro f hf
  rcases List.mem_append.mp hf with hf | hf
  · exact h f hf
  · obtain rfl := List.mem_singleton.mp hf
    exact ⟨hp, hk⟩

theorem AbortedOnce.snoc {es : List Event} {e : Event} (h : AbortedOnce es)
    (hp : e.kind.phase = .compensation) : AbortedOnce (es ++ [e]) := by
  obtain ⟨before, a, after, rfl, ha, hb, hafter⟩ := h
  refine ⟨before, a, after ++ [e], by simp, ha, hb, ?_⟩
  intro f hf
  rcases List.mem_append.mp hf with hf | hf
  · exact hafter f hf
  · obtain rfl := List.mem_singleton.mp hf
    exact hp

/-- Forward statuses have not seen the abort, the others have seen it once. -/
def Split (es : List Event) : Status → Prop
  | .ready | .running | .succeeded => ForwardOnly es
  | .compensating | .compensationFailed | .compensated => AbortedOnce es

theorem split_forward {es : List Event} {s : Status} (hs : s = .ready ∨ s = .running) :
    Split es s = ForwardOnly es := by
  rcases hs with rfl | rfl <;> rfl

theorem Progress.Runs.split {d : Definition} {es : List Event} {p : Progress} (hd : d.Valid)
    (h : Progress.Runs d es p) : Split es p.status := by
  induction h with
  | nil => simp [Split, Progress.empty, ForwardOnly]
  | @snoc es p q e hrun hstep ih =>
      have hi := hrun.inv hd
      cases hstep with
      | forwardIntent hk hr hn hs hp hf ha hb hm =>
          rw [split_forward hs] at ih
          exact ih.snoc (by rw [hk]; rfl) (by simp [hk])
      | forwardApplied r hk hr hn ha hs hp hra hrs =>
          obtain ⟨-, hrunning⟩ := hi.pendingForward hp rfl
          rw [hrunning] at ih
          have := ForwardOnly.snoc (e := e) ih (by rw [hk]; rfl) (by simp [hk])
          split_ifs <;> exact this
      | forwardNotApplied hk hr hn ha hs hp hb =>
          obtain ⟨-, hrunning⟩ := hi.pendingForward hp rfl
          rw [hrunning] at ih
          exact ForwardOnly.snoc ih (by rw [hk]; rfl) (by simp [hk])
      | forwardProbeNotApplied hk hr hn ha hs hp =>
          obtain ⟨-, hrunning⟩ := hi.pendingForward hp rfl
          rw [hrunning] at ih
          exact ForwardOnly.snoc ih (by rw [hk]; rfl) (by simp [hk])
      | abort hk hr hn ha hs hp hf hat hm hl =>
          rw [hs] at ih
          have : AbortedOnce (es ++ [e]) := ⟨es, e, [], rfl, hk, ih, by simp⟩
          split_ifs <;> exact this
      | compensationIntent hk hr hn hs hp hc ha hb =>
          rw [hs] at ih ⊢
          exact AbortedOnce.snoc ih (by rw [hk]; rfl)
      | compensationApplied hk hr hn ha hs hp =>
          rw [hs] at ih
          have := AbortedOnce.snoc (e := e) ih (by rw [hk]; rfl)
          split_ifs <;> exact this
      | compensationNotApplied hk hr hn ha hs hp =>
          rw [hs] at ih ⊢
          exact AbortedOnce.snoc ih (by rw [hk]; rfl)
      | compensationFailed hk hr hn ha hs hp =>
          rw [hs] at ih
          exact AbortedOnce.snoc ih (by rw [hk]; rfl)
      | resume hk hr hn ha hs hp hc hat =>
          rw [hs] at ih
          exact AbortedOnce.snoc ih (by rw [hk]; rfl)

/-! ### Compensation in reverse -/

/-- The steps undone so far: none before the abort, then from the highest applied one down
to the one above the cursor. -/
def undone (p : Progress) : List ℕ :=
  match p.status with
  | .ready | .running | .succeeded => []
  | .compensating | .compensationFailed =>
      ((List.range p.forward).drop (p.compensation.getD 0 + 1)).reverse
  | .compensated => (List.range p.forward).reverse

theorem undone_forward {p : Progress} (hs : p.status = .ready ∨ p.status = .running) :
    undone p = [] := by
  rcases hs with hs | hs <;> simp [undone, hs]

theorem drop_range_reverse {n c : ℕ} (h : c < n) :
    ((List.range n).drop (c + 1)).reverse ++ [c] = ((List.range n).drop c).reverse := by
  have hlen : c < (List.range n).length := by simpa using h
  rw [List.drop_eq_getElem_cons hlen, List.reverse_cons, List.getElem_range]

theorem Progress.Step.undone_eq {d : Definition} {p q : Progress} {e : Event}
    (h : Progress.Step d p e q) (hi : p.Inv d) :
    undone q = undone p ++ if e.kind = .compensationApplied then [e.step] else [] := by
  cases h with
  | forwardIntent hk hr hn hs hp hf ha hb hm =>
      rw [undone_forward hs]
      simp [undone, hk]
  | forwardApplied r hk hr hn ha hs hp hra hrs =>
      obtain ⟨-, hrunning⟩ := hi.pendingForward hp rfl
      rw [undone_forward (.inr hrunning)]
      by_cases hend : p.forward + 1 = d.steps.length <;> simp [undone, hk, hend]
  | forwardNotApplied hk hr hn ha hs hp hb =>
      obtain ⟨-, hrunning⟩ := hi.pendingForward hp rfl
      rw [undone_forward (.inr hrunning)]
      simp [undone, hk]
  | forwardProbeNotApplied hk hr hn ha hs hp =>
      obtain ⟨-, hrunning⟩ := hi.pendingForward hp rfl
      rw [undone_forward (.inr hrunning)]
      simp [undone, hk]
  | abort hk hr hn ha hs hp hf hat hm hl =>
      rw [undone_forward (.inl hs)]
      rcases checkedSub_one_cases p.forward with ⟨hz, -⟩ | ⟨c, hfc, -⟩
      · simp [undone, hk, hz]
      · simp [undone, hk, hfc]
  | compensationIntent hk hr hn hs hp hc ha hb => simp [undone, hk, hs]
  | compensationApplied hk hr hn ha hs hp =>
      have hci := hi.compensation (.inl hs)
      obtain ⟨hc, -⟩ := hci.pending_eq _ hp
      obtain ⟨c, hc', hlt⟩ := hci.compensation_lt
      obtain rfl : c = e.step := Option.some.inj (hc'.symm.trans hc)
      have hdrop := drop_range_reverse hlt
      rcases checkedSub_one_cases e.step with ⟨hz, hs1⟩ | ⟨c, hec, hs1⟩
      · rw [hz] at hdrop
        simpa [undone, hk, hs, hc, hz] using hdrop.symm
      · simpa [undone, hk, hs, hc, hs1, ← hec] using hdrop.symm
  | compensationNotApplied hk hr hn ha hs hp => simp [undone, hk, hs]
  | compensationFailed hk hr hn ha hs hp => simp [undone, hk, hs]
  | resume hk hr hn ha hs hp hc hat => simp [undone, hk, hs]

theorem Progress.Runs.compensationApplied_steps {d : Definition} {es : List Event}
    {p : Progress} (hd : d.Valid) (h : Progress.Runs d es p) :
    stepsOf .compensationApplied es = undone p := by
  induction h with
  | nil => rfl
  | snoc hrun hstep ih => rw [stepsOf_snoc, ih, hstep.undone_eq (hrun.inv hd)]

/-! ### Attempt ordinals -/

/-- Attempts of the events of one kind at one step, in journal order. -/
def attemptsOf (kind : EventKind) (step : ℕ) (es : List Event) : List ℕ :=
  (es.filter (fun e => e.kind = kind ∧ e.step = step)).map Event.attempt

theorem attemptsOf_snoc (kind : EventKind) (step : ℕ) (es : List Event) (e : Event) :
    attemptsOf kind step (es ++ [e]) =
      attemptsOf kind step es ++ if e.kind = kind ∧ e.step = step then [e.attempt] else [] := by
  by_cases h : e.kind = kind ∧ e.step = step <;> simp [attemptsOf, List.filter_append, h]

theorem attemptsOf_snoc_of_ne {kind : EventKind} (step : ℕ) (es : List Event) {e : Event}
    (h : e.kind ≠ kind) : attemptsOf kind step (es ++ [e]) = attemptsOf kind step es := by
  simp [attemptsOf_snoc, h]

/-- Attempts `1, 2, …` of a step; those of the open step end at its counter, and later
steps have none. -/
def ForwardAttempts (p : Progress) (es : List Event) (step : ℕ) : Prop :=
  ∃ m, attemptsOf .forwardIntent step es = List.range' 1 m ∧
    (step = p.forward → m = p.forwardAttempt) ∧ (p.forward < step → m = 0)

theorem Progress.Runs.forward_attempts {d : Definition} {es : List Event} {p : Progress}
    (h : Progress.Runs d es p) (step : ℕ) : ForwardAttempts p es step := by
  induction h with
  | nil => exact ⟨0, rfl, fun _ => rfl, fun _ => rfl⟩
  | @snoc es p q e hrun hstep ih =>
      obtain ⟨m, hm, hopen, hlater⟩ := ih
      by_cases hk' : e.kind = .forwardIntent
      · cases hstep <;> simp_all only [reduceCtorEq]
        case forwardIntent hk hr hn hs hp hf ha hb hmax =>
          by_cases hcur : step = p.forward
          · refine ⟨m + 1, ?_, fun _ => by simp [hopen hcur], fun hlt => by simp_all⟩
            rw [attemptsOf_snoc, hm, List.range'_1_concat, hopen hcur]
            simp [hk, hf, hcur, ha, Nat.add_comm]
          · refine ⟨m, ?_, fun h => absurd h hcur, hlater⟩
            rw [attemptsOf_snoc, hm]
            simp [hf, Ne.symm hcur]
      · rw [ForwardAttempts, attemptsOf_snoc_of_ne step es hk']
        cases hstep with
        | forwardApplied r hk hr hn ha hs hp hra hrs =>
            refine ⟨m, hm, ?_, ?_⟩
            · rintro rfl
              exact hlater (Nat.lt_succ_self _)
            · intro hlt
              exact hlater (Nat.lt_of_succ_lt hlt)
        | forwardIntent hk hr hn hs hp hf ha hb hmax => exact absurd hk hk'
        | _ => exact ⟨m, hm, hopen, hlater⟩

/-- Attempts `1, 2, …` of a step's compensation; those of the current one end at its
counter, and steps below the cursor have none, nor has any step before the abort. -/
def CompensationAttempts (p : Progress) (es : List Event) (step : ℕ) : Prop :=
  ∃ m, attemptsOf .compensationIntent step es = List.range' 1 m ∧
    (∀ c, p.compensation = some c →
      (step = c → m = p.compensationAttempt) ∧ (step < c → m = 0)) ∧
    (p.status = .ready ∨ p.status = .running → m = 0)

theorem Progress.Runs.compensation_attempts {d : Definition} {es : List Event} {p : Progress}
    (hd : d.Valid) (h : Progress.Runs d es p) (step : ℕ) : CompensationAttempts p es step := by
  induction h with
  | nil => exact ⟨0, rfl, by simp [Progress.empty], fun _ => rfl⟩
  | @snoc es p q e hrun hstep ih =>
      have hi := hrun.inv hd
      obtain ⟨m, hm, hcur, hbefore⟩ := ih
      by_cases hk' : e.kind = .compensationIntent
      · cases hstep <;> simp_all only [reduceCtorEq]
        case compensationIntent hk hr hn hs hp hc ha hb =>
          obtain ⟨hat, hlow⟩ := hcur _ rfl
          by_cases hstep : step = e.step
          · refine ⟨m + 1, ?_, ?_, by simp⟩
            · rw [attemptsOf_snoc, hm, List.range'_1_concat, hat hstep]
              simp [hk, hstep, ha, Nat.add_comm]
            · intro c hc'
              obtain rfl : e.step = c := Option.some.inj hc'
              exact ⟨fun _ => by simp [hat hstep], fun hlt => by omega⟩
          · refine ⟨m, ?_, ?_, by simp⟩
            · rw [attemptsOf_snoc, hm]
              simp [Ne.symm hstep]
            · intro c hc'
              obtain rfl : e.step = c := Option.some.inj hc'
              exact ⟨fun h => absurd h hstep, hlow⟩
      · rw [CompensationAttempts, attemptsOf_snoc_of_ne step es hk']
        cases hstep with
        | compensationIntent hk hr hn hs hp hc ha hb => exact absurd hk hk'
        | forwardIntent hk hr hn hs hp hf ha hb hmax =>
            exact ⟨m, hm, hcur, fun _ => hbefore hs⟩
        | forwardApplied r hk hr hn ha hs hp hra hrs =>
            obtain ⟨-, hrunning⟩ := hi.pendingForward hp rfl
            exact ⟨m, hm, hcur, fun _ => hbefore (.inr hrunning)⟩
        | forwardNotApplied hk hr hn ha hs hp hb =>
            obtain ⟨-, hrunning⟩ := hi.pendingForward hp rfl
            exact ⟨m, hm, hcur, fun _ => hbefore (.inr hrunning)⟩
        | forwardProbeNotApplied hk hr hn ha hs hp =>
            obtain ⟨-, hrunning⟩ := hi.pendingForward hp rfl
            exact ⟨m, hm, hcur, fun _ => hbefore (.inr hrunning)⟩
        | abort hk hr hn ha hs hp hf hat hm' hl =>
            have hzero := hbefore (.inl hs)
            refine ⟨m, hm, fun c _ => ⟨fun _ => hzero, fun _ => hzero⟩, fun _ => hzero⟩
        | compensationApplied hk hr hn ha hs hp =>
            obtain ⟨hc, -⟩ := (hi.compensation (.inl hs)).pending_eq _ hp
            obtain ⟨-, hlow⟩ := hcur _ hc
            refine ⟨m, hm, ?_, ?_⟩
            · intro c hc'
              rcases checkedSub_one_cases e.step with ⟨-, hs1⟩ | ⟨c', hec, hs1⟩
              · simp [hs1] at hc'
              · obtain rfl : c' = c := Option.some.inj (hs1.symm.trans hc')
                exact ⟨fun h => hlow (by simp only; omega), fun h => hlow (by simp only; omega)⟩
            · split_ifs <;> simp
        | compensationNotApplied hk hr hn ha hs hp =>
            exact ⟨m, hm, hcur, hbefore⟩
        | compensationFailed hk hr hn ha hs hp => exact ⟨m, hm, hcur, by simp⟩
        | resume hk hr hn ha hs hp hc hat => exact ⟨m, hm, hcur, by simp⟩

/-! ### Failure limits -/

/-- Recorded failures of a forward step. -/
def failuresOf (step : ℕ) (es : List Event) : ℕ :=
  (attemptsOf .forwardNotApplied step es).length

theorem failuresOf_snoc_of_ne (step : ℕ) (es : List Event) {e : Event}
    (h : e.kind ≠ .forwardNotApplied) : failuresOf step (es ++ [e]) = failuresOf step es := by
  rw [failuresOf, attemptsOf_snoc_of_ne step es h, failuresOf]

theorem failuresOf_snoc (step : ℕ) (es : List Event) {e : Event}
    (h : e.kind = .forwardNotApplied) :
    failuresOf step (es ++ [e]) = failuresOf step es + if e.step = step then 1 else 0 := by
  rw [failuresOf, attemptsOf_snoc, List.length_append, failuresOf]
  split_ifs <;> simp_all

/-- The failures of the open step are the counter's, later steps have none, and no step
exceeds its limit. -/
structure Failures (d : Definition) (p : Progress) (es : List Event) (step : ℕ) : Prop where
  le : failuresOf step es ≤ d.maxFailures step
  current : step = p.forward → failuresOf step es = p.forwardFailures
  later : p.forward < step → failuresOf step es = 0

theorem Progress.Runs.failures {d : Definition} {es : List Event} {p : Progress}
    (hd : d.Valid) (h : Progress.Runs d es p) (step : ℕ) : Failures d p es step := by
  induction h with
  | nil => exact ⟨Nat.zero_le _, fun _ => rfl, fun _ => rfl⟩
  | @snoc es p q e hrun hstep ih =>
      have hi := hrun.inv hd
      by_cases hk' : e.kind = .forwardNotApplied
      · cases hstep <;> simp_all only [reduceCtorEq]
        case forwardNotApplied hk hr hn ha hs hp hb =>
          obtain ⟨hf, -⟩ := hi.pendingForward hp rfl
          obtain ⟨heq, -, hmax, -, -⟩ := hf.pending_eq _ hp
          have hstep : e.step = p.forward := congrArg Intent.step heq
          by_cases hcur : step = p.forward
          · have hcount : failuresOf step (es ++ [e]) = p.forwardFailures + 1 := by
              rw [failuresOf_snoc step es hk, ih.current hcur, if_pos (hstep.trans hcur.symm)]
            refine ⟨?_, fun _ => hcount, fun hlt => absurd hcur hlt.ne'⟩
            rw [hcount, hcur]
            exact hmax
          · have hcount : failuresOf step (es ++ [e]) = failuresOf step es := by
              rw [failuresOf_snoc step es hk, if_neg (fun h => hcur (h.symm.trans hstep)),
                Nat.add_zero]
            exact ⟨hcount ▸ ih.le, fun h => absurd h hcur, fun hlt => hcount ▸ ih.later hlt⟩
      · have hcount := failuresOf_snoc_of_ne step es hk'
        cases hstep with
        | forwardNotApplied hk hr hn ha hs hp hb => exact absurd hk hk'
        | forwardApplied r hk hr hn ha hs hp hra hrs =>
            refine ⟨hcount ▸ ih.le, ?_, ?_⟩
            · rintro rfl
              exact hcount.trans (ih.later (Nat.lt_succ_self _))
            · intro hlt
              exact hcount.trans (ih.later (Nat.lt_of_succ_lt hlt))
        | _ => exact ⟨hcount ▸ ih.le, fun h => hcount ▸ ih.current h, fun h => hcount ▸ ih.later h⟩

theorem Progress.Runs.prefix_step {d : Definition} {before after : List Event} {e : Event}
    {p : Progress} (h : Progress.Runs d (before ++ e :: after) p) :
    ∃ p₁ q₁, Progress.Runs d before p₁ ∧ Progress.Step d p₁ e q₁ := by
  generalize hes : before ++ e :: after = es at h
  induction h generalizing after with
  | nil => simp at hes
  | @snoc es p q f hrun hstep ih =>
      rcases List.eq_nil_or_concat after with rfl | ⟨mid, last, rfl⟩
      · obtain ⟨rfl, rfl⟩ : before = es ∧ e = f := by simpa using hes
        exact ⟨p, q, hrun, hstep⟩
      · rw [List.concat_eq_append, ← List.cons_append, ← List.append_assoc] at hes
        exact ih (List.append_inj_left' hes rfl)

theorem failuresOf_append_le (step : ℕ) (es fs : List Event) :
    failuresOf step es ≤ failuresOf step (es ++ fs) := by
  simp [failuresOf, attemptsOf, List.filter_append]

/-- The abort stands at a step that has used up its failures, and it keeps that count. -/
theorem Progress.Runs.abort_exhausted {d : Definition} {before after : List Event} {e : Event}
    {p : Progress} (hd : d.Valid) (h : Progress.Runs d (before ++ e :: after) p)
    (hk : e.kind = .abort) :
    failuresOf e.step before = d.maxFailures e.step ∧
      failuresOf e.step (before ++ e :: after) = d.maxFailures e.step := by
  obtain ⟨p₁, q₁, hrun, hstep⟩ := h.prefix_step
  have hbefore : failuresOf e.step before = d.maxFailures e.step := by
    cases hstep <;> simp_all only [reduceCtorEq]
    case abort _ _ _ _ hf _ hmax _ =>
      have hfail := hrun.failures hd p₁.forward
      exact le_antisymm hfail.le (hfail.current rfl ▸ hmax)
  refine ⟨hbefore, le_antisymm (h.failures hd e.step).le ?_⟩
  exact hbefore ▸ failuresOf_append_le e.step before (e :: after)

/-! ### The journal as a whole -/

/-- The story a journal tells about a saga. -/
structure JournalMeaning (d : Definition) (es : List Event) (p : Progress) : Prop where
  forward_steps : stepsOf .forwardApplied es = List.range p.forward
  succeeded : p.status = .succeeded → p.forward = d.steps.length ∧ ForwardOnly es
  compensated : p.status = .compensated →
    AbortedOnce es ∧ stepsOf .compensationApplied es = (List.range p.forward).reverse
  settlement : ∀ i e, es[i]? = some e → e.kind.settled.isSome →
    ∃ j f, i = j + 1 ∧ es[j]? = some f ∧ f.SettledBy e
  intent : ∀ i f, es[i]? = some f → f.kind.IsIntent →
    i + 1 = es.length ∨ ∃ e, es[i + 1]? = some e ∧ f.SettledBy e
  attempts : ∀ kind step, kind.IsIntent → ∃ m, attemptsOf kind step es = List.range' 1 m
  failures_le : ∀ step, failuresOf step es ≤ d.maxFailures step
  abort : ∀ (before : List Event) (e : Event) (after : List Event), es = before ++ e :: after →
    e.kind = .abort →
    failuresOf e.step before = d.maxFailures e.step ∧ failuresOf e.step es = d.maxFailures e.step

theorem settlement_of_chain {es : List Event} (hc : es.IsChain Event.Follows)
    (h0 : ∀ e ∈ es.head?, e.kind.settled = none) {i : ℕ} {e : Event} (he : es[i]? = some e)
    (hs : e.kind.settled.isSome) : ∃ j f, i = j + 1 ∧ es[j]? = some f ∧ f.SettledBy e := by
  cases i with
  | zero =>
      rw [← List.head?_eq_getElem?] at he
      simp [h0 e he] at hs
  | succ j =>
      obtain ⟨hlt, rfl⟩ := List.getElem?_eq_some_iff.mp he
      have hj : j < es.length := Nat.lt_of_succ_lt hlt
      exact ⟨j, es[j], rfl, List.getElem?_eq_getElem hj,
        (List.isChain_iff_getElem.mp hc j hlt).2 hs⟩

theorem intent_of_chain {es : List Event} (hc : es.IsChain Event.Follows) {i : ℕ} {f : Event}
    (hf : es[i]? = some f) (hk : f.kind.IsIntent) :
    i + 1 = es.length ∨ ∃ e, es[i + 1]? = some e ∧ f.SettledBy e := by
  obtain ⟨hlt, rfl⟩ := List.getElem?_eq_some_iff.mp hf
  rcases Nat.eq_or_lt_of_le (Nat.succ_le_of_lt hlt) with hlast | hnext
  · exact .inl hlast
  · exact .inr ⟨es[i + 1], List.getElem?_eq_getElem hnext,
      (List.isChain_iff_getElem.mp hc i hnext).1 hk⟩

theorem Progress.Runs.meaning {d : Definition} {es : List Event} {p : Progress} (hd : d.Valid)
    (h : Progress.Runs d es p) : JournalMeaning d es p := by
  have hi := h.inv hd
  have hsplit := h.split hd
  obtain ⟨hchain, hfirst⟩ := h.follows
  refine ⟨h.forwardApplied_steps hd, ?_, ?_, fun i e => settlement_of_chain hchain hfirst,
    fun i f => intent_of_chain hchain, ?_, fun step => (h.failures hd step).le, ?_⟩
  · intro hs
    simp only [Inv, hs] at hi
    rw [hs] at hsplit
    exact ⟨hi.1, hsplit⟩
  · intro hs
    rw [hs] at hsplit
    exact ⟨hsplit, by simpa only [undone, hs] using h.compensationApplied_steps hd⟩
  · rintro kind step (rfl | rfl)
    · obtain ⟨m, hm, -⟩ := h.forward_attempts step
      exact ⟨m, hm⟩
    · obtain ⟨m, hm, -⟩ := h.compensation_attempts hd step
      exact ⟨m, hm⟩
  · rintro before e after rfl hk
    exact h.abort_exhausted hd hk

/-- Every event list the replay accepts from the empty snapshot tells a saga's story:
forward steps in order, one abort at an exhausted step, reverse compensation, intents
settled one by one and attempts numbered without gap or reuse. -/
theorem journal_meaning {H : Hashing} {d : Definition} {capacity : HistoryCapacity}
    {read : ReadBudget} {s₀ s : Snapshot} {es : List Event}
    (h₀ : Snapshot.empty H d capacity read = .ok s₀)
    (h : es.foldlM Snapshot.replay s₀ = .ok s) : JournalMeaning d es s.progress := by
  obtain ⟨hv, rfl⟩ := Snapshot.empty_eq_ok h₀
  obtain ⟨hdef, hev, hrun⟩ := Snapshot.runs_of_replay .nil h
  rw [hdef, hev] at hrun
  exact hrun.meaning (Definition.valid_of_validate hv)

/-- The aborted order undone: its last step failed, its first one was compensated. -/
def orderJournal : List Event :=
  orderEvents ++ [⟨5, 0, 1, .compensationIntent, none⟩, ⟨6, 0, 1, .compensationApplied, none⟩]

theorem journal_meaning_order :
    stepsOf .forwardApplied orderJournal = [0] ∧ AbortedOnce orderJournal ∧
      stepsOf .compensationApplied orderJournal = [0] := by
  have h : (do
      let s ← Snapshot.empty orderHashing orderDefinition orderCapacity orderRead
      let s ← orderJournal.foldlM Snapshot.replay s
      .ok s.progress) =
        (.ok ⟨.compensated, 1, 1, 1, none, 0, none, some .compensationApplied⟩ :
          Result Progress) := by
    decide +kernel
  obtain ⟨s₀, h₀, h⟩ := bind_eq_ok.mp h
  obtain ⟨s, hs, h⟩ := bind_eq_ok.mp h
  have hp := Except.ok.inj h
  have hm := journal_meaning h₀ hs
  rw [hp] at hm
  obtain ⟨habort, hundone⟩ := hm.compensated rfl
  exact ⟨hm.forward_steps, habort, hundone⟩

end Rss.Saga
