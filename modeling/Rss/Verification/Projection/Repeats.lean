import Rss.Verification.Projection.Runner
import Mathlib.Data.List.Sort

/-! # Repeated runs

A journal orders the events of a source by their positions. A source that answers with the events
next after a position lets repeated runs settle each of them once, whatever interrupts the runs. -/

namespace Rss.Projection.Runner

variable {env : Environment} {limit : RunLimit} {journal events calls : List Event}
  {bound : ReplayBound} {start p : Option ℕ}

/-! ### The journal -/

/-- The events after a position. -/
def after (journal : List Event) (p : Option ℕ) : List Event :=
  journal.filter fun event => p.all fun n => n < event.position

def Ordered (journal : List Event) : Prop :=
  journal.Pairwise fun a b => a.position < b.position

instance : Decidable (Ordered journal) :=
  inferInstanceAs (Decidable (journal.Pairwise fun a b => a.position < b.position))

/-- The event is the first one after the position. -/
def Next (journal : List Event) (p : Option ℕ) (event : Event) : Prop :=
  (after journal p).head? = some event

/-- A read answers with the events next after the position, as many as it likes. -/
def Faithful (journal : List Event) (env : Environment) : Prop :=
  ∀ tick p batch events, env.read tick p batch = .ok events → events <+: after journal p

/-- A read finds an event where there is one. -/
def Complete (journal : List Event) (env : Environment) : Prop :=
  ∀ tick p batch, env.read tick p batch = .ok [] → after journal p = []

/-- The events after the first of those after a position are the rest of them. -/
theorem after_cons {event : Event} {rest : List Event} (hordered : Ordered journal)
    (h : after journal p = event :: rest) : after journal (some event.position) = rest := by
  have hpairs : (event :: rest).Pairwise fun a b => a.position < b.position :=
    h ▸ hordered.filter _
  have hfirst : p.all (fun n => n < event.position) = true := by
    have hmem : event ∈ after journal p := h ▸ List.mem_cons_self
    exact (List.mem_filter.mp hmem).2
  have hnarrow : after journal (some event.position) =
      (after journal p).filter fun e => event.position < e.position := by
    unfold after
    rw [List.filter_filter]
    refine List.filter_congr fun e _ => ?_
    cases p with
    | none => simp
    | some n =>
        have hn : n < event.position := by simpa using hfirst
        simp only [Option.all_some, Bool.and_eq_decide, decide_eq_decide, decide_eq_true_eq]
        omega
  rw [hnarrow, h, List.filter_cons, if_neg (by simp)]
  refine List.filter_eq_self.mpr fun e he => ?_
  simpa using List.rel_of_pairwise_cons hpairs he

theorem after_eq_cons {event : Event} (hordered : Ordered journal) (h : Next journal p event) :
    after journal p = event :: after journal (some event.position) := by
  cases hafter : after journal p with
  | nil =>
      rw [Next, hafter] at h
      cases h
  | cons first rest =>
      rw [Next, hafter] at h
      cases h
      rw [after_cons hordered hafter]

theorem follows_of_prefix (hordered : Ordered journal) (h : events <+: after journal p) :
    Follows (Next journal) p events := by
  induction events generalizing p with
  | nil => exact .nil p
  | cons event rest ih =>
      obtain ⟨others, hothers⟩ := h
      rw [List.cons_append] at hothers
      have hrest : after journal (some event.position) = rest ++ others :=
        after_cons hordered hothers.symm
      refine .cons ?_ (ih ⟨others, hrest.symm⟩)
      rw [Next, ← hothers]
      rfl

/-! ### What a run settles -/

/-- The stored position and the events whose execution was committed, in order. -/
structure Ledger where
  position : Option ℕ
  settled : List Event

/-- An execution is committed from the stored position, which moves with it, or it is not and its
answer is a failure. A commit may also go unacknowledged. -/
inductive Settles : Ledger → Call → Ledger → Prop where
  | committed {l : Ledger} {c : Call} (h : c.expected = l.position) :
      Settles l c ⟨some c.event.position, l.settled ++ [c.event]⟩
  | refused {l : Ledger} {c : Call} (h : c.acknowledged = false) : Settles l c l

/-- A run from the stored checkpoint, as far as it came. -/
structure Ran (journal : List Event) (bound : ReplayBound) (env : Environment) (limit : RunLimit)
    (l : Ledger) (calls : List Call) (l' : Ledger) : Prop where
  faithful : Faithful journal env
  stored : ∀ checkpoint, env.checkpoint = .ok checkpoint → checkpoint = ⟨l.position, bound⟩
  reached : calls <+: (drive env limit).1.calls
  settles : Runs Settles l calls l'

/-- What runs one after another leave behind. -/
inductive Repeated (journal : List Event) (bound : ReplayBound) (start : Option ℕ) :
    Ledger → Prop where
  | start : Repeated journal bound start ⟨start, []⟩
  | next {l l' : Ledger} {env : Environment} {limit : RunLimit} {calls : List Call}
      (before : Repeated journal bound start l) (ran : Ran journal bound env limit l calls l') :
      Repeated journal bound start l'

/-- The settled events are the first ones of the journal from the start on, up to the stored
position. -/
structure Settled (journal : List Event) (bound : ReplayBound) (start : Option ℕ) (l : Ledger) :
    Prop where
  split : after journal start = l.settled ++ after journal l.position
  within : ∀ event ∈ l.settled, within bound event = true

theorem Settled.settles {l l' : Ledger} {c : Call} (hordered : Ordered journal)
    (h : Settled journal bound start l) (hnext : Next journal c.expected c.event)
    (hwithin : Runner.within bound c.event = true) (hstep : Settles l c l') :
    Settled journal bound start l' := by
  cases hstep with
  | refused _ => exact h
  | committed hexpected =>
      rw [hexpected] at hnext
      constructor
      · rw [List.append_assoc, List.singleton_append, ← after_eq_cons hordered hnext]
        exact h.split
      · intro event hevent
        rcases List.mem_append.mp hevent with hevent | hevent
        · exact h.within event hevent
        · rw [List.mem_singleton.mp hevent]
          exact hwithin

theorem Settled.runs {l l' : Ledger} {calls : List Call} (hordered : Ordered journal)
    (h : Settled journal bound start l) (hruns : Runs Settles l calls l')
    (hcalls : ∀ c ∈ calls, Next journal c.expected c.event ∧ Runner.within bound c.event = true) :
    Settled journal bound start l' := by
  induction hruns with
  | nil => exact h
  | @snoc calls m m' c _ hstep ih =>
      have hc := hcalls c (List.mem_append_right _ (List.mem_singleton_self c))
      exact (ih fun d hd => hcalls d (List.mem_append_left _ hd)).settles hordered hc.1 hc.2 hstep

/-- A run over a faithful source executes the events next after its positions. -/
theorem drive_faithful {checkpoint : Checkpoint} (hordered : Ordered journal)
    (hfaithful : Faithful journal env) (hstart : env.checkpoint = .ok checkpoint) :
    ∃ s result, drive env limit = (s, some result) ∧
      Ended (Next journal) env limit checkpoint s result :=
  drive_spec hstart fun _ _ _ _ hread _ => follows_of_prefix hordered (hfaithful _ _ _ _ hread)

theorem Ran.calls_next {l l' : Ledger} {calls : List Call} (hordered : Ordered journal)
    (h : Ran journal bound env limit l calls l') :
    ∀ c ∈ calls, Next journal c.expected c.event ∧ Runner.within bound c.event = true := by
  intro c hc
  have hmem := h.reached.subset hc
  cases hcheckpoint : env.checkpoint with
  | error e =>
      rw [(drive_error hcheckpoint).1] at hmem
      exact absurd hmem List.not_mem_nil
  | ok checkpoint =>
      obtain ⟨s, result, hdrive, hended⟩ := drive_faithful hordered h.faithful hcheckpoint
      rw [hdrive] at hmem
      refine ⟨hended.related c hmem, ?_⟩
      have hwithin := hended.executed.within c hmem
      rw [h.stored checkpoint hcheckpoint] at hwithin
      exact hwithin

/-- Repeated runs settle the events of the journal in order, without a gap and each one once. -/
theorem Repeated.settled {l : Ledger} (hordered : Ordered journal)
    (h : Repeated journal bound start l) : Settled journal bound start l := by
  induction h with
  | start => exact ⟨rfl, fun _ he => absurd he List.not_mem_nil⟩
  | next _ hran ih => exact ih.runs hordered hran.settles (hran.calls_next hordered)

/-! ### Runs that end -/

/-- Acknowledged calls settle their events and leave the last position behind. -/
theorem settles_all {l l' : Ledger} {calls : List Call} (hruns : Runs Settles l calls l')
    (hcalls : ∀ c ∈ calls, c.acknowledged = true) :
    l'.position = lastPosition l.position calls ∧
      l'.settled.length = l.settled.length + calls.length := by
  induction hruns with
  | nil => exact ⟨rfl, rfl⟩
  | @snoc calls m m' c _ hstep ih =>
      have hm := ih fun d hd => hcalls d (List.mem_append_left _ hd)
      cases hstep with
      | refused hrefused =>
          rw [hcalls c (List.mem_append_right _ (List.mem_singleton_self c))] at hrefused
          cases hrefused
      | committed _ =>
          refine ⟨(lastPosition_snoc _ _ _).symm, ?_⟩
          rw [List.length_append, List.length_append, hm.2, Nat.add_assoc]
          rfl

/-- What a run reports as its end. -/
def Stop.of : Except ErrorKind Stop → Stop
  | .ok stop => stop
  | .error e => .failed e

theorem run_eq {s : Session} {result : Except ErrorKind Stop}
    (h : drive env limit = (s, some result)) :
    run env limit = { s.report with stop := Stop.of result } := by
  unfold run
  rw [h]
  cases result <;> rfl

/-- A run that ends by itself has acknowledged all of its calls, and they moved the position. -/
theorem Ran.ended {l l' : Ledger} {stop : Stop} (hordered : Ordered journal)
    (h : Ran journal bound env limit l (drive env limit).1.calls l')
    (hstop : (run env limit).stop = stop) (hends : ∀ e, stop ≠ .failed e) :
    ∃ s : Session, Ongoing (Next journal) env limit ⟨l.position, bound⟩ s ∧
      Reason env s (.ok stop) ∧ l'.position = s.checkpoint.position ∧
      l'.settled.length = l.settled.length + s.calls.length := by
  cases hcheckpoint : env.checkpoint with
  | error e =>
      have hdrive : drive env limit = ((drive env limit).1, some (.error e)) :=
        Prod.ext rfl (drive_error hcheckpoint).2
      rw [run_eq hdrive] at hstop
      exact absurd hstop.symm (hends e)
  | ok checkpoint =>
      obtain ⟨s, result, hdrive, hended⟩ := drive_faithful hordered h.faithful hcheckpoint
      rw [run_eq hdrive] at hstop
      rw [h.stored checkpoint hcheckpoint] at hended
      have hsettles := h.settles
      rw [hdrive] at hsettles
      cases result with
      | error e => exact absurd hstop.symm (hends e)
      | ok stop' =>
          have hsame : stop' = stop := hstop
          rw [hsame] at hended
          cases hended with
          | between hs hreason =>
              have hall := settles_all hsettles hs.acknowledged
              exact ⟨s, hs, hreason, hall.1.trans hs.position.symm, hall.2⟩

/-- Nothing of the replay is left once its end is reached. -/
theorem after_done {checkpoint : Checkpoint} (h : replayDone checkpoint = true) :
    (after journal checkpoint.position).filter (Runner.within checkpoint.bound) = [] := by
  obtain ⟨position, bound⟩ := checkpoint
  refine List.filter_eq_nil_iff.mpr fun event hevent => ?_
  cases bound with
  | live => cases h
  | through stop =>
      cases stop with
      | none => exact Bool.false_ne_true
      | some stop =>
          cases position with
          | none => cases h
          | some n =>
              have hstop : stop ≤ n := by simpa [replayDone] using h
              have hpast : n < event.position := by
                simpa [after] using (List.mem_filter.mp hevent).2
              simp only [Runner.within, decide_eq_true_eq]
              omega

/-- Having caught up, the runs have settled the journal up to the end of the replay. -/
theorem Repeated.caughtUp {l l' : Ledger} (hordered : Ordered journal)
    (h : Repeated journal bound start l)
    (hran : Ran journal bound env limit l (drive env limit).1.calls l')
    (hcomplete : Complete journal env) (hstop : (run env limit).stop = .caughtUp) :
    l'.settled = (after journal start).filter (Runner.within bound) := by
  have hsettled := (h.next hran).settled hordered
  obtain ⟨s, hs, hreason, hposition, -⟩ := hran.ended hordered hstop fun _ => by simp
  have hnone : (after journal l'.position).filter (Runner.within bound) = [] := by
    rw [hposition]
    rcases hreason with ⟨-, tick, batch, hread⟩ | hdone
    · rw [hcomplete tick _ batch hread, List.filter_nil]
    · have hbound : s.checkpoint.bound = bound := hs.bound
      rw [← hbound]
      exact after_done hdone
  rw [hsettled.split, List.filter_append, hnone, List.append_nil]
  exact (List.filter_eq_self.mpr hsettled.within).symm

/-- A run that ends at its limit has settled as many events. -/
theorem Ran.eventLimit {l l' : Ledger} (hordered : Ordered journal)
    (h : Ran journal bound env limit l (drive env limit).1.calls l')
    (hstop : (run env limit).stop = .eventLimit) :
    l'.settled.length = l.settled.length + limit.events := by
  obtain ⟨s, hs, hreason, -, hlength⟩ := h.ended hordered hstop fun _ => by simp
  have hzero : s.remaining = 0 := hreason
  have hremaining := hs.remaining
  omega

/-! ### Next events only -/

/-- A run ends with a report, having executed the events of validated batches one after another
above its checkpoint and inside its replay. Repeated runs over a journal settle each event once: at
any time the first ones of the journal, a limit's worth more with every run that ends at its limit,
and all of them in the replay once a run has caught up. -/
theorem runs_execute_next (hordered : Ordered journal) (env : Environment) (limit : RunLimit)
    (bound : ReplayBound) (start : Option ℕ) :
    (∀ remaining, remaining ≠ 0 →
      ∃ batch, BatchLimit.new (min remaining limit.batch.val) = .ok batch) ∧
    (∀ e, env.checkpoint = .error e →
      (drive env limit).1.calls = [] ∧ (run env limit).stop = .failed e) ∧
    (∀ checkpoint, env.checkpoint = .ok checkpoint → ∃ s result,
      drive env limit = (s, some result) ∧
      run env limit = { s.report with stop := Stop.of result } ∧
      Executed env limit checkpoint s result ∧
      (checkpoint.bound = .through none → s.calls = [])) ∧
    (∀ l, Repeated journal bound start l → Settled journal bound start l ∧
      ∀ l', Ran journal bound env limit l (drive env limit).1.calls l' →
        ((run env limit).stop = .eventLimit →
          l'.settled.length = l.settled.length + limit.events) ∧
        (Complete journal env → (run env limit).stop = .caughtUp →
          l'.settled = (after journal start).filter (within bound))) := by
  refine ⟨?_, ?_, ?_, ?_⟩
  · intro remaining hremaining
    obtain ⟨batch, hbatch, -⟩ := batchLimit_new (Nat.pos_of_ne_zero hremaining) limit.batch
    exact ⟨batch, hbatch⟩
  · intro e he
    have hdrive : drive env limit = ((drive env limit).1, some (.error e)) :=
      Prod.ext rfl (drive_error he).2
    exact ⟨(drive_error he).1, by rw [run_eq hdrive]; rfl⟩
  · intro checkpoint hcheckpoint
    obtain ⟨s, result, hdrive, hended⟩ :=
      @drive_spec _ limit _ (fun _ _ => True) hcheckpoint
        fun _ _ _ events _ h => h.imp fun _ _ _ => trivial
    refine ⟨s, result, hdrive, run_eq hdrive, hended.executed, fun hnone => ?_⟩
    refine List.eq_nil_iff_forall_not_mem.mpr fun c hc => ?_
    have hwithin := hended.executed.within c hc
    rw [hnone] at hwithin
    cases hwithin
  · intro l hl
    refine ⟨hl.settled hordered, fun l' hran => ⟨hran.eventLimit hordered, ?_⟩⟩
    exact fun hcomplete hstop => hl.caughtUp hordered hran hcomplete hstop

/-- An order placed and paid, of which a source tells one event at a time. -/
def orderScope : SourceScope := ⟨0, "orders"⟩

def orderJournal : List Event :=
  [⟨orderScope, 3, "placed", []⟩, ⟨orderScope, 8, "paid", []⟩]

def orderSource : Environment where
  scope := orderScope
  checkpoint := .ok ⟨none, .live⟩
  check := fun _ => .ok ()
  read := fun _ p batch => .ok ((after orderJournal p).take batch.val)
  execute := fun _ _ _ => .ok .applied

def orderLimit : RunLimit where
  batch := ⟨1, Nat.one_pos, Nat.le_add_left 1 999⟩
  events := 5
  pos := Nat.succ_pos 4
  lt := Nat.lt_of_le_of_lt (Nat.le_add_right 5 0) (by decide)

theorem orderSource_complete : Complete orderJournal orderSource := by
  intro tick p batch hread
  have htake : (after orderJournal p).take batch.val = [] := Except.ok.inj hread
  have hpos := batch.pos
  rcases List.take_eq_nil_iff.mp htake with hzero | hnone
  · omega
  · exact hnone

theorem runs_execute_next_order :
    Ordered orderJournal ∧ ∃ l', Ran orderJournal .live orderSource orderLimit ⟨none, []⟩
      (drive orderSource orderLimit).1.calls l' ∧ l'.settled = orderJournal := by
  have hnext := @runs_execute_next orderJournal (by decide) orderSource orderLimit
    .live none
  have hran : Ran orderJournal .live orderSource orderLimit ⟨none, []⟩
      (drive orderSource orderLimit).1.calls ⟨some 8, orderJournal⟩ := by
    refine ⟨?_, ?_, List.prefix_refl _, ?_⟩
    · intro tick p batch events hread
      rw [← Except.ok.inj hread]
      exact List.take_prefix _ _
    · intro checkpoint hcheckpoint
      exact (Except.ok.inj hcheckpoint).symm
    · exact (Runs.single (.committed rfl)).snoc (.committed rfl)
  refine ⟨by decide, _, hran, ?_⟩
  exact ((hnext.2.2.2 _ .start).2 _ hran).2 orderSource_complete rfl

end Rss.Projection.Runner
