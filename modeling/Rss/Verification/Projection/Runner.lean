import Rss.Library.Fallible
import Rss.Library.Runs
import Rss.Model.Projection.Runner
import Mathlib.Data.List.Infix

/-! # What a run executes

A run calls `execute` with the events of validated batches, one after another above its checkpoint.
Repeated runs over one journal settle each of its events once. -/

namespace Rss.Projection.Runner

variable {env : Environment} {limit : RunLimit} {start : Checkpoint} {s s' : Session}
  {Q : Option ℕ → Event → Prop} {events : List Event} {p : Option ℕ}

/-! ### Validated batches -/

/-- Each event is related to the position before it. -/
inductive Follows (Q : Option ℕ → Event → Prop) : Option ℕ → List Event → Prop where
  | nil (p : Option ℕ) : Follows Q p []
  | cons {p : Option ℕ} {event : Event} {rest : List Event} (head : Q p event)
      (tail : Follows Q (some event.position) rest) : Follows Q p (event :: rest)

theorem Follows.imp {Q' : Option ℕ → Event → Prop} (h : Follows Q p events)
    (hle : ∀ p event, Q p event → Q' p event) : Follows Q' p events := by
  induction h with
  | nil p => exact .nil p
  | cons head _ ih => exact .cons (hle _ _ head) ih

/-- The event is of the source and above the position. -/
def Above (scope : SourceScope) (p : Option ℕ) (event : Event) : Prop :=
  event.source = scope ∧ ∀ n ∈ p, n < event.position

theorem validateEvents_eq_ok {scope : SourceScope} :
    validateEvents scope p events = .ok () ↔ Follows (Above scope) p events := by
  induction events generalizing p with
  | nil => exact iff_of_true rfl (.nil p)
  | cons event rest ih =>
      unfold validateEvents
      constructor
      · intro h
        split at h
        · cases h
        · next hsource =>
            split at h
            · cases h
            · next hpast =>
                refine .cons ⟨not_not.mp hsource, fun n hn => ?_⟩ (ih.mp h)
                rw [Option.mem_def] at hn
                rw [hn] at hpast
                simpa using hpast
      · intro h
        cases h with
        | cons head tail =>
            rw [if_neg (not_not.mpr head.1), if_neg]
            · exact ih.mpr tail
            · cases p with
              | none => exact Bool.false_ne_true
              | some n => simpa using head.2 n rfl

theorem validateBatch_eq_ok {scope : SourceScope} {batch : BatchLimit} :
    validateBatch events scope p batch = .ok () ↔
      events.length ≤ batch.val ∧ Follows (Above scope) p events := by
  unfold validateBatch
  constructor
  · intro h
    split at h
    · cases h
    · next hlength => exact ⟨not_lt.mp hlength, validateEvents_eq_ok.mp h⟩
  · rintro ⟨hlength, hfollows⟩
    rw [if_neg (not_lt.mpr hlength)]
    exact validateEvents_eq_ok.mpr hfollows

/-- The limit of a batch is always one that may be asked for. -/
theorem batchLimit_new {remaining : ℕ} (h : 0 < remaining) (batch : BatchLimit) :
    ∃ b, BatchLimit.new (min remaining batch.val) = .ok b ∧ b.val ≤ remaining := by
  have hpos := batch.pos
  have hle := batch.le
  refine ⟨⟨min remaining batch.val, by omega, by omega⟩, dif_neg (by omega), ?_⟩
  exact Nat.min_le_left _ _

/-- The replay goes as far as the event. -/
def within : ReplayBound → Event → Bool
  | .live, _ => true
  | .through none, _ => false
  | .through (some stop), event => event.position ≤ stop

theorem validateNext_eq_ok {checkpoint : Checkpoint} {event : Event} :
    validateNext checkpoint event = .ok () ↔
      (∀ n ∈ checkpoint.position, n < event.position) ∧ within checkpoint.bound event = true := by
  obtain ⟨position, bound⟩ := checkpoint
  have hpast : position.any (fun p => event.position ≤ p) = false ↔
      ∀ n ∈ position, n < event.position := by
    cases position <;> simp
  unfold validateNext
  rw [← hpast]
  cases hany : position.any (fun p => event.position ≤ p) with
  | true => simp
  | false =>
      cases bound with
      | live => simp [within]
      | through stop =>
          cases stop with
          | none => simp [within]
          | some stop =>
              by_cases hstop : stop < event.position
              · simp [within, hstop]
              · simp [within, hstop, Nat.le_of_not_lt hstop]

/-- An event between the position and the end of the replay is the next one. -/
theorem validateNext_of {checkpoint : Checkpoint} {scope : SourceScope} {event : Event}
    (habove : Above scope checkpoint.position event) (hdone : replayDone checkpoint = false)
    (hbeyond : beyond checkpoint.bound event = false) : validateNext checkpoint event = .ok () := by
  obtain ⟨position, bound⟩ := checkpoint
  refine validateNext_eq_ok.mpr ⟨habove.2, ?_⟩
  cases bound with
  | live => rfl
  | through stop =>
      cases stop with
      | none => cases hdone
      | some stop => simpa [within, beyond] using hbeyond

/-! ### While the run goes on -/

/-- The last position of the calls, or the one before them. -/
def lastPosition (p : Option ℕ) (calls : List Call) : Option ℕ :=
  (calls.getLast?.map (fun c => c.event.position)).or p

theorem lastPosition_snoc (p : Option ℕ) (calls : List Call) (c : Call) :
    lastPosition p (calls ++ [c]) = some c.event.position := by
  unfold lastPosition
  rw [List.getLast?_append_cons, List.getLast?_singleton]
  rfl

/-- The event is of a batch that was read and validated as a whole, and it is the next one. -/
structure Call.Valid (env : Environment) (bound : ReplayBound) (c : Call) : Prop where
  read : ∃ tick, env.read tick c.batch.after c.batch.limit = .ok c.batch.events
  validated : validateBatch c.batch.events env.scope c.batch.after c.batch.limit = .ok ()
  mem : c.event ∈ c.batch.events
  next : validateNext ⟨c.expected, bound⟩ c.event = .ok ()

/-- All calls so far were acknowledged, each from where the one before it left off. -/
structure Ongoing (Q : Option ℕ → Event → Prop) (env : Environment) (limit : RunLimit)
    (start : Checkpoint) (s : Session) : Prop where
  bound : s.checkpoint.bound = start.bound
  acknowledged : ∀ c ∈ s.calls, c.acknowledged = true
  expected : ∀ (before : List Call) (c : Call) (after : List Call), s.calls = before ++ c :: after →
    c.expected = lastPosition start.position before
  position : s.checkpoint.position = lastPosition start.position s.calls
  reported : s.report.position = s.checkpoint.position
  counted : s.report.applied + s.report.duplicates + s.report.filtered = s.calls.length
  remaining : s.remaining + s.calls.length = limit.events
  valid : ∀ c ∈ s.calls, c.Valid env start.bound
  related : ∀ c ∈ s.calls, Q c.expected c.event

/-- Why a run may stop between two calls. -/
def Reason (env : Environment) (s : Session) : Except ErrorKind Stop → Prop
  | .ok .caughtUp => (s.checkpoint.bound = .live ∧
      ∃ tick batch, env.read tick s.checkpoint.position batch = .ok []) ∨
      replayDone s.checkpoint = true
  | .ok .eventLimit => s.remaining = 0
  | .ok (.failed _) => False
  | .error _ => True

/-- A run stops between two calls, or with a call that fails. -/
inductive Ended (Q : Option ℕ → Event → Prop) (env : Environment) (limit : RunLimit)
    (start : Checkpoint) : Session → Except ErrorKind Stop → Prop where
  | between {s : Session} {result : Except ErrorKind Stop} (ongoing : Ongoing Q env limit start s)
      (reason : Reason env s result) : Ended Q env limit start s result
  | failed {s : Session} {batch : Batch} {event : Event} {e : ErrorKind}
      (ongoing : Ongoing Q env limit start s)
      (valid : Call.Valid env start.bound ⟨s.checkpoint.position, event, .error e, batch⟩)
      (related : Q s.checkpoint.position event) :
      Ended Q env limit start (s.call batch event (.error e)) (.error e.uncertain)

theorem split_snoc {α : Type} {calls before after : List α} {c d : α}
    (h : calls ++ [d] = before ++ c :: after) :
    (∃ after', after = after' ++ [d] ∧ calls = before ++ c :: after') ∨
      (after = [] ∧ calls = before ∧ d = c) := by
  rcases List.eq_nil_or_concat after with rfl | ⟨after', last, rfl⟩
  · obtain ⟨hcalls, hlast⟩ := List.append_inj' h rfl
    exact .inr ⟨rfl, hcalls, List.singleton_inj.mp hlast⟩
  · rw [List.concat_eq_append, ← List.cons_append, ← List.append_assoc] at h
    obtain ⟨hcalls, hlast⟩ := List.append_inj' h rfl
    exact .inl ⟨after', by rw [List.concat_eq_append, List.singleton_inj.mp hlast], hcalls⟩

theorem count_sum (r : Report) (outcome : ApplyOutcome) :
    (r.count outcome).applied + (r.count outcome).duplicates + (r.count outcome).filtered =
      r.applied + r.duplicates + r.filtered + 1 := by
  cases outcome <;> simp only [Report.count] <;> omega

/-- An acknowledged call is one more of them. -/
theorem Ongoing.acknowledge {batch : Batch} {event : Event} {outcome : ApplyOutcome}
    (h : Ongoing Q env limit start s) (hpos : 0 < s.remaining)
    (hvalid : Call.Valid env start.bound ⟨s.checkpoint.position, event, .ok outcome, batch⟩)
    (hrelated : Q s.checkpoint.position event) :
    Ongoing Q env limit start ((s.call batch event (.ok outcome)).acknowledge event outcome) where
  bound := h.bound
  acknowledged := by
    intro c hc
    rcases List.mem_append.mp hc with hc | hc
    · exact h.acknowledged c hc
    · rw [List.mem_singleton.mp hc]
      rfl
  expected := by
    intro before c after hsplit
    rcases split_snoc hsplit with ⟨after', -, hcalls⟩ | ⟨-, rfl, rfl⟩
    · exact h.expected before c after' hcalls
    · exact h.position
  position := by
    show some event.position = lastPosition start.position (s.calls ++ [_])
    rw [lastPosition_snoc]
  reported := rfl
  counted := by
    have hcounted := h.counted
    have hsum := count_sum s.report outcome
    show (s.report.count outcome).applied + (s.report.count outcome).duplicates +
      (s.report.count outcome).filtered = (s.calls ++ [_]).length
    rw [List.length_append, List.length_singleton]
    omega
  remaining := by
    have hremaining := h.remaining
    show s.remaining - 1 + (s.calls ++ [_]).length = limit.events
    rw [List.length_append, List.length_singleton]
    omega
  valid := by
    intro c hc
    rcases List.mem_append.mp hc with hc | hc
    · exact h.valid c hc
    · rw [List.mem_singleton.mp hc]
      exact hvalid
  related := by
    intro c hc
    rcases List.mem_append.mp hc with hc | hc
    · exact h.related c hc
    · rw [List.mem_singleton.mp hc]
      exact hrelated

/-! ### The loop -/

/-- What a part of the run reaches: the run goes on and has used so many events at least of those it
had left, or it has ended. -/
inductive Advanced (Q : Option ℕ → Event → Prop) (env : Environment) (limit : RunLimit)
    (start : Checkpoint) (used left : ℕ) : Session × Option (Except ErrorKind Stop) → Prop where
  | on {s : Session} (ongoing : Ongoing Q env limit start s) (remaining : s.remaining + used ≤ left) :
      Advanced Q env limit start used left (s, none)
  | stop {s : Session} {result : Except ErrorKind Stop} (ended : Ended Q env limit start s result) :
      Advanced Q env limit start used left (s, some result)

theorem Ongoing.at_tick (h : Ongoing Q env limit start s) (tick : ℕ) :
    Ongoing Q env limit start { s with tick } where
  bound := h.bound
  acknowledged := h.acknowledged
  expected := h.expected
  position := h.position
  reported := h.reported
  counted := h.counted
  remaining := h.remaining
  valid := h.valid
  related := h.related

theorem Advanced.mono {used left used' left' : ℕ}
    {reached : Session × Option (Except ErrorKind Stop)}
    (h : Advanced Q env limit start used left reached)
    (hle : ∀ n, n + used ≤ left → n + used' ≤ left') :
    Advanced Q env limit start used' left' reached := by
  cases h with
  | on hs hleft => exact .on hs (hle _ hleft)
  | stop hended => exact .stop hended

/-- Every event of a validated batch is executed from where the one before it left off. -/
theorem executeBatch_spec {b : Batch}
    (hread : ∃ tick, env.read tick b.after b.limit = .ok b.events)
    (hvalidated : validateBatch b.events env.scope b.after b.limit = .ok ())
    (hs : Ongoing Q env limit start s) (hmem : ∀ e ∈ events, e ∈ b.events)
    (habove : Follows (Above env.scope) s.checkpoint.position events)
    (hQ : Follows Q s.checkpoint.position events) (hlength : events.length ≤ s.remaining)
    (hdone : replayDone s.checkpoint = false) :
    Advanced Q env limit start events.length s.remaining (executeBatch env b s events) := by
  induction events generalizing s with
  | nil => exact .on hs (Nat.le_refl _)
  | cons event rest ih =>
      cases habove with
      | cons habove hrest =>
          cases hQ with
          | cons hQ hQrest =>
              unfold executeBatch
              rw [List.length_cons] at hlength
              cases hbeyond : beyond s.checkpoint.bound event with
              | true => exact .stop (.between hs trivial)
              | false =>
                  have hnext : validateNext ⟨s.checkpoint.position, start.bound⟩ event = .ok () :=
                    validateNext_of habove (hs.bound ▸ hdone) (hs.bound ▸ hbeyond)
                  have hvalid : ∀ answer, Call.Valid env start.bound
                      ⟨s.checkpoint.position, event, answer, b⟩ := fun _ =>
                    ⟨hread, hvalidated, hmem event List.mem_cons_self, hnext⟩
                  rw [if_neg Bool.false_ne_true]
                  cases env.check s.tick with
                  | error e => exact .stop (.between hs trivial)
                  | ok _ =>
                      cases env.execute (s.tick + 1) s.checkpoint.position event with
                      | error e => exact .stop (.failed hs (hvalid _) hQ)
                      | ok outcome =>
                          have hs' := hs.acknowledge (by omega) (hvalid (.ok outcome)) hQ
                          dsimp only
                          split
                          · next hreached => exact .stop (.between hs' (.inr hreached))
                          · next hreached =>
                              have hadvanced := ih hs'
                                (fun e he => hmem e (List.mem_cons_of_mem _ he)) hrest hQrest
                                (Nat.le_sub_of_add_le hlength) (Bool.not_eq_true _ ▸ hreached)
                              refine hadvanced.mono fun n hn => ?_
                              have hleft : n + rest.length ≤ s.remaining - 1 := hn
                              rw [List.length_cons]
                              omega

theorem emptyStop_reason (hdone : replayDone s.checkpoint = false)
    (hread : ∃ tick batch, env.read tick s.checkpoint.position batch = .ok []) :
    Reason env s (emptyStop s.checkpoint) := by
  unfold emptyStop
  cases hbound : s.checkpoint.bound with
  | live => exact .inl ⟨hbound, hread⟩
  | through stop =>
      cases stop with
      | none =>
          rw [replayDone, hbound] at hdone
          cases hdone
      | some stop =>
          dsimp only
          rw [hdone, if_neg Bool.false_ne_true]
          trivial

/-- A turn ends the run or acknowledges an event. -/
theorem turn_spec
    (hQ : ∀ tick after batch events, env.read tick after batch = .ok events →
      Follows (Above env.scope) after events → Follows Q after events)
    (hs : Ongoing Q env limit start s) :
    Advanced Q env limit start 1 s.remaining (turn env limit s) := by
  unfold turn
  cases env.check s.tick with
  | error e => exact .stop (.between hs trivial)
  | ok _ =>
      dsimp only
      by_cases hzero : s.remaining = 0
      · rw [if_pos hzero]
        exact .stop (.between hs hzero)
      rw [if_neg hzero]
      cases hdone : replayDone s.checkpoint with
      | true => exact .stop (.between hs (.inr hdone))
      | false =>
          rw [if_neg Bool.false_ne_true]
          obtain ⟨batch, hbatch, hle⟩ := batchLimit_new (Nat.pos_of_ne_zero hzero) limit.batch
          rw [hbatch]
          dsimp only
          cases hread : env.read (s.tick + 1) s.checkpoint.position batch with
          | error e => exact .stop (.between hs trivial)
          | ok events =>
              dsimp only
              cases hvalidated : validateBatch events env.scope s.checkpoint.position batch with
              | error e => exact .stop (.between hs trivial)
              | ok _ =>
                  have hfollows := validateBatch_eq_ok.mp hvalidated
                  dsimp only
                  by_cases hempty : events = []
                  · rw [if_pos hempty]
                    exact .stop (.between hs (emptyStop_reason hdone ⟨_, _, hempty ▸ hread⟩))
                  · rw [if_neg hempty]
                    have hlength : 0 < events.length := List.length_pos_iff.mpr hempty
                    have hadvanced := executeBatch_spec
                      (b := ⟨s.checkpoint.position, batch, events⟩) ⟨_, hread⟩ hvalidated
                      (hs.at_tick (s.tick + 2)) (fun _ he => he) hfollows.2
                      (hQ _ _ _ _ hread hfollows.2) (le_trans hfollows.1 hle) hdone
                    exact hadvanced.mono fun n hn => le_trans (Nat.add_le_add_left hlength n) hn

/-- With more turns than events left, the run ends. -/
theorem turns_spec {fuel : ℕ}
    (hQ : ∀ tick after batch events, env.read tick after batch = .ok events →
      Follows (Above env.scope) after events → Follows Q after events)
    (hs : Ongoing Q env limit start s) (hfuel : s.remaining < fuel) :
    ∃ s' result, turns env limit fuel s = (s', some result) ∧
      Ended Q env limit start s' result := by
  induction fuel generalizing s with
  | zero => exact absurd hfuel (Nat.not_lt_zero _)
  | succ fuel ih =>
      unfold turns
      have hturn := turn_spec hQ hs
      generalize turn env limit s = next at hturn
      cases hturn with
      | stop hended => exact ⟨_, _, rfl, hended⟩
      | on hongoing hleft =>
          exact ih hongoing (by omega)

theorem Ongoing.new (env : Environment) (limit : RunLimit) (start : Checkpoint) :
    Ongoing Q env limit start (.new start limit) where
  bound := rfl
  acknowledged := fun c hc => absurd hc List.not_mem_nil
  expected := by
    intro before c after h
    exact absurd h.symm (List.append_ne_nil_of_right_ne_nil before (List.cons_ne_nil c after))
  position := rfl
  reported := rfl
  counted := rfl
  remaining := rfl
  valid := fun c hc => absurd hc List.not_mem_nil
  related := fun c hc => absurd hc List.not_mem_nil

/-- A run without a checkpoint calls nothing. -/
theorem drive_error {e : ErrorKind} (h : env.checkpoint = .error e) :
    (drive env limit).1.calls = [] ∧ (drive env limit).2 = some (.error e) := by
  unfold drive
  rw [h]
  exact ⟨rfl, rfl⟩

/-- The limit of a run is enough turns for it. -/
theorem drive_spec (hstart : env.checkpoint = .ok start)
    (hQ : ∀ tick after batch events, env.read tick after batch = .ok events →
      Follows (Above env.scope) after events → Follows Q after events) :
    ∃ s result, drive env limit = (s, some result) ∧ Ended Q env limit start s result := by
  unfold drive
  rw [hstart]
  exact turns_spec hQ (.new env limit start) (Nat.lt_succ_self _)

/-! ### What a run has executed -/

/-- The calls follow one another strictly upwards above the checkpoint. -/
def Ascending (p : Option ℕ) (calls : List Call) : Prop :=
  (∀ c ∈ calls, ∀ n ∈ p, n < c.event.position) ∧
    calls.Pairwise fun c d => c.event.position < d.event.position

/-- What a run has executed when it ends. -/
structure Executed (env : Environment) (limit : RunLimit) (start : Checkpoint) (s : Session)
    (result : Except ErrorKind Stop) : Prop where
  valid : ∀ c ∈ s.calls, c.Valid env start.bound
  ascending : Ascending start.position s.calls
  within : ∀ c ∈ s.calls, within start.bound c.event = true
  expected : ∀ (before : List Call) (c : Call) (after : List Call), s.calls = before ++ c :: after →
    (∀ b ∈ before, b.acknowledged = true) ∧ c.expected = lastPosition start.position before
  counted : s.report.applied + s.report.duplicates + s.report.filtered =
    s.calls.countP Call.acknowledged
  limited : s.calls.countP Call.acknowledged ≤ limit.events
  position : s.report.position = lastPosition start.position (s.calls.filter Call.acknowledged)
  caughtUp : result = .ok .caughtUp →
    (start.bound = .live ∧ ∃ tick batch, env.read tick s.report.position batch = .ok []) ∨
      replayDone ⟨s.report.position, start.bound⟩ = true
  eventLimit : result = .ok .eventLimit → s.calls.countP Call.acknowledged = limit.events
  failed : ∀ e, result ≠ .ok (.failed e)

theorem Ascending.snoc {calls : List Call} {c : Call} (h : Ascending p calls)
    (hlast : ∀ n ∈ lastPosition p calls, n < c.event.position) : Ascending p (calls ++ [c]) := by
  rcases List.eq_nil_or_concat calls with rfl | ⟨front, d, rfl⟩
  · refine ⟨?_, List.pairwise_singleton _ _⟩
    intro c' hc n hn
    rw [List.mem_singleton.mp hc]
    exact hlast n hn
  · rw [List.concat_eq_append] at h hlast ⊢
    have hd : d.event.position < c.event.position :=
      hlast _ (Option.mem_def.mpr (lastPosition_snoc p front d))
    have hdmem : d ∈ front ++ [d] := List.mem_append_right _ (List.mem_singleton_self d)
    constructor
    · intro c' hc n hn
      rcases List.mem_append.mp hc with hc | hc
      · exact h.1 c' hc n hn
      · rw [List.mem_singleton.mp hc]
        exact lt_trans (h.1 d hdmem n hn) hd
    · refine List.pairwise_append.mpr ⟨h.2, List.pairwise_singleton _ _, ?_⟩
      intro c' hc x hx
      rw [List.mem_singleton.mp hx]
      rcases List.mem_append.mp hc with hc | hc
      · exact lt_trans ((List.pairwise_append.mp h.2).2.2 c' hc d (List.mem_singleton_self d)) hd
      · rw [List.mem_singleton.mp hc]
        exact hd

/-- Calls that each follow the position of the one before ascend. -/
theorem ascending_of {calls : List Call} {bound : ReplayBound}
    (hvalid : ∀ c ∈ calls, c.Valid env bound)
    (hexpected : ∀ (before : List Call) (c : Call) (after : List Call),
      calls = before ++ c :: after → c.expected = lastPosition p before) : Ascending p calls := by
  induction calls using List.reverseRecOn with
  | nil => exact ⟨fun c hc => absurd hc List.not_mem_nil, .nil⟩
  | append_singleton front c ih =>
      have hfront : Ascending p front := by
        refine ih (fun d hd => hvalid d (List.mem_append_left _ hd)) ?_
        intro before d after hsplit
        refine hexpected before d (after ++ [c]) ?_
        rw [hsplit, List.append_assoc, List.cons_append]
      refine hfront.snoc ?_
      have hc := hvalid c (List.mem_append_right _ (List.mem_singleton_self c))
      rw [← hexpected front c [] rfl]
      exact (validateNext_eq_ok.mp hc.next).1

theorem Ongoing.all (h : Ongoing Q env limit start s) :
    s.calls.filter Call.acknowledged = s.calls ∧
      s.calls.countP Call.acknowledged = s.calls.length :=
  ⟨List.filter_eq_self.mpr h.acknowledged, List.countP_eq_length.mpr h.acknowledged⟩

theorem Ongoing.executed {result : Except ErrorKind Stop} (h : Ongoing Q env limit start s)
    (hreason : Reason env s result) : Executed env limit start s result where
  valid := h.valid
  ascending := ascending_of h.valid h.expected
  within := fun c hc => (validateNext_eq_ok.mp (h.valid c hc).next).2
  expected := by
    intro before c after hsplit
    refine ⟨fun b hb => h.acknowledged b ?_, h.expected before c after hsplit⟩
    rw [hsplit]
    exact List.mem_append_left _ hb
  counted := h.counted.trans h.all.2.symm
  limited := by
    rw [h.all.2, ← h.remaining]
    exact Nat.le_add_left _ _
  position := by
    rw [h.all.1, h.reported, h.position]
  caughtUp := by
    intro hcaught
    rw [hcaught] at hreason
    rw [h.reported, ← h.bound]
    exact hreason
  eventLimit := by
    intro hlimit
    rw [hlimit] at hreason
    have hzero : s.remaining = 0 := hreason
    have hremaining := h.remaining
    rw [h.all.2]
    omega
  failed := by
    intro e hfailed
    rw [hfailed] at hreason
    exact hreason

/-- A call that fails after the others leaves what they did. -/
theorem Ongoing.executed_failed {batch : Batch} {event : Event} {e : ErrorKind}
    (h : Ongoing Q env limit start s)
    (hvalid : Call.Valid env start.bound ⟨s.checkpoint.position, event, .error e, batch⟩) :
    Executed env limit start (s.call batch event (.error e)) (.error e.uncertain) := by
  have hvalids : ∀ c ∈ (s.call batch event (.error e)).calls, c.Valid env start.bound := by
    intro c hc
    rcases List.mem_append.mp hc with hc | hc
    · exact h.valid c hc
    · rw [List.mem_singleton.mp hc]
      exact hvalid
  have hexpected : ∀ (before : List Call) (c : Call) (after : List Call),
      (s.call batch event (.error e)).calls = before ++ c :: after →
      (∀ b ∈ before, b.acknowledged = true) ∧ c.expected = lastPosition start.position before := by
    intro before c after hsplit
    rcases split_snoc hsplit with ⟨after', -, hcalls⟩ | ⟨-, hcalls, hc⟩
    · refine ⟨fun b hb => h.acknowledged b ?_, h.expected before c after' hcalls⟩
      rw [hcalls]
      exact List.mem_append_left _ hb
    · rw [← hcalls, ← hc]
      exact ⟨h.acknowledged, h.position⟩
  have hcount : (s.call batch event (.error e)).calls.countP Call.acknowledged =
      s.calls.length := by
    show (s.calls ++ [_]).countP Call.acknowledged = _
    rw [List.countP_append, h.all.2]
    rfl
  have hfilter : (s.call batch event (.error e)).calls.filter Call.acknowledged = s.calls := by
    show (s.calls ++ [_]).filter Call.acknowledged = _
    rw [List.filter_append, h.all.1]
    exact List.append_nil _
  exact {
    valid := hvalids
    ascending := ascending_of hvalids fun before c after hs => (hexpected before c after hs).2
    within := fun c hc => (validateNext_eq_ok.mp (hvalids c hc).next).2
    expected := hexpected
    counted := h.counted.trans hcount.symm
    limited := by
      rw [hcount, ← h.remaining]
      exact Nat.le_add_left _ _
    position := by
      rw [hfilter, ← h.position]
      exact h.reported
    caughtUp := fun hc => by cases hc
    eventLimit := fun hl => by cases hl
    failed := fun _ hf => by cases hf }

theorem Ended.executed {result : Except ErrorKind Stop} (h : Ended Q env limit start s result) :
    Executed env limit start s result := by
  cases h with
  | between hs hreason => exact hs.executed hreason
  | failed hs hvalid _ => exact hs.executed_failed hvalid

theorem Ended.related {result : Except ErrorKind Stop} (h : Ended Q env limit start s result) :
    ∀ c ∈ s.calls, Q c.expected c.event := by
  cases h with
  | between hs _ => exact hs.related
  | failed hs _ hrelated =>
      intro c hc
      rcases List.mem_append.mp hc with hc | hc
      · exact hs.related c hc
      · rw [List.mem_singleton.mp hc]
        exact hrelated

end Rss.Projection.Runner
