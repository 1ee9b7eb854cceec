import Rss.Library.Chronicle
import Rss.Verification.Mqtt.Outstanding

/-! # The authority to settle

A settlement is the only authority over the delivery that it was minted for. What the driver hands
to the client library, what it hears back, and what becomes of settlements that are dropped. -/

namespace Rss.Mqtt

open Rss.Messaging

/-! ### Histories of a handle -/

/-- An acknowledgement was handed over for the handle, which `settle` had asked for. -/
def Acked (log : List Label) (h generation pkid : ℕ) (reason : PubAckReason) (deadline : ℕ) :
    Prop :=
  ∃ before after, log = before ++ .acked h generation pkid reason :: after ∧
    .called h reason deadline ∈ before

/-- That acknowledgement was written on the same connection before the deadline. -/
def Written (log : List Label) (h : ℕ) : Prop :=
  ∃ generation pkid reason deadline time before after,
    log = before ++ .acked h generation pkid reason :: after ∧
      .called h reason deadline ∈ before ∧ .written generation pkid time ∈ after ∧ time < deadline

def Unminted (log : List Label) (h : ℕ) : Prop :=
  ∀ generation pkid, .received h generation pkid ∉ log

def Unacked (log : List Label) (h : ℕ) : Prop :=
  ∀ generation pkid reason, .acked h generation pkid reason ∉ log

/-- What must have happened before a label. -/
def Authorised (before : List Label) : Label → Prop
  | .received h _ _ => Unminted before h
  | .acked h generation pkid reason => .received h generation pkid ∈ before ∧
      (∃ deadline, .called h reason deadline ∈ before) ∧ Unacked before h
  | .written generation pkid _ =>
      ∃ h reason deadline, Acked before h generation pkid reason deadline
  | .settled h (.ok ()) => Written before h
  | _ => True

/-- The label grants something: a receipt, or its acknowledgement. -/
def Label.grants : Label → Bool
  | .received _ _ _ | .acked _ _ _ _ => true
  | _ => false

section

variable {log : List Label} {a : Label} {h generation pkid deadline : ℕ} {reason : PubAckReason}

theorem Acked.snoc (hacked : Acked log h generation pkid reason deadline) (a : Label) :
    Acked (log ++ [a]) h generation pkid reason deadline := by
  obtain ⟨before, after, heq, hcalled⟩ := hacked
  refine ⟨before, after ++ [a], ?_, hcalled⟩
  rw [heq, List.append_assoc, List.cons_append]

theorem Written.snoc (hwritten : Written log h) (a : Label) : Written (log ++ [a]) h := by
  obtain ⟨generation, pkid, reason, deadline, time, before, after, heq, hcalled, hmem, hlt⟩ :=
    hwritten
  refine ⟨generation, pkid, reason, deadline, time, before, after ++ [a], ?_, hcalled,
    List.mem_append_left _ hmem, hlt⟩
  rw [heq, List.append_assoc, List.cons_append]

/-- The acknowledgement is written in time. -/
theorem Acked.written (hacked : Acked log h generation pkid reason deadline) {time : ℕ}
    (hlt : time < deadline) : Written (log ++ [.written generation pkid time]) h := by
  obtain ⟨before, after, heq, hcalled⟩ := hacked
  refine ⟨generation, pkid, reason, deadline, time, before,
    after ++ [.written generation pkid time], ?_, hcalled,
    List.mem_append_right _ (List.mem_singleton_self _), hlt⟩
  rw [heq, List.append_assoc, List.cons_append]

theorem Unminted.snoc (hun : Unminted log h) (ha : ∀ g p, a ≠ .received h g p) :
    Unminted (log ++ [a]) h := by
  intro g p hmem
  rcases List.mem_append.mp hmem with hmem | hmem
  · exact hun g p hmem
  · exact ha g p (List.mem_singleton.mp hmem).symm

theorem Unacked.snoc (hun : Unacked log h) (ha : ∀ g p r, a ≠ .acked h g p r) :
    Unacked (log ++ [a]) h := by
  intro g p r hmem
  rcases List.mem_append.mp hmem with hmem | hmem
  · exact hun g p r hmem
  · exact ha g p r (List.mem_singleton.mp hmem).symm

end

/-! ### The invariant -/

/-- No command was sent for the handle yet. -/
def Stage.isEarly : Stage → Bool
  | .queued | .held | .sending _ _ => true
  | _ => false

/-- The drop of the settlement has raised the retire mark. -/
def Stage.isRetired : Stage → Bool
  | .marked | .abandoned => true
  | _ => false

/-- The handles with a settle command in the queue. -/
def State.settling (s : State) : List ℕ := s.commands.filterMap Command.settles

structure Owned (log : List Label) (s : State) : Prop where
  authorised : Chronicle Authorised log
  bound : s.outstanding.rows.length ≤ s.maxDeliveries
  fresh : ∀ h, s.handles h = none → Unminted log h ∧ Unacked log h
  minted : ∀ h x, s.handles h = some x → .received h x.generation x.pkid ∈ log
  early : ∀ h x, s.handles h = some x → x.stage.isEarly = true → Unacked log h ∧ h ∉ s.settling
  sending : ∀ h x reason deadline, s.handles h = some x → x.stage = .sending reason deadline →
    .called h reason deadline ∈ log
  written : ∀ h x, s.handles h = some x → x.stage = .answered (.ok ()) → Written log h
  commands : ∀ generation pkid reason deadline h,
    .settle generation pkid reason deadline h ∈ s.commands →
      (∃ x, s.handles h = some x ∧ x.stage.isEarly = false) ∧
        .received h generation pkid ∈ log ∧ .called h reason deadline ∈ log ∧ Unacked log h
  once : s.settling.Nodup
  entries : ∀ pkid deadline h, s.outstanding.get? pkid = some (.settling deadline h) →
    ∃ reason, Acked log h s.generation pkid reason deadline
  acks : ∀ ack ∈ s.acks, ∃ h deadline, Acked log h s.generation ack.1 ack.2 deadline
  queued : ∀ h ∈ s.deliveries, ∃ x, s.handles h = some x ∧ x.stage = .queued
  queue : s.deliveries.Nodup
  covered : ∀ h x, s.handles h = some x → x.stage.isRetired = true → x.generation ≤ s.retire
  awake : s.phase = .parked → s.generation ≤ s.retire →
    s.wake = true ∨ ∃ h x, s.handles h = some x ∧ x.stage = .marked

/-- A handle keeps its stage, or loses what it had. -/
def Handle.Still (x y : Handle) : Prop :=
  y.generation = x.generation ∧ y.pkid = x.pkid ∧
    (y.stage = x.stage ∨ y.stage = .dropping ∨ ∃ error, y.stage = .answered (.error error))

section

variable {log : List Label} {s s' : State} {a : Label}

theorem Owned.snoc (h : Owned log s) (ha : Authorised log a) (hgrants : a.grants = false) :
    Owned (log ++ [a]) s := by
  have hminted : ∀ j g p, a ≠ .received j g p := by
    rintro j g p rfl
    cases hgrants
  have hacked : ∀ j g p r, a ≠ .acked j g p r := by
    rintro j g p r rfl
    cases hgrants
  exact {
    authorised := h.authorised.snoc ha
    bound := h.bound
    fresh := fun j hj => ⟨(h.fresh j hj).1.snoc (hminted j), (h.fresh j hj).2.snoc (hacked j)⟩
    minted := fun j x hx => List.mem_append_left _ (h.minted j x hx)
    early := fun j x hx he => ⟨(h.early j x hx he).1.snoc (hacked j), (h.early j x hx he).2⟩
    sending := fun j x r d hx hs => List.mem_append_left _ (h.sending j x r d hx hs)
    written := fun j x hx hs => (h.written j x hx hs).snoc a
    commands := fun g p r d j hmem => by
      obtain ⟨hx, hreceived, hcalled, hun⟩ := h.commands g p r d j hmem
      exact ⟨hx, List.mem_append_left _ hreceived, List.mem_append_left _ hcalled,
        hun.snoc (hacked j)⟩
    once := h.once
    entries := fun p d j he => by
      obtain ⟨reason, hreason⟩ := h.entries p d j he
      exact ⟨reason, hreason.snoc a⟩
    acks := fun ack hmem => by
      obtain ⟨j, d, hj⟩ := h.acks ack hmem
      exact ⟨j, d, hj.snoc a⟩
    queued := h.queued
    queue := h.queue
    covered := h.covered
    awake := h.awake }

/-- What the driver does to handles, the queues and its table, when it grants nothing. -/
theorem Owned.driven (h : Owned log s) {f : ℕ → Handle → Handle}
    (hf : ∀ j x, s.handles j = some x → x.Still (f j x))
    (hhandles : s'.handles = fun j => (s.handles j).map (f j))
    (hcommands : s'.commands.Sublist s.commands)
    (hentries : ∀ p d j, s'.outstanding.get? p = some (.settling d j) →
      s.outstanding.get? p = some (.settling d j) ∧ s'.generation = s.generation)
    (hacks : ∀ ack ∈ s'.acks, ack ∈ s.acks ∧ s'.generation = s.generation)
    (hbound : s'.outstanding.rows.length ≤ s'.maxDeliveries)
    (hdeliveries : s'.deliveries.Sublist s.deliveries)
    (hqueued : ∀ j ∈ s'.deliveries, ∀ x, s.handles j = some x → x.stage = .queued →
      (f j x).stage = .queued)
    (hretire : s.retire ≤ s'.retire) (hphase : s'.phase ≠ .parked) : Owned log s' := by
  have hback : ∀ j y, s'.handles j = some y → ∃ x, s.handles j = some x ∧ f j x = y := by
    intro j y hy
    rw [hhandles] at hy
    exact Option.map_eq_some_iff.mp hy
  have hforth : ∀ j x, s.handles j = some x → s'.handles j = some (f j x) := by
    intro j x hx
    simp only [hhandles, hx, Option.map_some]
  have hsettling : s'.settling.Sublist s.settling := hcommands.filterMap _
  exact {
    authorised := h.authorised
    bound := hbound
    fresh := fun j hj => by
      rw [hhandles] at hj
      exact h.fresh j (Option.map_eq_none_iff.mp hj)
    minted := fun j y hy => by
      obtain ⟨x, hx, rfl⟩ := hback j y hy
      obtain ⟨hg, hp, -⟩ := hf j x hx
      rw [hg, hp]
      exact h.minted j x hx
    early := fun j y hy he => by
      obtain ⟨x, hx, rfl⟩ := hback j y hy
      obtain ⟨-, -, hstage | hstage | ⟨error, hstage⟩⟩ := hf j x hx
      · rw [hstage] at he
        obtain ⟨hun, hnot⟩ := h.early j x hx he
        exact ⟨hun, fun hmem => hnot (hsettling.subset hmem)⟩
      · rw [hstage] at he
        cases he
      · rw [hstage] at he
        cases he
    sending := fun j y r d hy hs => by
      obtain ⟨x, hx, rfl⟩ := hback j y hy
      obtain ⟨-, -, hstage | hstage | ⟨error, hstage⟩⟩ := hf j x hx
      · exact h.sending j x r d hx (hstage.symm.trans hs)
      · cases hstage.symm.trans hs
      · cases hstage.symm.trans hs
    written := fun j y hy hs => by
      obtain ⟨x, hx, rfl⟩ := hback j y hy
      obtain ⟨-, -, hstage | hstage | ⟨error, hstage⟩⟩ := hf j x hx
      · exact h.written j x hx (hstage.symm.trans hs)
      · cases hstage.symm.trans hs
      · cases hstage.symm.trans hs
    commands := fun g p r d j hmem => by
      obtain ⟨⟨x, hx, hnot⟩, hlog⟩ := h.commands g p r d j (hcommands.subset hmem)
      refine ⟨⟨f j x, hforth j x hx, ?_⟩, hlog⟩
      obtain ⟨-, -, hstage | hstage | ⟨error, hstage⟩⟩ := hf j x hx
      · rw [hstage]
        exact hnot
      · rw [hstage]
        rfl
      · rw [hstage]
        rfl
    once := h.once.sublist hsettling
    entries := fun p d j he => by
      obtain ⟨hbefore, hg⟩ := hentries p d j he
      rw [hg]
      exact h.entries p d j hbefore
    acks := fun ack hmem => by
      obtain ⟨hbefore, hg⟩ := hacks ack hmem
      rw [hg]
      exact h.acks ack hbefore
    queued := fun j hmem => by
      obtain ⟨x, hx, hstage⟩ := h.queued j (hdeliveries.subset hmem)
      exact ⟨f j x, hforth j x hx, hqueued j hmem x hx hstage⟩
    queue := h.queue.sublist hdeliveries
    covered := fun j y hy hr => by
      obtain ⟨x, hx, rfl⟩ := hback j y hy
      obtain ⟨hg, -, hstage | hstage | ⟨error, hstage⟩⟩ := hf j x hx
      · rw [hstage] at hr
        rw [hg]
        exact (h.covered j x hx hr).trans hretire
      · rw [hstage] at hr
        cases hr
      · rw [hstage] at hr
        cases hr
    awake := fun hparked => absurd hparked hphase }

theorem still_refl (x : Handle) : x.Still x := ⟨rfl, rfl, .inl rfl⟩

/-- The driver does nothing to the handles. -/
theorem Owned.unheld (h : Owned log s) (hhandles : s'.handles = s.handles)
    (hcommands : s'.commands.Sublist s.commands) (houtstanding : s'.outstanding = s.outstanding)
    (hacks : s'.acks = s.acks) (hgeneration : s'.generation = s.generation)
    (hmax : s'.maxDeliveries = s.maxDeliveries) (hdeliveries : s'.deliveries = s.deliveries)
    (hretire : s.retire ≤ s'.retire) (hphase : s'.phase ≠ .parked) : Owned log s' := by
  refine h.driven (f := fun _ x => x) (fun _ x _ => still_refl x) ?_ hcommands (fun p d j he => ?_)
    (fun ack hmem => ?_) ?_ (hdeliveries ▸ List.Sublist.refl _) (fun _ _ _ _ hs => hs) hretire
    hphase
  · rw [hhandles]
    funext j
    exact Option.map_id'.symm ▸ rfl
  · exact ⟨houtstanding ▸ he, hgeneration⟩
  · exact ⟨hacks ▸ hmem, hgeneration⟩
  · rw [houtstanding, hmax]
    exact h.bound

/-- The driver goes on somewhere else. -/
theorem Owned.moved (h : Owned log s)
    (hsame : (s'.handles, s'.commands, s'.outstanding, s'.acks, s'.deliveries) =
      (s.handles, s.commands, s.outstanding, s.acks, s.deliveries))
    (hnumbers : (s'.generation, s'.maxDeliveries) = (s.generation, s.maxDeliveries))
    (hretire : s.retire ≤ s'.retire) (hphase : s'.phase ≠ .parked) : Owned log s' := by
  simp only [Prod.mk.injEq] at hsame hnumbers
  obtain ⟨hhandles, hcommands, houtstanding, hacks, hdeliveries⟩ := hsame
  obtain ⟨hgeneration, hmax⟩ := hnumbers
  exact h.unheld hhandles (hcommands ▸ List.Sublist.refl _) houtstanding hacks hgeneration hmax
    hdeliveries hretire hphase

/-- A command is taken from the queue. -/
theorem Owned.dequeued (h : Owned log s) {c : Command} {rest : List Command} {phase : Phase}
    (hqueue : s.commands = c :: rest) (hphase : phase ≠ .parked) :
    Owned log { s.dequeue rest with phase } :=
  h.unheld rfl (hqueue ▸ List.sublist_cons_self c rest) rfl rfl rfl rfl rfl le_rfl hphase

/-- What no settlement sees. -/
theorem Owned.undisturbed (h : Owned log s)
    (hsame : (s'.handles, s'.commands, s'.outstanding, s'.acks, s'.deliveries) =
      (s.handles, s.commands, s.outstanding, s.acks, s.deliveries))
    (hnumbers : (s'.generation, s'.maxDeliveries, s'.retire, s'.phase, s'.wake) =
      (s.generation, s.maxDeliveries, s.retire, s.phase, s.wake)) : Owned log s' := by
  cases s
  cases s'
  simp only [Prod.mk.injEq] at hsame hnumbers
  obtain ⟨rfl, rfl, rfl, rfl, rfl⟩ := hsame
  obtain ⟨rfl, rfl, rfl, rfl, rfl⟩ := hnumbers
  exact ⟨h.authorised, h.bound, h.fresh, h.minted, h.early, h.sending, h.written, h.commands,
    h.once, h.entries, h.acks, h.queued, h.queue, h.covered, h.awake⟩

/-- A command is sent. -/
theorem Owned.push (h : Owned log s) (room : ℕ) {c : Command}
    (hc : ∀ g p r d j, c = .settle g p r d j →
      (∃ x, s.handles j = some x ∧ x.stage.isEarly = false) ∧ .received j g p ∈ log ∧
        .called j r d ∈ log ∧ Unacked log j ∧ j ∉ s.settling) :
    Owned log { s with room, commands := s.commands ++ [c] } := by
  have hsettles : ∀ j, c.settles = some j → ∃ g p r d, c = .settle g p r d j := by
    intro j hj
    cases c with
    | settle g p r d response =>
        obtain rfl := Option.some.inj hj
        exact ⟨g, p, r, d, rfl⟩
    | publish call deadline => cases hj
    | shutdown deadline => cases hj
  have hsettling : State.settling { s with room, commands := s.commands ++ [c] } =
      s.settling ++ c.settles.toList := by
    simp only [State.settling, List.filterMap_append]
    cases hcs : c.settles <;> simp [hcs]
  exact {
    authorised := h.authorised
    bound := h.bound
    fresh := h.fresh
    minted := h.minted
    early := fun j x hx he => by
      obtain ⟨hun, hnot⟩ := h.early j x hx he
      refine ⟨hun, fun hmem => ?_⟩
      rw [hsettling] at hmem
      rcases List.mem_append.mp hmem with hmem | hmem
      · exact hnot hmem
      · obtain ⟨g, p, r, d, rfl⟩ := hsettles j (Option.mem_toList.mp hmem)
        obtain ⟨⟨y, hy, hlate⟩, -⟩ := hc g p r d j rfl
        obtain rfl := Option.some.inj (hx.symm.trans hy)
        rw [he] at hlate
        cases hlate
    sending := h.sending
    written := h.written
    commands := fun g p r d j hmem => by
      rcases List.mem_append.mp hmem with hmem | hmem
      · exact h.commands g p r d j hmem
      · obtain ⟨hx, hreceived, hcalled, hun, -⟩ := hc g p r d j (List.mem_singleton.mp hmem).symm
        exact ⟨hx, hreceived, hcalled, hun⟩
    once := by
      rw [hsettling]
      cases hcs : c.settles with
      | none => simpa using h.once
      | some j =>
          obtain ⟨g, p, r, d, rfl⟩ := hsettles j hcs
          have hnot := (hc g p r d j rfl).2.2.2.2
          simp only [Option.toList_some]
          exact List.nodup_append.mpr ⟨h.once, List.nodup_singleton j, fun i hi k hk => by
            rintro rfl
            exact hnot (List.mem_singleton.mp hk ▸ hi)⟩
    entries := h.entries
    acks := h.acks
    queued := h.queued
    queue := h.queue
    covered := h.covered
    awake := h.awake }

/-- A settlement moves on by itself. -/
theorem Owned.setStage (h : Owned log s) {j : ℕ} {x : Handle} {t : Stage}
    (hx : s.handles j = some x) (hearly : t.isEarly = true → x.stage.isEarly = true)
    (hsending : ∀ r d, t = .sending r d → .called j r d ∈ log)
    (hanswered : t = .answered (.ok ()) → Written log j)
    (hcovered : t.isRetired = true → x.generation ≤ s'.retire)
    (hawake : x.stage = .marked → s'.wake = true)
    (hretire : s'.retire = s.retire ∨ s.retire ≤ s'.retire ∧ t = .marked)
    (hwake : s.wake = true → s'.wake = true) (hnot : j ∉ s'.deliveries)
    (hdeliveries : s'.deliveries.Sublist s.deliveries)
    (hsame : (s'.handles, s'.commands, s'.outstanding, s'.acks) =
      ((s.setStage j t).handles, s.commands, s.outstanding, s.acks))
    (hnumbers : (s'.generation, s'.maxDeliveries, s'.phase) =
      (s.generation, s.maxDeliveries, s.phase)) : Owned log s' := by
  simp only [Prod.mk.injEq] at hsame hnumbers
  obtain ⟨hhandles, hcommands, houtstanding, hacks⟩ := hsame
  obtain ⟨hgeneration, hmax, hphase⟩ := hnumbers
  have hself : s'.handles j = some { x with stage := t } := by
    rw [hhandles]
    simp [State.setStage, State.mapHandles, hx]
  have hother : ∀ i, i ≠ j → s'.handles i = s.handles i := by
    intro i hi
    rw [hhandles]
    simp [State.setStage, State.mapHandles, hi]
  -- Every handle but one is what it was.
  have hback : ∀ i y, s'.handles i = some y →
      i = j ∧ y = { x with stage := t } ∨ i ≠ j ∧ s.handles i = some y := by
    intro i y hy
    by_cases hi : i = j
    · subst hi
      exact .inl ⟨rfl, Option.some.inj (hy.symm.trans hself)⟩
    · exact .inr ⟨hi, (hother i hi).symm.trans hy⟩
  have hsettling : s'.settling = s.settling := by rw [State.settling, hcommands, State.settling]
  exact {
    authorised := h.authorised
    bound := by
      rw [houtstanding, hmax]
      exact h.bound
    fresh := fun i hi => by
      by_cases hij : i = j
      · rw [hij, hself] at hi
        cases hi
      · exact h.fresh i ((hother i hij).symm.trans hi)
    minted := fun i y hy => by
      rcases hback i y hy with ⟨rfl, rfl⟩ | ⟨-, hy⟩
      · exact h.minted i x hx
      · exact h.minted i y hy
    early := fun i y hy he => by
      rw [hsettling]
      rcases hback i y hy with ⟨rfl, rfl⟩ | ⟨-, hy⟩
      · exact h.early i x hx (hearly he)
      · exact h.early i y hy he
    sending := fun i y r d hy hs => by
      rcases hback i y hy with ⟨rfl, rfl⟩ | ⟨-, hy⟩
      · exact hsending r d hs
      · exact h.sending i y r d hy hs
    written := fun i y hy hs => by
      rcases hback i y hy with ⟨rfl, rfl⟩ | ⟨-, hy⟩
      · exact hanswered hs
      · exact h.written i y hy hs
    commands := fun g p r d i hmem => by
      rw [hcommands] at hmem
      obtain ⟨⟨y, hy, hlate⟩, hlog⟩ := h.commands g p r d i hmem
      refine ⟨?_, hlog⟩
      by_cases hi : i = j
      · subst hi
        obtain rfl := Option.some.inj (hx.symm.trans hy)
        refine ⟨_, hself, Bool.eq_false_iff.mpr fun he => ?_⟩
        rw [hearly he] at hlate
        cases hlate
      · exact ⟨y, (hother i hi).trans hy, hlate⟩
    once := hsettling ▸ h.once
    entries := fun p d i he => by
      rw [hgeneration]
      exact h.entries p d i (houtstanding ▸ he)
    acks := fun ack hmem => by
      rw [hgeneration]
      exact h.acks ack (hacks ▸ hmem)
    queued := fun i hmem => by
      obtain ⟨y, hy, hstage⟩ := h.queued i (hdeliveries.subset hmem)
      exact ⟨y, (hother i fun hi => hnot (hi ▸ hmem)).trans hy, hstage⟩
    queue := h.queue.sublist hdeliveries
    covered := fun i y hy hr => by
      rcases hback i y hy with ⟨rfl, rfl⟩ | ⟨-, hy⟩
      · exact hcovered hr
      · refine (h.covered i y hy hr).trans ?_
        rcases hretire with heq | ⟨hle, -⟩
        · exact heq.ge
        · exact hle
    awake := fun hparked hdue => by
      rcases hretire with heq | ⟨-, rfl⟩
      · rw [heq, hgeneration] at hdue
        rcases h.awake (hphase ▸ hparked) hdue with hpermit | ⟨i, y, hy, hmarked⟩
        · exact .inl (hwake hpermit)
        · by_cases hi : i = j
          · subst hi
            obtain rfl := Option.some.inj (hx.symm.trans hy)
            exact .inl (hawake hmarked)
          · exact .inr ⟨i, y, (hother i hi).trans hy, hmarked⟩
      · exact .inr ⟨j, _, hself, rfl⟩ }

/-- A settlement that is not in the delivery queue. -/
theorem Owned.notMem (h : Owned log s) {j : ℕ} {x : Handle} (hx : s.handles j = some x)
    (hstage : x.stage ≠ .queued) : j ∉ s.deliveries := by
  intro hmem
  obtain ⟨y, hy, hqueued⟩ := h.queued j hmem
  obtain rfl := Option.some.inj (hx.symm.trans hy)
  exact hstage hqueued

theorem Owned.head (h : Owned log s) {j : ℕ} {x : Handle} {rest : List ℕ}
    (hqueue : s.deliveries = j :: rest) (hx : s.handles j = some x) :
    x.stage = .queued ∧ j ∉ rest ∧ rest.Sublist s.deliveries := by
  obtain ⟨y, hy, hqueued⟩ := h.queued j (hqueue ▸ List.mem_cons_self)
  obtain rfl := Option.some.inj (hx.symm.trans hy)
  exact ⟨hqueued, (List.nodup_cons.mp (hqueue ▸ h.queue)).1,
    hqueue ▸ List.sublist_cons_self j rest⟩

/-- A settlement is given up where it is. -/
theorem Owned.drops (h : Owned log s) {j : ℕ} {x : Handle} {t : Stage}
    (hx : s.handles j = some x) (hqueued : x.stage ≠ .queued) (hmarked : x.stage ≠ .marked)
    (ht : t = .dropping ∨ t = .decided) : Owned log (s.setStage j t) := by
  refine h.setStage hx ?_ ?_ ?_ ?_ (fun hm => absurd hm hmarked) (.inl rfl) id
    (h.notMem hx hqueued) (List.Sublist.refl _) rfl rfl
  · rcases ht with rfl | rfl <;> exact fun he => by cases he
  · rcases ht with rfl | rfl <;> exact fun r d hs => by cases hs
  · rcases ht with rfl | rfl <;> exact fun hs => by cases hs
  · rcases ht with rfl | rfl <;> exact fun hr => by cases hr

theorem Owned.settlementStep (h : Owned log s) (hstep : SettlementStep s a s') :
    Owned (log ++ [a]) s' := by
  cases hstep with
  | @next j rest x queue handle current =>
      obtain ⟨hqueued, hnot, hsub⟩ := h.head queue handle
      refine (h.snoc (a := .quiet) trivial rfl).setStage (t := .held) handle (fun _ => ?_)
        (fun _ _ hs => by cases hs) (fun hs => by cases hs) (fun hr => by cases hr)
        (fun hm => by cases hqueued.symm.trans hm) (.inl rfl) id hnot hsub rfl rfl
      rw [hqueued]
      rfl
  | @skip j rest x queue handle stale =>
      obtain ⟨hqueued, hnot, hsub⟩ := h.head queue handle
      exact (h.snoc (a := .quiet) trivial rfl).setStage (t := .dropping) handle
        (fun he => by cases he) (fun _ _ hs => by cases hs) (fun hs => by cases hs)
        (fun hr => by cases hr) (fun hm => by cases hqueued.symm.trans hm) (.inl rfl) id hnot hsub
        rfl rfl
  | @settle j x handle stage current running reason deadline =>
      refine (h.snoc (a := .called j reason deadline) trivial rfl).setStage
        (t := .sending reason deadline) handle (fun _ => ?_) (fun r d hs => ?_)
        (fun hs => by cases hs) (fun hr => by cases hr) (fun hm => by cases stage.symm.trans hm)
        (.inl rfl) id (h.notMem handle fun hq => by cases stage.symm.trans hq)
        (List.Sublist.refl _) rfl rfl
      · rw [stage]
        rfl
      · obtain ⟨rfl, rfl⟩ := Stage.sending.inj hs
        exact List.mem_append_right _ (List.mem_singleton_self _)
  | @refuse j x handle stage error refused =>
      exact (h.snoc (a := .settled j (.error error)) trivial rfl).drops handle
        (fun hq => by cases stage.symm.trans hq) (fun hm => by cases stage.symm.trans hm) (.inl rfl)
  | @send j x reason deadline handle stage space running =>
      have hquiet := h.snoc (a := .quiet) trivial rfl
      obtain ⟨hun, hnot⟩ := hquiet.early j x handle (by rw [stage]; rfl)
      have hwaiting : Owned (log ++ [Label.quiet]) (s.setStage j (.waiting deadline)) :=
        hquiet.setStage (t := .waiting deadline) handle (fun he => by cases he)
          (fun _ _ hs => by cases hs) (fun hs => by cases hs) (fun hr => by cases hr)
          (fun hm => by cases stage.symm.trans hm) (.inl rfl) id
          (h.notMem handle fun hq => by cases stage.symm.trans hq)
          (List.Sublist.refl _) rfl rfl
      refine hwaiting.push (s.room - 1) (fun g p r d i heq => ?_)
      obtain ⟨rfl, rfl, rfl, rfl, rfl⟩ := Command.settle.inj heq
      refine ⟨⟨{ x with stage := .waiting deadline }, ?_, rfl⟩, hquiet.minted j x handle,
        hquiet.sending j x reason deadline handle stage, hun, hnot⟩
      simp [State.setStage, State.mapHandles, handle]
  | @sendClosed j x reason deadline handle stage stopped =>
      exact (h.snoc (a := .settled j (.error .closed)) trivial rfl).drops handle
        (fun hq => by cases stage.symm.trans hq) (fun hm => by cases stage.symm.trans hm) (.inl rfl)
  | @expire j x deadline handle stage =>
      refine (h.snoc (a := .settled j (.error .settlementUnknown)) trivial rfl).drops handle
        ?_ ?_ (.inl rfl)
      · rcases stage with ⟨reason, hs⟩ | hs
        · exact fun hq => by cases hs.symm.trans hq
        · exact fun hq => by cases hs.symm.trans hq
      · rcases stage with ⟨reason, hs⟩ | hs
        · exact fun hm => by cases hs.symm.trans hm
        · exact fun hm => by cases hs.symm.trans hm
  | @conclude j x result handle stage =>
      have hauthorised : Authorised log (.settled j result) := by
        cases result with
        | ok u => exact h.written j x handle stage
        | error error => trivial
      refine (h.snoc hauthorised rfl).drops handle (fun hq => by cases stage.symm.trans hq)
        (fun hm => by cases stage.symm.trans hm) ?_
      cases result with
      | ok u => exact .inr rfl
      | error error => cases error <;> first | exact .inl rfl | exact .inr rfl
  | @abandon j x handle stage =>
      refine (h.snoc (a := .quiet) trivial rfl).drops handle ?_ ?_ (.inl rfl)
      · intro hq
        rw [hq] at stage
        cases stage
      · intro hm
        rw [hm] at stage
        cases stage
  | @mark j x handle stage =>
      exact (h.snoc (a := .quiet) trivial rfl).setStage (t := .marked) handle
        (fun he => by cases he) (fun _ _ hs => by cases hs) (fun hs => by cases hs)
        (fun _ => le_max_right _ _) (fun hm => by cases stage.symm.trans hm)
        (.inr ⟨le_max_left _ _, rfl⟩) id (h.notMem handle fun hq => by cases stage.symm.trans hq)
        (List.Sublist.refl _) rfl rfl
  | @notify j x handle stage =>
      refine (h.snoc (a := .quiet) trivial rfl).setStage (t := .abandoned) handle
        (fun he => by cases he) (fun _ _ hs => by cases hs) (fun hs => by cases hs)
        (fun _ => h.covered j x handle ?_) (fun _ => rfl) (.inl rfl) (fun _ => rfl)
        (h.notMem handle fun hq => by cases stage.symm.trans hq) (List.Sublist.refl _) rfl rfl
      rw [stage]
      rfl

/-! ### The driver -/

theorem Handle.Still.trans {x y z : Handle} (h : x.Still y) (h' : y.Still z) : x.Still z := by
  obtain ⟨hg, hp, hstage⟩ := h
  obtain ⟨hg', hp', hstage'⟩ := h'
  refine ⟨hg'.trans hg, hp'.trans hp, ?_⟩
  rcases hstage' with hsame | hlost
  · rw [hsame]
    exact hstage
  · exact .inr hlost

theorem still_answer (x : Handle) (error : MqttError) : x.Still (x.answer (.error error)) := by
  unfold Handle.answer
  split
  · exact ⟨rfl, rfl, .inr (.inr ⟨error, rfl⟩)⟩
  · exact still_refl x

theorem answer_of_queued {x : Handle} (h : x.stage = .queued) (result : Except MqttError Unit) :
    x.answer result = x := by
  unfold Handle.answer
  rw [h]

/-- The handles after `drain`. -/
theorem drain_handles (s : State) : ∃ f : ℕ → Handle → Handle, (∀ j (x : Handle), x.Still (f j x)) ∧
    (∀ j (x : Handle), x.stage = .queued → (f j x).stage = .queued) ∧
    s.drain.handles = fun j => (s.handles j).map (f j) := by
  refine ⟨_, fun j x => ?_, fun j x hq => ?_, rfl⟩
  · split
    · exact still_answer x _
    · exact still_refl x
  · split
    · rw [answer_of_queued hq]
      exact hq
    · exact hq

/-- A retired generation takes everything with it that was not with the application. -/
theorem retireGeneration_handles (s : State) : ∃ f : ℕ → Handle → Handle,
    (∀ j (x : Handle), x.Still (f j x)) ∧
    (∀ j ∈ s.retireGeneration.deliveries, ∀ x : Handle, x.stage = .queued →
      (f j x).stage = .queued) ∧
    s.retireGeneration.handles = (fun j => (s.handles j).map (f j)) ∧
    s.retireGeneration.deliveries.Sublist s.deliveries ∧
    s.retireGeneration.outstanding = .empty ∧ s.retireGeneration.acks = [] := by
  rcases s.retireGeneration_cases with ⟨generation, -, heq⟩ | heq
  · obtain ⟨f, hstill, -, hhandles⟩ :=
      drain_handles ({ s with generation } : State).clearDeliveries
    refine ⟨fun j x => f j (if j ∈ s.deliveries then { x with stage := .dropping } else x),
      fun j x => ?_, fun j hmem => ?_, ?_, ?_, ?_, ?_⟩
    · refine Handle.Still.trans ?_ (hstill j _)
      split
      · exact ⟨rfl, rfl, .inr (.inl rfl)⟩
      · exact still_refl x
    · rw [heq] at hmem
      cases hmem
    · rw [heq]
      refine hhandles.trans (funext fun j => ?_)
      exact Option.map_map _ _ _
    · rw [heq]
      exact List.nil_sublist _
    · rw [heq]
      rfl
    · rw [heq]
  · obtain ⟨f, hstill, hqueued, hhandles⟩ := drain_handles { s with cancelled := true }
    refine ⟨f, hstill, fun j _ x hq => hqueued j x hq, ?_, ?_, ?_, ?_⟩
    · rw [heq]
      exact hhandles
    · rw [heq]
      exact List.Sublist.refl _
    · rw [heq]
      rfl
    · rw [heq]

theorem retireGeneration_rest (s : State) :
    s.retireGeneration.commands = s.commands ∧ s.retireGeneration.retire = s.retire ∧
      s.retireGeneration.maxDeliveries = s.maxDeliveries := by
  rcases s.retireGeneration_cases with ⟨generation, -, heq⟩ | heq
  · rw [heq]
    exact ⟨rfl, rfl, rfl⟩
  · rw [heq]
    exact ⟨rfl, rfl, rfl⟩

/-- The driver retires the generation and goes on somewhere else. -/
theorem Owned.retired (h : Owned log s)
    (hsame : (s'.handles, s'.outstanding, s'.acks, s'.deliveries) =
      (s.retireGeneration.handles, s.retireGeneration.outstanding, s.retireGeneration.acks,
        s.retireGeneration.deliveries))
    (hcommands : s'.commands.Sublist s.commands)
    (hnumbers : (s'.maxDeliveries, s'.retire) =
      (s.retireGeneration.maxDeliveries, s.retireGeneration.retire))
    (hphase : s'.phase ≠ .parked) : Owned log s' := by
  simp only [Prod.mk.injEq] at hsame hnumbers
  obtain ⟨hhandles, houtstanding, hacks, hdeliveries⟩ := hsame
  obtain ⟨hmax, hretire⟩ := hnumbers
  obtain ⟨f, hstill, hqueued, hf, hsub, hnone, hempty⟩ := retireGeneration_handles s
  obtain ⟨-, hretire', hmax'⟩ := retireGeneration_rest s
  refine h.driven (f := f) (fun j x _ => hstill j x) (hhandles.trans hf) hcommands
    (fun p d j he => ?_) (fun ack hmem => ?_) ?_ ?_ (fun j hmem x _ hq => ?_) ?_ hphase
  · rw [houtstanding, hnone] at he
    cases he
  · rw [hacks, hempty] at hmem
    cases hmem
  · rw [houtstanding, hnone]
    exact Nat.zero_le _
  · rw [hdeliveries]
    exact hsub
  · exact hqueued j (hdeliveries ▸ hmem) x hq
  · rw [hretire, hretire']

theorem Owned.top (h : Owned log s) : Owned log { s with phase := .top } :=
  h.moved rfl rfl le_rfl (fun hp => by cases hp)

theorem retireGeneration_top (s : State) :
    ({ s with phase := .top } : State).retireGeneration =
      { s.retireGeneration with phase := .top } := by
  unfold State.retireGeneration State.invalidate
  cases checkedAdd 64 s.generation 1 <;> rfl

/-- The subscription is checked after a poll. -/
theorem Owned.inspect (h : Owned log { s with phase := .top }) (notice : State.Subscribed) :
    Owned log (s.inspect notice) := by
  rcases s.inspect_cases notice with ⟨connection, subscription, phase, hphase, heq⟩ | ⟨error, heq⟩
  · rw [heq]
    refine h.moved rfl rfl le_rfl (fun hp => ?_)
    rcases hphase with rfl | rfl
    · cases hp
    · cases hp
  · rw [heq]
    refine h.retired ?_ ?_ ?_ (fun hp => by cases hp)
    · rw [retireGeneration_top]
      rfl
    · exact (retireGeneration_rest s).1 ▸ List.Sublist.refl _
    · rw [retireGeneration_top]
      rfl

/-- A receipt mints its handle. -/
theorem Owned.mint (h : Owned log s) {fresh pkid : ℕ} (hfresh : s.handles fresh = none)
    (hnone : s.outstanding.get? pkid = none)
    (hroom : s.outstanding.rows.length < s.maxDeliveries) :
    Owned (log ++ [.received fresh s.generation pkid]) { s with
      deliveries := s.deliveries ++ [fresh]
      handles := fun j => if j = fresh then some ⟨s.generation, pkid, .queued⟩ else s.handles j
      outstanding := s.outstanding.insertNew pkid .delivered
      phase := .top } := by
  obtain ⟨hunminted, hunacked⟩ := h.fresh fresh hfresh
  have hacked : ∀ j g p r, Label.received fresh s.generation pkid ≠ .acked j g p r :=
    fun _ _ _ _ heq => by cases heq
  have hne : ∀ j x, s.handles j = some x → j ≠ fresh := by
    rintro j x hx rfl
    rw [hfresh] at hx
    cases hx
  have hback : ∀ j y, (if j = fresh then some (⟨s.generation, pkid, .queued⟩ : Handle)
      else s.handles j) = some y →
        j = fresh ∧ y = ⟨s.generation, pkid, .queued⟩ ∨ s.handles j = some y := by
    intro j y hy
    by_cases hj : j = fresh
    · rw [if_pos hj] at hy
      exact .inl ⟨hj, (Option.some.inj hy).symm⟩
    · rw [if_neg hj] at hy
      exact .inr hy
  have hforth : ∀ j x, s.handles j = some x →
      (if j = fresh then some (⟨s.generation, pkid, .queued⟩ : Handle) else s.handles j) =
        some x := by
    intro j x hx
    rw [if_neg (hne j x hx)]
    exact hx
  have hunsettled : fresh ∉ s.settling := by
    intro hmem
    obtain ⟨c, hc, hsettles⟩ := List.mem_filterMap.mp hmem
    cases c with
    | settle g p r d response =>
        obtain rfl := Option.some.inj hsettles
        obtain ⟨⟨x, hx, -⟩, -⟩ := h.commands g p r d response hc
        exact hne response x hx rfl
    | publish call deadline => cases hsettles
    | shutdown deadline => cases hsettles
  exact {
    authorised := h.authorised.snoc hunminted
    bound := by
      rw [Table.rows_insertNew hnone, List.length_append, List.length_singleton]
      exact hroom
    fresh := fun j hj => by
      have hjf : j ≠ fresh := by
        rintro rfl
        simp at hj
      have hj' : s.handles j = none := by simpa [hjf] using hj
      refine ⟨(h.fresh j hj').1.snoc fun g p heq => ?_, (h.fresh j hj').2.snoc (hacked j)⟩
      exact hjf (Label.received.inj heq).1.symm
    minted := fun j y hy => by
      rcases hback j y hy with ⟨rfl, rfl⟩ | hy
      · exact List.mem_append_right _ (List.mem_singleton_self _)
      · exact List.mem_append_left _ (h.minted j y hy)
    early := fun j y hy he => by
      rcases hback j y hy with ⟨rfl, rfl⟩ | hy
      · exact ⟨hunacked.snoc (hacked j), hunsettled⟩
      · exact ⟨(h.early j y hy he).1.snoc (hacked j), (h.early j y hy he).2⟩
    sending := fun j y r d hy hs => by
      rcases hback j y hy with ⟨rfl, rfl⟩ | hy
      · cases hs
      · exact List.mem_append_left _ (h.sending j y r d hy hs)
    written := fun j y hy hs => by
      rcases hback j y hy with ⟨rfl, rfl⟩ | hy
      · cases hs
      · exact (h.written j y hy hs).snoc _
    commands := fun g p r d j hmem => by
      obtain ⟨⟨x, hx, hlate⟩, hreceived, hcalled, hun⟩ := h.commands g p r d j hmem
      exact ⟨⟨x, hforth j x hx, hlate⟩, List.mem_append_left _ hreceived,
        List.mem_append_left _ hcalled, hun.snoc (hacked j)⟩
    once := h.once
    entries := fun p d j he => by
      by_cases hp : p = pkid
      · rw [Table.get?_insertNew, if_pos hp, hnone] at he
        cases he
      · rw [Table.get?_insertNew, if_neg hp] at he
        obtain ⟨reason, hreason⟩ := h.entries p d j he
        exact ⟨reason, hreason.snoc _⟩
    acks := fun ack hmem => by
      obtain ⟨j, d, hj⟩ := h.acks ack hmem
      exact ⟨j, d, hj.snoc _⟩
    queued := fun j hmem => by
      rcases List.mem_append.mp hmem with hmem | hmem
      · obtain ⟨x, hx, hstage⟩ := h.queued j hmem
        exact ⟨x, hforth j x hx, hstage⟩
      · exact ⟨_, if_pos (List.mem_singleton.mp hmem), rfl⟩
    queue := List.nodup_append.mpr ⟨h.queue, List.nodup_singleton fresh, fun i hi k hk => by
      rintro rfl
      obtain ⟨x, hx, -⟩ := h.queued i hi
      exact hne i x hx (List.mem_singleton.mp hk)⟩
    covered := fun j y hy hr => by
      rcases hback j y hy with ⟨rfl, rfl⟩ | hy
      · cases hr
      · exact h.covered j y hy hr
    awake := fun hparked => by cases hparked }

/-- A response changes the handle that waits for it, and nothing else. -/
theorem respond_cases (s : State) (j : ℕ) (result : Except MqttError Unit) :
    (∃ x deadline, s.handles j = some x ∧ x.stage = .waiting deadline ∧
      (s.respond j result).handles = (s.setStage j (.answered result)).handles) ∨
    (s.respond j result).handles = s.handles := by
  by_cases hwaiting : ∃ x deadline, s.handles j = some x ∧ x.stage = .waiting deadline
  · obtain ⟨x, deadline, hx, hstage⟩ := hwaiting
    refine .inl ⟨x, deadline, hx, hstage, funext fun i => ?_⟩
    simp only [State.respond, State.setStage, State.mapHandles]
    by_cases hi : i = j
    · subst hi
      simp [hx, Handle.answer, hstage]
    · simp [hi]
  · refine .inr (funext fun i => ?_)
    simp only [State.respond, State.mapHandles]
    by_cases hi : i = j
    · subst hi
      cases hx : s.handles i with
      | none => rfl
      | some x =>
          have hsame : x.answer result = x := by
            unfold Handle.answer
            split
            · rename_i deadline hstage
              exact absurd ⟨x, deadline, hx, hstage⟩ hwaiting
            · rfl
          simp [hsame]
    · simp [hi]

theorem Owned.respond (h : Owned log s) {j : ℕ} {result : Except MqttError Unit}
    (hresult : result = .ok () → Written log j) : Owned log (s.respond j result) := by
  rcases respond_cases s j result with ⟨x, deadline, hx, hstage, hhandles⟩ | hhandles
  · refine h.setStage (t := .answered result) hx (fun he => by cases he) (fun _ _ hs => by cases hs)
      (fun hs => hresult (Stage.answered.inj hs)) (fun hr => by cases hr)
      (fun hm => by cases hstage.symm.trans hm) (.inl rfl) id
      (h.notMem hx fun hq => by cases hstage.symm.trans hq) (List.Sublist.refl _) ?_ rfl
    rw [hhandles]
    rfl
  · refine h.undisturbed ?_ rfl
    rw [hhandles]
    rfl

/-- An acknowledgement is written. -/
theorem Owned.acknowledge (h : Owned log s) {pkid : ℕ} {reason : PubAckReason}
    (hheld : (pkid, reason) ∈ s.acks) :
    Owned (log ++ [.written s.generation pkid s.now])
      { s.acknowledge pkid with phase := .top } := by
  obtain ⟨owner, deadline, hacked⟩ := h.acks _ hheld
  have hwritten : Owned (log ++ [.written s.generation pkid s.now]) s :=
    h.snoc ⟨owner, reason, deadline, hacked⟩ rfl
  have hremoved : Owned (log ++ [.written s.generation pkid s.now]) { s with
      outstanding := s.outstanding.delete (fun p => p = pkid)
      acks := s.acks.eraseP (fun ack => ack.1 = pkid)
      phase := .top } := by
    refine hwritten.driven (f := fun _ x => x) (fun _ x _ => still_refl x) ?_ (List.Sublist.refl _)
      (fun p d j he => ?_) (fun ack hmem => ⟨List.mem_of_mem_eraseP hmem, rfl⟩) ?_
      (List.Sublist.refl _) (fun _ _ _ _ hs => hs) le_rfl (fun hp => by cases hp)
    · funext j
      exact Option.map_id'.symm ▸ rfl
    · rw [Table.get?_delete] at he
      split at he
      · cases he
      · exact ⟨he, rfl⟩
    · exact (List.length_filter_le _ _).trans h.bound
  unfold State.acknowledge
  cases hentry : s.outstanding.get? pkid with
  | none => exact hremoved
  | some entry =>
      cases entry with
      | delivered => exact hremoved
      | settling deadline' response =>
          obtain ⟨reason', hacked'⟩ := h.entries pkid deadline' response hentry
          by_cases hlate : deadline' ≤ s.now
          · simp only [hlate, if_true]
            refine Owned.respond (s := State.abandon { s with
              outstanding := s.outstanding.delete (fun p => p = pkid)
              acks := s.acks.eraseP (fun ack => ack.1 = pkid)
              phase := .top } s.generation) ?_ (fun hr => by cases hr)
            exact hremoved.moved rfl rfl (le_max_left _ _) (fun hp => by cases hp)
          · simp only [hlate, if_false]
            exact hremoved.respond (fun _ => hacked'.written (Nat.lt_of_not_le hlate))

/-- An acknowledgement is handed to the client library. -/
theorem Owned.ack (h : Owned log s) {pkid deadline j : ℕ} {reason : PubAckReason}
    {rest : List Command}
    (hqueue : s.commands = .settle s.generation pkid reason deadline j :: rest)
    (hentry : s.outstanding.get? pkid = some .delivered) :
    Owned (log ++ [.acked j s.generation pkid reason]) { s.dequeue rest with
      outstanding := s.outstanding.upsert pkid (.settling deadline j)
        (fun _ => .settling deadline j)
      acks := s.acks ++ [(pkid, reason)]
      phase := .top } := by
  obtain ⟨⟨x, hx, hlate⟩, hreceived, hcalled, hunacked⟩ :=
    h.commands s.generation pkid reason deadline j (hqueue ▸ List.mem_cons_self)
  have hsettling : s.settling = j :: rest.filterMap Command.settles := by
    rw [State.settling, hqueue]
    rfl
  have hnodup := List.nodup_cons.mp (hsettling ▸ h.once)
  have hrest : ∀ c ∈ rest, c ∈ s.commands := fun c hc => hqueue ▸ List.mem_cons_of_mem _ hc
  have hreceived' : ∀ i g p, Label.acked j s.generation pkid reason ≠ .received i g p :=
    fun _ _ _ heq => by cases heq
  have hother : ∀ i, i ≠ j → ∀ g p r, Label.acked j s.generation pkid reason ≠ .acked i g p r :=
    fun i hi g p r heq => hi (Label.acked.inj heq).1.symm
  have hnew : Acked (log ++ [.acked j s.generation pkid reason]) j s.generation pkid reason
      deadline := ⟨log, [], rfl, hcalled⟩
  exact {
    authorised := h.authorised.snoc ⟨hreceived, ⟨deadline, hcalled⟩, hunacked⟩
    bound := by
      have hsome : (s.outstanding.get? pkid).isSome = true := by rw [hentry]; rfl
      simp only [Table.upsert, hsome, if_true, Table.modify, Table.update, List.length_map]
      exact h.bound
    fresh := fun i hi => by
      have hij : i ≠ j := by
        rintro rfl
        cases hi.symm.trans hx
      exact ⟨(h.fresh i hi).1.snoc (hreceived' i), (h.fresh i hi).2.snoc (hother i hij)⟩
    minted := fun i y hy => List.mem_append_left _ (h.minted i y hy)
    early := fun i y hy he => by
      have hij : i ≠ j := by
        rintro rfl
        obtain rfl := Option.some.inj (hx.symm.trans hy)
        cases hlate.symm.trans he
      obtain ⟨hun, hnot⟩ := h.early i y hy he
      refine ⟨hun.snoc (hother i hij), fun hmem => hnot ?_⟩
      rw [hsettling]
      exact List.mem_cons_of_mem _ hmem
    sending := fun i y r d hy hs => List.mem_append_left _ (h.sending i y r d hy hs)
    written := fun i y hy hs => (h.written i y hy hs).snoc _
    commands := fun g p r d i hmem => by
      obtain ⟨hy, hreceived, hcalled, hun⟩ := h.commands g p r d i (hrest _ hmem)
      have hij : i ≠ j := by
        rintro rfl
        exact hnodup.1 (List.mem_filterMap.mpr ⟨_, hmem, rfl⟩)
      exact ⟨hy, List.mem_append_left _ hreceived, List.mem_append_left _ hcalled,
        hun.snoc (hother i hij)⟩
    once := hnodup.2
    entries := fun p d i he => by
      rw [Table.get?_upsert_const] at he
      by_cases hp : p = pkid
      · rw [if_pos hp] at he
        obtain ⟨rfl, rfl⟩ := DeliveryState.settling.inj (Option.some.inj he)
        exact ⟨reason, hp ▸ hnew⟩
      · rw [if_neg hp] at he
        obtain ⟨reason', hacked⟩ := h.entries p d i he
        exact ⟨reason', hacked.snoc _⟩
    acks := fun ack hmem => by
      rcases List.mem_append.mp hmem with hmem | hmem
      · obtain ⟨i, d, hacked⟩ := h.acks ack hmem
        exact ⟨i, d, hacked.snoc _⟩
      · obtain rfl := List.mem_singleton.mp hmem
        exact ⟨j, deadline, hnew⟩
    queued := h.queued
    queue := h.queue
    covered := h.covered
    awake := fun hparked => by cases hparked }

/-- The loop goes on behind a command. -/
theorem Owned.resume (h : Owned log { s with phase := .top }) : Owned log s.resume := by
  unfold State.resume
  split
  · exact h
  · rename_i hphase
    exact h.moved rfl rfl le_rfl hphase

/-- A settle command is carried out. -/
theorem Owned.settled (h : Owned log s) {generation pkid deadline j : ℕ} {reason : PubAckReason}
    {rest : List Command}
    (hqueue : s.commands = .settle generation pkid reason deadline j :: rest) (accepts : Bool) :
    Owned (log ++ [s.submission generation pkid reason deadline j accepts])
      ((s.dequeue rest).handleSettle generation pkid reason deadline j accepts).resume := by
  refine Owned.resume ?_
  have hsubmit : (s.dequeue rest).submitSettlement generation pkid deadline accepts =
      s.submitSettlement generation pkid deadline accepts := rfl
  unfold State.submission State.handleSettle
  rw [hsubmit]
  cases hresult : s.submitSettlement generation pkid deadline accepts with
  | ok u =>
      obtain ⟨rfl, hentry⟩ := submitSettlement_eq_ok hresult
      exact h.ack hqueue hentry
  | error error =>
      have hdequeued : Owned (log ++ [Label.quiet]) { s.dequeue rest with phase := .top } :=
        (h.snoc (a := .quiet) trivial rfl).dequeued hqueue (fun hp => by cases hp)
      exact hdequeued.respond (fun hr => by cases hr)

/-- The driver gives up. -/
theorem Owned.failed (h : Owned log s) (error : MqttError) :
    Owned log { s.fail error with phase := .ended } :=
  h.moved rfl rfl le_rfl (fun hp => by cases hp)

theorem Owned.handleEvent (h : Owned log s) {fresh : ℕ} {event : State.Event}
    (hfresh : s.handles fresh = none)
    (hheld : ∀ pkid, event = .pubAckWritten pkid → ∃ reason, (pkid, reason) ∈ s.acks)
    (notice : State.Subscribed) :
    Owned (log ++ [s.observation fresh event]) (s.handleEvent fresh event notice) := by
  have hquiet : Owned (log ++ [Label.quiet]) s := h.snoc (a := .quiet) trivial rfl
  cases event with
  | connAck sessionPresent tracked =>
      unfold State.handleEvent State.event
      by_cases hsubscribes : s.subscribes = true
      · cases tracked with
        | true =>
            simp only [hsubscribes, Bool.not_true, Bool.false_eq_true, if_false, if_true]
            refine Owned.inspect ?_ notice
            exact hquiet.moved rfl rfl le_rfl (fun hp => by cases hp)
        | false =>
            simp only [hsubscribes, Bool.not_true, Bool.false_eq_true, if_false]
            exact hquiet.failed _
      · simp only [hsubscribes, Bool.not_false, if_true]
        refine Owned.inspect ?_ notice
        exact hquiet.moved rfl rfl le_rfl (fun hp => by cases hp)
  | publish atLeastOnce pkid =>
      unfold State.handleEvent State.event State.receive State.observation
      cases atLeastOnce with
      | false => exact hquiet.failed _
      | true =>
          cases hentry : s.outstanding.get? pkid with
          | some entry =>
              simp only [hentry, Option.isSome_some, Option.isNone_some, Bool.not_true,
                Bool.and_false, Bool.false_and, Bool.false_eq_true, if_false, if_true]
              refine Owned.inspect ?_ notice
              exact hquiet.moved rfl rfl le_rfl (fun hp => by cases hp)
          | none =>
              by_cases hroom : s.outstanding.rows.length < s.maxDeliveries
              · simp only [hentry, hroom, Nat.not_le.mpr hroom, Bool.not_true, Bool.false_eq_true,
                  if_false, Option.isSome_none, Option.isNone_none, Bool.and_true, decide_true,
                  if_true]
                exact (h.mint hfresh hentry hroom).inspect notice
              · simp only [hentry, hroom, Nat.le_of_not_lt hroom, Bool.not_true, Bool.false_eq_true,
                  if_false, Option.isSome_none, decide_false, Bool.and_false, if_true]
                exact hquiet.failed _
  | pubAckReceived reason =>
      unfold State.handleEvent State.event
      by_cases hin : reason = .packetIdentifierInUse
      · simp only [hin, if_true]
        refine Owned.inspect ?_ notice
        exact hquiet.moved rfl rfl (le_max_left _ _) (fun hp => by cases hp)
      · simp only [hin, if_false]
        refine Owned.inspect ?_ notice
        exact hquiet.moved rfl rfl le_rfl (fun hp => by cases hp)
  | pubAckWritten pkid =>
      obtain ⟨reason, hmem⟩ := hheld pkid rfl
      exact (h.acknowledge hmem).inspect notice
  | other =>
      refine Owned.inspect ?_ notice
      exact hquiet.moved rfl rfl le_rfl (fun hp => by cases hp)

theorem Owned.takePublish (h : Owned log s) {k deadline : ℕ} {rest : List Command}
    (hqueue : s.commands = .publish k deadline :: rest) :
    Owned log ((s.dequeue rest).takePublish k deadline) := by
  by_cases hqueued : (s.dequeue rest).stageOf k = some .queued
  · rw [takePublish_queued hqueued]
    exact h.dequeued hqueue (fun hp => by cases hp)
  · rw [takePublish_gone hqueued]
    refine Owned.resume ?_
    exact h.dequeued hqueue (fun hp => by cases hp)

/-- The driver retires its generation from wherever it is. -/
theorem Owned.beginShutdown (h : Owned log { s with phase := .top }) :
    Owned log s.beginShutdown := by
  refine h.retired ?_ ?_ ?_ (fun hp => by cases hp)
  · rw [retireGeneration_top]
    rfl
  · exact (retireGeneration_rest s).1 ▸ List.Sublist.refl _
  · rw [retireGeneration_top]
    rfl

theorem Owned.finish (h : Owned log s) : Owned log s.finish := by
  have hclosing : Owned log { s with closing := true, phase := .top } :=
    h.moved rfl rfl le_rfl (fun hp => by cases hp)
  have hretired := Owned.beginShutdown (s := { s with closing := true }) hclosing
  exact hretired.driven (f := fun _ x => x.answer (.error .settlementUnknown))
    (fun _ x _ => still_answer x _) rfl (List.nil_sublist _) (fun _ _ _ he => ⟨he, rfl⟩)
    (fun _ hmem => ⟨hmem, rfl⟩) hretired.bound (List.Sublist.refl _)
    (fun _ _ x _ hq => by rw [answer_of_queued hq]; exact hq) le_rfl (fun hp => by cases hp)

theorem Owned.respondPublish (h : Owned log s) (k : ℕ) (reconnecting : Bool)
    (result : CallStage) : Owned log (s.respondPublish k reconnecting result) := by
  refine h.moved rfl rfl le_rfl (fun hp => ?_)
  cases reconnecting <;> cases hp

theorem Owned.checkPublish (h : Owned log s) (refusal : Option (PublishOutcome Unit))
    (passed : Admission) (k deadline : ℕ) (reconnecting : Bool) :
    Owned log (s.checkPublish refusal passed k deadline reconnecting) := by
  cases refusal with
  | some outcome => exact h.respondPublish k reconnecting _
  | none => exact h.moved rfl rfl le_rfl (fun hp => by cases hp)

theorem Owned.driverStep (h : Owned log s) (hstep : DriverStep s a s') :
    Owned (log ++ [a]) s' := by
  have hquiet : Owned (log ++ [Label.quiet]) s := h.snoc (a := .quiet) trivial rfl
  have hsub : s.retireGeneration.commands.Sublist s.commands := by
    rw [(retireGeneration_rest s).1]
  cases hstep with
  | park top current =>
      exact ⟨hquiet.authorised, hquiet.bound, hquiet.fresh, hquiet.minted, hquiet.early,
        hquiet.sending, hquiet.written, hquiet.commands, hquiet.once, hquiet.entries, hquiet.acks,
        hquiet.queued, hquiet.queue, hquiet.covered,
        fun _ hdue => absurd hdue (Nat.not_le.mpr current)⟩
  | retire top due => exact hquiet.retired rfl hsub rfl (fun hp => by cases hp)
  | wake parked running permit =>
      exact hquiet.moved rfl rfl le_rfl (fun hp => by cases hp)
  | timer parked running wait => exact hquiet.retired rfl hsub rfl (fun hp => by cases hp)
  | poll parked running unused held notice => exact h.handleEvent unused held notice
  | lose parked running cause retryable =>
      cases retryable with
      | true => exact hquiet.retired rfl hsub rfl (fun hp => by cases hp)
      | false => exact hquiet.retired rfl hsub rfl (fun hp => by cases hp)
  | retry waiting running =>
      exact hquiet.moved rfl rfl le_rfl (fun hp => by cases hp)
  | stop awaits cancelled =>
      exact hquiet.moved rfl rfl le_rfl (fun hp => by cases hp)
  | settle awaits running queue accepts => exact h.settled queue accepts
  | take awaits running queue => exact hquiet.takePublish queue
  | checkOpen publishing => exact hquiet.checkPublish _ _ _ _ _
  | checkDeadline publishing => exact hquiet.checkPublish _ _ _ _ _
  | @hand k deadline reconnecting publishing answer =>
      have hlabel : Owned (log ++ [State.publication k answer]) s := by
        cases answer with
        | none => exact h.snoc (a := .submitted k) trivial rfl
        | some error => exact hquiet
      exact hlabel.respondPublish k reconnecting _
  | @shutdown deadline rest awaits running queue =>
      refine Owned.beginShutdown ?_
      exact hquiet.dequeued queue (fun hp => by cases hp)
  | farewell closing result =>
      cases result <;> exact hquiet.moved rfl rfl le_rfl (fun hp => by cases hp)
  | finish gone => exact hquiet.finish

/-! ### Runs -/

theorem Owned.callStep (h : Owned log s) (hstep : CallStep s a s') : Owned (log ++ [a]) s' := by
  have hlabel : Owned (log ++ [a]) s := by
    cases hstep <;> exact h.snoc trivial rfl
  cases hstep with
  | @send k cutoff call space open_ running early =>
      have hqueued : Owned (log ++ [Label.quiet]) (s.setCallStage k .queued) :=
        hlabel.undisturbed rfl rfl
      exact hqueued.push (s.room - 1) (fun _ _ _ _ _ heq => by cases heq)
  | _ => exact hlabel.undisturbed rfl rfl

theorem Owned.ownerStep (h : Owned log s) (hstep : OwnerStep s s') :
    Owned (log ++ [Label.quiet]) s' := by
  have hquiet : Owned (log ++ [Label.quiet]) s := h.snoc (a := .quiet) trivial rfl
  cases hstep with
  | shutdown closing space running deadline =>
      exact hquiet.push (s.room - 1) (fun _ _ _ _ _ heq => by cases heq)
  | _ => exact hquiet.undisturbed rfl rfl

theorem Owned.step (h : Owned log s) (hstep : Step s a s') : Owned (log ++ [a]) s' := by
  cases hstep with
  | settlement step => exact h.settlementStep step
  | call step => exact h.callStep step
  | driver step => exact h.driverStep step
  | owner step => exact h.ownerStep step

theorem owned_start (maxDeliveries room : ℕ) (subscribes : Bool) :
    Owned [] (State.start maxDeliveries subscribes room) where
  authorised := .nil
  bound := Nat.zero_le _
  fresh := fun _ _ => by constructor <;> simp [Unminted, Unacked]
  minted := fun _ _ hx => by cases hx
  early := fun _ _ hx => by cases hx
  sending := fun _ _ _ _ hx => by cases hx
  written := fun _ _ hx => by cases hx
  commands := fun _ _ _ _ _ hmem => by cases hmem
  once := List.nodup_nil
  entries := fun _ _ _ he => by cases he
  acks := fun _ hmem => by cases hmem
  queued := fun _ hmem => by cases hmem
  queue := List.nodup_nil
  covered := fun _ _ hx => by cases hx
  awake := fun hparked => by cases hparked

theorem owned_of_runs {maxDeliveries room : ℕ} {subscribes : Bool}
    (h : Runs Step (State.start maxDeliveries subscribes room) log s) : Owned log s :=
  h.invariant (owned_start maxDeliveries room subscribes)
    (fun _ _ _ _ _ howned hstep => howned.step hstep)

/-- In every run, an acknowledgement is handed to the client library only for a handle that was
minted on the same connection for that packet, after `settle` asked for it with that reason, and
once; `settle` succeeds only after it was written there before the deadline. The driver never holds
more deliveries than it may. The generation of a settlement that was dropped is under the retire
mark, and a driver that sleeps over a due retirement has its wake-up coming. -/
theorem settlements_authorised {maxDeliveries room : ℕ} {subscribes : Bool}
    (h : Runs Step (State.start maxDeliveries subscribes room) log s) :
    Chronicle Authorised log ∧ s.outstanding.rows.length ≤ s.maxDeliveries ∧
      (∀ j x, s.handles j = some x → x.stage = .abandoned → x.generation ≤ s.retire) ∧
      (s.phase = .parked → s.generation ≤ s.retire →
        s.wake = true ∨ ∃ j x, s.handles j = some x ∧ x.stage = .marked) := by
  have howned := owned_of_runs h
  refine ⟨howned.authorised, howned.bound, fun j x hx hstage => ?_, howned.awake⟩
  exact howned.covered j x hx (by rw [hstage]; rfl)

end

/-- One delivery, settled. -/
def settledRun : List Label :=
  [.quiet, .received 0 1 7, .quiet, .called 0 .success 9, .quiet, .quiet, .acked 0 1 7 .success,
    .quiet, .written 1 7 0, .settled 0 (.ok ())]

theorem settledRun_runs : ∃ s, Runs Step (State.start 1 false 1) settledRun s := by
  have h₁ := Runs.single (Step.driver (.park (s := State.start 1 false 1) rfl (by decide)))
  have h₂ := h₁.snoc (.driver (@DriverStep.poll _ 0 (.publish true 7) rfl rfl rfl
    (fun _ h => by cases h) .pending))
  have h₃ := h₂.snoc (.settlement (@SettlementStep.next _ 0 [] ⟨1, 7, .queued⟩ rfl rfl rfl))
  have h₄ := h₃.snoc (.settlement (@SettlementStep.settle _ 0 ⟨1, 7, .held⟩ rfl rfl rfl rfl
    .success 9))
  have h₅ := h₄.snoc (.settlement (@SettlementStep.send _ 0 ⟨1, 7, .sending .success 9⟩ .success 9
    rfl rfl (by decide) (by decide)))
  have h₆ := h₅.snoc (.driver (.park rfl (by decide)))
  have h₇ := h₆.snoc (.driver (@DriverStep.settle _ 1 7 9 0 .success [] (.inl rfl) rfl rfl true))
  have h₈ := h₇.snoc (.driver (.park rfl (by decide)))
  have h₉ := h₈.snoc (.driver (@DriverStep.poll _ 1 (.pubAckWritten 7) rfl rfl rfl
    (fun _ h => State.Event.pubAckWritten.inj h ▸ ⟨.success, List.mem_singleton_self _⟩) .pending))
  have h₁₀ := h₉.snoc (.settlement (@SettlementStep.conclude _ 0 ⟨1, 7, .answered (.ok ())⟩
    (.ok ()) rfl rfl))
  exact ⟨_, h₁₀⟩

/-- One delivery, dropped while the driver sleeps. -/
def droppedRun : List Label := [.quiet, .received 0 1 7, .quiet, .quiet, .quiet, .quiet]

theorem droppedRun_runs : ∃ s s', Runs Step (State.start 1 false 1) droppedRun s ∧
    s.phase = .parked ∧ s.generation ≤ s.retire ∧
    Runs Step (State.start 1 false 1) (droppedRun ++ [Label.quiet]) s' ∧
    s'.handles 0 = some ⟨1, 7, .abandoned⟩ := by
  have h₁ := Runs.single (Step.driver (.park (s := State.start 1 false 1) rfl (by decide)))
  have h₂ := h₁.snoc (.driver (@DriverStep.poll _ 0 (.publish true 7) rfl rfl rfl
    (fun _ h => by cases h) .pending))
  have h₃ := h₂.snoc (.settlement (@SettlementStep.next _ 0 [] ⟨1, 7, .queued⟩ rfl rfl rfl))
  have h₄ := h₃.snoc (.driver (.park rfl (by decide)))
  have h₅ := h₄.snoc (.settlement (@SettlementStep.abandon _ 0 ⟨1, 7, .held⟩ rfl rfl))
  have h₆ := h₅.snoc (.settlement (@SettlementStep.mark _ 0 ⟨1, 7, .dropping⟩ rfl rfl))
  have h₇ := h₆.snoc (.settlement (@SettlementStep.notify _ 0 ⟨1, 7, .marked⟩ rfl rfl))
  exact ⟨_, _, h₆, rfl, by decide, h₇, rfl⟩

/-- A delivery is settled; another is dropped, which wakes the driver. -/
theorem settlements_authorised_settled : Chronicle Authorised settledRun ∧
    ∃ s s', Runs Step (State.start 1 false 1) droppedRun s ∧
      (s.wake = true ∨ ∃ j x, s.handles j = some x ∧ x.stage = .marked) ∧
      Runs Step (State.start 1 false 1) (droppedRun ++ [Label.quiet]) s' ∧ 1 ≤ s'.retire := by
  obtain ⟨s, hs⟩ := settledRun_runs
  obtain ⟨t, t', ht, hparked, hdue, ht', habandoned⟩ := droppedRun_runs
  exact ⟨(settlements_authorised hs).1, t, t', ht,
    (settlements_authorised ht).2.2.2 hparked hdue, ht',
    (settlements_authorised ht').2.2.1 0 _ habandoned rfl⟩

end Rss.Mqtt
