import Rss.Model.Amqp.Publish
import Rss.Verification.Amqp.Generations
import Mathlib.Logic.Relation

/-! # Publish outcomes on a shared channel

An attempt is told it was not published only when the broker can no longer accept its message,
provided that no close of the channel for another message's error overtakes an acceptance. -/

namespace Rss.Amqp

open Rss.Messaging

/-! ### What is decided -/

section

variable {canBeRecovered : ClientError → Bool}

theorem decision_unsent {f : AttemptFailure} (h : f.unsent = true) :
    ∃ kind, f.outcome canBeRecovered = .definitelyNotPublished (f.diagnostic kind) := by
  cases f with
  | client generation phase source =>
      cases phase with
      | preSend =>
          simp only [AttemptFailure.outcome, AttemptFailure.decision, decideClientFailure,
            ne_eq, not_true_eq_false, decide_false, Bool.false_and, Bool.false_eq_true, if_false]
          cases isTransportLifecycleLost source || isProtocolClose source <;> exact ⟨_, rfl⟩
      | _ => cases h
  | expiredAdmission => exact ⟨_, rfl⟩
  | encoding => exact ⟨_, rfl⟩
  | admission e => exact ⟨_, rfl⟩
  | _ => cases h

/-- After the message was handed over, exactly the lost transports are ambiguous. -/
theorem decision_sent (generation : ℕ) {phase : PublishPhase} (h : phase ≠ .preSend)
    (e : ClientError) :
    (isTransportLifecycleLost e = true ∧
      (AttemptFailure.client generation phase e).decision canBeRecovered =
        .retireAmbiguous generation) ∨
    (isTransportLifecycleLost e = false ∧
      ∃ kind, (AttemptFailure.client generation phase e).outcome canBeRecovered =
        .definitelyNotPublished
          ((AttemptFailure.client generation phase e).diagnostic kind)) := by
  cases hlost : isTransportLifecycleLost e with
  | true => exact .inl ⟨rfl, by simp [AttemptFailure.decision, decideClientFailure, h, hlost]⟩
  | false =>
      refine .inr ⟨rfl, ?_⟩
      simp only [AttemptFailure.outcome, AttemptFailure.decision, decideClientFailure, hlost,
        Bool.and_false, Bool.false_or, Bool.false_eq_true, if_false]
      cases isProtocolClose e <;> exact ⟨_, rfl⟩

/-! ### Retired generations -/

/-- The generation is behind the slot. -/
def State.Past (s : State) (g : ℕ) : Prop := WithTop.some (2 * g) < s.gate.slot.rank

theorem State.Past.not_ready {s : State} {g : ℕ} (h : s.Past g) (c a : ℕ) :
    s.gate.slot ≠ .ready g c a := by
  intro heq
  rw [State.Past, heq] at h
  exact lt_irrefl _ h

theorem retireTransport_move (s : State) (g : ℕ) :
    s.gate.slot.rank ≤ (s.retireTransport g).gate.slot.rank :=
  (Step.retire g).move.rank_le

/-- Whoever retires a generation the slot has reached leaves it behind. -/
theorem retireTransport_past {s : State} {g : ℕ}
    (h : WithTop.some (2 * g) ≤ s.gate.slot.rank) : (s.retireTransport g).Past g := by
  rcases s.retireTransport_cases g with ⟨c, a, hslot, heq⟩ | ⟨hother, heq⟩
  · rw [State.Past, heq, State.spawn_gate]
    exact WithTop.coe_lt_coe.mpr (Nat.lt_succ_self _)
  · rw [State.Past, heq]
    refine lt_of_le_of_ne h (fun hrank => ?_)
    cases hslot : s.gate.slot with
    | ready g' c a =>
        rw [hslot] at hrank
        have : 2 * g = 2 * g' := WithTop.coe_inj.mp hrank
        obtain rfl : g = g' := by omega
        exact hother c a hslot
    | recovering g' r =>
        rw [hslot] at hrank
        have : 2 * g = 2 * g' + 1 := WithTop.coe_inj.mp hrank
        omega
    | unavailable g' =>
        rw [hslot] at hrank
        have : 2 * g = 2 * g' + 1 := WithTop.coe_inj.mp hrank
        omega
    | shuttingDown r =>
        rw [hslot] at hrank
        exact WithTop.coe_ne_top hrank

theorem snapshot_rank {s t : State} {generation c a : ℕ}
    (h : s.transportSnapshot = (.ok (generation, c, a), t)) :
    WithTop.some (2 * generation) ≤ s.gate.slot.rank := by
  rcases s.transportSnapshot_cases with ⟨g, c', a', w, hslot, -, heq⟩ | ⟨g, -, heq⟩ | ⟨e, heq⟩
  · rw [heq] at h
    cases h
    rw [hslot]
    exact le_refl _
  · rw [heq] at h
    cases h
  · rw [heq] at h
    cases h

/-! ### The invariant -/

namespace Publishing

/-- The broker has refused the message, or can no longer accept it. -/
def Unacceptable (s : Publishing) (i : ℕ) : Prop :=
  s.fate i = .refused ∨ s.fate i = .open_ ∧ ∀ h, s.handed i = some h → ¬ s.Receives h

/-- What is known of an attempt. -/
def Sound (s : Publishing) (i : ℕ) : Option Attempt → Prop
  | none => s.handed i = none ∧ s.fate i ≠ .accepted
  | some .waiting => ∃ h, s.handed i = some h ∧
      (h.late = true → ∃ e, s.closed h.transport = some e) ∧
      (h.late = false → ∀ e, s.closed h.transport = some e → isTransportLifecycleLost e = false →
        s.Unacceptable i)
  | some (.ended _ (.definitelyNotPublished _)) => s.Unacceptable i
  | some (.ended ending (.confirmed _)) => s.fate i = .accepted ∧
      ∃ h time, s.handed i = some h ∧ ending = .confirmed time ∧ time < h.cutoff
  | some (.ended _ (.ambiguous _)) | some .dropped =>
      ∃ h, s.handed i = some h ∧ s.transport.Past h.generation

structure Inv (s : Publishing) : Prop where
  sound : ∀ i, s.Sound i (s.attempts i)
  reached : ∀ i h, s.handed i = some h →
    WithTop.some (2 * h.generation) ≤ s.transport.gate.slot.rank

/-- Nothing the broker or the transport do takes a message back. -/
structure Later (s s' : Publishing) (i : ℕ) : Prop where
  handed : s'.handed i = s.handed i
  fate : s.fate i ≠ .open_ → s'.fate i = s.fate i
  opened : s.fate i = .open_ → s'.fate i = .accepted → ∃ h, s.handed i = some h ∧ s.Receives h
  closed : ∀ c e, s.closed c = some e → s'.closed c = some e
  rank : s.transport.gate.slot.rank ≤ s'.transport.gate.slot.rank

theorem Unacceptable.later {s s' : Publishing} {i : ℕ} (h : s.Unacceptable i)
    (hl : Later s s' i) : s'.Unacceptable i := by
  rcases h with hrefused | ⟨hopen, hnot⟩
  · exact .inl ((hl.fate (by rw [hrefused]; simp)).trans hrefused)
  · cases hfate : s'.fate i with
    | refused => exact .inl hfate
    | accepted =>
        obtain ⟨h, hh, hreceives⟩ := hl.opened hopen hfate
        exact absurd hreceives (hnot h hh)
    | open_ =>
        refine .inr ⟨hfate, fun h hh hreceives => hnot h (hl.handed ▸ hh) ⟨hreceives.1, ?_⟩⟩
        exact fun e he => hreceives.2 e (hl.closed _ e he)

/-- An attempt that does not move stays sound, if the close that overtakes it spares it. -/
theorem Sound.later {s s' : Publishing} {i : ℕ} {a : Option Attempt} (h : s.Sound i a)
    (hl : Later s s' i)
    (hspared : a = some .waiting → ∀ h e, s.handed i = some h → h.late = false →
      s.closed h.transport = none → s'.closed h.transport = some e →
      isTransportLifecycleLost e = false → s'.Unacceptable i) : s'.Sound i a := by
  match a with
  | none =>
      refine ⟨hl.handed.trans h.1, fun haccepted => ?_⟩
      by_cases hopen : s.fate i = .open_
      · obtain ⟨h', hh, -⟩ := hl.opened hopen haccepted
        rw [h.1] at hh
        cases hh
      · exact h.2 ((hl.fate hopen).symm.trans haccepted)
  | some .waiting =>
      obtain ⟨h', hh, hlate, hdue⟩ := h
      refine ⟨h', hl.handed.trans hh, fun hl' => ?_, fun hl' e he hlost => ?_⟩
      · obtain ⟨e, he⟩ := hlate hl'
        exact ⟨e, hl.closed _ e he⟩
      · cases hc : s.closed h'.transport with
        | none => exact hspared rfl h' e hh hl' hc he hlost
        | some e' =>
            obtain rfl := Option.some.inj ((hl.closed _ e' hc).symm.trans he)
            exact (hdue hl' e' hc hlost).later hl
  | some (.ended ending (.definitelyNotPublished f)) => exact Unacceptable.later h hl
  | some (.ended ending (.confirmed r)) =>
      obtain ⟨hfate, h', time, hh, hending, hlt⟩ := h
      exact ⟨(hl.fate (by rw [hfate]; simp)).trans hfate, h', time, hl.handed.trans hh, hending, hlt⟩
  | some (.ended ending (.ambiguous f)) =>
      obtain ⟨h', hh, hpast⟩ := h
      exact ⟨h', hl.handed.trans hh, lt_of_lt_of_le hpast hl.rank⟩
  | some .dropped =>
      obtain ⟨h', hh, hpast⟩ := h
      exact ⟨h', hl.handed.trans hh, lt_of_lt_of_le hpast hl.rank⟩

/-! ### The steps -/

/-- A close by an error that does not mean a lost transport finds no unconfirmed publish that
the broker has accepted or may still accept. -/
def Spares (s s' : Publishing) : Prop :=
  ∀ c e, s.closed c = none → s'.closed c = some e → isTransportLifecycleLost e = false →
    ∀ i, s.Unconfirmed c i →
      s'.fate i = .refused ∨ isProtocolClose e = true ∧ s.fate i ≠ .accepted

theorem Later.of_eq {s s' : Publishing} {i : ℕ} (handed : s'.handed i = s.handed i)
    (fate : s'.fate i = s.fate i) (closed : s'.closed = s.closed)
    (rank : s.transport.gate.slot.rank ≤ s'.transport.gate.slot.rank) : Later s s' i where
  handed := handed
  fate := fun _ => fate
  opened := fun hopen haccepted => by
      rw [fate, hopen] at haccepted
      cases haccepted
  closed := fun c e he => by rw [closed]; exact he
  rank := rank

theorem fail_handed (s : Publishing) (i : ℕ) (f : AttemptFailure) :
    (s.fail canBeRecovered i f).handed = s.handed := by
  unfold fail
  cases (f.decision canBeRecovered).retirementGeneration <;> rfl

theorem fail_fate (s : Publishing) (i : ℕ) (f : AttemptFailure) :
    (s.fail canBeRecovered i f).fate = s.fate := by
  unfold fail
  cases (f.decision canBeRecovered).retirementGeneration <;> rfl

theorem fail_closed (s : Publishing) (i : ℕ) (f : AttemptFailure) :
    (s.fail canBeRecovered i f).closed = s.closed := by
  unfold fail
  cases (f.decision canBeRecovered).retirementGeneration <;> rfl

theorem fail_attempts (s : Publishing) (i j : ℕ) (f : AttemptFailure) :
    (s.fail canBeRecovered i f).attempts j =
      if j = i then some (.ended (.failed f) (f.outcome canBeRecovered)) else s.attempts j := by
  unfold fail
  cases (f.decision canBeRecovered).retirementGeneration <;> rfl

theorem fail_rank (s : Publishing) (i : ℕ) (f : AttemptFailure) :
    s.transport.gate.slot.rank ≤ (s.fail canBeRecovered i f).transport.gate.slot.rank := by
  unfold fail
  cases (f.decision canBeRecovered).retirementGeneration with
  | none => exact le_refl _
  | some g => exact retireTransport_move s.transport g

theorem fail_later (s : Publishing) (i j : ℕ) (f : AttemptFailure) :
    Later s (s.fail canBeRecovered i f) j :=
  .of_eq (congrFun (fail_handed s i f) j) (congrFun (fail_fate s i f) j) (fail_closed s i f)
    (fail_rank s i f)

theorem fail_unacceptable {s : Publishing} {i j : ℕ} {f : AttemptFailure}
    (h : s.Unacceptable j) : (s.fail canBeRecovered i f).Unacceptable j :=
  h.later (fail_later s i j f)

/-- An invariant step moves one attempt, and leaves the others where they were. -/
theorem Inv.of_moved {s s' : Publishing} {i : ℕ} {a : Attempt} (h : s.Inv)
    (hattempt : s'.attempts i = some a) (hmoved : s'.Sound i (some a))
    (hkept : ∀ j, j ≠ i → s'.attempts j = s.attempts j) (hlater : ∀ j, j ≠ i → Later s s' j)
    (hclosed : s'.closed = s.closed)
    (hreached : ∀ h', s'.handed i = some h' →
      WithTop.some (2 * h'.generation) ≤ s'.transport.gate.slot.rank) : s'.Inv where
  sound := fun j => by
      by_cases hj : j = i
      · rw [hj, hattempt]
        exact hmoved
      · rw [hkept j hj]
        refine (h.sound j).later (hlater j hj) (fun _ h' e _ _ hnone he _ => ?_)
        rw [hclosed, hnone] at he
        cases he
  reached := fun j h' hh => by
      by_cases hj : j = i
      · exact hreached h' (hj ▸ hh)
      · exact (h.reached j h' ((hlater j hj).handed ▸ hh)).trans (hlater j hj).rank

/-- A failure that is sound for its attempt keeps the invariant. -/
theorem Inv.fail {s : Publishing} {i : ℕ} {f : AttemptFailure} (h : s.Inv)
    (hmoved : (s.fail canBeRecovered i f).Sound i
      (some (.ended (.failed f) (f.outcome canBeRecovered)))) :
    (s.fail canBeRecovered i f).Inv := by
  refine h.of_moved ((fail_attempts s i i f).trans (if_pos rfl)) hmoved
    (fun j hj => (fail_attempts s i j f).trans (if_neg hj)) (fun j _ => fail_later s i j f)
    (fail_closed s i f) (fun h' hh => ?_)
  · rw [fail_handed] at hh
    exact (h.reached i h' hh).trans (fail_rank s i f)

/-- Whoever retires the generation of its message may report it ambiguous. -/
theorem fail_ambiguous {s : Publishing} {i : ℕ} {h : Handed} {f : AttemptFailure} (hinv : s.Inv)
    (hh : s.handed i = some h) (hf : f.decision canBeRecovered = .retireAmbiguous h.generation) :
    (s.fail canBeRecovered i f).Sound i
      (some (.ended (.failed f) (f.outcome canBeRecovered))) := by
  have houtcome : f.outcome canBeRecovered = .ambiguous (f.diagnostic .transient) := by
    rw [AttemptFailure.outcome, hf]
  rw [houtcome]
  refine ⟨h, by rw [fail_handed]; exact hh, ?_⟩
  have htransport : (s.fail canBeRecovered i f).transport =
      s.transport.retireTransport h.generation := by
    rw [Publishing.fail, hf]
    rfl
  rw [htransport]
  exact retireTransport_past (hinv.reached i h hh)

/-- An invariant step moves no attempt. -/
theorem Inv.of_still {s s' : Publishing} (h : s.Inv) (hkept : s'.attempts = s.attempts)
    (hlater : ∀ j, Later s s' j)
    (hspared : ∀ j h' e, s.attempts j = some .waiting → s.handed j = some h' → h'.late = false →
      s.closed h'.transport = none → s'.closed h'.transport = some e →
      isTransportLifecycleLost e = false → s'.Unacceptable j) : s'.Inv where
  sound := fun j => by
      rw [hkept]
      exact (h.sound j).later (hlater j) (fun hw h' e => hspared j h' e hw)
  reached := fun j h' hh => (h.reached j h' ((hlater j).handed ▸ hh)).trans (hlater j).rank

/-- Before it is handed over, no message is acceptable. -/
theorem Inv.unsent {s : Publishing} {i : ℕ} (h : s.Inv) (hfresh : s.attempts i = none) :
    s.Unacceptable i := by
  have hsound := h.sound i
  rw [hfresh] at hsound
  cases hfate : s.fate i with
  | refused => exact .inl hfate
  | accepted => exact absurd hfate hsound.2
  | open_ =>
      refine .inr ⟨hfate, fun h' hh => ?_⟩
      rw [hsound.1] at hh
      cases hh

theorem Inv.waiting {s : Publishing} {i : ℕ} {h' : Handed} (h : s.Inv)
    (hwaiting : s.attempts i = some .waiting) (hh : s.handed i = some h') :
    (h'.late = true → ∃ e, s.closed h'.transport = some e) ∧
      (h'.late = false → ∀ e, s.closed h'.transport = some e →
        isTransportLifecycleLost e = false → s.Unacceptable i) := by
  have hsound := h.sound i
  rw [hwaiting] at hsound
  obtain ⟨h'', hh', hlate, hdue⟩ := hsound
  obtain rfl := Option.some.inj (hh.symm.trans hh')
  exact ⟨hlate, hdue⟩

theorem Inv.complete {s : Publishing} {i : ℕ} {h' : Handed} {e : ClientError}
    {phase : PublishPhase} (h : s.Inv) (hwaiting : s.attempts i = some .waiting)
    (hh : s.handed i = some h') (hclosed : s.closed h'.transport = some e)
    (hsent : phase ≠ .preSend) :
    (s.fail canBeRecovered i
      (.client h'.generation phase (if h'.late then .invalidChannelState else e))).Inv := by
  apply h.fail
  rcases @decision_sent canBeRecovered h'.generation _ hsent
    (if h'.late then .invalidChannelState else e) with ⟨-, hf⟩ | ⟨hlost, kind, hf⟩
  · exact fail_ambiguous h hh hf
  · rw [hf]
    refine fail_unacceptable ?_
    cases hlate : h'.late with
    | true =>
        rw [hlate] at hlost
        cases hlost
    | false =>
        rw [hlate] at hlost
        exact (h.waiting hwaiting hh).2 hlate e hclosed hlost

theorem later_setFate {s : Publishing} {i : ℕ} {f : Fate} (hopen : s.fate i = .open_)
    (haccepted : f = .accepted → ∃ h, s.handed i = some h ∧ s.Receives h) (j : ℕ) :
    Later s (s.setFate i f) j where
  handed := rfl
  fate := fun hj => if_neg (fun heq : j = i => hj (heq ▸ hopen))
  opened := fun hj hfate => by
      by_cases heq : j = i
      · subst heq
        exact haccepted ((if_pos rfl).symm.trans hfate)
      · rw [show (s.setFate i f).fate j = s.fate j from if_neg heq, hj] at hfate
        cases hfate
  closed := fun _ _ he => he
  rank := le_refl _

theorem later_close {s : Publishing} {c : ℕ} {e : ClientError} {offender : Option ℕ}
    (hup : s.closed c = none) (hunaccepted : ∀ i ∈ offender, s.fate i ≠ .accepted) (j : ℕ) :
    Later s
      { s with
        closed := fun d => if d = c then some e else s.closed d
        fate := fun i => if some i = offender then .refused else s.fate i } j where
  handed := rfl
  fate := fun hj => by
      by_cases heq : some j = offender
      · cases hfate : s.fate j with
        | open_ => exact absurd hfate hj
        | accepted => exact absurd hfate (hunaccepted j heq.symm)
        | refused => exact if_pos heq
      · exact if_neg heq
  opened := fun hj hfate => by
      by_cases heq : some j = offender
      · cases (if_pos heq).symm.trans hfate
      · cases ((if_neg heq).trans hj).symm.trans hfate
  closed := fun d e' he => by
      by_cases heq : d = c
      · rw [heq, hup] at he
        cases he
      · exact (if_neg heq).trans he
  rank := le_refl _

/-- A step leaves every message that was given to an attempt as `Later` says. -/
theorem later_of_step {s s' : Publishing} (hstep : PublishStep canBeRecovered s s') {j : ℕ}
    (hj : s.attempts j ≠ none) : Later s s' j := by
  cases hstep with
  | refuse fresh unsent => exact fail_later ..
  | hand fresh before snapshot =>
      refine .of_eq (if_neg (fun heq => ?_)) rfl rfl (Step.grant snapshot).move.rank_le
      subst heq
      exact hj fresh
  | accept handed receives undecided =>
      exact later_setFate undecided (fun _ => ⟨_, handed, receives⟩) j
  | turnDown undecided => exact later_setFate undecided (fun heq => Fate.noConfusion heq) j
  | acknowledge waiting handed accepted before => exact .of_eq rfl rfl rfl (le_refl _)
  | reject waiting handed refused before failure => exact fail_later ..
  | close e offender up unaccepted => exact later_close up unaccepted j
  | complete waiting handed closed sent before => exact fail_later ..
  | expire waiting handed sent elapsed => exact fail_later ..
  | drop waiting handed => exact .of_eq rfl rfl rfl (retireTransport_move _ _)
  | transport step => exact .of_eq rfl rfl rfl step.move.rank_le
  | elapse elapsed => exact .of_eq rfl rfl rfl (le_refl _)

/-- A close keeps the invariant if it spares the messages it overtakes. -/
theorem Inv.close {s : Publishing} {c : ℕ} {e : ClientError} {offender : Option ℕ} (h : s.Inv)
    (hup : s.closed c = none) (hunaccepted : ∀ i ∈ offender, s.fate i ≠ .accepted)
    (hspares : Spares s
      { s with
        closed := fun d => if d = c then some e else s.closed d
        fate := fun i => if some i = offender then .refused else s.fate i }) :
    Inv { s with
      closed := fun d => if d = c then some e else s.closed d
      fate := fun i => if some i = offender then .refused else s.fate i } := by
  refine h.of_still rfl (later_close hup hunaccepted)
    (fun j h' e' hwaiting hh hlate hnone he hlost => ?_)
  rcases hspares h'.transport e' hnone he hlost j ⟨hwaiting, h', hh, rfl, hlate⟩ with
    hrefused | ⟨hprotocol, hnot⟩
  · exact .inl hrefused
  · by_cases heq : some j = offender
    · exact .inl (if_pos heq)
    · cases hfate : s.fate j with
      | refused => exact .inl ((if_neg heq).trans hfate)
      | accepted => exact absurd hfate hnot
      | open_ =>
          refine .inr ⟨(if_neg heq).trans hfate, fun h'' hh'' hreceives => ?_⟩
          obtain rfl := Option.some.inj (hh.symm.trans hh'')
          rw [hreceives.2 e' he] at hprotocol
          cases hprotocol

theorem Inv.step {s s' : Publishing} (h : s.Inv) (hstep : PublishStep canBeRecovered s s')
    (hspares : Spares s s') : s'.Inv := by
  cases hstep with
  | @refuse i f fresh unsent =>
      obtain ⟨kind, hf⟩ := @decision_unsent canBeRecovered f unsent
      apply h.fail
      rw [hf]
      exact fail_unacceptable (h.unsent fresh)
  | @hand i cutoff generation transport admission t fresh before snapshot =>
      have hmove := (Step.grant snapshot).move.rank_le
      refine h.of_moved (if_pos rfl) ?_ (fun j hj => if_neg hj)
        (fun j hj => .of_eq (if_neg hj) rfl rfl hmove) rfl (fun h' hh => ?_)
      · refine ⟨_, if_pos rfl, fun hlate => Option.isSome_iff_exists.mp hlate,
          fun hlate e he => ?_⟩
        rw [show s.closed transport = some e from he] at hlate
        cases hlate
      · obtain rfl := Option.some.inj ((if_pos rfl).symm.trans hh)
        exact (snapshot_rank snapshot).trans hmove
  | accept handed receives undecided =>
      refine h.of_still rfl (later_setFate undecided (fun _ => ⟨_, handed, receives⟩))
        (fun j h' e _ _ _ hnone he _ => ?_)
      cases hnone.symm.trans he
  | turnDown undecided =>
      refine h.of_still rfl (later_setFate undecided (fun heq => Fate.noConfusion heq))
        (fun j h' e _ _ _ hnone he _ => ?_)
      cases hnone.symm.trans he
  | @acknowledge i h' waiting handed accepted before =>
      refine h.of_moved (if_pos rfl) ?_ (fun j hj => if_neg hj)
        (fun j _ => .of_eq rfl rfl rfl (le_refl _)) rfl (fun h'' hh => h.reached i h'' hh)
      exact ⟨accepted, h', s.now, handed, rfl, before⟩
  | @reject i h' c f waiting handed refused before failure =>
      apply h.fail
      have houtcome : ∃ g, f.outcome canBeRecovered = .definitelyNotPublished g := by
        cases c with
        | ack => cases failure
        | returned => cases failure; exact ⟨_, rfl⟩
        | nack => cases failure; exact ⟨_, rfl⟩
      obtain ⟨g, hg⟩ := houtcome
      rw [hg]
      exact fail_unacceptable (.inl refused)
  | close e offender up unaccepted => exact h.close up unaccepted hspares
  | complete waiting handed closed sent before => exact h.complete waiting handed closed sent
  | expire waiting handed sent elapsed => exact h.fail (fail_ambiguous h handed rfl)
  | @drop i h' waiting handed =>
      refine h.of_moved (if_pos rfl) ?_ (fun j hj => if_neg hj)
        (fun j _ => .of_eq rfl rfl rfl (retireTransport_move _ _)) rfl
        (fun h'' hh => (h.reached i h'' hh).trans (retireTransport_move _ _))
      exact ⟨h', handed, retireTransport_past (h.reached i h' handed)⟩
  | transport step =>
      refine h.of_still rfl (fun j => .of_eq rfl rfl rfl step.move.rank_le)
        (fun j h' e _ _ _ hnone he _ => ?_)
      cases hnone.symm.trans he
  | elapse elapsed =>
      refine h.of_still rfl (fun j => .of_eq rfl rfl rfl (le_refl _))
        (fun j h' e _ _ _ hnone he _ => ?_)
      cases hnone.symm.trans he

/-! ### Runs -/

theorem inv_start : start.Inv where
  sound := fun _ => ⟨rfl, fun h => Fate.noConfusion h⟩
  reached := fun _ _ h => nomatch h

theorem attempts_of_step {s s' : Publishing} (hstep : PublishStep canBeRecovered s s') {i : ℕ}
    (hi : s.attempts i ≠ none) : s'.attempts i ≠ none := by
  have hset : ∀ {j : ℕ} {a : Attempt},
      (if i = j then some a else s.attempts i) ≠ none := by
    intro j a
    by_cases heq : i = j
    · rw [if_pos heq]
      simp
    · rw [if_neg heq]
      exact hi
  cases hstep with
  | refuse fresh unsent => rw [fail_attempts]; exact hset
  | hand fresh before snapshot => exact hset
  | acknowledge waiting handed accepted before => exact hset
  | reject waiting handed refused before failure => rw [fail_attempts]; exact hset
  | complete waiting handed closed sent before => rw [fail_attempts]; exact hset
  | expire waiting handed sent elapsed => rw [fail_attempts]; exact hset
  | drop waiting handed => exact hset
  | _ => exact hi

/-- What no step takes back, no run takes back, whether its closes spare messages or not. -/
theorem later_of_runs (P : Publishing → Prop) {s s' : Publishing} {i : ℕ}
    (hruns : Relation.ReflTransGen (PublishStep canBeRecovered) s s')
    (hi : s.attempts i ≠ none) (h : P s)
    (hlater : ∀ {t t' : Publishing}, P t → Later t t' i → P t') : P s' := by
  have hboth : s'.attempts i ≠ none ∧ P s' := by
    induction hruns with
    | refl => exact ⟨hi, h⟩
    | tail _ hstep ih =>
        exact ⟨attempts_of_step hstep ih.1, hlater ih.2 (later_of_step hstep ih.1)⟩
  exact hboth.2

/-- What the attempts of a run are told. -/
structure Honest (canBeRecovered : ClientError → Bool) (s : Publishing) : Prop where
  definite : ∀ i ending f, s.attempts i = some (.ended ending (.definitelyNotPublished f)) →
    ∀ s', Relation.ReflTransGen (PublishStep canBeRecovered) s s' → s'.fate i ≠ .accepted
  confirmed : ∀ i ending r, s.attempts i = some (.ended ending (.confirmed r)) →
    s.fate i = .accepted ∧
      ∃ h time, s.handed i = some h ∧ ending = .confirmed time ∧ time < h.cutoff
  ambiguous : ∀ i h ending outcome, s.handed i = some h →
    s.attempts i = some (.ended ending outcome) → (∀ time, ending ≠ .confirmed time) →
    (∃ s', Relation.ReflTransGen (PublishStep canBeRecovered) s s' ∧ s'.fate i = .accepted) →
    ∃ f, outcome = .ambiguous f
  retired : ∀ i, (∃ ending f, s.attempts i = some (.ended ending (.ambiguous f))) ∨
      s.attempts i = some .dropped →
    ∃ h, s.handed i = some h ∧
      ∀ s', Relation.ReflTransGen (PublishStep canBeRecovered) s s' →
        ∀ c a, s'.transport.gate.slot ≠ .ready h.generation c a

theorem Inv.definite {s s' : Publishing} {i : ℕ} {ending : Ending} {f : PublishFailure}
    (h : s.Inv) (hi : s.attempts i = some (.ended ending (.definitelyNotPublished f)))
    (hruns : Relation.ReflTransGen (PublishStep canBeRecovered) s s') : s'.fate i ≠ .accepted := by
  have hsound := h.sound i
  rw [hi] at hsound
  have hlater : s'.Unacceptable i :=
    later_of_runs (fun t => t.Unacceptable i) hruns (by rw [hi]; simp) hsound
      (fun hu hl => hu.later hl)
  rcases hlater with hfate | ⟨hfate, -⟩
  · rw [hfate]
    simp
  · rw [hfate]
    simp

theorem Inv.retired {s : Publishing} {i : ℕ} {a : Attempt} (h : s.Inv) (hi : s.attempts i = some a)
    (ha : (∃ ending f, a = .ended ending (.ambiguous f)) ∨ a = .dropped) :
    ∃ h', s.handed i = some h' ∧
      ∀ s', Relation.ReflTransGen (PublishStep canBeRecovered) s s' →
        ∀ c a, s'.transport.gate.slot ≠ .ready h'.generation c a := by
  have hsound := h.sound i
  rw [hi] at hsound
  have hpast : ∃ h', s.handed i = some h' ∧ s.transport.Past h'.generation := by
    rcases ha with ⟨ending, f, rfl⟩ | rfl
    · exact hsound
    · exact hsound
  obtain ⟨h', hh, hpast⟩ := hpast
  refine ⟨h', hh, fun s' hruns c a => State.Past.not_ready ?_ c a⟩
  exact later_of_runs (fun t => t.transport.Past h'.generation) hruns (by rw [hi]; simp) hpast
    (fun hp hl => lt_of_lt_of_le hp hl.rank)

theorem Inv.honest {s : Publishing} (h : s.Inv) : s.Honest canBeRecovered where
  definite := fun i ending f hi s' hruns => h.definite hi hruns
  confirmed := fun i ending r hi => by
      have hsound := h.sound i
      rw [hi] at hsound
      exact hsound
  ambiguous := fun i h' ending outcome hh hi hending haccepted => by
      obtain ⟨s', hruns, hfate⟩ := haccepted
      cases outcome with
      | ambiguous f => exact ⟨f, rfl⟩
      | definitelyNotPublished f => exact absurd hfate (h.definite hi hruns)
      | confirmed r =>
          have hsound := h.sound i
          rw [hi] at hsound
          obtain ⟨-, -, time, -, htime, -⟩ := hsound
          exact absurd htime (hending time)
  retired := fun i hi => by
      rcases hi with ⟨ending, f, hi⟩ | hi
      · exact h.retired hi (.inl ⟨ending, f, rfl⟩)
      · exact h.retired hi (.inr rfl)

end Publishing

/-- In every run whose closes spare the messages they overtake, the attempts that share a
channel are told the truth: what they are told was not published is never accepted, what they
are told was confirmed was acknowledged in time, the rest is ambiguous, and an ambiguous or
dropped attempt has retired its transport for good. -/
theorem publish_outcomes_honest {s : Publishing}
    (hruns : Relation.ReflTransGen
      (fun t t' => PublishStep canBeRecovered t t' ∧ t.Spares t') .start s) :
    s.Honest canBeRecovered := by
  refine Publishing.Inv.honest ?_
  induction hruns with
  | refl => exact Publishing.inv_start
  | tail _ hstep ih => exact ih.step hstep.1 hstep.2

end

namespace Publishing

theorem spares_of_closed {s s' : Publishing} (h : s'.closed = s.closed) : Spares s s' := by
  intro c e hnone he
  rw [h, hnone] at he
  cases he

/-- The broker closes a channel after it has answered for every message it accepted. -/
theorem spares_of_answered {s s' : Publishing} {c : ℕ} {e : ClientError}
    (hclosed : s'.closed = fun d => if d = c then some e else s.closed d)
    (hprotocol : isProtocolClose e = true)
    (hanswered : ∀ i, s.attempts i = some .waiting → s.fate i ≠ .accepted) : Spares s s' := by
  intro d e' hnone he _ i hun
  rw [hclosed] at he
  by_cases hd : d = c
  · cases (if_pos hd).symm.trans he
    exact .inr ⟨hprotocol, hanswered i hun.1⟩
  · cases ((if_neg hd).trans hnone).symm.trans he

end Publishing

/-- A publish is confirmed, a later one is refused and closes the channel: nothing else is
unconfirmed then, and the refused one is told so. -/
theorem publish_outcomes_honest_refused_alone :
    ∃ s : Publishing,
      (s.attempts 0 = some (.ended (.confirmed 0) (.confirmed ())) ∧
        s.attempts 1 = some (.ended (.failed (.client 0 .confirm (.soft .accessRefused)))
          (.definitelyNotPublished ⟨.permanent, .confirm, .transportUnavailable⟩))) ∧
      s.Honest (fun _ => true) := by
  refine ⟨_, ⟨?_, ?_⟩, publish_outcomes_honest
    ((((((Relation.ReflTransGen.refl.tail
      ⟨.hand (i := 0) rfl (by decide : 0 < 10) rfl, Publishing.spares_of_closed rfl⟩).tail
      ⟨.accept (i := 0) rfl (by decide) rfl, Publishing.spares_of_closed rfl⟩).tail
      ⟨.acknowledge (i := 0) rfl rfl rfl (by decide), Publishing.spares_of_closed rfl⟩).tail
      ⟨.hand (i := 1) rfl (by decide : 0 < 10) rfl, Publishing.spares_of_closed rfl⟩).tail
      ⟨.close (c := 0) (.soft .accessRefused) (some 1) rfl (by decide),
        Publishing.spares_of_answered rfl rfl ?_⟩).tail
      ⟨.complete (i := 1) rfl rfl rfl (by decide : PublishPhase.confirm ≠ .preSend) (by decide),
        Publishing.spares_of_closed rfl⟩)⟩
  · rfl
  · rfl
  · intro i hwaiting hfate
    match i with
    | 0 => exact absurd hwaiting (by decide)
    | i + 1 => exact absurd hfate (fun h => Fate.noConfusion h)

/-- Two publishes share the channel; the broker has accepted the first when it closes the
channel for the second, and the first is told it was not published. -/
theorem accepted_publish_reported_unpublished :
    ∃ s : Publishing, Relation.ReflTransGen (PublishStep fun _ => true) .start s ∧
      s.fate 0 = .accepted ∧
      s.attempts 0 = some (.ended (.failed (.client 0 .confirm (.soft .accessRefused)))
        (.definitelyNotPublished ⟨.permanent, .confirm, .transportUnavailable⟩)) := by
  refine ⟨_, (((((Relation.ReflTransGen.refl.tail
      (.hand (i := 0) rfl (by decide : 0 < 10) rfl)).tail
      (.hand (i := 1) rfl (by decide : 0 < 10) rfl)).tail
      (.accept (i := 0) rfl (by decide) rfl)).tail
      (.close (c := 0) (.soft .accessRefused) (some 1) rfl (by decide))).tail
      (.complete (i := 0) rfl rfl rfl (by decide : PublishPhase.confirm ≠ .preSend)
        (by decide))), ?_, ?_⟩
  · rfl
  · rfl

end Rss.Amqp
