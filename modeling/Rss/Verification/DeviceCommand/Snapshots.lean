import Rss.Verification.DeviceCommand.Reducer

/-! # Snapshots and histories

The validator of stored records accepts exactly the records that calls of the reducer produce
at times that never run backwards. -/

namespace Rss.DeviceCommand

open Rss.Sql Command

/-! ### Calls on an owned command -/

/-- The rest of the call, once it has read the command. -/
def transitionFrom (c : Command) (event : Event) (current : Coordinate) (now : ℤ) :
    ExceptT Error (StateM Command) Outcome :=
  if ¬ (if event = .supersede then current.Supersedes c.spec.coordinate
      else current = c.spec.coordinate) then throw .fenced
  else if event.contradicts c.spec.expected then throw .conflict
  else match decision c.status event (now ≥ c.spec.deadline) with
    | .error outcome => return outcome
    | .ok status => do
      let version ← liftExcept (okOr (succ c.version) Error.versionOverflow)
      let next ← liftExcept (restore (advanced c.record status version now))
      set next
      return .advanced

theorem transitionMut_run (c : Command) (event : Event) (current : Coordinate) (now : ℤ) :
    ((transitionMut event current now).run.run c).run =
      match c.transition event current now with
      | .ok (outcome, c') => (.ok outcome, c')
      | .error e => (.error e, c) := by
  change ((transitionFrom c event current now).run.run c).run = _
  unfold transition transitionFrom
  dsimp only
  split_ifs
  all_goals try rfl
  all_goals
    cases decision c.status event (now ≥ c.spec.deadline) with
    | error outcome => rfl
    | ok status =>
        dsimp only
        rw [succ_version, okOr_some, ok_bind]
        change (((liftExcept (restore (advanced c.record status (c.version + 1) now)) :
          ExceptT Error (StateM Command) Command) >>= fun next => do
            set next
            return Outcome.advanced).run.run c).run = _
        cases restore (advanced c.record status (c.version + 1) now) <;> rfl

/-- One call: its answer, and the command it leaves. -/
def Command.Calls (c : Command) (event : Event) (current : Coordinate) (now : ℤ)
    (result : Result Outcome) (c' : Command) : Prop :=
  ((transitionMut event current now).run.run c).run = (result, c')

/-- A call advances the command by one decision and says so, or leaves it alone. -/
theorem Command.Calls.cases {c c' : Command} {event : Event} {current : Coordinate} {now : ℤ}
    {result : Result Outcome} (h : c.Calls event current now result c') :
    result ≠ .ok .advanced ∧ c' = c ∨
      result = .ok .advanced ∧ c.transition event current now = .ok (.advanced, c') := by
  unfold Calls at h
  rw [transitionMut_run] at h
  cases ht : c.transition event current now with
  | error e =>
      rw [ht] at h
      cases h
      exact .inl ⟨nofun, rfl⟩
  | ok r =>
      obtain ⟨outcome, next⟩ := r
      rw [ht] at h
      cases h
      obtain ⟨-, ⟨hd, rfl⟩ | ⟨rfl, -⟩⟩ := transition_eq_ok ht
      · refine .inl ⟨fun he => ?_, rfl⟩
        cases he
        exact decision_ne_advanced _ _ _ hd
      · exact .inr ⟨rfl, rfl⟩

theorem Command.calls_of_transition {c c' : Command} {event : Event} {current : Coordinate}
    {now : ℤ} {outcome : Outcome} (h : c.transition event current now = .ok (outcome, c')) :
    c.Calls event current now (.ok outcome) c' := by
  unfold Calls
  rw [transitionMut_run, h]

theorem Command.Calls.eq_of_terminal {c c' : Command} {event : Event} {current : Coordinate}
    {now : ℤ} {result : Result Outcome} (h : c.Calls event current now result c')
    (hterminal : c.status.isTerminal = true) : c' = c := by
  rcases h.cases with ⟨-, hc⟩ | ⟨-, ht⟩
  · exact hc
  · obtain ⟨-, ⟨hd, -⟩ | ⟨-, status, hd, -⟩⟩ := transition_eq_ok ht
    · exact absurd hd (decision_ne_advanced _ _ _)
    · rw [(decision_eq_ok hd).1] at hterminal
      cases hterminal

/-- Any number of later calls. -/
def Command.Continues : Command → Command → Prop :=
  Relation.ReflTransGen
    (fun c c' => ∃ event current now result, c.Calls event current now result c')

theorem Command.Continues.eq_of_terminal {c c' : Command} (h : c.Continues c')
    (hterminal : c.status.isTerminal = true) : c' = c := by
  induction h with
  | refl => rfl
  | tail _ hstep ih =>
      obtain ⟨event, current, now, result, hcall⟩ := hstep
      subst ih
      exact hcall.eq_of_terminal hterminal

/-! ### Histories -/

/-- A coordinate of two `i64`s. -/
def Coordinate.InRange (c : Coordinate) : Prop :=
  c.generation ≤ bigintMax ∧ c.epoch ≤ bigintMax

/-- The command is queued and then called at times that do not decrease, with coordinates of
any value; the last time and the number of calls that advanced it. -/
inductive Reached (spec : CommandSpec) : ℤ → ℕ → Command → Prop where
  | queue {now : ℤ} {c : Command} (h : Command.queue spec now = .ok c) : Reached spec now 0 c
  | call {last now : ℤ} {n : ℕ} {c c' : Command} {event : Event} {current : Coordinate}
      {result : Result Outcome} (h : Reached spec last n c) (hle : last ≤ now)
      (hin : current.InRange) (hc : c.Calls event current now result c') :
      Reached spec now (if result = .ok .advanced then n + 1 else n) c'

theorem queue_eq_ok {spec : CommandSpec} {now : ℤ} {c : Command} :
    Command.queue spec now = .ok c ↔
      now < spec.deadline ∧ c.record = ⟨spec, 1, .queued, now, none, none, none⟩ := by
  unfold Command.queue
  split
  · rename_i h
    simp only [reduceCtorEq, false_iff, not_and]
    intro hlt
    omega
  · rename_i h
    rw [restore_eq_ok]
    exact ⟨fun hc => ⟨by omega, hc⟩, fun hc => hc.2⟩

/-- What the calls so far say about the record. -/
structure Reached.Facts (spec : CommandSpec) (last : ℤ) (n : ℕ) (c : Command) : Prop where
  spec_eq : c.spec = spec
  past : c.record.Past last
  version_eq : c.version = 1 + n

theorem Reached.facts {spec : CommandSpec} {last : ℤ} {n : ℕ} {c : Command}
    (h : Reached spec last n c) : Facts spec last n c := by
  induction h with
  | @queue now c h =>
      obtain ⟨-, hc⟩ := queue_eq_ok.mp h
      refine ⟨by rw [Command.spec, hc], ?_, by rw [Command.version, hc]; rfl⟩
      intro t ht
      rw [Record.mem_times, hc] at ht
      rcases ht with rfl | ht | ht | ht
      · exact le_refl _
      all_goals cases ht
  | @call last now n c c' event current result _ hle _ hcall ih =>
      rcases hcall.cases with ⟨hr, rfl⟩ | ⟨rfl, ht⟩
      · rw [if_neg hr]
        exact ⟨ih.spec_eq, ih.past.mono hle, ih.version_eq⟩
      · rw [if_pos rfl]
        obtain ⟨-, ⟨hd, -⟩ | ⟨-, status, hd, hc⟩⟩ := transition_eq_ok ht
        · exact absurd hd (decision_ne_advanced _ _ _)
        · have hadv := advances_of_decision hd hc
          refine ⟨hadv.spec.trans ih.spec_eq, hadv.past (ih.past.mono hle), ?_⟩
          rw [hadv.version, ih.version_eq]
          push_cast
          ring

/-- One more call at a later time takes a decision the table makes. -/
theorem Reached.advance {spec : CommandSpec} {last now : ℤ} {n : ℕ} {c : Command} {r r' : Record}
    (event : Event) {current : Coordinate} {status : Status} (h : Reached spec last n c)
    (hr : c.record = r) (hle : last ≤ now) (hin : current.InRange)
    (hauth : if event = .supersede then current.Supersedes spec.coordinate
      else current = spec.coordinate)
    (hdigest : event.contradicts spec.expected = false)
    (hd : decision r.status event (now ≥ spec.deadline) = .ok status)
    (hr' : advanced r status (r.version + 1) now = r') :
    ∃ c', Reached spec now (n + 1) c' ∧ c'.record = r' := by
  subst hr hr'
  obtain ⟨rfl, hpast, -⟩ := h.facts
  obtain ⟨outcome, c', ht⟩ := transition_of_past hauth hdigest (hpast.mono hle)
  obtain ⟨-, ⟨he, -⟩ | ⟨rfl, status', hd', hc⟩⟩ := transition_eq_ok ht
  · rw [show decision c.status event (now ≥ c.spec.deadline) = .ok status from hd] at he
    cases he
  · obtain rfl := Except.ok.inj (hd'.symm.trans hd)
    have hnext := h.call hle hin (calls_of_transition ht)
    rw [if_pos rfl] at hnext
    exact ⟨c', hnext, hc⟩

/-! ### Every valid record is reached -/

theorem reached_queued {spec : CommandSpec} {q : ℤ} (hq : q < spec.deadline) :
    ∃ c, Reached spec q 0 c ∧ c.record = ⟨spec, 1, .queued, q, none, none, none⟩ := by
  have hvalid : validate ⟨spec, 1, .queued, q, none, none, none⟩ = .ok () := by
    rw [validate_eq_ok]
    constructor <;> simp [reached, ordered, Record.shape, hq]
  exact ⟨⟨_, hvalid⟩, .queue (queue_eq_ok.mpr ⟨hq, rfl⟩), rfl⟩

section

variable {spec : CommandSpec} (hin : spec.coordinate.InRange)
include hin

theorem reached_published {q p : ℤ} (hq : q < spec.deadline) (hp : q ≤ p)
    (hpd : p < spec.deadline) :
    ∃ c, Reached spec p 1 c ∧ c.record = ⟨spec, 2, .published, q, some p, none, none⟩ := by
  obtain ⟨c, hc, hr⟩ := reached_queued hq
  have hd : decision .queued .published (p ≥ spec.deadline) = .ok .published := by
    rw [decide_eq_false (not_le.mpr hpd)]
    rfl
  exact hc.advance .published hr hp hin (by simp) rfl hd rfl

theorem reached_received {q p r : ℤ} (hq : q < spec.deadline) (hp : q ≤ p)
    (hpd : p < spec.deadline) (hr : p ≤ r) (hrd : r < spec.deadline) :
    ∃ c, Reached spec r 2 c ∧ c.record = ⟨spec, 3, .received, q, some p, some r, none⟩ := by
  obtain ⟨c, hc, hrec⟩ := reached_published hin hq hp hpd
  have hd : decision .published .received (r ≥ spec.deadline) = .ok .received := by
    rw [decide_eq_false (not_le.mpr hrd)]
    rfl
  exact hc.advance .received hrec hr hin (by simp) rfl hd rfl

/-- The status an active record has for its milestones. -/
def activeStatus (publishedAt receivedAt : Option ℤ) : Status :=
  if receivedAt.isSome then .received else if publishedAt.isSome then .published else .queued

/-- The milestones of a valid record are reached before its terminal decision. -/
theorem reached_active {r : Record} (hr : r.Valid) (hspec : r.spec = spec) :
    ∃ last n c, Reached spec last n c ∧ (∀ t ∈ r.terminalAt, last ≤ t) ∧
      c.record = ⟨spec, 1 + reached r.publishedAt + reached r.receivedAt,
        activeStatus r.publishedAt r.receivedAt, r.queuedAt, r.publishedAt, r.receivedAt, none⟩ := by
  obtain ⟨rspec, version, status, q, publishedAt, receivedAt, terminalAt⟩ := r
  obtain ⟨-, hq, hord, hmile, -, hpd, hrd, -, -⟩ := hr
  simp only at hspec hq hord hmile hpd hrd
  subst hspec
  cases receivedAt with
  | some rt =>
      obtain ⟨pt, rfl⟩ := Option.isSome_iff_exists.mp (hmile rfl)
      have hlast : ∀ t ∈ terminalAt, rt ≤ t := by
        rintro t rfl
        simp [List.reduceOption, ordered] at hord
        exact hord.2.2
      have hpr : q ≤ pt ∧ pt ≤ rt := by
        cases terminalAt <;> simp [List.reduceOption, ordered] at hord
        · exact hord
        · exact ⟨hord.1, hord.2.1⟩
      obtain ⟨c, hc, hrec⟩ := reached_received hin hq hpr.1 (hpd pt rfl) hpr.2 (hrd rt rfl)
      exact ⟨rt, 2, c, hc, hlast, hrec⟩
  | none =>
      cases publishedAt with
      | some pt =>
          have hlast : ∀ t ∈ terminalAt, pt ≤ t := by
            rintro t rfl
            simp [List.reduceOption, ordered] at hord
            exact hord.2
          have hqp : q ≤ pt := by
            cases terminalAt <;> simp [List.reduceOption, ordered] at hord
            · exact hord
            · exact hord.1
          obtain ⟨c, hc, hrec⟩ := reached_published hin hq hqp (hpd pt rfl)
          exact ⟨pt, 1, c, hc, hlast, hrec⟩
      | none =>
          have hlast : ∀ t ∈ terminalAt, q ≤ t := by
            rintro t rfl
            simpa [List.reduceOption, ordered] using hord
          obtain ⟨c, hc, hrec⟩ := reached_queued hq
          exact ⟨q, 0, c, hc, hlast, hrec⟩

/-- The event and the authority that lead to a terminal status. -/
theorem exists_terminal_event (hepoch : spec.coordinate.epoch < bigintMax) {active status : Status}
    {expired : Bool} (hactive : active.isTerminal = false) (hterminal : status.isTerminal = true)
    (happlied : status = .applied → active = .received ∧ expired = false)
    (hrejected : status = .rejected → active ≠ .queued)
    (htimedOut : status = .timedOut → expired = true) :
    ∃ event current, Coordinate.InRange current ∧
      (if event = .supersede then current.Supersedes spec.coordinate
        else current = spec.coordinate) ∧
      event.contradicts spec.expected = false ∧ decision active event expired = .ok status := by
  cases status with
  | queued | published | received => cases hterminal
  | applied =>
      obtain ⟨rfl, rfl⟩ := happlied rfl
      exact ⟨.reported spec.expected, spec.coordinate, hin, by simp, by simp [Event.contradicts], rfl⟩
  | rejected =>
      refine ⟨.rejected, spec.coordinate, hin, by simp, by simp [Event.contradicts], ?_⟩
      have hne := hrejected rfl
      cases active with
      | queued => exact absurd rfl hne
      | published | received => rfl
      | _ => cases hactive
  | timedOut =>
      obtain rfl := htimedOut rfl
      refine ⟨.expire, spec.coordinate, hin, by simp, by simp [Event.contradicts], ?_⟩
      cases active <;> first | rfl | cases hactive
  | superseded =>
      have hpos := spec.coordinate.epoch_pos
      refine ⟨.supersede, ⟨spec.coordinate.generation, spec.coordinate.epoch + 1,
        spec.coordinate.generation_pos, by omega⟩, ⟨hin.1, ?_⟩, ?_, by simp [Event.contradicts], ?_⟩
      · change spec.coordinate.epoch + 1 ≤ bigintMax
        omega
      · rw [if_pos rfl]
        exact ⟨le_refl _, by change spec.coordinate.epoch + 1 > _; omega⟩
      · cases active <;> first | rfl | cases hactive
  | cancelled =>
      refine ⟨.cancel, spec.coordinate, hin, by simp, by simp [Event.contradicts], ?_⟩
      cases active <;> first | rfl | cases hactive

/-- A valid record of a spec whose authority can still be superseded is reached. -/
theorem reached_of_valid {r : Record} (hr : r.Valid) (hspec : r.spec = spec)
    (hepoch : spec.coordinate.epoch < bigintMax) :
    ∃ last n c, Reached spec last n c ∧ c.record = r := by
  obtain ⟨last, n, c, hc, hlast, hrec⟩ := reached_active hin hr hspec
  have hversion := hr.version
  have hshape := hr.shape
  obtain ⟨rspec, version, status, q, publishedAt, receivedAt, terminalAt⟩ := r
  simp only at hspec hlast hrec hversion
  subst hspec
  cases terminalAt with
  | none =>
      refine ⟨last, n, c, hc, hrec.trans ?_⟩
      have hstatus : activeStatus publishedAt receivedAt = status := by
        cases status <;> cases publishedAt <;> cases receivedAt <;>
          simp_all [Record.shape, activeStatus]
      rw [hstatus, hversion]
      simp [reached]
  | some t =>
      have hterminal : status.isTerminal = true := by
        cases status <;> simp_all [Record.shape, Status.isTerminal]
      have hactive : (activeStatus publishedAt receivedAt).isTerminal = false := by
        unfold activeStatus
        split_ifs <;> rfl
      have happlied : status = .applied → activeStatus publishedAt receivedAt = .received ∧
          decide (t ≥ rspec.deadline) = false := by
        rintro rfl
        have hrt : receivedAt.isSome = true := by
          simp only [Record.shape, Bool.and_eq_true] at hshape
          exact hshape.1
        exact ⟨by simp [activeStatus, hrt], decide_eq_false (not_le.mpr (hr.applied t rfl rfl))⟩
      obtain ⟨event, current, hin', hauth, hdigest, hd⟩ :=
        exists_terminal_event hin hepoch hactive hterminal happlied
          (by
            rintro rfl
            simp only [Record.shape, Bool.and_eq_true] at hshape
            unfold activeStatus
            split_ifs with h₁ h₂
            · decide
            · decide
            · exact absurd hshape.1 h₂)
          (by
            rintro rfl
            exact decide_eq_true (hr.timedOut t rfl rfl))
      have hnext : advanced ⟨rspec, 1 + reached publishedAt + reached receivedAt,
          activeStatus publishedAt receivedAt, q, publishedAt, receivedAt, none⟩ status
          (1 + reached publishedAt + reached receivedAt + 1) t =
          ⟨rspec, version, status, q, publishedAt, receivedAt, some t⟩ := by
        rw [hversion]
        cases status <;> simp_all [advanced, reached, Status.isTerminal]
      obtain ⟨c', hc', hrec'⟩ := hc.advance event hrec (hlast t rfl) hin' hauth hdigest hd hnext
      exact ⟨t, n + 1, c', hc', hrec'⟩

end

/-! ### Restoring is reachability -/

/-- The validator accepts exactly the records of reachable commands. From every reachable
command an authorized event with a consistent digest, no earlier than the milestones, is
answered; a call that does not advance leaves the command alone; the version counts the
advances; and a terminal command stays as it is. -/
theorem snapshots_are_reachable :
    (∀ r : Record, r.spec.coordinate.InRange → r.spec.coordinate.epoch < bigintMax →
      ((∃ c, restore r = .ok c) ↔ ∃ last n c, Reached r.spec last n c ∧ c.record = r)) ∧
    ∀ (spec : CommandSpec) (last : ℤ) (n : ℕ) (c : Command), Reached spec last n c →
      (∀ event current now, c.Authorized event current →
        event.contradicts c.spec.expected = false → c.record.Past now →
        ∃ outcome c', c.Calls event current now (.ok outcome) c') ∧
      (∀ event current now result c', c.Calls event current now result c' →
        result ≠ .ok .advanced → c'.record = c.record) ∧
      c.version = 1 + n ∧
      (c.status.isTerminal = true → ∀ c', c.Continues c' → c' = c) := by
  refine ⟨fun r hin hepoch => ⟨?_, ?_⟩, fun spec last n c h => ⟨?_, ?_, h.facts.version_eq, ?_⟩⟩
  · rintro ⟨c, hc⟩
    obtain rfl := restore_eq_ok.mp hc
    exact reached_of_valid hin c.record_valid rfl hepoch
  · rintro ⟨last, n, c, -, hc⟩
    exact ⟨c, restore_eq_ok.mpr hc⟩
  · intro event current now hauth hdigest hpast
    obtain ⟨outcome, c', ht⟩ := transition_of_past hauth hdigest hpast
    exact ⟨outcome, c', calls_of_transition ht⟩
  · intro event current now result c' hcall hne
    rcases hcall.cases with ⟨-, rfl⟩ | ⟨hr, -⟩
    · rfl
    · exact absurd hr hne
  · exact fun hterminal c' hcont => hcont.eq_of_terminal hterminal

def pumpSpec : CommandSpec where
  scope := ⟨11, ⟨13, by decide⟩⟩
  id := ⟨"pump-17", by decide⟩
  coordinate := ⟨19, 23, by decide, by decide⟩
  expected := 29
  deadline := 31

/-- A pump command superseded after its publication. -/
def pumpSuperseded : Record := ⟨pumpSpec, 3, .superseded, 2, some 3, none, some 37⟩

theorem snapshots_are_reachable_pump :
    (∃ c, restore pumpSuperseded = .ok c) ∧
      ∃ last n c, Reached pumpSpec last n c ∧ c.record = pumpSuperseded := by
  have hc : ∃ c, restore pumpSuperseded = .ok c :=
    ⟨⟨pumpSuperseded, by decide⟩, restore_eq_ok.mpr rfl⟩
  exact ⟨hc, (snapshots_are_reachable.1 pumpSuperseded ⟨by decide, by decide⟩ (by decide)).mp hc⟩

end Rss.DeviceCommand
