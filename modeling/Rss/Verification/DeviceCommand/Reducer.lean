import Mathlib.Data.List.ReduceOption
import Mathlib.Tactic
import Rss.Model.DeviceCommand.Command

/-! # The command reducer

What a validated record satisfies, and what one transition of it can do. -/

namespace Rss.DeviceCommand

open Rss.Sql

/-! ### Validated records -/

/-- What `validate` accepts. -/
structure Record.Valid (r : Record) : Prop where
  version : r.version = 1 + reached r.publishedAt + reached r.receivedAt + reached r.terminalAt
  deadline : r.queuedAt < r.spec.deadline
  ordered : ordered r.queuedAt [r.publishedAt, r.receivedAt, r.terminalAt].reduceOption = true
  milestones : r.receivedAt.isSome → r.publishedAt.isSome
  shape : r.shape = true
  publishedAt : ∀ t ∈ r.publishedAt, t < r.spec.deadline
  receivedAt : ∀ t ∈ r.receivedAt, t < r.spec.deadline
  timedOut : ∀ t ∈ r.terminalAt, r.status = .timedOut → r.spec.deadline ≤ t
  applied : ∀ t ∈ r.terminalAt, r.status = .applied → t < r.spec.deadline

theorem validate_eq_ok {r : Record} : validate r = .ok () ↔ r.Valid := by
  unfold validate
  dsimp only
  split_ifs with h₁ h₂ h₃ h₄ h₅
  · refine iff_of_false nofun (fun hv => ?_)
    rcases h₁ with h | h
    · exact h hv.version
    · exact not_lt.mpr h hv.deadline
  · refine iff_of_false nofun (fun hv => ?_)
    simp [hv.ordered] at h₂
  · refine iff_of_false nofun (fun hv => ?_)
    have := hv.milestones h₃.1
    simp_all
  · refine iff_of_false nofun (fun hv => ?_)
    rcases h₄ with h | ⟨t, ht, h⟩ | ⟨t, ht, h⟩
    · simp [hv.shape] at h
    · exact not_lt.mpr h (hv.publishedAt t ht)
    · exact not_lt.mpr h (hv.receivedAt t ht)
  · refine iff_of_false nofun (fun hv => ?_)
    obtain ⟨t, ht, ⟨hs, h⟩ | ⟨hs, h⟩⟩ := h₅
    · exact not_lt.mpr (hv.timedOut t ht hs) h
    · exact not_lt.mpr h (hv.applied t ht hs)
  · refine iff_of_true rfl ?_
    push Not at h₁ h₄ h₅
    refine ⟨h₁.1, h₁.2, by simpa using h₂, ?_, by simpa using h₄.1, h₄.2.1, h₄.2.2, ?_, ?_⟩
    · intro h
      by_contra hp
      exact h₃ ⟨h, by simpa using hp⟩
    · intro t ht
      exact (h₅ t ht).1
    · intro t ht
      exact (h₅ t ht).2

theorem Command.record_valid (c : Command) : c.record.Valid := validate_eq_ok.mp c.valid

theorem Command.restore_eq_ok {r : Record} {c : Command} :
    Command.restore r = .ok c ↔ c.record = r := by
  unfold Command.restore
  split
  · rename_i h
    constructor
    · rintro ⟨rfl⟩
      rfl
    · rintro rfl
      rfl
  · rename_i e h
    refine iff_of_false nofun ?_
    rintro rfl
    rw [c.valid] at h
    cases h

theorem Command.restore_of_valid {r : Record} (h : r.Valid) :
    Command.restore r = .ok ⟨r, validate_eq_ok.mpr h⟩ :=
  Command.restore_eq_ok.mpr rfl

theorem reached_le_one (time : Option ℤ) : 0 ≤ reached time ∧ reached time ≤ 1 := by
  unfold reached
  split <;> simp

theorem Record.Valid.version_bounds {r : Record} (h : r.Valid) : 0 < r.version ∧ r.version ≤ 4 := by
  have hp := reached_le_one r.publishedAt
  have hr := reached_le_one r.receivedAt
  have ht := reached_le_one r.terminalAt
  have := h.version
  omega

theorem Record.Valid.terminal_iff {r : Record} (h : r.Valid) :
    r.status.isTerminal = r.terminalAt.isSome := by
  have := h.shape
  unfold Record.shape at this
  cases hs : r.status <;> simp_all [Status.isTerminal]

/-- A published command was queued before. -/
theorem Record.Valid.queued_le {r : Record} (h : r.Valid) : ∀ p ∈ r.publishedAt, r.queuedAt ≤ p := by
  intro p hp
  have hord := h.ordered
  rw [Option.mem_def.mp hp, List.reduceOption_cons_of_some] at hord
  simp only [DeviceCommand.ordered, Bool.and_eq_true, decide_eq_true_eq] at hord
  exact hord.1

theorem Record.Valid.published_le {r : Record} (h : r.Valid) :
    ∀ t ∈ r.receivedAt, ∃ p ∈ r.publishedAt, p ≤ t := by
  intro t ht
  have hord := h.ordered
  have hsome := h.milestones (Option.isSome_of_mem ht)
  obtain ⟨p, hp⟩ := Option.isSome_iff_exists.mp hsome
  rw [hp, Option.mem_def.mp ht, List.reduceOption_cons_of_some, List.reduceOption_cons_of_some]
    at hord
  simp only [DeviceCommand.ordered, Bool.and_eq_true, decide_eq_true_eq] at hord
  exact ⟨p, hp, hord.2.1⟩

/-- The end comes after the last milestone before it. -/
theorem Record.Valid.milestone_le {r : Record} (h : r.Valid) :
    ∀ t ∈ r.terminalAt, (r.receivedAt <|> r.publishedAt).getD r.queuedAt ≤ t := by
  intro t ht
  have hord := h.ordered
  rw [Option.mem_def.mp ht] at hord
  cases hp : r.publishedAt with
  | none =>
      cases hr : r.receivedAt with
      | none =>
          rw [hp, hr] at hord
          simpa [List.reduceOption, DeviceCommand.ordered] using hord
      | some received =>
          have hsome := h.milestones (by rw [hr]; rfl)
          rw [hp] at hsome
          cases hsome
  | some published =>
      cases hr : r.receivedAt with
      | none =>
          rw [hp, hr] at hord
          simp only [List.reduceOption, DeviceCommand.ordered, List.filterMap, id, Bool.and_eq_true,
            decide_eq_true_eq] at hord
          exact hord.2.1
      | some received =>
          rw [hp, hr] at hord
          simp only [List.reduceOption, DeviceCommand.ordered, List.filterMap, id, Bool.and_eq_true,
            decide_eq_true_eq] at hord
          exact hord.2.2.1

/-- What a status asks of the milestones. -/
theorem Record.Valid.shaped {r : Record} (h : r.Valid) :
    (r.status = .queued → r.publishedAt = none ∧ r.receivedAt = none) ∧
    (r.status = .published → r.publishedAt.isSome ∧ r.receivedAt = none) ∧
    (r.status = .received ∨ r.status = .applied → r.receivedAt.isSome) ∧
    (r.status = .rejected → r.publishedAt.isSome) := by
  have hshape := h.shape
  unfold Record.shape at hshape
  refine ⟨fun hs => ?_, fun hs => ?_, ?_, fun hs => ?_⟩
  · simp only [hs, Bool.and_eq_true, Option.isNone_iff_eq_none] at hshape
    exact hshape.1
  · simp only [hs, Bool.and_eq_true, Option.isNone_iff_eq_none] at hshape
    exact hshape.1
  · rintro (hs | hs)
    · simp only [hs, Bool.and_eq_true] at hshape
      exact hshape.1.2
    · simp only [hs, Bool.and_eq_true] at hshape
      exact hshape.1
  · simp only [hs, Bool.and_eq_true] at hshape
    exact hshape.1

/-- The times a record carries. -/
def Record.times (r : Record) : List ℤ :=
  r.queuedAt :: [r.publishedAt, r.receivedAt, r.terminalAt].reduceOption

theorem Record.mem_times {r : Record} {t : ℤ} :
    t ∈ r.times ↔ t = r.queuedAt ∨ r.publishedAt = some t ∨ r.receivedAt = some t ∨
      r.terminalAt = some t := by
  simp [Record.times, List.reduceOption_mem_iff, eq_comm]

/-- Nothing in the record lies after the given time. -/
def Record.Past (r : Record) (now : ℤ) : Prop := ∀ t ∈ r.times, t ≤ now

theorem Record.Past.mono {r : Record} {now now' : ℤ} (h : r.Past now) (hle : now ≤ now') :
    r.Past now' :=
  fun t ht => (h t ht).trans hle

/-! ### Transitions -/

/-- Only an active command is decided on, and only to a later status. -/
theorem decision_eq_ok {status status' : Status} {event : Event} {expired : Bool}
    (h : decision status event expired = .ok status') :
    status.isTerminal = false ∧ status' ≠ .queued ∧
      (status' = .published → status = .queued ∧ expired = false) ∧
      (status' = .received → status = .published ∧ expired = false) ∧
      (status' = .applied → status = .received ∧ expired = false) ∧
      (status' = .rejected → status ≠ .queued) ∧
      (status' = .timedOut → expired = true) := by
  unfold decision at h
  cases status <;> cases event <;> cases expired <;> simp_all [Status.isTerminal] <;>
    (subst h; simp)

theorem decision_ne_advanced (status : Status) (event : Event) (expired : Bool) :
    decision status event expired ≠ .error .advanced := by
  unfold decision
  cases status <;> cases event <;> cases expired <;> simp [Status.isTerminal]

/-- A time that no milestone lies after may follow them. -/
theorem ordered_append {previous now : ℤ} {times : List ℤ} (h : ordered previous times = true)
    (hprevious : previous ≤ now) (htimes : ∀ t ∈ times, t ≤ now) :
    ordered previous (times ++ [now]) = true := by
  induction times generalizing previous with
  | nil => simpa [ordered] using hprevious
  | cons time times ih =>
      simp only [ordered, Bool.and_eq_true, decide_eq_true_eq] at h
      have hrest := ih h.2 (htimes time List.mem_cons_self)
        fun t ht => htimes t (List.mem_cons_of_mem _ ht)
      simpa [ordered, hrest] using h.1

theorem Record.Valid.ordered_past {r : Record} (h : r.Valid) {now : ℤ} (hp : r.Past now) :
    DeviceCommand.ordered r.queuedAt
      ([r.publishedAt, r.receivedAt, r.terminalAt].reduceOption ++ [now]) = true :=
  ordered_append h.ordered (hp _ List.mem_cons_self) fun t ht => hp t (List.mem_cons_of_mem _ ht)

/-- An active command that is not queued was published. -/
theorem Record.Valid.isSome_published {r : Record} (h : r.Valid)
    (hactive : r.status.isTerminal = false) (hne : r.status ≠ .queued) : r.publishedAt.isSome := by
  cases hs : r.status with
  | queued => exact absurd hs hne
  | published => exact (h.shaped.2.1 hs).1
  | received => exact h.milestones (h.shaped.2.2.1 (.inl hs))
  | _ =>
      rw [hs] at hactive
      cases hactive

/-- A queued command is published. -/
theorem Record.Valid.published {r : Record} (h : r.Valid) {now : ℤ} (hs : r.status = .queued)
    (hnone : r.terminalAt = none) (hlt : now < r.spec.deadline) (hp : r.Past now) :
    (Command.advanced r .published (r.version + 1) now).Valid := by
  obtain ⟨hpublished, hreceived⟩ := h.shaped.1 hs
  have hord := h.ordered_past hp
  have hversion := h.version
  rw [hpublished, hreceived, hnone] at hord hversion
  exact {
    version := by simp [Command.advanced, hversion, hreceived, hnone, reached]
    deadline := h.deadline
    ordered := by rw [Command.advanced, hreceived, hnone]; exact hord
    milestones := fun _ => rfl
    shape := by simp [Command.advanced, Record.shape, hreceived, hnone]
    publishedAt := fun t ht => by cases ht; exact hlt
    receivedAt := h.receivedAt
    timedOut := fun t _ hout => by cases hout
    applied := fun t _ happlied => by cases happlied }

/-- A published command is received. -/
theorem Record.Valid.received {r : Record} (h : r.Valid) {now : ℤ} (hs : r.status = .published)
    (hnone : r.terminalAt = none) (hlt : now < r.spec.deadline) (hp : r.Past now) :
    (Command.advanced r .received (r.version + 1) now).Valid := by
  obtain ⟨hpublished, hreceived⟩ := h.shaped.2.1 hs
  obtain ⟨published, hpublished⟩ := Option.isSome_iff_exists.mp hpublished
  have hord := h.ordered_past hp
  have hversion := h.version
  rw [hpublished, hreceived, hnone] at hord hversion
  exact {
    version := by simp [Command.advanced, hversion, hpublished, hnone, reached]
    deadline := h.deadline
    ordered := by rw [Command.advanced, hpublished, hnone]; exact hord
    milestones := fun _ => by rw [Command.advanced, hpublished]; rfl
    shape := by simp [Command.advanced, Record.shape, hpublished, hnone]
    publishedAt := h.publishedAt
    receivedAt := fun t ht => by cases ht; exact hlt
    timedOut := fun t _ hout => by cases hout
    applied := fun t _ happlied => by cases happlied }

/-- An active command ends. -/
theorem Record.Valid.ended {r : Record} (h : r.Valid) {status : Status} {now : ℤ}
    (hstatus : status.isTerminal = true) (hnone : r.terminalAt = none)
    (hrejected : status = .rejected → r.publishedAt.isSome)
    (happlied : status = .applied → r.receivedAt.isSome ∧ now < r.spec.deadline)
    (hout : status = .timedOut → r.spec.deadline ≤ now) (hp : r.Past now) :
    (Command.advanced r status (r.version + 1) now).Valid := by
  have hadvanced : Command.advanced r status (r.version + 1) now =
      { r with version := r.version + 1, status, terminalAt := some now } := by
    cases status <;> first | rfl | cases hstatus
  have hord := h.ordered_past hp
  have hversion := h.version
  rw [hnone] at hord hversion
  rw [hadvanced]
  exact {
    version := by simp [hversion, reached]
    deadline := h.deadline
    ordered := by
      have hsplit : [r.publishedAt, r.receivedAt, some now].reduceOption =
          [r.publishedAt, r.receivedAt, none].reduceOption ++ [now] := by
        cases r.publishedAt <;> cases r.receivedAt <;> rfl
      exact hsplit ▸ hord
    milestones := h.milestones
    shape := by
      unfold Record.shape
      cases status with
      | applied => simpa using (happlied rfl).1
      | rejected => simpa using hrejected rfl
      | _ => first | rfl | cases hstatus
    publishedAt := h.publishedAt
    receivedAt := h.receivedAt
    timedOut := fun t ht hs => by cases ht; exact hout hs
    applied := fun t ht hs => by cases ht; exact (happlied hs).2 }

/-- The record of a decision is valid when it is taken no earlier than the milestones. -/
theorem Record.Valid.advanced {r : Record} (h : r.Valid) {status : Status} {event : Event}
    {now : ℤ} (hd : decision r.status event (now ≥ r.spec.deadline) = .ok status)
    (hp : r.Past now) : (Command.advanced r status (r.version + 1) now).Valid := by
  obtain ⟨hactive, hne, hpub, hrec, happ, hrej, hout⟩ := decision_eq_ok hd
  simp only [decide_eq_false_iff_not, not_le, ge_iff_le, decide_eq_true_eq] at hpub hrec happ hout
  have hnone : r.terminalAt = none := by
    have := h.terminal_iff
    rw [hactive] at this
    simpa using this.symm
  cases status with
  | queued => exact absurd rfl hne
  | published => exact h.published (hpub rfl).1 hnone (hpub rfl).2 hp
  | received => exact h.received (hrec rfl).1 hnone (hrec rfl).2 hp
  | _ =>
      refine h.ended rfl hnone (fun hs => ?_) (fun hs => ?_) hout hp
      · exact h.isSome_published hactive (hrej hs)
      · exact ⟨h.shaped.2.2.1 (.inl (happ hs).1), (happ hs).2⟩

namespace Command

/-- Superseding needs a later authority, every other event the command's own. -/
def Authorized (c : Command) (event : Event) (current : Coordinate) : Prop :=
  if event = .supersede then current.Supersedes c.spec.coordinate
  else current = c.spec.coordinate

theorem transition_not_authorized {c : Command} {event : Event} {current : Coordinate} {now : ℤ}
    (h : ¬ c.Authorized event current) : c.transition event current now = .error .fenced := by
  unfold Authorized at h
  simp only [transition, if_pos h]

theorem transition_conflict {c : Command} {event : Event} {current : Coordinate} {now : ℤ}
    (hauth : c.Authorized event current)
    (h : event.contradicts c.spec.expected = true) :
    c.transition event current now = .error .conflict := by
  unfold Authorized at hauth
  simp only [transition, if_neg (not_not.mpr hauth), if_pos h]

theorem transition_decided {c : Command} {event : Event} {current : Coordinate} {now : ℤ}
    (hauth : c.Authorized event current)
    (h : event.contradicts c.spec.expected = false) :
    c.transition event current now =
      match decision c.status event (now ≥ c.spec.deadline) with
      | .error outcome => .ok (outcome, c)
      | .ok status => (do
          let version ← okOr (succ c.version) .versionOverflow
          let next ← restore (advanced c.record status version now)
          .ok (.advanced, next)) := by
  have hconsistent : ¬ (event.contradicts c.spec.expected = true) := by simp [h]
  exact (if_neg (not_not.mpr hauth)).trans (if_neg hconsistent)

/-- A transition leaves the command as it is, or advances it by one decision. -/
theorem transition_eq_ok {c c' : Command} {event : Event} {current : Coordinate} {now : ℤ}
    {outcome : Outcome} (h : c.transition event current now = .ok (outcome, c')) :
    c.Authorized event current ∧
      (decision c.status event (now ≥ c.spec.deadline) = .error outcome ∧ c' = c ∨
        outcome = .advanced ∧ ∃ status, decision c.status event (now ≥ c.spec.deadline) = .ok status ∧
          c'.record = advanced c.record status (c.version + 1) now) := by
  by_cases hauth : c.Authorized event current
  swap
  · rw [transition_not_authorized hauth] at h
    cases h
  by_cases hdigest : event.contradicts c.spec.expected = true
  · rw [transition_conflict hauth hdigest] at h
    cases h
  rw [transition_decided hauth (by simpa using hdigest)] at h
  refine ⟨hauth, ?_⟩
  split at h
  · rename_i hd
    cases h
    exact .inl ⟨hd, rfl⟩
  · rename_i status hd
    obtain ⟨version, hv, h⟩ := bind_eq_ok.mp h
    obtain ⟨next, hn, h⟩ := bind_eq_ok.mp h
    cases h
    have hv := succ_eq_some (okOr_eq_ok.mp hv)
    subst hv
    exact .inr ⟨rfl, status, hd, restore_eq_ok.mp hn⟩

theorem succ_version (c : Command) : succ c.version = some (c.version + 1) := by
  have hv : c.version ≤ 4 := c.record_valid.version_bounds.2
  unfold succ bigintMax
  rw [if_pos (by norm_num; omega)]

/-- An authorized transition no earlier than the milestones succeeds. -/
theorem transition_of_past {c : Command} {event : Event} {current : Coordinate} {now : ℤ}
    (hauth : c.Authorized event current)
    (hdigest : event.contradicts c.spec.expected = false)
    (hp : c.record.Past now) :
    ∃ outcome c', c.transition event current now = .ok (outcome, c') := by
  rw [transition_decided hauth hdigest]
  cases hd : decision c.status event (now ≥ c.spec.deadline) with
  | error outcome => exact ⟨outcome, c, rfl⟩
  | ok status =>
      have hvalid : (advanced c.record status (c.version + 1) now).Valid :=
        c.record_valid.advanced hd hp
      refine ⟨.advanced, ⟨_, validate_eq_ok.mpr hvalid⟩, ?_⟩
      simp only [succ_version, okOr_some, ok_bind]
      rw [restore_of_valid hvalid]
      rfl

/-- The clock never makes a transition fail on its own milestones. -/
theorem transition_ne_invalidSnapshot {c : Command} {event : Event} {current : Coordinate}
    {now : ℤ} (hp : c.record.Past now) :
    c.transition event current now ≠ .error .invalidSnapshot := by
  intro h
  have hfree : ¬ ∃ outcome c', c.transition event current now = .ok (outcome, c') := by
    rintro ⟨outcome, c', h'⟩
    rw [h] at h'
    cases h'
  by_cases hauth : c.Authorized event current
  · by_cases hdigest : event.contradicts c.spec.expected = true
    · rw [transition_conflict hauth hdigest] at h
      cases h
    · exact hfree (transition_of_past hauth (by simpa using hdigest) hp)
  · rw [transition_not_authorized hauth] at h
    cases h

/-- What a transition keeps and sets. -/
structure Advances (c c' : Command) (now : ℤ) : Prop where
  spec : c'.spec = c.spec
  queuedAt : c'.record.queuedAt = c.record.queuedAt
  version : c'.version = c.version + 1
  active : c.record.terminalAt = none
  past : c.record.Past now → c'.record.Past now

theorem advances_of_decision {c c' : Command} {event : Event} {status : Status} {now : ℤ}
    (hd : decision c.status event (now ≥ c.spec.deadline) = .ok status)
    (hc : c'.record = advanced c.record status (c.version + 1) now) : c.Advances c' now := by
  have hactive : c.record.terminalAt = none := by
    have := c.record_valid.terminal_iff
    rw [show c.record.status.isTerminal = false from (decision_eq_ok hd).1] at this
    simpa using this.symm
  refine ⟨?_, ?_, ?_, hactive, ?_⟩
  · unfold spec
    rw [hc]
    cases status <;> rfl
  · rw [hc]
    cases status <;> rfl
  · unfold version
    rw [hc]
    cases status <;> rfl
  · intro hp
    rw [hc]
    simp only [Record.Past, Record.mem_times] at hp ⊢
    cases status <;> grind [advanced]

end Command

end Rss.DeviceCommand
