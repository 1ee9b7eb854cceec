import Rss.Verification.SagaPostgres.Commit

/-! # Discovery

`runnable` of the schema and `candidate_filter` of the reducer sort the stored instances into
the same sets. -/

namespace Rss.SagaPostgres

open Rss.Saga Rss.Sql

/-! ### Durable reservation -/

/-- A stored instance past its empty history holds everything it owes. -/
def Durable (s : Snapshot) : Prop := s.progress ≠ Progress.empty → s.head.FitsIn s.head.capacity

theorem Lives.durable {s s' : Snapshot} (h : Lives s s') (hs : Stored s) (hd : Durable s) :
    Durable s' := by
  obtain ⟨read, h⟩ := h
  replace hs : Stored { s with read } := ⟨hs.1, hs.2, hs.3, hs.4, hs.5⟩
  replace hd : Durable { s with read } := hd
  generalize { s with read } = s at h hs hd
  cases h with
  | apply e h =>
      obtain ⟨_, hprep, rfl⟩ := Snapshot.apply_eq_ok.mp h
      obtain ⟨-, q, n, -, -, rfl, hadm⟩ :=
        (Snapshot.prepare_admission_iff hs.valid hs.progress).mp hprep
      exact fun _ => hadm.durable
  | extendCapacity expected next h =>
      unfold Snapshot.extendCapacity at h
      split at h
      · cases h
      · rename_i hg
        simp only [not_or, ne_eq, not_not] at hg
        obtain ⟨rfl, hle, hlb, -⟩ := hg
        cases h
        exact fun hne => HistoryHead.FitsIn.mono (h := s.head) (hd hne) hle hlb

theorem durable_of_lives {s₀ s : Snapshot} (h : Relation.ReflTransGen Lives s₀ s)
    (hs : Stored s₀) (hd : Durable s₀) : Durable s := by
  induction h with
  | refl => exact hd
  | tail hrun hstep ih => exact hstep.durable (stored_of_lives hrun hs) ih

/-! ### The next event -/

/-- Neither terminal nor paused. -/
def Open (s : Snapshot) : Prop :=
  s.status = .ready ∨ s.status = .running ∨ s.status = .compensating

/-- The SQL predicate on the columns of a stored instance. -/
def runnableRow (s : Snapshot) : Outcome Truth :=
  runnable (some s.progress.encode) (some s.definition.encode) s.revision s.head.encodedBytes
    s.head.capacity.maxEntries s.head.capacity.maxEncodedBytes

/-- What both sides say about an instance, by what its next event is. -/
inductive Discovered (s : Snapshot) : Truth → Option CandidateFilter → Prop where
  | closed (h : ¬ Open s) : Discovered s (some false) none
  | pending (h : Open s) (hp : s.progress.pending.isSome) :
      Discovered s (some true) (some .runnable)
  | exhausted (h : Open s) (hp : s.progress.pending = none) (he : s.nextEvent = .ok none) :
      Discovered s none none
  | fits (h : Open s) (hp : s.progress.pending = none) {e : Event} {after : HistoryHead}
      {total : ℕ × ℕ} (he : s.nextEvent = .ok (some e)) (ht : s.transition e = .ok after)
      (hc : after.checkCapacity = .ok total) : Discovered s (some true) (some .runnable)
  | blocked (h : Open s) (hp : s.progress.pending = none) {e : Event} {after : HistoryHead}
      (he : s.nextEvent = .ok (some e)) (ht : s.transition e = .ok after)
      (hc : after.checkCapacity = .error (.historyLimited .durableCapacity)) :
      Discovered s (some false) (some .capacityBlocked)

/-- An event without receipt that the machine takes is not refused for its size alone. -/
theorem Stored.transition_of_step {s : Snapshot} {e : Event} {q : Progress} (hs : Stored s)
    (hq : Progress.Step s.definition s.progress e q) (hr : e.receipt = none) :
    s.transition e = .ok (s.headAfter q eventBytes) := by
  have hrev := hs.revision_lt
  have hbytes := hs.encodedBytes_lt
  refine Snapshot.transition_eq_ok.mpr
    ⟨q, eventBytes, hq, Event.encodedBytes_none hr, by omega, ?_, rfl⟩
  simp only [eventBytes]
  omega

/-- Once the next event is known to be a step, its size decides. -/
theorem Stored.candidateFilter_of_step {s : Snapshot} {e : Event} {q : Progress} (hs : Stored s)
    (ho : Open s) (hp : s.progress.pending = none) (he : s.nextEvent = .ok (some e))
    (hq : Progress.Step s.definition s.progress e q) (hr : e.receipt = none) :
    ∃ f, s.candidateFilter = .ok f ∧
      Discovered s (some (decide ((s.headAfter q eventBytes).FitsIn s.head.capacity))) f := by
  have ht := hs.transition_of_step hq hr
  have hi : (s.headAfter q eventBytes).progress.Inv s.definition := hq.inv hs.valid hs.progress
  have hopen : ¬ (s.status.isTerminal ∨ s.status = .compensationFailed) := by
    rcases ho with h | h | h <;> simp [h, Status.isTerminal]
  have hpn : ¬ s.progress.pending.isSome := by simp [hp]
  by_cases hfit : (s.headAfter q eventBytes).FitsIn s.head.capacity
  · have hc := HistoryHead.checkCapacity_of_fitsIn hs.valid hi hfit
    refine ⟨some .runnable, ?_, by rw [decide_eq_true hfit]; exact .fits ho hp he ht hc⟩
    simp only [Snapshot.candidateFilter, if_neg hopen, if_neg hpn, he, ht, hc, ok_bind]
  · have hc := HistoryHead.checkCapacity_of_not_fitsIn hs.valid hi hfit
    refine ⟨some .capacityBlocked, ?_, by rw [decide_eq_false hfit]; exact .blocked ho hp he ht hc⟩
    simp only [Snapshot.candidateFilter, if_neg hopen, if_neg hpn, he, ht, hc, ok_bind]

theorem numeric_num {j : Option Json} {key : String} {n : ℕ}
    (hj : member j key = some (encodeNat n)) : numeric j key = .ok (some (n : ℤ)) := by
  have ht : memberText j key = some (String.ofList (Json.digits n)) := by
    rw [memberText, hj]
    rfl
  rw [numeric, ht]
  simp [String.toList_ofList, integer?_digits, Except.map]

/-- The SQL end of an intent that the machine takes: the same comparison. -/
theorem Stored.intentFits_of_step {s : Snapshot} {e : Event} {q : Progress} (hs : Stored s)
    (hseq : e.seq = s.revision) (hr : e.receipt = none)
    (hq : Progress.Step s.definition s.progress e q) :
    intentFits (some s.progress.encode) (some s.definition.encode) s.revision
      s.head.encodedBytes s.head.capacity.maxEntries s.head.capacity.maxEncodedBytes
      (some (e.step : ℤ)) (some (e.attempt : ℤ)) e.kind.text =
    .ok (some (decide ((s.headAfter q eventBytes).FitsIn s.head.capacity))) := by
  obtain ⟨-, hb⟩ := step_attempt hs.ranged hs.progress hq
  obtain ⟨hdenotes, -⟩ := hs.denotes hseq hq
  have hranged := hs.ranged.step hs.valid hs.progress hq
  have hnot : less (some 4294967295) (some (e.attempt : ℤ)) ≠ some true := by
    simp only [less, comparing, Option.bind_some, Option.map_some, ne_eq, Option.some.injEq,
      decide_eq_true_eq, not_lt]
    omega
  have hdoc : (.obj [("seq", ofInteger (some (s.revision : ℤ))), ("step", ofInteger (some (e.step : ℤ))),
      ("attempt", ofInteger (some (e.attempt : ℤ))), ("kind", ofText (some e.kind.text)),
      ("receipt", .null)] : Json) = e.encode := by
    rw [Event.encode, hr, hseq]
    rfl
  have hnext := (nextProgress_eq_ok hs.valid hs.ranged hs.progress hdenotes).mpr ⟨q, hq, rfl⟩
  simp only [intentFits, if_neg hnot, hdoc, hnext, ok_bind, historyReserve_encode hranged,
    @numeric_num (some (.obj [("entries", encodeNat q.owedEntries), ("bytes", encodeNat q.owedBytes)]))
      "entries" _ rfl,
    @numeric_num (some (.obj [("entries", encodeNat q.owedEntries), ("bytes", encodeNat q.owedBytes)]))
      "bytes" _ rfl]
  have hentries : ((s.revision : ℤ) + 1 + q.owedEntries ≤ s.head.capacity.maxEntries) ↔
      s.revision + 1 + q.owedEntries ≤ s.head.capacity.maxEntries := by omega
  have hbytes : ((s.head.encodedBytes : ℤ) + 256 + q.owedBytes ≤ s.head.capacity.maxEncodedBytes) ↔
      s.head.encodedBytes + eventBytes + q.owedBytes ≤ s.head.capacity.maxEncodedBytes := by
    simp only [eventBytes]
    omega
  simp only [within, Option.map_some, hentries, hbytes, HistoryHead.FitsIn,
    HistoryCapacity.Contains, Snapshot.headAfter]
  by_cases h₁ : s.revision + 1 + q.owedEntries ≤ s.head.capacity.maxEntries <;>
    by_cases h₂ : s.head.encodedBytes + eventBytes + q.owedBytes ≤
      s.head.capacity.maxEncodedBytes <;> simp [h₁, h₂, Truth.and]

/-- An ordinal past the largest one ends both searches. -/
theorem intentFits_exhausted {p d : Option Json} {q bytes entries capacityBytes : ℤ}
    {step : Option ℤ} {attempt : ℕ} {kind : String} (h : ¬ attempt < 2 ^ 32) :
    intentFits p d q bytes entries capacityBytes step (some (attempt : ℤ)) kind = .ok none := by
  have hless : less (some 4294967295) (some (attempt : ℤ)) = some true := by
    simp only [less, comparing, Option.bind_some, Option.map_some, Option.some.injEq,
      decide_eq_true_eq]
    omega
  rw [intentFits, if_pos hless]

/-! ### The two predicates, by status -/

theorem memberText_status (p : Progress) :
    memberText (some p.encode) "status" = some p.status.text := rfl

theorem discovered_closed {s : Snapshot} (h : ¬ Open s) :
    runnableRow s = .ok (some false) ∧ s.candidateFilter = .ok none := by
  have hclosed : s.status.isTerminal = true ∨ s.status = .compensationFailed := by
    cases hs : s.status <;> simp_all [Open, Status.isTerminal]
  have hin : (isIn (some s.progress.status.text) ["Ready", "Running", "Compensating"]).map not =
      some true := by
    rw [Snapshot.progress_status]
    cases hs : s.status <;> simp_all [Open, isIn, Status.text]
  refine ⟨?_, by rw [Snapshot.candidateFilter, if_pos hclosed]⟩
  rw [runnableRow, runnable]
  simp only [memberText_status, hin, if_true]

/-- What both predicates look at once the instance is open. -/
theorem runnableRow_open {s : Snapshot} (h : Open s) :
    ¬ (isIn (some s.progress.status.text) ["Ready", "Running", "Compensating"]).map not =
      some true := by
  rw [Snapshot.progress_status]
  rcases h with h | h | h <;> simp [h, isIn, Status.text]

theorem candidateFilter_open {s : Snapshot} (h : Open s) :
    ¬ (s.status.isTerminal = true ∨ s.status = .compensationFailed) := by
  rcases h with h | h | h <;> simp [h, Status.isTerminal]

theorem discovered_pending {s : Snapshot} (h : Open s) (hp : s.progress.pending.isSome) :
    runnableRow s = .ok (some true) ∧ s.candidateFilter = .ok (some .runnable) := by
  have hopen : unequal (member (some s.progress.encode) "pending") (some .null) = some true := by
    have hmem : member (some s.progress.encode) "pending" =
        some (encodeOption Intent.encode s.progress.pending) := rfl
    rw [hmem, pending_open, hp]
  constructor
  · rw [runnableRow, runnable]
    simp only [memberText_status, if_neg (runnableRow_open h), hopen, if_true]
  · rw [Snapshot.candidateFilter, if_neg (candidateFilter_open h), if_pos hp]

theorem runnableRow_idle {s : Snapshot} (hp : s.progress.pending = none) :
    ¬ unequal (member (some s.progress.encode) "pending") (some .null) = some true := by
  have hmem : member (some s.progress.encode) "pending" =
      some (encodeOption Intent.encode s.progress.pending) := rfl
  rw [hmem, pending_open, hp]
  decide

/-- Both predicates follow the next event: none is left, or its size decides. -/
theorem Stored.discovered_next {s : Snapshot} (hs : Stored s) (ho : Open s)
    (hp : s.progress.pending = none) {next : Option Event} (he : s.nextEvent = .ok next)
    (hstep : ∀ e ∈ next, e.receipt = none ∧ ∃ q, Progress.Step s.definition s.progress e q ∧
      runnableRow s = .ok (some (decide ((s.headAfter q eventBytes).FitsIn s.head.capacity))))
    (hnone : next = none → runnableRow s = .ok none) :
    ∃ t f, runnableRow s = .ok t ∧ s.candidateFilter = .ok f ∧ Discovered s t f := by
  cases next with
  | none =>
      refine ⟨none, none, hnone rfl, ?_, .exhausted ho hp he⟩
      rw [Snapshot.candidateFilter, if_neg (candidateFilter_open ho), if_neg (by simp [hp]), he]
      rfl
  | some e =>
      obtain ⟨hr, q, hq, hrow⟩ := hstep e rfl
      obtain ⟨f, hf, hdis⟩ := hs.candidateFilter_of_step ho hp he hq hr
      exact ⟨_, f, hrow, hf, hdis⟩

theorem Stored.discovered_compensating {s : Snapshot} (hs : Stored s)
    (hst : s.status = .compensating) (hp : s.progress.pending = none) :
    ∃ t f, runnableRow s = .ok t ∧ s.candidateFilter = .ok f ∧ Discovered s t f := by
  have hc := hs.progress.compensation (.inl hst)
  obtain ⟨step, hstep, -⟩ := hc.compensation_lt
  have hlt := hs.progress.compensation_lt hstep
  have hattempt := hs.ranged.compensationAttempt
  have hrow : runnableRow s = intentFits (some s.progress.encode) (some s.definition.encode)
      s.revision s.head.encodedBytes s.head.capacity.maxEntries s.head.capacity.maxEncodedBytes
      (some (step : ℤ)) (some ((s.progress.compensationAttempt + 1 : ℕ) : ℤ))
      "CompensationIntent" := by
    have hcomp := bigint_compensation hs.ranged
    rw [hstep] at hcomp
    have hread : bigint (some s.progress.encode) "compensationAttempt" =
        .ok (some (s.progress.compensationAttempt : ℤ)) := bigint_num rfl (by omega)
    have hadd := add_one_nat (by omega : s.progress.compensationAttempt + 1 < 2 ^ 63)
    have hstatus : equal (some s.progress.status.text) (some "Compensating") = some true :=
      (equal_status _ .compensating).mpr hst
    simp only [runnableRow, runnable, memberText_status, if_neg (runnableRow_open (.inr (.inr hst))),
      if_neg (runnableRow_idle hp), hstatus, if_true, hcomp, hread, hadd, ok_bind, Option.map_some]
  have hnext : s.nextEvent = .ok ((checkedAdd 32 s.progress.compensationAttempt 1).map
      (fun attempt => ⟨s.revision, step, attempt, .compensationIntent, none⟩)) := by
    simp only [Snapshot.nextEvent, Snapshot.progress_status, hst, if_true, hstep, okOr_some, ok_bind]
    rfl
  apply hs.discovered_next (.inr (.inr hst)) hp hnext
  · intro e he
    obtain ⟨attempt, hadd, rfl⟩ := Option.map_eq_some_iff.mp he
    obtain ⟨rfl, hb⟩ := checkedAdd_eq_some.mp hadd
    have hq : Progress.Step s.definition s.progress
        ⟨s.revision, step, s.progress.compensationAttempt + 1, .compensationIntent, none⟩ _ :=
      .compensationIntent rfl rfl hlt hst hp hstep rfl hb
    exact ⟨rfl, _, hq, hrow.trans (hs.intentFits_of_step rfl rfl hq)⟩
  · intro hnone
    rw [hrow]
    apply intentFits_exhausted
    intro hb
    rw [checkedAdd_of_lt hb] at hnone
    cases hnone

/-- The forward branch of `runnable` on a stored instance. -/
theorem Stored.runnableRow_forward {s : Snapshot} (hs : Stored s)
    (hst : s.status = .ready ∨ s.status = .running) (hp : s.progress.pending = none) :
    runnableRow s =
      if s.definition.maxFailures s.progress.forward ≤ s.progress.forwardFailures then
        .ok (some true)
      else intentFits (some s.progress.encode) (some s.definition.encode) s.revision
        s.head.encodedBytes s.head.capacity.maxEntries s.head.capacity.maxEncodedBytes
        (some (s.progress.forward : ℤ)) (some ((s.progress.forwardAttempt + 1 : ℕ) : ℤ))
        "ForwardIntent" := by
  have hf := hs.progress.forward hst
  have hforward := hs.ranged.forward
  have hattempt := hs.ranged.forwardAttempt
  have hfailures := hs.ranged.forwardFailures
  have ho : Open s := hst.elim .inl (fun h => .inr (.inl h))
  have hstatus : ¬ equal (some s.progress.status.text) (some "Compensating") = some true := by
    intro h
    have hcomp : s.progress.status = .compensating := (equal_status _ .compensating).mp h
    rw [Snapshot.progress_status] at hcomp
    rcases hst with h | h <;> rw [h] at hcomp <;> cases hcomp
  have hreadf : bigint (some s.progress.encode) "forward" = .ok (some (s.progress.forward : ℤ)) :=
    bigint_num rfl (by omega)
  have hreada : bigint (some s.progress.encode) "forwardAttempt" =
      .ok (some (s.progress.forwardAttempt : ℤ)) := bigint_num rfl (by omega)
  have hreadl : bigint (some s.progress.encode) "forwardFailures" =
      .ok (some (s.progress.forwardFailures : ℤ)) := bigint_num rfl (by omega)
  have hadd := add_one_nat (by omega : s.progress.forwardAttempt + 1 < 2 ^ 63)
  simp only [runnableRow, runnable, memberText_status, if_neg (runnableRow_open ho),
    if_neg (runnableRow_idle hp), if_neg hstatus, hreadf, hreada, hreadl, hadd,
    maxFailures_encode hs.valid hf.forward_lt, ok_bind, not_less_nat]

theorem Stored.discovered_forward {s : Snapshot} (hs : Stored s) (hd : Durable s)
    (hst : s.status = .ready ∨ s.status = .running) (hp : s.progress.pending = none) :
    ∃ t f, runnableRow s = .ok t ∧ s.candidateFilter = .ok f ∧ Discovered s t f := by
  have hf := hs.progress.forward hst
  have ho : Open s := hst.elim .inl (fun h => .inr (.inl h))
  have hne : ¬ s.progress.status = .compensating := by
    rw [Snapshot.progress_status]
    rcases hst with h | h <;> rw [h] <;> decide
  have hspec : s.definition.steps[s.progress.forward]? =
      some (s.definition.steps.get ⟨s.progress.forward, hf.forward_lt⟩) := by
    simp [hf.forward_lt]
  have hmax : (s.definition.steps.get ⟨s.progress.forward, hf.forward_lt⟩).maxFailures.toNat =
      s.definition.maxFailures s.progress.forward := by
    simp [Definition.maxFailures, hf.forward_lt]
  have hrow := hs.runnableRow_forward hst hp
  by_cases hx : s.definition.maxFailures s.progress.forward ≤ s.progress.forwardFailures
  · -- The limit is used up: the abort was reserved for, so it is never blocked.
    rw [if_pos hx] at hrow
    obtain ⟨hready, hlast⟩ := hf.exhausted hx
    have hpos := hf.attempt_pos ((hs.valid.maxFailures_pos _ hf.forward_lt).trans_le hx)
    have hnext : s.nextEvent = .ok (some s.abortEvent) := by
      simp only [Snapshot.nextEvent, if_neg hne, hspec, okOr_some, ok_bind, hmax, ge_iff_le,
        if_pos hx]
      rfl
    have hq : Progress.Step s.definition s.progress s.abortEvent _ :=
      .abort rfl rfl hf.forward_lt hpos hready hp rfl rfl hx hlast
    have hfit := Snapshot.fitsIn_headAfter hs.progress hq (Event.encodedBytes_none rfl)
      (.inr (.inl rfl)) (hd (by rintro h; simp [h, Progress.empty] at hlast))
    obtain ⟨f, hf', hdis⟩ := hs.candidateFilter_of_step ho hp hnext hq rfl
    rw [decide_eq_true hfit] at hdis
    exact ⟨_, f, hrow, hf', hdis⟩
  · rw [if_neg hx] at hrow
    have hnext : s.nextEvent = .ok ((checkedAdd 32 s.progress.forwardAttempt 1).map
        (fun attempt => ⟨s.revision, s.progress.forward, attempt, .forwardIntent, none⟩)) := by
      simp only [Snapshot.nextEvent, if_neg hne, hspec, okOr_some, ok_bind, hmax, ge_iff_le,
        if_neg hx]
      rfl
    apply hs.discovered_next ho hp hnext
    · intro e he
      obtain ⟨attempt, hadd, rfl⟩ := Option.map_eq_some_iff.mp he
      obtain ⟨rfl, hb⟩ := checkedAdd_eq_some.mp hadd
      have hq : Progress.Step s.definition s.progress
          ⟨s.revision, s.progress.forward, s.progress.forwardAttempt + 1, .forwardIntent, none⟩ _ :=
        .forwardIntent rfl rfl hf.forward_lt hst hp rfl rfl hb (not_le.mp hx)
      exact ⟨rfl, _, hq, hrow.trans (hs.intentFits_of_step rfl rfl hq)⟩
    · intro hnone
      rw [hrow]
      apply intentFits_exhausted
      intro hb
      rw [checkedAdd_of_lt hb] at hnone
      cases hnone

theorem Stored.discovered {s : Snapshot} (hs : Stored s) (hd : Durable s) :
    ∃ t f, runnableRow s = .ok t ∧ s.candidateFilter = .ok f ∧ Discovered s t f := by
  by_cases ho : Open s
  · cases hp : s.progress.pending with
    | some i =>
        obtain ⟨hrow, hfilter⟩ := discovered_pending ho (by simp [hp])
        exact ⟨_, _, hrow, hfilter, .pending ho (by simp [hp])⟩
    | none =>
        rcases ho with hst | hst | hst
        · exact hs.discovered_forward hd (.inl hst) hp
        · exact hs.discovered_forward hd (.inr hst) hp
        · exact hs.discovered_compensating hst hp
  · obtain ⟨hrow, hfilter⟩ := discovered_closed ho
    exact ⟨_, _, hrow, hfilter, .closed ho⟩

/-! ### Agreement of the discovery sets -/

/-- On every reachable instance the SQL predicate and the filter both answer, and they agree:
true is runnable, false on an open instance is blocked by its capacity, and null is an exhausted
ordinal. An idle instance is runnable exactly when its next event passes the capacity check. -/
theorem discovery_agrees {H : Hashing} {d : Definition} {capacity : HistoryCapacity}
    {read : ReadBudget} {s₀ s : Snapshot} (h₀ : Snapshot.empty H d capacity read = .ok s₀)
    (hr : Relation.ReflTransGen Lives s₀ s) :
    ∃ t f, runnableRow s = .ok t ∧ s.candidateFilter = .ok f ∧
      (t = some true ↔ f = some .runnable) ∧
      (t = some false ∧ Open s ↔ f = some .capacityBlocked) ∧
      (t = none ↔ f = none ∧ Open s) ∧
      (t = none → s.nextEvent = .ok none) ∧
      (f = some .runnable ∧ s.progress.pending = none ↔
        Open s ∧ s.progress.pending = none ∧ ∃ e after total, s.nextEvent = .ok (some e) ∧
          s.transition e = .ok after ∧ after.checkCapacity = .ok total) := by
  have hs₀ := stored_of_empty h₀
  have hd₀ : Durable s₀ := by
    obtain ⟨-, rfl⟩ := Snapshot.empty_eq_ok h₀
    exact fun hne => absurd rfl hne
  obtain ⟨t, f, hrow, hfilter, hdis⟩ :=
    (stored_of_lives hr hs₀).discovered (durable_of_lives hr hs₀ hd₀)
  refine ⟨t, f, hrow, hfilter, ?_⟩
  cases hdis with
  | closed h => simp [h]
  | pending h hp => simp [h, Option.ne_none_iff_isSome.mpr hp]
  | exhausted h hp he => simp [h, hp, he]
  | @fits h hp e after total he ht hc =>
      obtain ⟨entries, bytes⟩ := total
      simp [h, hp, he, ht, hc]
  | @blocked h hp e after he ht hc => simp [h, hp, he, ht, hc]

/-- The aborted order waits for its first compensation, which both sides find. -/
theorem discovery_agrees_order :
    orderAborted.candidateFilter = .ok (some .runnable) ∧
      runnableRow orderAborted = .ok (some true) := by
  obtain ⟨s₀, h₀, hr⟩ := orderSnapshot_reachable orderSnapshot_aborted
  obtain ⟨t, f, hrow, hfilter, htrue, -⟩ :=
    discovery_agrees h₀ (Relation.ReflTransGen.mono (fun _ _ => lives_of_evolves) _ _ hr)
  have hrunnable : orderAborted.candidateFilter = .ok (some .runnable) := by decide +kernel
  obtain rfl := Except.ok.inj (hfilter.symm.trans hrunnable)
  exact ⟨hfilter, hrow.trans (congrArg Except.ok (htrue.mpr rfl))⟩

end Rss.SagaPostgres
