import Rss.Verification.Saga.Journal

/-! # Live and replayed snapshots

A live snapshot is built by admitted events under one read budget, and its capacity may grow
on the way. Recovery replays the recorded events from the empty snapshot at today's capacity
and under a budget of its own. Both follow one history relation, so they agree on the head and
on every receipt. -/

namespace Rss.Saga

/-! ### Histories -/

/-- The events lead from the empty snapshot to the receipt sequences, the charged bytes and
the progress given. -/
inductive History (d : Definition) : List Event → List ℕ → ℕ → Progress → Prop where
  | nil : History d [] [] 0 Progress.empty
  | snoc {es : List Event} {receipts : List ℕ} {bytes n : ℕ} {p q : Progress} {e : Event} :
      History d es receipts bytes p → e.seq = es.length → Progress.Step d p e q →
      e.encodedBytes = .ok n →
      History d (es ++ [e])
        (if e.kind = .forwardApplied then receipts ++ [es.length] else receipts) (bytes + n) q

/-- The parts of a snapshot that its events determine are the ones of its history. -/
structure Snapshot.Recorded (s : Snapshot) : Prop where
  revision_eq : s.revision = s.events.length
  history : History s.definition s.events s.receiptSequences s.head.encodedBytes s.progress

theorem Snapshot.recorded_of_empty {H : Hashing} {d : Definition} {capacity : HistoryCapacity}
    {read : ReadBudget} {s : Snapshot} (h : empty H d capacity read = .ok s) : s.Recorded := by
  obtain ⟨-, rfl⟩ := empty_eq_ok h
  exact ⟨rfl, .nil⟩

theorem Snapshot.Recorded.accept {s : Snapshot} {e : Event} {q : Progress} {n : ℕ}
    (h : s.Recorded) (hseq : e.seq = s.revision)
    (hq : Progress.Step s.definition s.progress e q) (hn : e.encodedBytes = .ok n) :
    (s.accept e (s.headAfter q n)).Recorded := by
  constructor
  · rw [show (s.accept e (s.headAfter q n)).revision = s.revision + 1 from rfl, h.revision_eq]
    simp [Snapshot.accept]
  · exact h.history.snoc (hseq.trans h.revision_eq) hq hn

theorem Snapshot.Evolves.recorded {s s' : Snapshot} (h : Evolves s s') (hi : s.Inv)
    (hr : s.Recorded) : s'.Recorded := by
  cases h with
  | apply e h =>
      obtain ⟨_, hprep, rfl⟩ := apply_eq_ok.mp h
      obtain ⟨hseq, q, n, hq, hn, rfl, -⟩ :=
        (prepare_admission_iff hi.valid hi.progress).mp hprep
      exact hr.accept hseq hq hn
  | extendCapacity expected next h =>
      unfold Snapshot.extendCapacity at h
      split at h
      · cases h
      · cases h
        exact ⟨hr.revision_eq, hr.history⟩

theorem Snapshot.recorded_of_evolves {s s' : Snapshot} (h : Relation.ReflTransGen Evolves s s')
    (hi : s.Inv) (hr : s.Recorded) : s'.Recorded := by
  induction h with
  | refl => exact hr
  | tail hrun hstep ih => exact hstep.recorded (inv_of_evolves hrun hi) ih

/-! ### Replay succeeds on every prefix -/

theorem Progress.Step.forward_le {d : Definition} {p q : Progress} {e : Event}
    (h : Progress.Step d p e q) : p.forward ≤ q.forward := by
  cases h <;> simp

theorem History.inv {d : Definition} {es : List Event} {receipts : List ℕ} {bytes : ℕ}
    {p : Progress} (hd : d.Valid) (h : History d es receipts bytes p) : p.Inv d := by
  induction h with
  | nil => exact Progress.inv_empty hd
  | snoc _ _ hstep _ ih => exact hstep.inv hd ih

/-- The snapshot recovery builds from a history. -/
def Snapshot.replayed (d : Definition) (capacity : HistoryCapacity) (read : ReadBudget)
    (es : List Event) (receipts : List ℕ) (bytes : ℕ) (p : Progress) : Snapshot where
  definition := d
  events := es
  receiptSequences := receipts
  head := ⟨es.length, bytes, capacity, p⟩
  read := read

theorem Snapshot.prepare_of_read {s : Snapshot} {e : Event} {h : HistoryHead}
    (hseq : e.seq = s.revision) (ht : s.transition e = .ok h)
    (hread : h.checkRead s.read = .ok ()) : s.prepare e false = .ok h := by
  simp [Snapshot.prepare, hseq, ht, hread]

/-- A budget that admits a history admits each of its prefixes, so no replay step is refused. -/
theorem History.replay {d : Definition} {es : List Event} {receipts : List ℕ} {bytes : ℕ}
    {p : Progress} (hd : d.Valid) (h : History d es receipts bytes p)
    (capacity : HistoryCapacity) (read : ReadBudget)
    (hread : read.check es.length bytes p.forward = .ok ()) :
    es.foldlM Snapshot.replay (.replayed d capacity read [] [] 0 Progress.empty) =
      .ok (.replayed d capacity read es receipts bytes p) := by
  induction h with
  | nil => rfl
  | @snoc es receipts bytes n p q e hh hseq hq hn ih =>
      have hqi := hq.inv hd (hh.inv hd)
      have hqle := hqi.forward_le.trans hd.length_le
      have hple := hq.forward_le
      obtain ⟨⟨hentries, hbytes⟩, hwork⟩ := (HistoryHead.check_eq_ok (by omega)).mp hread
      rw [List.length_append, List.length_singleton] at hentries
      -- The prefix has fewer entries, fewer bytes and no more receipts.
      have hprefix : read.check es.length bytes p.forward = .ok () :=
        (HistoryHead.check_eq_ok (by omega)).mpr
          ⟨⟨by omega, by omega⟩, (Nat.mul_le_mul_right _ hple).trans hwork⟩
      have hmaxe := read.history.entries_le
      have hmaxb := read.history.bytes_le
      simp only [i64Max] at hmaxe hmaxb
      have ht : (Snapshot.replayed d capacity read es receipts bytes p).transition e =
          .ok ⟨es.length + 1, bytes + n, capacity, q⟩ :=
        Snapshot.transition_eq_ok.mpr ⟨q, n, hq, hn,
          show es.length + 1 < 2 ^ 64 by omega, show bytes + n < 2 ^ 64 by omega, rfl⟩
      rw [List.foldlM_append, ih hprefix, ok_bind, List.foldlM_cons]
      have hc : HistoryHead.checkRead ⟨es.length + 1, bytes + n, capacity, q⟩ read = .ok () := by
        simpa only [HistoryHead.checkRead, List.length_append, List.length_singleton] using hread
      rw [Snapshot.replay_eq_ok.mpr ⟨_, Snapshot.prepare_of_read hseq ht hc, rfl⟩, ok_bind]
      simp [Snapshot.accept, Snapshot.replayed, pure, Except.pure]

/-! ### Receipts -/

/-- The event is the recorded success of the step, with the receipt issued for it. -/
structure Event.Receives (e : Event) (step : ℕ) (es : List Event) : Prop where
  recorded : es[e.seq]? = some e
  kind_eq : e.kind = .forwardApplied
  step_eq : e.step = step
  receipt_eq : ∃ r, e.receipt = some r ∧ r.attempt = e.attempt ∧ r.seq = e.seq

theorem Event.Receives.snoc {e f : Event} {step : ℕ} {es : List Event}
    (h : f.Receives step es) : f.Receives step (es ++ [e]) := by
  refine ⟨?_, h.kind_eq, h.step_eq, h.receipt_eq⟩
  have hlt : f.seq < es.length := (List.getElem?_eq_some_iff.mp h.recorded).1
  rw [List.getElem?_append_left hlt]
  exact h.recorded

/-- Each applied step has its sequence at its own index, and nothing follows the last. -/
theorem History.receipts {d : Definition} {es : List Event} {receipts : List ℕ} {bytes : ℕ}
    {p : Progress} (hd : d.Valid) (h : History d es receipts bytes p) :
    receipts.length = p.forward ∧
      ∀ step < p.forward, ∃ e : Event, receipts[step]? = some e.seq ∧ e.Receives step es := by
  induction h with
  | nil => exact ⟨rfl, fun step hlt => absurd hlt (Nat.not_lt_zero _)⟩
  | @snoc es receipts bytes n p q e hh hseq hq hn ih =>
      obtain ⟨hlen, hall⟩ := ih
      by_cases hk : e.kind = .forwardApplied
      · rw [if_pos hk]
        cases hq with
        | forwardApplied r _ hr _ _ _ hp hra hrs =>
            obtain ⟨hf, -⟩ := (hh.inv hd).pendingForward hp rfl
            have hstep : e.step = p.forward := congrArg Intent.step (hf.pending_eq _ hp).1
            refine ⟨by simp [hlen], fun step hlt => ?_⟩
            by_cases hs : step = p.forward
            · refine ⟨e, by simp [hs, ← hlen, hseq], ⟨by simp [hseq], hk, hstep.trans hs.symm, ?_⟩⟩
              exact ⟨r, hr, hra, hrs⟩
            · have hlt' : step < p.forward := by
                simp only at hlt
                omega
              obtain ⟨f, hseqf, hf⟩ := hall step hlt'
              refine ⟨f, ?_, hf.snoc⟩
              rw [List.getElem?_append_left (by omega)]
              exact hseqf
        | _ => simp_all
      · rw [if_neg hk]
        have hfor : q.forward = p.forward := by
          cases hq with
          | forwardApplied => exact absurd ‹e.kind = .forwardApplied› hk
          | _ => rfl
        rw [hfor]
        refine ⟨hlen, fun step hlt => ?_⟩
        obtain ⟨f, hseqf, hf⟩ := hall step hlt
        exact ⟨f, hseqf, hf.snoc⟩

theorem History.receipt_ok {d : Definition} {es : List Event} {receipts : List ℕ} {bytes : ℕ}
    {p : Progress} (hd : d.Valid) (h : History d es receipts bytes p)
    (capacity : HistoryCapacity) (read : ReadBudget) {step : ℕ} (hlt : step < p.forward) :
    ∃ e, (Snapshot.replayed d capacity read es receipts bytes p).receipt step = .ok e ∧
      e.Receives step es := by
  obtain ⟨e, hseq, he⟩ := (h.receipts hd).2 step hlt
  exact ⟨e, by simp [Snapshot.receipt, Snapshot.replayed, hseq, he.recorded], he⟩

theorem History.receipt_error {d : Definition} {es : List Event} {receipts : List ℕ}
    {bytes : ℕ} {p : Progress} (hd : d.Valid) (h : History d es receipts bytes p)
    (capacity : HistoryCapacity) (read : ReadBudget) {step : ℕ} (hle : p.forward ≤ step) :
    (Snapshot.replayed d capacity read es receipts bytes p).receipt step =
      .error .receiptUnavailable := by
  have hnone : receipts[step]? = none := by
    rw [List.getElem?_eq_none_iff, (h.receipts hd).1]
    exact hle
  simp [Snapshot.receipt, Snapshot.replayed, hnone]

/-! ### Rejected calls -/

theorem Snapshot.applyMut_error {s s' : Snapshot} {e : Event} {err : ErrorKind}
    (h : ((applyMut e).run.run s).run = (.error err, s')) : s' = s := by
  unfold applyMut at h
  rw [run_check_set] at h
  cases hp : s.prepare e true <;> simp_all

theorem Snapshot.replayMut_error {s s' : Snapshot} {e : Event} {err : ErrorKind}
    (h : ((replayMut e).run.run s).run = (.error err, s')) : s' = s := by
  unfold replayMut at h
  rw [run_check_set] at h
  cases hp : s.prepare e false <;> simp_all

/-- The calls on `&mut self` do to their snapshot what the functions above compute. -/
theorem Snapshot.applyMut_ok {s s' : Snapshot} {e : Event} :
    ((applyMut e).run.run s).run = (.ok (), s') ↔ s.apply e = .ok s' := by
  unfold applyMut apply
  rw [run_check_set]
  cases hp : s.prepare e true <;> simp

theorem Snapshot.replayMut_ok {s s' : Snapshot} {e : Event} :
    ((replayMut e).run.run s).run = (.ok (), s') ↔ s.replay e = .ok s' := by
  unfold replayMut replay
  rw [run_check_set]
  cases hp : s.prepare e false <;> simp

/-! ### The live snapshot is its replay -/

/-- Replaying the events of a live snapshot from the empty one succeeds under every budget that
reads it whole and gives the same head. Each applied step resolves to its own recorded event on
both sides and no other step resolves. A rejected event leaves the snapshot it was offered to
as it was. -/
theorem replay_live {H : Hashing} {d : Definition} {capacity : HistoryCapacity}
    {read : ReadBudget} {s₀ s : Snapshot} (h₀ : Snapshot.empty H d capacity read = .ok s₀)
    (hr : Relation.ReflTransGen Snapshot.Evolves s₀ s) :
    (∀ read', s.head.checkRead read' = .ok () →
      ∃ t₀ t, Snapshot.empty H d s.head.capacity read' = .ok t₀ ∧
        s.events.foldlM Snapshot.replay t₀ = .ok t ∧ t.events = s.events ∧ t.head = s.head ∧
        (∀ step < s.progress.forward, ∃ e, s.receipt step = .ok e ∧ t.receipt step = .ok e ∧
          e.Receives step s.events) ∧
        ∀ step, s.progress.forward ≤ step →
          s.receipt step = .error .receiptUnavailable ∧
          t.receipt step = .error .receiptUnavailable) ∧
    ∀ (t t' : Snapshot) (e : Event) (err : ErrorKind),
      (((Snapshot.applyMut e).run.run t).run = (.error err, t') → t' = t) ∧
      (((Snapshot.replayMut e).run.run t).run = (.error err, t') → t' = t) := by
  refine ⟨fun read' hread => ?_,
    fun t t' e err => ⟨Snapshot.applyMut_error, Snapshot.replayMut_error⟩⟩
  have hi₀ := Snapshot.inv_of_empty h₀
  have hi := Snapshot.inv_of_evolves hr hi₀
  obtain ⟨hrev, hh⟩ := Snapshot.recorded_of_evolves hr hi₀ (Snapshot.recorded_of_empty h₀)
  obtain ⟨hvalid, rfl⟩ := Snapshot.empty_eq_ok h₀
  have hdef : s.definition = d := Snapshot.definition_of_evolves hr
  have hempty : Snapshot.empty H d s.head.capacity read' =
      .ok (.replayed d s.head.capacity read' [] [] 0 Progress.empty) := by
    rw [Snapshot.empty, hvalid]
    rfl
  have hhead : s.head = ⟨s.events.length, s.head.encodedBytes, s.head.capacity, s.progress⟩ := by
    rw [← hrev]
    rfl
  rw [hhead] at hread
  rw [hdef] at hh
  have hd : d.Valid := hdef ▸ hi.valid
  -- A live snapshot and the replayed one look receipts up in the same lists.
  have hsame : ∀ step, s.receipt step = (Snapshot.replayed d s.head.capacity read' s.events
      s.receiptSequences s.head.encodedBytes s.progress).receipt step := fun _ => rfl
  refine ⟨_, _, hempty, hh.replay hd s.head.capacity read' hread, rfl, hhead.symm, ?_, ?_⟩
  · intro step hlt
    obtain ⟨e, he, hrec⟩ := hh.receipt_ok hd s.head.capacity read' hlt
    exact ⟨e, (hsame step).trans he, he, hrec⟩
  · intro step hle
    have he := hh.receipt_error hd s.head.capacity read' hle
    exact ⟨(hsame step).trans he, he⟩

theorem replay_live_order :
    orderAborted.head.checkRead orderRead = .ok () ∧
      ∃ t₀ t, Snapshot.empty orderHashing orderDefinition orderCapacity orderRead = .ok t₀ ∧
        orderEvents.foldlM Snapshot.replay t₀ = .ok t ∧ t.head = orderAborted.head := by
  obtain ⟨s₀, h₀, hr⟩ := orderSnapshot_reachable orderSnapshot_aborted
  have hread : orderAborted.head.checkRead orderRead = .ok () := by decide +kernel
  obtain ⟨t₀, t, ht₀, ht, -, hhead, -⟩ := (replay_live h₀ hr).1 orderRead hread
  exact ⟨hread, t₀, t, ht₀, ht, hhead⟩

end Rss.Saga
