import Rss.Library.Runs
import Rss.Model.Observation.State
import Mathlib.Tactic

/-! # Integrity of the observation chain

What the outcomes of a stream say about the reports they classify. -/

namespace Rss.Observation

namespace State

/-! ### The transitions -/

/-- The transitions of a stream, by their outcome. -/
inductive Step (s : State) (e : Entry) : State → Prop where
  | stale (h : ℕ) (ho : e.outcome = .stale) (hh : s.highWater = some h)
      (hle : e.batch.sequence ≤ h) : Step s e { s with revision := s.revision + 1 }
  | snapshot (changes : List Change) (ho : e.outcome = .snapshot)
      (hnew : ∀ h ∈ s.highWater, h < e.batch.sequence) (hb : e.batch.body = .snapshot changes) :
      Step s e { s with
        revision := s.revision + 1
        highWater := some e.batch.sequence
        cursor := some e.batch.sequence
        baseline := some ⟨e.batch.id, e.batch.coverage, e.receivedAt + e.policy.baselineSeconds⟩
        need := none }
  | delta (b : Baseline) (baseline : Id) (previous : ℕ) (changes : List Change)
      (ho : e.outcome = .delta) (hnew : ∀ h ∈ s.highWater, h < e.batch.sequence)
      (hb : e.batch.body = .delta baseline previous changes) (hneed : s.need = none)
      (hbase : s.baseline = some b) (hlive : e.receivedAt < b.expiresAt) (hid : b.id = baseline)
      (hcoverage : b.coverage = e.batch.coverage) (hcursor : s.cursor = some previous)
      (hsucc : e.batch.sequence = previous + 1) :
      Step s e { s with
        revision := s.revision + 1
        highWater := some e.batch.sequence
        cursor := some e.batch.sequence }
  | need (reason : NeedSnapshot) (ho : e.outcome = .needSnapshot reason)
      (hnew : ∀ h ∈ s.highWater, h < e.batch.sequence)
      (hreason : s.need = some reason ∨ s.baseline ≠ none ∧ reason ≠ .missingBaseline ∨
        s.baseline = none ∧
          (reason = .missingBaseline ∨ reason = .partial_ ∨ reason = .collectionFailed)) :
      Step s e { s with
        revision := s.revision + 1
        highWater := some e.batch.sequence
        need := some reason }

theorem deltaFailure_eq_none {s : State} {batch : Batch} {baseline : Id} {previous now : ℕ}
    (h : s.deltaFailure batch baseline previous now = none) :
    s.need = none ∧ ∃ b, s.baseline = some b ∧ now < b.expiresAt ∧ b.id = baseline ∧
      b.coverage = batch.coverage ∧ s.cursor = some previous ∧ batch.sequence = previous + 1 := by
  unfold deltaFailure at h
  split at h
  · cases h
  · rename_i hneed
    split at h
    · cases h
    · rename_i b hbase
      split at h
      · cases h
      · rename_i hlive
        split at h
        · cases h
        · rename_i hmatch
          split at h
          · cases h
          · rename_i hgap
            simp only [not_or, ne_eq, not_not] at hmatch hgap
            obtain ⟨hsucc, -⟩ := checkedAdd_eq_some.mp hgap.2
            exact ⟨hneed, b, hbase, by omega, hmatch.1, hmatch.2, hgap.1, hsucc⟩

theorem deltaFailure_eq_some {s : State} {batch : Batch} {baseline : Id} {previous now : ℕ}
    {reason : NeedSnapshot} (h : s.deltaFailure batch baseline previous now = some reason) :
    s.need = some reason ∨ s.baseline ≠ none ∧ reason ≠ .missingBaseline ∨
      s.baseline = none ∧ reason = .missingBaseline := by
  unfold deltaFailure at h
  split at h
  · rename_i hneed
    exact .inl (hneed.trans h)
  · split at h
    · rename_i hbase
      exact .inr (.inr ⟨hbase, (Option.some.inj h).symm⟩)
    · rename_i b hbase
      refine .inr (.inl ⟨by simp [hbase], ?_⟩)
      rintro rfl
      split_ifs at h <;> cases h

theorem advance_step {s : State} {r : Report} {d : Decision}
    (h : s.advance r.batch r.receivedAt r.policy = .ok d) : Step s ⟨r, d.outcome⟩ d.after := by
  obtain ⟨revision, hrev, h⟩ := bind_eq_ok.mp h
  obtain ⟨rfl, -⟩ := checkedAdd_eq_some.mp (okOr_eq_ok.mp hrev)
  obtain ⟨⟨after, outcome⟩, hnext, h⟩ := bind_eq_ok.mp h
  obtain rfl := Except.ok.inj h
  dsimp only
  split at hnext
  · rename_i hstale
    obtain ⟨w, hw, hle⟩ := hstale
    cases hnext
    exact .stale w rfl hw hle
  · rename_i hnew
    have hnew : ∀ w ∈ s.highWater, w < r.batch.sequence := by
      intro w hw
      exact Nat.lt_of_not_le (fun hle => hnew ⟨w, hw, hle⟩)
    unfold applyNew at hnext
    split at hnext
    · rename_i changes hb
      obtain ⟨expiresAt, hexpires, hnext⟩ := bind_eq_ok.mp hnext
      obtain ⟨rfl, -⟩ := checkedAdd_eq_some.mp (okOr_eq_ok.mp hexpires)
      cases hnext
      exact .snapshot changes rfl hnew hb
    · cases hnext
      refine .need .partial_ rfl hnew ?_
      cases hbase : s.baseline <;> simp
    · cases hnext
      refine .need .collectionFailed rfl hnew ?_
      cases hbase : s.baseline <;> simp
    · rename_i baseline previous changes hb
      split at hnext
      · rename_i reason hfail
        cases hnext
        refine .need reason rfl hnew ?_
        have hcases := deltaFailure_eq_some hfail
        tauto
      · rename_i hfail
        cases hnext
        obtain ⟨hneed, b, hbase, hlive, hid, hcoverage, hcursor, hsucc⟩ :=
          deltaFailure_eq_none hfail
        exact .delta b baseline previous changes rfl hnew hb hneed hbase hlive hid hcoverage
          hcursor hsucc

theorem runs_foldl (reports : List Report) (stream : State × List Entry) :
    ∃ es, (reports.foldl record stream).2 = stream.2 ++ es ∧
      Runs Step stream.1 es (reports.foldl record stream).1 := by
  induction reports generalizing stream with
  | nil => exact ⟨[], by simp, .nil⟩
  | cons r reports ih =>
      obtain ⟨es, hes, hrun⟩ := ih (record stream r)
      rw [List.foldl_cons]
      unfold record at hes hrun ⊢
      split at hes
      · rename_i d hd
        simp only [hd] at hrun ⊢
        refine ⟨⟨r, d.outcome⟩ :: es, by simpa using hes, ?_⟩
        exact (Runs.single (advance_step hd)).trans hrun
      · rename_i err hd
        simp only [hd] at hrun ⊢
        exact ⟨es, hes, hrun⟩

/-- A fold of reports takes the transitions of its entries, one after the other. -/
theorem runs_fold (s : State) (reports : List Report) :
    Runs Step s (s.fold reports).2 (s.fold reports).1 := by
  obtain ⟨es, hes, hrun⟩ := runs_foldl reports (s, [])
  rw [List.nil_append] at hes
  rwa [← hes] at hrun

theorem runs_fold_append (s : State) (reports later : List Report) :
    ∃ es, Runs Step (s.fold reports).1 es (s.fold (reports ++ later)).1 := by
  obtain ⟨es, -, hrun⟩ := runs_foldl later (s.fold reports)
  refine ⟨es, ?_⟩
  have happend : s.fold (reports ++ later) = later.foldl record (s.fold reports) :=
    List.foldl_append
  rwa [happend]

end State

/-! ### What the state remembers -/

/-- The latest report that changed the facts. -/
def lastApplicable (es : List Entry) : Option Entry :=
  (es.filter (fun e => e.outcome.isApplicable)).getLast?

/-- The latest report that established a baseline. -/
def lastSnapshot (es : List Entry) : Option Entry :=
  (es.filter (fun e => e.outcome = .snapshot)).getLast?

def Entry.baseline (e : Entry) : Baseline :=
  ⟨e.batch.id, e.batch.coverage, e.receivedAt + e.policy.baselineSeconds⟩

/-- Every unusable report has been repaired by a later snapshot. -/
def Repaired (es : List Entry) : Prop :=
  ∀ (before : List Entry) (e : Entry) (after : List Entry) reason, es = before ++ e :: after →
    e.outcome = .needSnapshot reason → ∃ f ∈ after, f.outcome = .snapshot

theorem lastApplicable_snoc (es : List Entry) (e : Entry) :
    lastApplicable (es ++ [e]) =
      if e.outcome.isApplicable then some e else lastApplicable es := by
  unfold lastApplicable
  split <;> simp_all

theorem lastSnapshot_snoc (es : List Entry) (e : Entry) :
    lastSnapshot (es ++ [e]) = if e.outcome = .snapshot then some e else lastSnapshot es := by
  unfold lastSnapshot
  split <;> simp_all

theorem repaired_snoc_snapshot {es : List Entry} {e : Entry} (h : e.outcome = .snapshot) :
    Repaired (es ++ [e]) := by
  intro before f after reason heq hf
  rcases List.eq_nil_or_concat after with rfl | ⟨mid, g, rfl⟩
  · obtain ⟨-, rfl⟩ : es = before ∧ e = f := by simpa using heq
    simp [h] at hf
  · rw [List.concat_eq_append, ← List.cons_append, ← List.append_assoc] at heq
    obtain ⟨-, hg⟩ := List.append_inj' heq rfl
    obtain rfl := List.singleton_inj.mp hg
    exact ⟨e, by simp, h⟩

theorem Repaired.snoc {es : List Entry} {e : Entry} (h : Repaired es)
    (he : ∀ reason, e.outcome ≠ .needSnapshot reason) : Repaired (es ++ [e]) := by
  intro before f after reason heq hf
  rcases List.eq_nil_or_concat after with rfl | ⟨mid, g, rfl⟩
  · obtain ⟨-, rfl⟩ : es = before ∧ e = f := by simpa using heq
    exact absurd hf (he reason)
  · rw [List.concat_eq_append, ← List.cons_append, ← List.append_assoc] at heq
    obtain ⟨hes, -⟩ := List.append_inj' heq rfl
    obtain ⟨k, hk, hs⟩ := h before f mid reason hes hf
    exact ⟨k, by simp [hk], hs⟩

/-- The state as a summary of the entries that led to it. -/
structure Tracks (es : List Entry) (s : State) : Prop where
  highWater : ∀ e ∈ es, ∃ h ∈ s.highWater, e.batch.sequence ≤ h
  cursor : s.cursor = (lastApplicable es).map (fun e => e.batch.sequence)
  baseline : s.baseline = (lastSnapshot es).map Entry.baseline
  repaired : s.need = none → Repaired es
  ordered : ∀ c ∈ s.cursor, ∃ h ∈ s.highWater, c ≤ h

theorem tracks_initial : Tracks [] State.initial where
  highWater := by simp
  cursor := rfl
  baseline := rfl
  repaired := by
    intro _ before e after reason h
    simp at h
  ordered := by simp [State.initial]

/-- New sequences raise the high-water mark over everything recorded. -/
theorem Tracks.highWater_snoc {es : List Entry} {e : Entry} {s : State} (h : Tracks es s)
    (hnew : ∀ w ∈ s.highWater, w < e.batch.sequence) :
    ∀ f ∈ es ++ [e], f.batch.sequence ≤ e.batch.sequence := by
  intro f hf
  rcases List.mem_append.mp hf with hf | hf
  · obtain ⟨w, hw, hle⟩ := h.highWater f hf
    exact hle.trans (hnew w hw).le
  · rw [List.mem_singleton.mp hf]

theorem Tracks.step {es : List Entry} {e : Entry} {s s' : State} (h : Tracks es s)
    (hstep : s.Step e s') : Tracks (es ++ [e]) s' := by
  cases hstep with
  | stale w ho hw hle =>
      refine ⟨?_, ?_, ?_, fun hneed => (h.repaired hneed).snoc (by simp [ho]), h.ordered⟩
      · intro f hf
        rcases List.mem_append.mp hf with hf | hf
        · exact h.highWater f hf
        · rw [List.mem_singleton.mp hf]
          exact ⟨w, hw, hle⟩
      · simpa [lastApplicable_snoc, ho, SyncOutcome.isApplicable] using h.cursor
      · simpa [lastSnapshot_snoc, ho] using h.baseline
  | snapshot changes ho hnew hb =>
      refine ⟨fun f hf => ⟨_, rfl, h.highWater_snoc hnew f hf⟩, ?_, ?_,
        fun _ => repaired_snoc_snapshot ho, by simp⟩
      · simp [lastApplicable_snoc, ho, SyncOutcome.isApplicable]
      · simp [lastSnapshot_snoc, ho, Entry.baseline]
  | delta b baseline previous changes ho hnew hb hneed hbase hlive hid hcoverage hcursor hsucc =>
      refine ⟨fun f hf => ⟨_, rfl, h.highWater_snoc hnew f hf⟩, ?_, ?_,
        fun _ => (h.repaired hneed).snoc (by simp [ho]), by simp⟩
      · simp [lastApplicable_snoc, ho, SyncOutcome.isApplicable]
      · simpa [lastSnapshot_snoc, ho] using h.baseline
  | need reason ho hnew hreason =>
      refine ⟨fun f hf => ⟨_, rfl, h.highWater_snoc hnew f hf⟩, ?_, ?_, by simp, ?_⟩
      · simpa [lastApplicable_snoc, ho, SyncOutcome.isApplicable] using h.cursor
      · simpa [lastSnapshot_snoc, ho] using h.baseline
      · intro c hc
        obtain ⟨w, hw, hle⟩ := h.ordered c hc
        exact ⟨_, rfl, hle.trans (hnew w hw).le⟩

theorem tracks_of_runs {es : List Entry} {s : State} (h : Runs State.Step State.initial es s) :
    Tracks es s :=
  h.invariant tracks_initial (fun _ _ _ _ _ hi hstep => hi.step hstep)

/-! ### Stored states -/

theorem validBaseline_none {s : State} (hb : s.baseline = none) (hc : s.cursor = none) :
    s.validBaseline = true ↔ ∃ reason, s.need = some reason ∧
      (reason = .missingBaseline ∨ reason = .partial_ ∨ reason = .collectionFailed) := by
  simp only [State.validBaseline, hb, hc]
  cases s.need with
  | none => simp
  | some reason => cases reason <;> simp

theorem validBaseline_some {s : State} {b : Baseline} {c : ℕ} (hb : s.baseline = some b)
    (hc : s.cursor = some c) :
    s.validBaseline = true ↔ 0 < b.expiresAt ∧ ∃ w, s.highWater = some w ∧
      (s.need = none ∧ w = c ∨
        ∃ reason, s.need = some reason ∧ reason ≠ .missingBaseline ∧ c < w) := by
  simp only [State.validBaseline, hb, hc]
  cases s.need with
  | none => simp
  | some reason => cases s.highWater <;> simp [and_assoc]

/-- What `validate` checks. -/
structure Sound (s : State) : Prop where
  version : s.version = 1
  recorded : s = State.initial ∨ 0 < s.revision ∧ s.highWater ≠ none ∧
    s.cursor.isSome = s.baseline.isSome ∧ s.validBaseline = true

theorem Sound.step {s s' : State} {e : Entry} (h : Sound s) (hstep : s.Step e s') : Sound s' := by
  have hpos := e.policy.baseline_pos
  obtain ⟨hv, h⟩ := h
  cases hstep with
  | stale w ho hw hle =>
      refine ⟨hv, .inr ?_⟩
      rcases h with rfl | ⟨-, hh, hc, hb⟩
      · simp [State.initial] at hw
      · exact ⟨Nat.succ_pos _, hh, hc, hb⟩
  | snapshot changes ho hnew hb =>
      refine ⟨hv, .inr ⟨Nat.succ_pos _, by simp, rfl, (validBaseline_some rfl rfl).mpr ?_⟩⟩
      exact ⟨Nat.add_pos_right _ hpos, _, rfl, .inl ⟨rfl, rfl⟩⟩
  | delta b baseline previous changes ho hnew hb hneed hbase hlive hid hcoverage hcursor hsucc =>
      refine ⟨hv, .inr ⟨Nat.succ_pos _, by simp, by simp [hbase],
        (validBaseline_some (b := b) ?_ rfl).mpr ?_⟩⟩
      · exact hbase
      · exact ⟨by omega, _, rfl, .inl ⟨hneed, rfl⟩⟩
  | need reason ho hnew hreason =>
      refine ⟨hv, .inr ?_⟩
      rcases h with rfl | ⟨-, hh, hc, hvb⟩
      · refine ⟨Nat.succ_pos _, by simp, rfl, (validBaseline_none rfl rfl).mpr ?_⟩
        rcases hreason with h | ⟨h, -⟩ | ⟨-, h⟩
        · cases h
        · exact absurd rfl h
        · exact ⟨reason, rfl, h⟩
      · refine ⟨Nat.succ_pos _, by simp, hc, ?_⟩
        cases hbase : s.baseline with
        | none =>
            have hcur : s.cursor = none := by simpa [hbase] using hc
            obtain ⟨old, hold, hkind⟩ := (validBaseline_none hbase hcur).mp hvb
            refine (validBaseline_none rfl ?_).mpr ⟨reason, rfl, ?_⟩
            · exact hcur
            rcases hreason with h | ⟨h, -⟩ | ⟨-, h⟩
            · rwa [Option.some.inj (h.symm.trans hold)]
            · exact absurd hbase h
            · exact h
        | some b =>
            obtain ⟨c, hcur⟩ := Option.isSome_iff_exists.mp (hc.trans (by simp [hbase]))
            obtain ⟨hexp, w, hw, hkind⟩ := (validBaseline_some hbase hcur).mp hvb
            have hlt := hnew w hw
            refine (validBaseline_some (c := c) rfl ?_).mpr ⟨hexp, _, rfl, .inr ⟨reason, rfl, ?_, ?_⟩⟩
            · exact hcur
            · rcases hreason with h | ⟨-, h⟩ | ⟨h, -⟩
              · rcases hkind with ⟨hnone, -⟩ | ⟨old, hold, hne, -⟩
                · rw [h] at hnone
                  cases hnone
                · rwa [Option.some.inj (h.symm.trans hold)]
              · exact h
              · rw [hbase] at h
                cases h
            · rcases hkind with ⟨-, rfl⟩ | ⟨-, -, -, hcw⟩
              · exact hlt
              · exact hcw.trans hlt

theorem Sound.validate {s : State} (h : Sound s) : s.validate = .ok () := by
  obtain ⟨hv, rfl | ⟨hr, hh, hc, hb⟩⟩ := h
  · rfl
  · simp [State.validate, hv, hr.ne', hh, hc, hb]

theorem parsed_of_validate {s : State} (h : s.validate = .ok ()) : s.parsed = .ok () :=
  mapError_eq_ok.mpr h

theorem sound_of_runs {es : List Entry} {s : State} (h : Runs State.Step State.initial es s) :
    Sound s :=
  h.invariant (I := fun _ s => Sound s) ⟨rfl, .inl rfl⟩ (fun _ _ _ _ _ hi hstep => hi.step hstep)

/-- Every state a stream reaches is accepted when it is read back. -/
theorem validate_fold (reports : List Report) :
    (State.initial.fold reports).1.validate = .ok () :=
  (sound_of_runs (State.runs_fold _ reports)).validate

/-! ### The chain -/

/-- The first mark is no later than the second, where there is a first. -/
def Reaches (x y : Option ℕ) : Prop := ∀ a ∈ x, ∃ b ∈ y, a ≤ b

theorem Reaches.refl (x : Option ℕ) : Reaches x x := fun a ha => ⟨a, ha, le_refl a⟩

theorem Reaches.trans {x y z : Option ℕ} (h : Reaches x y) (h' : Reaches y z) : Reaches x z := by
  intro a ha
  obtain ⟨b, hb, hab⟩ := h a ha
  obtain ⟨c, hc, hbc⟩ := h' b hb
  exact ⟨c, hc, hab.trans hbc⟩

/-- A delta continues the chain of its baseline. -/
structure Continues (before : List Entry) (e : Entry) : Prop where
  exists_prior : ∃ prior snapshot baseline previous changes,
    e.batch.body = .delta baseline previous changes ∧
    lastApplicable before = some prior ∧ prior.batch.sequence = previous ∧
    e.batch.sequence = previous + 1 ∧
    lastSnapshot before = some snapshot ∧ snapshot.batch.id = baseline ∧
    snapshot.batch.coverage = e.batch.coverage ∧
    e.receivedAt < snapshot.receivedAt + snapshot.policy.baselineSeconds

/-- What the outcomes recorded so far say about their reports. -/
structure ChainIntegrity (es : List Entry) : Prop where
  delta : ∀ (before : List Entry) (e : Entry) (after : List Entry), es = before ++ e :: after →
    e.outcome = .delta → Continues before e
  repaired : ∀ (before : List Entry) (e : Entry) (mid : List Entry) (f : Entry) (after : List Entry)
    reason, es = before ++ e :: (mid ++ f :: after) → e.outcome = .needSnapshot reason →
    f.outcome = .delta → ∃ g ∈ mid, g.outcome = .snapshot
  snapshot : ∀ (before : List Entry) (e : Entry) (after : List Entry), es = before ++ e :: after →
    e.outcome = .snapshot → ∀ f ∈ before, f.batch.sequence < e.batch.sequence

theorem Tracks.continues {es : List Entry} {e : Entry} {s s' : State} (h : Tracks es s)
    (hstep : s.Step e s') (ho : e.outcome = .delta) : Continues es e ∧ Repaired es := by
  cases hstep with
  | delta b baseline previous changes _ hnew hb hneed hbase hlive hid hcoverage hcursor hsucc =>
      refine ⟨?_, h.repaired hneed⟩
      have hlast := h.cursor.symm.trans hcursor
      have hsnap := h.baseline.symm.trans hbase
      obtain ⟨prior, hprior, hseq⟩ := Option.map_eq_some_iff.mp hlast
      obtain ⟨snapshot, hsnapshot, rfl⟩ := Option.map_eq_some_iff.mp hsnap
      exact ⟨prior, snapshot, baseline, previous, changes, hb, hprior, hseq, hsucc, hsnapshot,
        hid, hcoverage, hlive⟩
  | stale _ h' _ _ => simp [ho] at h'
  | snapshot _ h' _ _ => simp [ho] at h'
  | need _ h' _ _ => simp [ho] at h'

theorem Tracks.snapshot_lt {es : List Entry} {e : Entry} {s s' : State} (h : Tracks es s)
    (hstep : s.Step e s') (ho : e.outcome = .snapshot) :
    ∀ f ∈ es, f.batch.sequence < e.batch.sequence := by
  intro f hf
  obtain ⟨w, hw, hle⟩ := h.highWater f hf
  cases hstep with
  | snapshot _ _ hnew _ => exact hle.trans_lt (hnew w hw)
  | stale _ h' _ _ => simp [ho] at h'
  | delta _ _ _ _ h' _ _ _ _ _ _ _ _ _ => simp [ho] at h'
  | need _ h' _ _ => simp [ho] at h'

theorem integrity_of_runs {es : List Entry} {s : State}
    (h : Runs State.Step State.initial es s) : ChainIntegrity es where
  delta := by
    rintro before e after rfl ho
    obtain ⟨m, m', hrun, hstep, -⟩ := h.split
    exact ((tracks_of_runs hrun).continues hstep ho).1
  repaired := by
    rintro before e mid f after reason heq he hf
    rw [← List.cons_append, ← List.append_assoc] at heq
    subst heq
    obtain ⟨m, m', hrun, hstep, -⟩ := h.split
    exact ((tracks_of_runs hrun).continues hstep hf).2 before e mid reason rfl he
  snapshot := by
    rintro before e after rfl ho
    obtain ⟨m, m', hrun, hstep, -⟩ := h.split
    exact (tracks_of_runs hrun).snapshot_lt hstep ho

theorem Tracks.reaches_step {es : List Entry} {e : Entry} {s s' : State} (h : Tracks es s)
    (hstep : s.Step e s') :
    Reaches s.highWater s'.highWater ∧ Reaches s.cursor s'.cursor := by
  -- a new cursor lies above the high-water mark, hence above the old cursor
  have hcursor : (∀ w ∈ s.highWater, w < e.batch.sequence) →
      Reaches s.cursor (some e.batch.sequence) := by
    intro hnew c hc
    obtain ⟨w, hw, hle⟩ := h.ordered c hc
    exact ⟨_, rfl, hle.trans (hnew w hw).le⟩
  cases hstep with
  | stale w ho hw hle => exact ⟨.refl _, .refl _⟩
  | snapshot _ _ hnew _ => exact ⟨fun w hw => ⟨_, rfl, (hnew w hw).le⟩, hcursor hnew⟩
  | delta _ _ _ _ _ hnew _ _ _ _ _ _ _ _ =>
      exact ⟨fun w hw => ⟨_, rfl, (hnew w hw).le⟩, hcursor hnew⟩
  | need _ _ hnew _ => exact ⟨fun w hw => ⟨_, rfl, (hnew w hw).le⟩, .refl _⟩

theorem reaches_of_runs {es fs : List Entry} {s s' : State}
    (h : Runs State.Step State.initial es s) (h' : Runs State.Step s fs s') :
    Reaches s.highWater s'.highWater ∧ Reaches s.cursor s'.cursor := by
  refine h'.invariant (I := fun _ s' => Reaches s.highWater s'.highWater ∧ Reaches s.cursor s'.cursor)
    ⟨.refl _, .refl _⟩ ?_
  rintro fs m e m' hrun ⟨hw, hc⟩ hstep
  obtain ⟨hw', hc'⟩ := (tracks_of_runs (h.trans hrun)).reaches_step hstep
  exact ⟨hw.trans hw', hc.trans hc'⟩

/-- The outcomes a stream records form unbroken chains, and its marks only rise. -/
theorem chain_integrity (reports : List Report) :
    ChainIntegrity (State.initial.fold reports).2 ∧
    Reaches (State.initial.fold reports).1.cursor (State.initial.fold reports).1.highWater ∧
    (∀ later, Reaches (State.initial.fold reports).1.highWater
        (State.initial.fold (reports ++ later)).1.highWater ∧
      Reaches (State.initial.fold reports).1.cursor
        (State.initial.fold (reports ++ later)).1.cursor) ∧
    ∀ batch receivedAt policy d,
      (State.initial.fold reports).1.advance batch receivedAt policy = .ok d →
      d.outcome = .stale →
      d.after = { (State.initial.fold reports).1 with
        revision := (State.initial.fold reports).1.revision + 1 } := by
  have hrun := State.runs_fold State.initial reports
  refine ⟨integrity_of_runs hrun, (tracks_of_runs hrun).ordered, ?_, ?_⟩
  · intro later
    obtain ⟨es, hlater⟩ := State.runs_fold_append State.initial reports later
    exact reaches_of_runs hrun hlater
  · intro batch receivedAt policy d hd ho
    have hstep := State.advance_step (r := ⟨batch, receivedAt, policy⟩) hd
    generalize d.after = after at hstep
    cases hstep with
    | stale _ _ _ _ => rfl
    | snapshot _ h' _ _ => simp [ho] at h'
    | delta _ _ _ _ h' _ _ _ _ _ _ _ _ _ => simp [ho] at h'
    | need _ h' _ _ => simp [ho] at h'

end Rss.Observation
