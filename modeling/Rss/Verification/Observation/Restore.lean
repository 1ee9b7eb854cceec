import Rss.Model.Observation.Text
import Rss.Verification.Observation.Chain

/-! # Restored states

Every state a stream reaches is accepted when it is read back, and its decisions recompute. In
the other direction the check is one state kind too wide: it takes a first revision that already
needs a new snapshot for the baseline it has. -/

namespace Rss.Observation

/-! ### Reachable states -/

/-- Some reports lead from the initial state to this one. -/
def State.Reachable (s : State) : Prop :=
  ∃ reports : List Report, (∀ r ∈ reports, r.WellFormed) ∧ (State.initial.fold reports).1 = s

theorem State.fold_append_fst (s : State) (reports later : List Report) :
    (s.fold (reports ++ later)).1 = ((s.fold reports).1.fold later).1 := by
  have hrecord : ∀ (rs : List Report) (t : State) (log log' : List Entry),
      (rs.foldl record (t, log)).1 = (rs.foldl record (t, log')).1 := by
    intro rs
    induction rs with
    | nil => exact fun _ _ _ => rfl
    | cons r rs ih =>
        intro t log log'
        rw [List.foldl_cons, List.foldl_cons]
        unfold record
        dsimp only
        split <;> exact ih _ _ _
  rw [fold, List.foldl_append]
  exact hrecord later _ _ _

theorem State.fold_single (s : State) (r : Report) :
    (s.fold [r]).1 = match s.advance r.batch r.receivedAt r.policy with
      | .ok d => d.after
      | .error _ => s := by
  rw [fold, List.foldl_cons, List.foldl_nil, record]
  split <;> simp_all

theorem State.reachable_initial : State.initial.Reachable := ⟨[], by simp, rfl⟩

theorem State.Reachable.advance {s : State} {r : Report} {d : Decision} (h : s.Reachable)
    (hr : r.WellFormed) (hd : s.advance r.batch r.receivedAt r.policy = .ok d) :
    d.after.Reachable := by
  obtain ⟨reports, hwell, rfl⟩ := h
  refine ⟨reports ++ [r], ?_, ?_⟩
  · intro r' hr'
    rcases List.mem_append.mp hr' with h | h
    · exact hwell r' h
    · rwa [List.mem_singleton.mp h]
  · rw [fold_append_fst, fold_single, hd]

/-- Reports at or below the high water count revisions and change nothing else. -/
theorem State.Reachable.stale {s : State} {r : Report} {h : ℕ} (hs : s.Reachable)
    (hr : r.WellFormed) (hh : s.highWater = some h) (hle : r.batch.sequence ≤ h) (n : ℕ)
    (hn : s.revision + n < 2 ^ 64) : State.Reachable { s with revision := s.revision + n } := by
  induction n with
  | zero => exact hs
  | succ n ih =>
      have hstale : ∃ w ∈ s.highWater, r.batch.sequence ≤ w := ⟨h, hh, hle⟩
      have hadd : checkedAdd 64 (s.revision + n) 1 = some (s.revision + n + 1) :=
        checkedAdd_of_lt (by omega)
      have hadv : State.advance { s with revision := s.revision + n } r.batch r.receivedAt r.policy =
          .ok ⟨1, { s with revision := s.revision + n },
            { s with revision := s.revision + n + 1 }, .stale⟩ := by
        simp only [State.advance, hadd, okOr_some, ok_bind, if_pos hstale]
      exact (ih (by omega)).advance hr hadv

/-! ### Reachable states are restored -/

theorem State.Step.inRange {s s' : State} {e : Entry} (h : s.Step e s') (hs : s.InRange)
    (he : e.batch.sequence < 2 ^ 64) (hrev : s'.revision < 2 ^ 64)
    (hexp : ∀ b ∈ s'.baseline, b.expiresAt < 2 ^ 64) : s'.InRange := by
  obtain ⟨hv, -, hh, hc, -⟩ := hs
  cases h with
  | stale => exact ⟨hv, hrev, hh, hc, hexp⟩
  | snapshot => exact ⟨hv, hrev, by simpa using he, by simpa using he, hexp⟩
  | delta => exact ⟨hv, hrev, by simpa using he, by simpa using he, hexp⟩
  | need => exact ⟨hv, hrev, by simpa using he, hc, hexp⟩

theorem State.applyNew_expiresAt {s after : State} {batch : Batch} {receivedAt : ℕ}
    {policy : Policy} {outcome : SyncOutcome}
    (h : s.applyNew batch receivedAt policy = .ok (after, outcome))
    (hs : ∀ b ∈ s.baseline, b.expiresAt < 2 ^ 64) :
    after.revision = s.revision ∧ ∀ b ∈ after.baseline, b.expiresAt < 2 ^ 64 := by
  unfold applyNew at h
  split at h
  · obtain ⟨expiresAt, hexpires, h⟩ := bind_eq_ok.mp h
    obtain ⟨rfl, hlt⟩ := checkedAdd_eq_some.mp (okOr_eq_ok.mp hexpires)
    cases h
    refine ⟨rfl, fun b hb => ?_⟩
    obtain rfl := Option.some.inj hb
    exact hlt
  · cases h
    exact ⟨rfl, hs⟩
  · cases h
    exact ⟨rfl, hs⟩
  · split at h <;> cases h <;> exact ⟨rfl, hs⟩

/-- A decision keeps every number within its field. -/
theorem State.advance_inRange {s : State} {r : Report} {d : Decision} (hs : s.InRange)
    (hr : r.WellFormed) (h : s.advance r.batch r.receivedAt r.policy = .ok d) :
    d.version = 1 ∧ d.before = s ∧ d.after.InRange := by
  have hstep := advance_step h
  obtain ⟨revision, hrev, h⟩ := bind_eq_ok.mp h
  obtain ⟨rfl, hlt⟩ := checkedAdd_eq_some.mp (okOr_eq_ok.mp hrev)
  obtain ⟨⟨after, outcome⟩, hnext, h⟩ := bind_eq_ok.mp h
  obtain rfl := Except.ok.inj h
  have hnumbers : after.revision = s.revision + 1 ∧ ∀ b ∈ after.baseline, b.expiresAt < 2 ^ 64 := by
    split at hnext
    · cases hnext
      exact ⟨rfl, hs.expiresAt⟩
    · exact applyNew_expiresAt hnext hs.expiresAt
  exact ⟨rfl, rfl, hstep.inRange hs hr.sequence (hnumbers.1 ▸ hlt) hnumbers.2⟩

theorem State.inRange_fold {reports : List Report} (hwell : ∀ r ∈ reports, r.WellFormed)
    {s : State} (hs : s.InRange) : (s.fold reports).1.InRange := by
  induction reports generalizing s with
  | nil => exact hs
  | cons r reports ih =>
      have hrest := fun r' hr' => hwell r' (List.mem_cons_of_mem _ hr')
      rw [show r :: reports = [r] ++ reports from rfl, fold_append_fst, fold_single]
      cases hd : s.advance r.batch r.receivedAt r.policy with
      | error e => exact ih hrest hs
      | ok d => exact ih hrest (advance_inRange hs (hwell r List.mem_cons_self) hd).2.2

theorem State.Reachable.inRange {s : State} (h : s.Reachable) : s.InRange := by
  obtain ⟨reports, hwell, rfl⟩ := h
  apply inRange_fold hwell
  exact ⟨by decide, Nat.two_pow_pos 64, nofun, nofun, nofun⟩

theorem State.Reachable.validate {s : State} (h : s.Reachable) : s.validate = .ok () := by
  obtain ⟨reports, -, rfl⟩ := h
  exact validate_fold reports

/-- A decision on a reachable state is restored from its text, under its own inputs. -/
theorem State.Reachable.restore {τ : Type} {w : Wire τ} (hw : w.RoundTrips) {s : State}
    {r : Report} {d : Decision} (h : s.Reachable) (hr : r.WellFormed)
    (hd : s.advance r.batch r.receivedAt r.policy = .ok d) :
    d.before.validate = .ok () ∧ d.after.validate = .ok () ∧
      Decision.restoreText w (d.encode w) r.batch r.receivedAt r.policy = .ok d := by
  obtain ⟨hversion, rfl, hafter⟩ := advance_inRange h.inRange hr hd
  have hb := h.validate
  have ha := (h.advance hr hd).validate
  refine ⟨hb, ha, ?_⟩
  have hrange : d.InRange := ⟨by rw [hversion]; decide, h.inRange, hafter⟩
  simp [Decision.restoreText, Decision.encode, hw.decision d hrange, Decision.restore,
    parsed_of_validate hb, parsed_of_validate ha, hversion, hd]

/-! ### Accepted states are reachable, one kind apart -/

theorem State.advance_new {s after : State} {r : Report} {outcome : SyncOutcome}
    (hnew : ∀ h ∈ s.highWater, h < r.batch.sequence) (hrev : s.revision + 1 < 2 ^ 64)
    (h : State.applyNew { s with
      revision := s.revision + 1
      highWater := some r.batch.sequence } r.batch r.receivedAt r.policy = .ok (after, outcome)) :
    s.advance r.batch r.receivedAt r.policy = .ok ⟨1, s, after, outcome⟩ := by
  have hfresh : ¬ ∃ h ∈ s.highWater, r.batch.sequence ≤ h :=
    fun ⟨w, hw, hle⟩ => absurd (hnew w hw) (Nat.not_lt.mpr hle)
  simp only [State.advance, checkedAdd_of_lt hrev, okOr_some, ok_bind, if_neg hfresh, h]

/-- One more report above the high water. -/
theorem State.Reachable.report {s after : State} (r : Report) (outcome : SyncOutcome)
    (h : s.Reachable) (hr : r.WellFormed) (hnew : ∀ h ∈ s.highWater, h < r.batch.sequence)
    (hrev : s.revision + 1 < 2 ^ 64)
    (happly : State.applyNew { s with
      revision := s.revision + 1
      highWater := some r.batch.sequence } r.batch r.receivedAt r.policy = .ok (after, outcome)) :
    after.Reachable :=
  h.advance hr (advance_new hnew hrev happly)

def shortPolicy : Policy := ⟨1, 1, 1, by omega, by omega, by omega, by simp [maxSeconds],
  by simp [maxSeconds]⟩

def firstId : Id := ⟨"a", by simp, by decide, by simp [isControl]⟩

def secondId : Id := ⟨"b", by simp, by decide, by simp [isControl]⟩

def firstCoverage : Coverage := ⟨firstId, firstId, firstId, firstId⟩

/-- A report without changes. -/
def bareReport (id : Id) (coverage : Coverage) (sequence receivedAt : ℕ) (body : Body) : Report :=
  ⟨⟨id, sequence, 0, coverage, body⟩, receivedAt, shortPolicy⟩

theorem wellFormed_bareReport {id : Id} {coverage : Coverage} {sequence receivedAt : ℕ}
    {body : Body} (hs : sequence < 2 ^ 64) (hr : receivedAt < 2 ^ 64)
    (hbody : body.normalize = .ok body)
    (hp : ∀ baseline previous changes, body = .delta baseline previous changes →
      previous < 2 ^ 64) : (bareReport id coverage sequence receivedAt body).WellFormed :=
  ⟨hs, Nat.two_pow_pos 63, hr, hp, hbody⟩

theorem normalizeChanges_nil (snapshot : Bool) : normalizeChanges snapshot [] = .ok [] := by
  simp [normalizeChanges]

theorem wellFormed_delta {id baseline : Id} {coverage : Coverage}
    {sequence receivedAt previous : ℕ} (hs : sequence < 2 ^ 64) (hr : receivedAt < 2 ^ 64)
    (hp : previous < 2 ^ 64) :
    (bareReport id coverage sequence receivedAt (.delta baseline previous [])).WellFormed := by
  apply wellFormed_bareReport hs hr
  · simp [Body.normalize, normalizeChanges_nil]
  · intro b p changes h
    cases h
    exact hp

/-- Bodies other than a delta, without changes. -/
theorem wellFormed_collected {id : Id} {coverage : Coverage} {sequence receivedAt : ℕ}
    {body : Body} (hbody : body = .snapshot [] ∨ body = .partial_ [] ∨ body = .failed firstId)
    (hs : sequence < 2 ^ 64) (hr : receivedAt < 2 ^ 64) :
    (bareReport id coverage sequence receivedAt body).WellFormed := by
  apply wellFormed_bareReport hs hr
  · rcases hbody with rfl | rfl | rfl <;> simp [Body.normalize, normalizeChanges_nil]
  · rcases hbody with rfl | rfl | rfl <;> simp

/-- The first report of a stream can leave any sequence and each reason without a baseline. -/
theorem reachable_unbased {h : ℕ} {reason : NeedSnapshot} (hh : h < 2 ^ 64)
    (hreason : reason = .missingBaseline ∨ reason = .partial_ ∨ reason = .collectionFailed) :
    State.Reachable ⟨1, 1, some h, none, none, some reason⟩ := by
  have hzero : (0 : ℕ) < 2 ^ 64 := Nat.two_pow_pos 64
  have hrev : State.initial.revision + 1 < 2 ^ 64 := by decide
  rcases hreason with rfl | rfl | rfl
  · exact State.reachable_initial.report
      (bareReport firstId firstCoverage h 0 (.delta firstId 0 [])) (.needSnapshot .missingBaseline)
      (wellFormed_delta hh hzero hzero) nofun hrev rfl
  · exact State.reachable_initial.report
      (bareReport firstId firstCoverage h 0 (.partial_ [])) (.needSnapshot .partial_)
      (wellFormed_collected (.inr (.inl rfl)) hh hzero) nofun hrev rfl
  · exact State.reachable_initial.report
      (bareReport firstId firstCoverage h 0 (.failed firstId)) (.needSnapshot .collectionFailed)
      (wellFormed_collected (.inr (.inr rfl)) hh hzero) nofun hrev rfl

theorem reachable_based {b : Baseline} {c : ℕ} (hb : 0 < b.expiresAt)
    (hlt : b.expiresAt < 2 ^ 64) (hc : c < 2 ^ 64) :
    State.Reachable ⟨1, 1, some c, some c, some b, none⟩ := by
  have hexpires : checkedAdd 64 (b.expiresAt - 1) 1 = some b.expiresAt := by
    rw [checkedAdd_of_lt (by omega)]
    congr 1
    omega
  apply State.reachable_initial.report
    (bareReport b.id b.coverage c (b.expiresAt - 1) (.snapshot [])) .snapshot
    (wellFormed_collected (.inl rfl) hc (by omega)) nofun (by decide)
  simp [State.applyNew, bareReport, shortPolicy, hexpires, State.initial]

/-- A later report can leave every reason but the missing baseline. -/
theorem reachable_needing {b : Baseline} {c h : ℕ} {reason : NeedSnapshot} (hb : 0 < b.expiresAt)
    (hlt : b.expiresAt < 2 ^ 64) (hch : c < h) (hh : h < 2 ^ 64)
    (hreason : reason ≠ .missingBaseline) :
    State.Reachable ⟨1, 2, some h, some c, some b, some reason⟩ := by
  have hbase := reachable_based hb hlt (hch.trans hh)
  have hrev : (⟨1, 1, some c, some c, some b, none⟩ : State).revision + 1 < 2 ^ 64 := by norm_num
  have hnew : ∀ w ∈ (⟨1, 1, some c, some c, some b, none⟩ : State).highWater, w < h := by
    intro w hw
    obtain rfl := Option.some.inj hw
    exact hch
  have hzero : (0 : ℕ) < 2 ^ 64 := Nat.two_pow_pos 64
  cases reason with
  | missingBaseline => exact absurd rfl hreason
  | baselineMismatch =>
      -- A baseline identifier other than the recorded one.
      obtain ⟨other, hother⟩ : ∃ other : Id, b.id ≠ other := by
        by_cases he : b.id = firstId
        · exact ⟨secondId, by rw [he]; decide⟩
        · exact ⟨firstId, he⟩
      apply hbase.report (bareReport firstId b.coverage h 0 (.delta other 0 []))
        (.needSnapshot .baselineMismatch) (wellFormed_delta hh hzero hzero) hnew hrev
      simp [State.applyNew, bareReport, State.deltaFailure, hb.ne', hother, State.require]
  | gap =>
      -- A predecessor other than the cursor.
      obtain ⟨previous, hprevious, hp⟩ : ∃ previous, c ≠ previous ∧ previous < 2 ^ 64 := by
        by_cases hc : c = 0
        · exact ⟨1, by omega, by norm_num⟩
        · exact ⟨0, hc, hzero⟩
      apply hbase.report (bareReport firstId b.coverage h 0 (.delta b.id previous []))
        (.needSnapshot .gap) (wellFormed_delta hh hzero hp) hnew hrev
      simp [State.applyNew, bareReport, State.deltaFailure, hb.ne', hprevious, State.require]
  | baselineExpired =>
      apply hbase.report (bareReport firstId b.coverage h b.expiresAt (.delta b.id 0 []))
        (.needSnapshot .baselineExpired) (wellFormed_delta hh hlt hzero) hnew hrev
      simp [State.applyNew, bareReport, State.deltaFailure, State.require]
  | partial_ =>
      exact hbase.report (bareReport firstId firstCoverage h 0 (.partial_ []))
        (.needSnapshot .partial_) (wellFormed_collected (.inr (.inl rfl)) hh hzero) hnew hrev rfl
  | collectionFailed =>
      exact hbase.report (bareReport firstId firstCoverage h 0 (.failed firstId))
        (.needSnapshot .collectionFailed) (wellFormed_collected (.inr (.inr rfl)) hh hzero) hnew
        hrev rfl

/-- The accepted state kind that no history has: a first revision with a baseline that already
needs another. -/
def State.Premature (s : State) : Prop :=
  s.revision = 1 ∧ s.baseline.isSome = true ∧ s.need.isSome = true

instance (s : State) : Decidable s.Premature := inferInstanceAs (Decidable (_ ∧ _ ∧ _))

/-- A report that repeats the high water raises the revision alone. -/
theorem State.Reachable.raise {s : State} {h n : ℕ} (hs : s.Reachable) (hh : s.highWater = some h)
    (hle : s.revision ≤ n) (hn : n < 2 ^ 64) : State.Reachable { s with revision := n } := by
  have hlt : h < 2 ^ 64 := hs.inRange.highWater h hh
  have hraised := hs.stale (wellFormed_collected (.inr (.inl rfl)) hlt (Nat.two_pow_pos 64) :
    (bareReport firstId firstCoverage h 0 (.partial_ [])).WellFormed) hh (le_refl h)
    (n - s.revision) (by omega)
  rwa [Nat.add_sub_cancel' hle] at hraised

theorem State.reachable_of_validate {s : State} (hrange : s.InRange)
    (hv : s.validate = .ok ()) (hp : ¬ s.Premature) : s.Reachable := by
  obtain ⟨version, revision, highWater, cursor, baseline, need⟩ := s
  obtain ⟨-, hrev, hhigh, hcur, hexp⟩ := hrange
  simp only at hrev hhigh hcur hexp
  unfold validate at hv
  split at hv
  · cases hv
  · rename_i hversion
    obtain rfl : version = 1 := not_not.mp hversion
    split at hv
    · split at hv
      · rename_i hinit
        rw [hinit]
        exact reachable_initial
      · cases hv
    · rename_i hpos
      simp only at hpos
      split at hv
      · cases hv
      · rename_i hchecks
        simp only [not_or, ne_eq, not_not, Bool.not_eq_false] at hchecks
        obtain ⟨hsome, hboth, hbase⟩ := hchecks
        obtain ⟨h, rfl⟩ := Option.ne_none_iff_exists'.mp hsome
        have hh := hhigh h rfl
        cases baseline with
        | none =>
            obtain rfl : cursor = none := by simpa using hboth
            obtain ⟨reason, rfl, hreason⟩ := (validBaseline_none rfl rfl).mp hbase
            exact (reachable_unbased hh hreason).raise rfl (Nat.one_le_iff_ne_zero.mpr hpos) hrev
        | some b =>
            obtain ⟨c, rfl⟩ := Option.isSome_iff_exists.mp hboth
            obtain ⟨hb, w, hw, hkind⟩ := (validBaseline_some rfl rfl).mp hbase
            obtain rfl := Option.some.inj hw
            rcases hkind with ⟨rfl, rfl⟩ | ⟨reason, rfl, hne, hlt⟩
            · exact (reachable_based hb (hexp b rfl) hh).raise rfl
                (Nat.one_le_iff_ne_zero.mpr hpos) hrev
            · have htwo : 2 ≤ revision := by
                by_contra hsmall
                exact hp ⟨by simp only; omega, rfl, rfl⟩
              exact (reachable_needing hb (hexp b rfl) hlt hh hne).raise rfl htwo hrev

/-! ### No history is premature -/

/-- A first revision has no baseline and a need at once. -/
theorem State.Step.not_premature {s s' : State} {e : Entry} (h : s.Step e s')
    (hs : s.revision = 0 → s = State.initial) : ¬ s'.Premature := by
  rintro ⟨hrev, hbase, hneed⟩
  have hzero : s.revision = 0 := by
    cases h <;> simpa using hrev
  obtain rfl := hs hzero
  cases h with
  | stale w _ hw _ => cases hw
  | snapshot => cases hneed
  | delta b _ _ _ _ _ _ _ hb => cases hb
  | need => cases hbase

theorem State.Reachable.not_premature {s : State} (h : s.Reachable) : ¬ s.Premature := by
  obtain ⟨reports, -, rfl⟩ := h
  have hrun := runs_fold State.initial reports
  generalize (State.initial.fold reports).1 = s at hrun
  generalize (State.initial.fold reports).2 = es at hrun
  cases hrun with
  | nil =>
      rintro ⟨hrev, -⟩
      cases hrev
  | snoc hrun hstep =>
      apply hstep.not_premature
      intro hzero
      obtain ⟨-, hinit | ⟨hpos, -⟩⟩ := sound_of_runs hrun
      · exact hinit
      · omega

/-! ### Restoring -/

/-- A text that is not read is invalid input, whatever is wrong with its state. -/
theorem State.decode_eq_error {τ : Type} {w : Wire τ} {raw : τ} {e : ErrorKind}
    (h : State.decode w raw = .error e) : e = .invalidInput := by
  unfold State.decode at h
  cases hparse : w.parseState raw with
  | none =>
      rw [hparse] at h
      exact (Except.error.inj h).symm
  | some s =>
      rw [hparse] at h
      change s.parsed >>= (fun _ => Except.ok s) = Except.error e at h
      unfold State.parsed at h
      cases hvalid : s.validate with
      | error e' =>
          rw [hvalid] at h
          exact (Except.error.inj h).symm
      | ok u =>
          rw [hvalid] at h
          cases h

/-- Every reachable state is accepted, and a decision on it is restored from its own text; a
report that fails to advance leaves the stream as it is. A state read back is reachable exactly
when it is not premature. -/
theorem restore_reachable {τ : Type} {w : Wire τ} (hw : w.RoundTrips) :
    (∀ s : State, s.Reachable → s.validate = .ok () ∧ State.decode w (s.encode w) = .ok s ∧
      ∀ r : Report, r.WellFormed →
        (∀ d, s.advance r.batch r.receivedAt r.policy = .ok d →
          d.before.validate = .ok () ∧ d.after.validate = .ok () ∧
          Decision.restoreText w (d.encode w) r.batch r.receivedAt r.policy = .ok d) ∧
        ∀ e log, s.advance r.batch r.receivedAt r.policy = .error e →
          State.record (s, log) r = (s, log)) ∧
    ∀ raw s, State.decode w raw = .ok s → (s.Reachable ↔ ¬ s.Premature) := by
  refine ⟨fun s hs => ⟨hs.validate, ?_, fun r hr => ⟨fun d hd => hs.restore hw hr hd, ?_⟩⟩, ?_⟩
  · simp [State.decode, State.encode, hw.state s hs.inRange, parsed_of_validate hs.validate]
  · intro e log he
    simp [State.record, he]
  · intro raw s hdecode
    obtain ⟨s', hparse, hdecode⟩ := bind_eq_ok.mp hdecode
    obtain ⟨_, hv, hdecode⟩ := bind_eq_ok.mp hdecode
    obtain rfl := Except.ok.inj hdecode
    have hrange := hw.state_inRange raw _ (okOr_eq_ok.mp hparse)
    have hvalid := mapError_eq_ok.mp hv
    exact ⟨fun h => h.not_premature, fun hp => State.reachable_of_validate hrange hvalid hp⟩

/-! ### A premature state -/

/-- Texts that are the values themselves. -/
def plainWire : Wire (State ⊕ Decision) where
  state := .inl
  parseState
    | .inl s => if s.InRange then some s else none
    | .inr _ => none
  decision := .inr
  parseDecision
    | .inl _ => none
    | .inr d => some d

theorem plainWire_roundTrips : plainWire.RoundTrips where
  state s hs := if_pos hs
  state_inRange raw s h := by
    cases raw with
    | inl s' =>
        simp only [plainWire, Option.ite_none_right_eq_some, Option.some.injEq] at h
        exact h.2 ▸ h.1
    | inr d => cases h
  decision _ _ := rfl

/-- One revision, a baseline at sequence 3, and a gap already seen at sequence 5. -/
def gapState : State := ⟨1, 1, some 5, some 3, some ⟨firstId, firstCoverage, 100⟩, some .gap⟩

theorem decode_gapState : State.decode plainWire (.inl gapState) = .ok gapState := by
  decide

theorem restore_reachable_gap :
    State.decode plainWire (.inl gapState) = .ok gapState ∧ ¬ gapState.Reachable := by
  have hiff := (restore_reachable plainWire_roundTrips).2 _ _ decode_gapState
  exact ⟨decode_gapState, fun h => hiff.mp h (by decide)⟩

/-- The check takes a state that no history has. -/
theorem decode_accepts_unreachable :
    ¬ ∀ (τ : Type) (w : Wire τ), w.RoundTrips →
      ∀ raw s, State.decode w raw = .ok s → s.Reachable := by
  intro h
  have hreach := h _ plainWire plainWire_roundTrips _ _ decode_gapState
  exact hreach.not_premature (by decide)

end Rss.Observation
