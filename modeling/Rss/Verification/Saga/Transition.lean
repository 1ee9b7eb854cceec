import Rss.Model.Saga.Progress
import Mathlib.Tactic

/-! # One saga transition

`Progress.Step` lists what an accepted event can do, guards included. Every later proof
about progress splits on it and never unfolds the transition function. -/

namespace Rss.Saga

/-! ### Validated definitions -/

theorem StepSpec.new_maxFailures {name receiptSchema forwardScope compensationScope : String}
    {maxFailures : UInt32} {spec : StepSpec}
    (h : StepSpec.new name receiptSchema forwardScope compensationScope maxFailures = .ok spec) :
    maxFailures ≠ 0 := by
  intro h0
  unfold StepSpec.new at h
  obtain ⟨_, _, h⟩ := bind_eq_ok.mp h
  rw [h0] at h
  cases h

theorem Definition.checkSteps_positive {names : List String} {steps : List StepSpec}
    (h : checkSteps names steps = .ok ()) : ∀ spec ∈ steps, spec.maxFailures ≠ 0 := by
  induction steps generalizing names with
  | nil => simp
  | cons step steps ih =>
      unfold checkSteps at h
      obtain ⟨spec, hnew, h⟩ := bind_eq_ok.mp h
      intro s hs
      rcases List.mem_cons.mp hs with rfl | hs
      · exact StepSpec.new_maxFailures hnew
      · split at h
        · cases h
        · exact ih h s hs

/-- The shape every validated definition has. -/
structure Definition.Valid (d : Definition) : Prop where
  steps_ne : d.steps ≠ []
  length_le : d.steps.length ≤ 1024
  maxFailures_pos : ∀ i < d.steps.length, 0 < d.maxFailures i

theorem Definition.maxFailures_lt (d : Definition) (i : ℕ) : d.maxFailures i < 2 ^ 32 := by
  unfold maxFailures
  split
  · exact UInt32.toNat_lt _
  · simp

theorem Definition.valid_of_validate {H : Hashing} {d : Definition}
    (h : d.validate H = .ok ()) : d.Valid := by
  unfold validate Definition.new at h
  obtain ⟨_, hnew, _⟩ := bind_eq_ok.mp h
  obtain ⟨_, _, hnew⟩ := bind_eq_ok.mp hnew
  split at hnew
  · cases hnew
  · rename_i hlen
    obtain ⟨_, hsteps, _⟩ := bind_eq_ok.mp hnew
    simp only [List.isEmpty_iff, not_or] at hlen
    refine ⟨hlen.1, by omega, ?_⟩
    intro i hi
    have hpos := checkSteps_positive hsteps d.steps[i] (List.getElem_mem hi)
    simp only [maxFailures, List.getElem?_eq_getElem hi]
    exact Nat.pos_of_ne_zero (fun hz => hpos (UInt32.toNat_inj.mp hz))

/-! ### The transition relation -/

namespace Progress

/-- The transitions of the saga machine. The rules do not invoke `transition`. -/
inductive Step (d : Definition) (p : Progress) (e : Event) : Progress → Prop where
  | forwardIntent (hk : e.kind = .forwardIntent) (hr : e.receipt = none)
      (hn : e.step < d.steps.length) (hs : p.status = .ready ∨ p.status = .running)
      (hp : p.pending = none) (hf : e.step = p.forward)
      (ha : e.attempt = p.forwardAttempt + 1) (hb : e.attempt < 2 ^ 32)
      (hm : p.forwardFailures < d.maxFailures e.step) :
      Step d p e { p with
        forwardAttempt := e.attempt
        pending := some ⟨e.step, e.attempt, .forwardIntent⟩
        status := .running
        lastKind := some .forwardIntent }
  | forwardApplied (r : ProtectedReceipt) (hk : e.kind = .forwardApplied)
      (hr : e.receipt = some r) (hn : e.step < d.steps.length) (ha : 0 < e.attempt)
      (hs : p.status.isTerminal = false)
      (hp : p.pending = some ⟨e.step, e.attempt, .forwardIntent⟩)
      (hra : r.attempt = e.attempt) (hrs : r.seq = e.seq) :
      Step d p e { p with
        forward := p.forward + 1
        forwardAttempt := 0
        forwardFailures := 0
        pending := none
        status := if p.forward + 1 = d.steps.length then .succeeded else .running
        lastKind := some .forwardApplied }
  | forwardNotApplied (hk : e.kind = .forwardNotApplied) (hr : e.receipt = none)
      (hn : e.step < d.steps.length) (ha : 0 < e.attempt) (hs : p.status.isTerminal = false)
      (hp : p.pending = some ⟨e.step, e.attempt, .forwardIntent⟩)
      (hb : p.forwardFailures + 1 < 2 ^ 32) :
      Step d p e { p with
        pending := none
        forwardFailures := p.forwardFailures + 1
        status := .ready
        lastKind := some .forwardNotApplied }
  | forwardProbeNotApplied (hk : e.kind = .forwardProbeNotApplied) (hr : e.receipt = none)
      (hn : e.step < d.steps.length) (ha : 0 < e.attempt) (hs : p.status.isTerminal = false)
      (hp : p.pending = some ⟨e.step, e.attempt, .forwardIntent⟩) :
      Step d p e { p with
        pending := none
        status := .ready
        lastKind := some .forwardProbeNotApplied }
  | abort (hk : e.kind = .abort) (hr : e.receipt = none) (hn : e.step < d.steps.length)
      (ha : 0 < e.attempt) (hs : p.status = .ready) (hp : p.pending = none)
      (hf : e.step = p.forward) (hat : e.attempt = p.forwardAttempt)
      (hm : d.maxFailures e.step ≤ p.forwardFailures)
      (hl : p.lastKind = some .forwardNotApplied) :
      Step d p e { p with
        compensation := checkedSub p.forward 1
        compensationAttempt := 0
        status := if checkedSub p.forward 1 = none then .compensated else .compensating
        lastKind := some .abort }
  | compensationIntent (hk : e.kind = .compensationIntent) (hr : e.receipt = none)
      (hn : e.step < d.steps.length) (hs : p.status = .compensating) (hp : p.pending = none)
      (hc : p.compensation = some e.step) (ha : e.attempt = p.compensationAttempt + 1)
      (hb : e.attempt < 2 ^ 32) :
      Step d p e { p with
        compensationAttempt := e.attempt
        pending := some ⟨e.step, e.attempt, .compensationIntent⟩
        lastKind := some .compensationIntent }
  | compensationApplied (hk : e.kind = .compensationApplied) (hr : e.receipt = none)
      (hn : e.step < d.steps.length) (ha : 0 < e.attempt) (hs : p.status = .compensating)
      (hp : p.pending = some ⟨e.step, e.attempt, .compensationIntent⟩) :
      Step d p e { p with
        pending := none
        compensation := checkedSub e.step 1
        compensationAttempt := 0
        status := if checkedSub e.step 1 = none then .compensated else .compensating
        lastKind := some .compensationApplied }
  | compensationNotApplied (hk : e.kind = .compensationNotApplied) (hr : e.receipt = none)
      (hn : e.step < d.steps.length) (ha : 0 < e.attempt) (hs : p.status = .compensating)
      (hp : p.pending = some ⟨e.step, e.attempt, .compensationIntent⟩) :
      Step d p e { p with
        pending := none
        lastKind := some .compensationNotApplied }
  | compensationFailed (hk : e.kind = .compensationFailed) (hr : e.receipt = none)
      (hn : e.step < d.steps.length) (ha : 0 < e.attempt) (hs : p.status = .compensating)
      (hp : p.pending = some ⟨e.step, e.attempt, .compensationIntent⟩) :
      Step d p e { p with
        pending := none
        status := .compensationFailed
        lastKind := some .compensationFailed }
  | resume (hk : e.kind = .resume) (hr : e.receipt = none) (hn : e.step < d.steps.length)
      (ha : 0 < e.attempt) (hs : p.status = .compensationFailed) (hp : p.pending = none)
      (hc : p.compensation = some e.step) (hat : e.attempt = p.compensationAttempt) :
      Step d p e { p with
        status := .compensating
        lastKind := some .resume }

theorem Step.execution {d : Definition} {p q : Progress} {e : Event} (h : Step d p e q) :
    p.transition d e = .ok q := by
  cases h with
  | forwardIntent hk hr hn hs hp hf ha hb hm =>
      have hc : checkedAdd 32 p.forwardAttempt 1 = some e.attempt := by
        rw [ha] at hb ⊢
        exact checkedAdd_of_lt hb
      have ht : p.status.isTerminal = false := by
        rcases hs with hs | hs <;> simp [hs, Status.isTerminal]
      have h0 : e.attempt ≠ 0 := by omega
      simp [transition, advance, hk, hr, hs, hp, hc, ht, h0, ← hf, Nat.not_le.mpr hn,
        Nat.not_le.mpr hm]
  | forwardApplied r hk hr hn ha hs hp hra hrs =>
      simp [transition, advance, Matches, hk, hr, hs, hp, hra, hrs, hn,
        Nat.pos_iff_ne_zero.mp ha]
  | forwardNotApplied hk hr hn ha hs hp hb =>
      simp [transition, advance, Matches, hk, hr, hs, hp, hn, Nat.pos_iff_ne_zero.mp ha,
        checkedAdd_of_lt hb]
  | forwardProbeNotApplied hk hr hn ha hs hp =>
      simp [transition, advance, Matches, hk, hr, hs, hp, hn,
        Nat.pos_iff_ne_zero.mp ha]
  | abort hk hr hn ha hs hp hf hat hm hl =>
      simp [transition, advance, hk, hr, hs, hp, hl, Status.isTerminal, Nat.not_le.mpr hn,
        Nat.pos_iff_ne_zero.mp ha, ← hf, ← hat, Nat.not_lt.mpr hm]
  | compensationIntent hk hr hn hs hp hc ha hb =>
      have hc' : checkedAdd 32 p.compensationAttempt 1 = some e.attempt := by
        rw [ha] at hb ⊢
        exact checkedAdd_of_lt hb
      have h0 : e.attempt ≠ 0 := by omega
      simp [transition, advance, hk, hr, hs, hp, hc, hc', Status.isTerminal, hn, h0]
  | compensationApplied hk hr hn ha hs hp =>
      simp [transition, advance, Matches, hk, hr, hs, hp, hn, Status.isTerminal,
        Nat.pos_iff_ne_zero.mp ha]
  | compensationNotApplied hk hr hn ha hs hp =>
      simp [transition, advance, Matches, hk, hr, hs, hp, hn, Status.isTerminal,
        Nat.pos_iff_ne_zero.mp ha]
  | compensationFailed hk hr hn ha hs hp =>
      simp [transition, advance, Matches, hk, hr, hs, hp, hn, Status.isTerminal,
        Nat.pos_iff_ne_zero.mp ha]
  | resume hk hr hn ha hs hp hc hat =>
      simp [transition, advance, hk, hr, hs, hp, hc, ← hat, hn, Status.isTerminal,
        Nat.pos_iff_ne_zero.mp ha]

/-- What the guards shared by all kinds leave: the event is addressed at a live saga and
carries a receipt exactly when it completes a forward step. -/
theorem transition_guard {d : Definition} {p q : Progress} {e : Event}
    (h : p.transition d e = .ok q) :
    p.status.isTerminal = false ∧ e.step < d.steps.length ∧ 0 < e.attempt ∧
      (e.kind ≠ .forwardApplied → e.receipt = none) ∧
      ∃ r, p.advance d e = .ok r ∧ q = { r with lastKind := some e.kind } := by
  unfold transition at h
  split at h
  · cases h
  · rename_i hg
    simp only [not_or, Bool.not_eq_true, ne_eq, not_not, ge_iff_le, Nat.not_le] at hg
    obtain ⟨ht, hn, ha, hr⟩ := hg
    obtain ⟨r, hadv, hq⟩ := bind_eq_ok.mp h
    refine ⟨ht, hn, Nat.pos_of_ne_zero ha, ?_, r, hadv, (Except.ok.inj hq).symm⟩
    intro hk
    simpa [hk] using hr

theorem transition_step {d : Definition} {p q : Progress} {e : Event}
    (h : p.transition d e = .ok q) : Step d p e q := by
  obtain ⟨ht, hn, ha, hr, r, hadv, rfl⟩ := transition_guard h
  unfold advance Matches at hadv
  cases hk : e.kind <;> simp only [hk] at hadv hr ⊢
  case forwardIntent =>
    split at hadv
    · cases hadv
    · rename_i hg
      simp only [not_or, not_not, ne_eq, ge_iff_le, Nat.not_le, Bool.not_eq_true,
        Option.isSome_eq_false_iff, Option.isNone_iff_eq_none] at hg
      obtain ⟨hs, hp, hf, hc, hm⟩ := hg
      obtain ⟨hc, hb⟩ := checkedAdd_eq_some.mp hc.symm
      cases hadv
      exact .forwardIntent hk (hr (by simp)) hn (by tauto) hp hf hc (hc ▸ hb) hm
  case forwardApplied =>
    split at hadv
    · cases hadv
    · rename_i hp
      split at hadv
      · cases hadv
      · rename_i receipt hreceipt
        split at hadv
        · cases hadv
        · rename_i hg
          simp only [not_or, ne_eq, not_not] at hg hp
          cases hadv
          exact .forwardApplied receipt hk hreceipt hn ha ht hp hg.1 hg.2
  case forwardNotApplied =>
    split at hadv
    · cases hadv
    · rename_i hp
      obtain ⟨failures, hc, hq⟩ := bind_eq_ok.mp hadv
      obtain ⟨rfl, hb⟩ := checkedAdd_eq_some.mp (okOr_eq_ok.mp hc)
      cases hq
      exact .forwardNotApplied hk (hr (by simp)) hn ha ht (not_not.mp hp) hb
  case forwardProbeNotApplied =>
    split at hadv
    · cases hadv
    · rename_i hp
      cases hadv
      exact .forwardProbeNotApplied hk (hr (by simp)) hn ha ht (not_not.mp hp)
  case abort =>
    split at hadv
    · cases hadv
    · rename_i hg
      simp only [not_or, not_not, ne_eq, Nat.not_lt, Bool.not_eq_true,
        Option.isSome_eq_false_iff, Option.isNone_iff_eq_none] at hg
      obtain ⟨hs, hp, hf, hat, hm, hl⟩ := hg
      cases hadv
      exact .abort hk (hr (by simp)) hn ha hs hp hf hat hm hl
  case compensationIntent =>
    split at hadv
    · cases hadv
    · rename_i hg
      simp only [not_or, not_not, ne_eq, Bool.not_eq_true,
        Option.isSome_eq_false_iff, Option.isNone_iff_eq_none] at hg
      obtain ⟨hs, hp, hc, hat⟩ := hg
      obtain ⟨hat, hb⟩ := checkedAdd_eq_some.mp hat.symm
      cases hadv
      exact .compensationIntent hk (hr (by simp)) hn hs hp hc hat (hat ▸ hb)
  case compensationApplied =>
    split at hadv
    · cases hadv
    · rename_i hg
      simp only [not_or, not_not, ne_eq] at hg
      cases hadv
      exact .compensationApplied hk (hr (by simp)) hn ha hg.1 hg.2
  case compensationNotApplied =>
    split at hadv
    · cases hadv
    · rename_i hg
      simp only [not_or, not_not, ne_eq] at hg
      cases hadv
      exact .compensationNotApplied hk (hr (by simp)) hn ha hg.1 hg.2
  case compensationFailed =>
    split at hadv
    · cases hadv
    · rename_i hg
      simp only [not_or, not_not, ne_eq] at hg
      cases hadv
      exact .compensationFailed hk (hr (by simp)) hn ha hg.1 hg.2
  case resume =>
    split at hadv
    · cases hadv
    · rename_i hg
      simp only [not_or, not_not, ne_eq, Bool.not_eq_true,
        Option.isSome_eq_false_iff, Option.isNone_iff_eq_none] at hg
      obtain ⟨hs, hp, hc, hat⟩ := hg
      cases hadv
      exact .resume hk (hr (by simp)) hn ha hs hp hc hat

/-- The transition function accepts exactly the listed steps. -/
theorem transition_iff {d : Definition} {p q : Progress} {e : Event} :
    p.transition d e = .ok q ↔ Step d p e q :=
  ⟨transition_step, Step.execution⟩

/-! ### The reachable progress values -/

/-- While a forward step is open, its counters belong to that step, and a used-up failure
limit leaves nothing but the abort. -/
structure ForwardInv (d : Definition) (p : Progress) : Prop where
  forward_lt : p.forward < d.steps.length
  compensation_eq : p.compensation = none
  attempt_lt : p.forwardAttempt < 2 ^ 32
  failures_le : p.forwardFailures ≤ d.maxFailures p.forward
  attempt_pos : 0 < p.forwardFailures → 0 < p.forwardAttempt
  pending_eq : ∀ i ∈ p.pending, i = ⟨p.forward, p.forwardAttempt, .forwardIntent⟩ ∧
    0 < p.forwardAttempt ∧ p.forwardFailures < d.maxFailures p.forward ∧
    p.status = .running ∧ p.lastKind = some .forwardIntent
  exhausted : d.maxFailures p.forward ≤ p.forwardFailures →
    p.status = .ready ∧ p.lastKind = some .forwardNotApplied

/-- After the abort one applied step at a time is undone, from the highest down. -/
structure CompensationInv (d : Definition) (p : Progress) : Prop where
  forward_lt : p.forward < d.steps.length
  compensation_lt : ∃ c, p.compensation = some c ∧ c < p.forward
  attempt_lt : p.compensationAttempt < 2 ^ 32
  forwardAttempt_pos : 0 < p.forwardAttempt
  forwardAttempt_lt : p.forwardAttempt < 2 ^ 32
  failures_eq : p.forwardFailures = d.maxFailures p.forward
  pending_eq : ∀ i ∈ p.pending, p.compensation = some i.step ∧
    i.attempt = p.compensationAttempt ∧ i.kind = .compensationIntent ∧
    0 < p.compensationAttempt ∧ p.status = .compensating ∧
    p.lastKind = some .compensationIntent
  paused : p.status = .compensationFailed → 0 < p.compensationAttempt
  resumed : p.lastKind = some .resume → 0 < p.compensationAttempt

/-- Facts of every progress value that events can reach from the empty one. -/
def Inv (d : Definition) (p : Progress) : Prop :=
  match p.status with
  | .ready | .running => ForwardInv d p
  | .compensating | .compensationFailed => CompensationInv d p
  | .succeeded => p.forward = d.steps.length ∧ p.pending = none ∧ p.compensation = none ∧
      p.forwardFailures = 0 ∧ p.forwardAttempt = 0
  | .compensated => p.forward < d.steps.length ∧ p.pending = none ∧ p.compensation = none ∧
      p.forwardFailures = d.maxFailures p.forward ∧ p.forwardAttempt < 2 ^ 32

theorem inv_of_forward {d : Definition} {p : Progress}
    (hs : p.status = .ready ∨ p.status = .running) (h : ForwardInv d p) : Inv d p := by
  rcases hs with hs | hs <;> simpa only [Inv, hs] using h

theorem Inv.forward {d : Definition} {p : Progress} (h : Inv d p)
    (hs : p.status = .ready ∨ p.status = .running) : ForwardInv d p := by
  rcases hs with hs | hs <;> simpa only [Inv, hs] using h

theorem Inv.compensation {d : Definition} {p : Progress} (h : Inv d p)
    (hs : p.status = .compensating ∨ p.status = .compensationFailed) : CompensationInv d p := by
  rcases hs with hs | hs <;> simpa only [Inv, hs] using h

theorem inv_empty {d : Definition} (hd : d.Valid) : Inv d empty := by
  have hn : 0 < d.steps.length := List.length_pos_iff.mpr hd.steps_ne
  refine inv_of_forward (.inl rfl) ⟨hn, rfl, by decide, Nat.zero_le _, ?_, by simp [empty], ?_⟩
  · intro h
    exact absurd h (Nat.lt_irrefl 0)
  · intro h
    exact absurd (hd.maxFailures_pos 0 hn) (Nat.not_lt.mpr h)

/-- A pending forward intent is the open step's current attempt. -/
theorem Inv.pendingForward {d : Definition} {p : Progress} {i : Intent} (h : Inv d p)
    (hp : p.pending = some i) (hk : i.kind = .forwardIntent) :
    ForwardInv d p ∧ p.status = .running := by
  have hs : p.status = .ready ∨ p.status = .running := by
    cases hs : p.status <;> simp only [Inv, hs] at h
    case ready => exact .inl rfl
    case running => exact .inr rfl
    case compensating | compensationFailed =>
      obtain ⟨-, -, hk', -⟩ := h.pending_eq i hp
      rw [hk] at hk'
      cases hk'
    case succeeded | compensated => simp [h.2.1] at hp
  have hf := h.forward hs
  exact ⟨hf, (hf.pending_eq i hp).2.2.2.1⟩

/-- A pending compensation intent is the current attempt of the step being undone. -/
theorem Inv.pendingCompensation {d : Definition} {p : Progress} {i : Intent} (h : Inv d p)
    (hp : p.pending = some i) (hk : i.kind = .compensationIntent) :
    CompensationInv d p ∧ p.status = .compensating := by
  have hs : p.status = .compensating ∨ p.status = .compensationFailed := by
    cases hs : p.status <;> simp only [Inv, hs] at h
    case ready | running =>
      obtain ⟨rfl, -⟩ := h.pending_eq i hp
      cases hk
    case compensating => exact .inl rfl
    case compensationFailed => exact .inr rfl
    case succeeded | compensated => simp [h.2.1] at hp
  have hc := h.compensation hs
  exact ⟨hc, (hc.pending_eq i hp).2.2.2.2.1⟩

/-- The next step down is below the one just undone, or nothing is left. -/
theorem checkedSub_one_cases (n : ℕ) :
    (n = 0 ∧ checkedSub n 1 = none) ∨ ∃ c, n = c + 1 ∧ checkedSub n 1 = some c := by
  cases n with
  | zero => exact .inl ⟨rfl, rfl⟩
  | succ c => exact .inr ⟨c, rfl, checkedSub_succ_one c⟩

/-- The saga invariant is kept by every step of the machine. -/
theorem Step.inv {d : Definition} {p q : Progress} {e : Event} (hd : d.Valid)
    (h : Step d p e q) (hi : Inv d p) : Inv d q := by
  cases h with
  | forwardIntent hk hr hn hs hp hf ha hb hm =>
      have hi := hi.forward hs
      rw [hf] at hm
      refine inv_of_forward (.inr rfl) ⟨hi.forward_lt, hi.compensation_eq, hb, hi.failures_le,
        ?_, ?_, ?_⟩
      · intro _
        simp only
        omega
      · intro i hi
        simp only [Option.mem_def, Option.some.injEq] at hi
        subst i
        exact ⟨by rw [hf], by simp only; omega, hm, rfl, rfl⟩
      · intro hx
        exact absurd hm (Nat.not_lt.mpr hx)
  | forwardApplied r hk hr hn ha hs hp hra hrs =>
      obtain ⟨hi, -⟩ := hi.pendingForward hp rfl
      have hlt := hi.forward_lt
      by_cases hend : p.forward + 1 = d.steps.length
      · simp [Inv, hend, hi.compensation_eq]
      · simp only [hend, if_false]
        have hlt' : p.forward + 1 < d.steps.length := by omega
        refine inv_of_forward (.inr rfl) ⟨hlt', hi.compensation_eq, by simp, Nat.zero_le _,
          by simp, by simp, ?_⟩
        intro hx
        exact absurd (hd.maxFailures_pos _ hlt') (Nat.not_lt.mpr hx)
  | forwardNotApplied hk hr hn ha hs hp hb =>
      obtain ⟨hi, -⟩ := hi.pendingForward hp rfl
      obtain ⟨-, hpos, hm, -, -⟩ := hi.pending_eq _ hp
      exact inv_of_forward (.inl rfl) ⟨hi.forward_lt, hi.compensation_eq, hi.attempt_lt, hm,
        fun _ => hpos, by simp, fun _ => ⟨rfl, rfl⟩⟩
  | forwardProbeNotApplied hk hr hn ha hs hp =>
      obtain ⟨hi, -⟩ := hi.pendingForward hp rfl
      obtain ⟨-, hpos, hm, -, -⟩ := hi.pending_eq _ hp
      refine inv_of_forward (.inl rfl) ⟨hi.forward_lt, hi.compensation_eq, hi.attempt_lt,
        hi.failures_le, fun _ => hpos, by simp, ?_⟩
      intro hx
      exact absurd hm (Nat.not_lt.mpr hx)
  | abort hk hr hn ha hs hp hf hat hm hl =>
      have hi := hi.forward (.inl hs)
      rw [hf] at hm
      have heq : p.forwardFailures = d.maxFailures p.forward := Nat.le_antisymm hi.failures_le hm
      rcases checkedSub_one_cases p.forward with ⟨-, hc⟩ | ⟨c, hfc, hc⟩
      · rw [hc]
        exact ⟨hi.forward_lt, hp, rfl, heq, hi.attempt_lt⟩
      · simp only [hc, reduceCtorEq, if_false, Inv]
        exact ⟨hi.forward_lt, ⟨c, rfl, by simp only; omega⟩, by simp, by simp only; omega,
          hi.attempt_lt, heq, by simp [hp], by simp, by simp⟩
  | compensationIntent hk hr hn hs hp hc ha hb =>
      have hi := hi.compensation (.inl hs)
      simp only [Inv, hs]
      refine ⟨hi.forward_lt, hi.compensation_lt, hb, hi.forwardAttempt_pos,
        hi.forwardAttempt_lt, hi.failures_eq, ?_, by simp, by simp⟩
      intro i hi
      simp only [Option.mem_def, Option.some.injEq] at hi
      subst i
      exact ⟨hc, rfl, rfl, by simp only; omega, rfl, rfl⟩
  | compensationApplied hk hr hn ha hs hp =>
      have hi := hi.compensation (.inl hs)
      obtain ⟨c, hc, hlt⟩ := hi.compensation_lt
      have hstep : c = e.step := by
        have := (hi.pending_eq _ hp).1
        rw [hc] at this
        exact Option.some.inj this
      rcases checkedSub_one_cases e.step with ⟨-, hc'⟩ | ⟨c', he, hc'⟩
      · rw [hc']
        exact ⟨hi.forward_lt, rfl, rfl, hi.failures_eq, hi.forwardAttempt_lt⟩
      · simp only [hc', reduceCtorEq, if_false, Inv]
        exact ⟨hi.forward_lt, ⟨c', rfl, by simp only; omega⟩, by simp, hi.forwardAttempt_pos,
          hi.forwardAttempt_lt, hi.failures_eq, by simp, by simp, by simp⟩
  | compensationNotApplied hk hr hn ha hs hp =>
      have hi := hi.compensation (.inl hs)
      simp only [Inv, hs]
      exact ⟨hi.forward_lt, hi.compensation_lt, hi.attempt_lt, hi.forwardAttempt_pos,
        hi.forwardAttempt_lt, hi.failures_eq, by simp, by simp, by simp⟩
  | compensationFailed hk hr hn ha hs hp =>
      have hi := hi.compensation (.inl hs)
      obtain ⟨-, -, -, hpos, -, -⟩ := hi.pending_eq _ hp
      simp only [Inv]
      exact ⟨hi.forward_lt, hi.compensation_lt, hi.attempt_lt, hi.forwardAttempt_pos,
        hi.forwardAttempt_lt, hi.failures_eq, by simp, fun _ => hpos, by simp⟩
  | resume hk hr hn ha hs hp hc hat =>
      have hi := hi.compensation (.inr hs)
      simp only [Inv]
      exact ⟨hi.forward_lt, hi.compensation_lt, hi.attempt_lt, hi.forwardAttempt_pos,
        hi.forwardAttempt_lt, hi.failures_eq, by simp [hp], by simp, fun _ => hi.paused hs⟩

end Progress

end Rss.Saga
