import Rss.Library.Runs
import Rss.Model.Amqp.Transport
import Mathlib.Data.Nat.Bitwise
import Mathlib.Order.WithBot

/-! # Transport generations are fenced

What every step does to the slot, to the admission words, to the recovery tasks and to the
connections, and what follows for every run. -/

namespace Rss.Amqp

/-! ### The admission word -/

theorem admissionClosed_toNat : admissionClosed.toNat = 2 ^ 63 := by decide

theorem admissionCountMask_toNat : admissionCountMask.toNat = 2 ^ 63 - 1 := by decide

namespace Admission

theorem count_toNat (w : UInt64) : (count w).toNat = w.toNat % 2 ^ 63 := by
  rw [count, UInt64.toNat_and, admissionCountMask_toNat, Nat.and_two_pow_sub_one_eq_mod]

theorem isClosed_iff (w : UInt64) : w &&& admissionClosed ≠ 0 ↔ 2 ^ 63 ≤ w.toNat := by
  have hlt := w.toNat_lt
  have hand : (w &&& admissionClosed).toNat = (w.toNat / 2 ^ 63 % 2) * 2 ^ 63 := by
    rw [UInt64.toNat_and, admissionClosed_toNat, Nat.and_two_pow, Nat.testBit_eq_decide_div_mod_eq]
    rcases Nat.mod_two_eq_zero_or_one (w.toNat / 2 ^ 63) with h | h <;> rw [h] <;> rfl
  have hzero : w &&& admissionClosed = 0 ↔ (w &&& admissionClosed).toNat = 0 := by
    rw [← UInt64.toNat_inj]
    rfl
  rw [ne_eq, hzero, hand]
  omega

theorem close_toNat {w : UInt64} (h : w.toNat < 2 ^ 63) :
    (close w).toNat = 2 ^ 63 + w.toNat := by
  have hor := Nat.two_pow_add_eq_or_of_lt h 1
  rw [Nat.mul_one] at hor
  rw [close, UInt64.toNat_or, admissionClosed_toNat, Nat.or_comm, hor]

theorem acquire_eq_ok {w w' : UInt64} (h : acquire w = .ok w') :
    w.toNat < 2 ^ 63 - 1 ∧ w'.toNat = w.toNat + 1 := by
  have hlt := w.toNat_lt
  have hfull : count w = admissionCountMask ↔ w.toNat % 2 ^ 63 = 2 ^ 63 - 1 := by
    rw [← UInt64.toNat_inj, count_toNat, admissionCountMask_toNat]
  simp only [acquire, isClosed_iff, hfull] at h
  split at h
  · split at h <;> cases h
  · obtain rfl := Except.ok.inj h
    have hone : (1 : UInt64).toNat = 1 := rfl
    rw [UInt64.toNat_add, hone]
    omega

/-- A permit that is counted can be dropped, and the last one is noticed. -/
theorem release_of_pos {w : UInt64} (h : 0 < w.toNat % 2 ^ 63) :
    ∃ w', release w = some (w', decide (w.toNat % 2 ^ 63 = 1)) ∧ w'.toNat = w.toNat - 1 := by
  have hlt := w.toNat_lt
  have hpos : count w > 0 := by
    rw [gt_iff_lt, UInt64.lt_iff_toNat_lt, count_toNat]
    exact h
  have hone : (count w == 1) = decide (w.toNat % 2 ^ 63 = 1) := by
    rw [Bool.eq_iff_iff, beq_iff_eq, decide_eq_true_iff, ← UInt64.toNat_inj, count_toNat]
    rfl
  refine ⟨w - 1, by rw [release, if_pos hpos, hone], ?_⟩
  have hle : (1 : UInt64) ≤ w := by
    rw [UInt64.le_iff_toNat_le]
    have : (1 : UInt64).toNat = 1 := rfl
    omega
  rw [UInt64.toNat_sub_of_le _ _ hle]
  rfl

end Admission

/-! ### What a step does to the slot -/

/-- Generations in order, each before and after it is retired; a shutdown comes last. -/
def Slot.rank : Slot → WithTop ℕ
  | .ready g _ _ => WithTop.some (2 * g)
  | .recovering g _ | .unavailable g => WithTop.some (2 * g + 1)
  | .shuttingDown _ => ⊤

/-- The admission word that grants permits. -/
def Slot.openWord : Slot → Option ℕ
  | .ready _ _ a => some a
  | _ => none

/-- The transport the slot keeps. -/
def Slot.kept : Slot → Option ℕ
  | .ready _ c _ => some c
  | .recovering _ r | .shuttingDown r => r.map Retiring.transport
  | .unavailable _ => none

/-- All a step can do to the slot, the admission words and the live permits. -/
inductive Move (g : Gate) (permits : List ℕ) (label : Action) : Gate → List ℕ → Prop where
  | same : Move g permits label g permits
  | grant {generation c a : ℕ} {w : UInt64} (slot : g.slot = .ready generation c a)
      (acquired : Admission.acquire (g.words a) = .ok w) :
      Move g permits label (g.setWord a w) (a :: permits)
  | release {a : ℕ} (live : a ∈ permits) {w : UInt64} {last : Bool}
      (released : Admission.release (g.words a) = some (w, last)) :
      Move g permits label (g.setWord a w) (permits.erase a)
  | uncounted {a : ℕ} (live : a ∈ permits) (released : Admission.release (g.words a) = none) :
      Move g permits label g (permits.erase a)
  | leave {generation c a : ℕ} {slot : Slot} (ready : g.slot = .ready generation c a)
      (left : slot = .recovering generation (some ⟨c, a⟩) ∨ slot = .shuttingDown none) :
      Move g permits label { g.setWord a (Admission.close (g.words a)) with slot } permits
  | shift {slot : Slot} (closed : g.slot.openWord = none) (still : slot.openWord = none)
      (later : g.slot.rank ≤ slot.rank) : Move g permits label { g with slot } permits
  | install {generation c : ℕ} {r : Option Retiring} (slot : g.slot = .recovering generation r)
      (fits : generation + 1 < 2 ^ 64) (labelled : label = .installed (generation + 1)) :
      Move g permits label
        { g.setWord g.opened 0 with
          slot := .ready (generation + 1) c g.opened
          opened := g.opened + 1 } permits

namespace State

@[simp] theorem setTask_gate (s : State) (i : ℕ) (t : Option Task) :
    (s.setTask i t).gate = s.gate := rfl

@[simp] theorem setTask_permits (s : State) (i : ℕ) (t : Option Task) :
    (s.setTask i t).permits = s.permits := rfl

@[simp] theorem requestClose_gate (s : State) (cs : List ℕ) :
    (s.requestClose cs).gate = s.gate := rfl

@[simp] theorem requestClose_permits (s : State) (cs : List ℕ) :
    (s.requestClose cs).permits = s.permits := rfl

@[simp] theorem dropRecovery_gate (s : State) : s.dropRecovery.gate = s.gate := by
  unfold dropRecovery
  cases s.owned <;> rfl

@[simp] theorem dropRecovery_permits (s : State) : s.dropRecovery.permits = s.permits := by
  unfold dropRecovery
  cases s.owned <;> rfl

@[simp] theorem spawn_gate (s : State) (r : Recovery) : (s.spawn r).gate = s.gate := by
  simp [spawn]

@[simp] theorem spawn_permits (s : State) (r : Recovery) : (s.spawn r).permits = s.permits := by
  simp [spawn]

/-- A retirement takes hold exactly of the current generation. -/
theorem retireTransport_cases (s : State) (generation : ℕ) :
    (∃ c a, s.gate.slot = .ready generation c a ∧
      s.retireTransport generation =
        { s with
          gate := { s.gate.setWord a (Admission.close (s.gate.words a)) with
            slot := .recovering generation (some ⟨c, a⟩) } }.spawn ⟨generation, some ⟨c, a⟩⟩) ∨
    ((∀ c a, s.gate.slot ≠ .ready generation c a) ∧ s.retireTransport generation = s) := by
  unfold retireTransport Gate.beginRecovery
  cases hslot : s.gate.slot with
  | ready g c a =>
      by_cases hg : g = generation
      · subst hg
        exact .inl ⟨c, a, rfl, by simp⟩
      · exact .inr ⟨fun c' a' h => hg (Slot.ready.inj h).1, by simp [hg]⟩
  | recovering g r => exact .inr ⟨by simp, rfl⟩
  | unavailable g => exact .inr ⟨by simp, rfl⟩
  | shuttingDown r => exact .inr ⟨by simp, rfl⟩

/-- A snapshot is granted by the current generation, starts a recovery of an unavailable one,
or changes nothing. -/
theorem transportSnapshot_cases (s : State) :
    (∃ generation c a w, s.gate.slot = .ready generation c a ∧
      Admission.acquire (s.gate.words a) = .ok w ∧
      s.transportSnapshot = (.ok (generation, c, a),
        { s with gate := s.gate.setWord a w, permits := a :: s.permits })) ∨
    (∃ generation, s.gate.slot = .unavailable generation ∧
      s.transportSnapshot = (.error .unavailable,
        { s with gate := { s.gate with slot := .recovering generation none } }.spawn
          ⟨generation, none⟩)) ∨
    (∃ e, s.transportSnapshot = (.error e, s)) := by
  unfold transportSnapshot Gate.snapshot Gate.beginUnavailableRecovery
  cases hslot : s.gate.slot with
  | ready g c a =>
      cases hacquired : Admission.acquire (s.gate.words a) with
      | ok w => exact .inl ⟨g, c, a, w, rfl, hacquired, by simp [hacquired]⟩
      | error e =>
          refine .inr (.inr ?_)
          simp only [hacquired, error_bind]
          cases e with
          | unavailable => exact ⟨.unavailable, rfl⟩
          | _ => exact ⟨_, rfl⟩
  | recovering g r => exact .inr (.inr ⟨_, rfl⟩)
  | unavailable g => exact .inr (.inl ⟨g, rfl, rfl⟩)
  | shuttingDown r => exact .inr (.inr ⟨_, rfl⟩)

end State

namespace Gate

/-- A replacement is installed only for the generation the slot recovers. -/
theorem installReplacement_eq_true {g g' : Gate} {recovery c : ℕ}
    (h : g.installReplacement recovery c = (true, g')) :
    (∃ r, g.slot = .recovering recovery r) ∧ recovery + 1 < 2 ^ 64 ∧
      g' = { g.setWord g.opened 0 with
        slot := .ready (recovery + 1) c g.opened
        opened := g.opened + 1 } := by
  unfold installReplacement at h
  cases hslot : g.slot with
  | recovering generation r =>
      simp only [hslot] at h
      by_cases hg : generation = recovery
      · subst hg
        cases hnext : checkedAdd 64 generation 1 with
        | none => simp [hnext] at h
        | some next =>
            obtain ⟨rfl, hlt⟩ := checkedAdd_eq_some.mp hnext
            simp only [hnext, if_true, Prod.mk.injEq, true_and] at h
            exact ⟨⟨r, rfl⟩, hlt, h.symm⟩
      · simp [hg] at h
  | _ => simp [hslot] at h

theorem installReplacement_eq_false {g g' : Gate} {recovery c : ℕ}
    (h : g.installReplacement recovery c = (false, g')) :
    g' = g ∨ (∃ r, g.slot = .recovering recovery r) ∧
      g' = { g with slot := .unavailable recovery } := by
  unfold installReplacement at h
  cases hslot : g.slot with
  | recovering generation r =>
      simp only [hslot] at h
      by_cases hg : generation = recovery
      · subst hg
        cases hnext : checkedAdd 64 generation 1 with
        | none =>
            simp only [hnext, if_true, Prod.mk.injEq, true_and] at h
            exact .inr ⟨⟨r, rfl⟩, h.symm⟩
        | some next => simp [hnext] at h
      · simp only [hg, if_false, Prod.mk.injEq, true_and] at h
        exact .inl h.symm
  | _ =>
      simp only [hslot, Prod.mk.injEq, true_and] at h
      exact .inl h.symm

theorem failRecovery_cases (g : Gate) (recovery : ℕ) :
    g.failRecovery recovery = g ∨ (∃ r, g.slot = .recovering recovery r) ∧
      g.failRecovery recovery = { g with slot := .unavailable recovery } := by
  unfold failRecovery
  cases hslot : g.slot with
  | recovering generation r =>
      by_cases hg : generation = recovery
      · subst hg
        exact .inr ⟨⟨r, rfl⟩, by simp⟩
      · exact .inl (by simp [hg])
  | _ => exact .inl rfl

/-- A shutdown takes what the slot keeps. -/
theorem takeForResourceShutdown_cases (g : Gate) :
    (g.takeForResourceShutdown.1.map Retiring.transport = g.slot.kept) ∧
    ((∃ generation c a, g.slot = .ready generation c a ∧ g.takeForResourceShutdown.2 =
      { g.setWord a (Admission.close (g.words a)) with slot := .shuttingDown none }) ∨
    (g.slot.openWord = none ∧ g.takeForResourceShutdown.2 =
      { g with slot := .shuttingDown none })) := by
  unfold takeForResourceShutdown
  cases hslot : g.slot with
  | ready generation c a => exact ⟨rfl, .inl ⟨generation, c, a, rfl, rfl⟩⟩
  | recovering generation r => exact ⟨rfl, .inr ⟨rfl, rfl⟩⟩
  | unavailable generation => exact ⟨rfl, .inr ⟨rfl, rfl⟩⟩
  | shuttingDown r => exact ⟨rfl, .inr ⟨rfl, rfl⟩⟩

/-- A shutdown closes the slot, whatever it held. -/
theorem takeForResourceShutdown_move (g : Gate) (permits : List ℕ) (label : Action) :
    Move g permits label g.takeForResourceShutdown.2 permits := by
  rcases g.takeForResourceShutdown_cases.2 with ⟨generation, c, a, hslot, heq⟩ | ⟨hclosed, heq⟩
  · rw [heq]
    exact .leave hslot (.inr rfl)
  · rw [heq]
    exact .shift hclosed rfl le_top

end Gate

/-- Leaving a recovery keeps its generation. -/
theorem Move.unavailable {g : Gate} {permits : List ℕ} {label : Action} {recovery : ℕ}
    {r : Option Retiring} (h : g.slot = .recovering recovery r) :
    Move g permits label { g with slot := .unavailable recovery } permits :=
  .shift (by rw [h]; rfl) rfl (by rw [h]; exact le_rfl)

theorem Step.move {s s' : State} {a : Action} (h : Step s a s') :
    Move s.gate s.permits a s'.gate s'.permits := by
  cases h with
  | @grant _ generation transport admission snapshot =>
      rcases s.transportSnapshot_cases with ⟨g, c, a, w, hslot, hacquired, heq⟩ | ⟨g, hslot, heq⟩ |
        ⟨e, heq⟩
      · rw [heq] at snapshot
        obtain rfl := (Prod.mk.inj snapshot).2
        exact .grant hslot hacquired
      · rw [heq] at snapshot
        cases (Prod.mk.inj snapshot).1
      · rw [heq] at snapshot
        cases (Prod.mk.inj snapshot).1
  | refuse snapshot =>
      rcases s.transportSnapshot_cases with ⟨g, c, a, w, hslot, hacquired, heq⟩ | ⟨g, hslot, heq⟩ |
        ⟨e, heq⟩
      · rw [heq] at snapshot
        cases (Prod.mk.inj snapshot).1
      · rw [heq] at snapshot
        obtain rfl := (Prod.mk.inj snapshot).2
        rw [State.spawn_gate, State.spawn_permits]
        exact .shift (by rw [hslot]; rfl) rfl (by rw [hslot]; exact le_rfl)
      · rw [heq] at snapshot
        obtain rfl := (Prod.mk.inj snapshot).2
        exact .same
  | @release a live =>
      unfold State.dropPermit
      cases hreleased : Admission.release (s.gate.words a) with
      | none => exact .uncounted live hreleased
      | some r => exact .release live hreleased
  | notify due => exact .same
  | retire generation =>
      rcases s.retireTransport_cases generation with ⟨c, a, hslot, heq⟩ | ⟨-, heq⟩
      · rw [heq, State.spawn_gate, State.spawn_permits]
        exact .leave hslot (.inl rfl)
      · rw [heq]
        exact .same
  | install running stage installed =>
      obtain ⟨⟨r, hslot⟩, hlt, rfl⟩ := Gate.installReplacement_eq_true installed
      exact .install hslot hlt rfl
  | reject running stage rejected =>
      rcases Gate.installReplacement_eq_false rejected with rfl | ⟨⟨r, hslot⟩, rfl⟩
      · exact .same
      · exact .unavailable hslot
  | @fail i t running stage =>
      rcases s.gate.failRecovery_cases t.recovery.generation with heq | ⟨⟨r, hslot⟩, heq⟩
      · simp only [heq]
        exact .same
      · simp only [heq]
        exact .unavailable hslot
  | requestShutdown =>
      simp only [State.requestShutdown, State.requestClose_gate, State.dropRecovery_gate,
        State.requestClose_permits, State.dropRecovery_permits]
      exact s.gate.takeForResourceShutdown_move s.permits .shutdownBegan
  | beginShutdown begun =>
      unfold State.beginShutdown at begun
      have htake := s.gate.takeForResourceShutdown_move s.permits .shutdownBegan
      cases hslot : s.gate.slot with
      | shuttingDown r => simp [hslot] at begun
      | _ =>
          simp only [hslot, Option.some.injEq] at begun
          obtain rfl := begun
          cases s.owned <;> exact htake
  | @stop d running =>
      unfold State.endShutdown
      cases d.stage with
      | joining recovery => cases recovery <;> exact .same
      | _ => exact .same
  | _ => exact .same

/-! ### Generations only increase -/

@[simp] theorem Gate.setWord_slot (g : Gate) (a : ℕ) (w : UInt64) : (g.setWord a w).slot = g.slot :=
  rfl

@[simp] theorem Gate.setWord_opened (g : Gate) (a : ℕ) (w : UInt64) :
    (g.setWord a w).opened = g.opened := rfl

theorem Gate.setWord_words (g : Gate) (a : ℕ) (w : UInt64) (b : ℕ) :
    (g.setWord a w).words b = if b = a then w else g.words b := rfl

theorem Move.rank_le {g g' : Gate} {permits permits' : List ℕ} {label : Action}
    (h : Move g permits label g' permits') :
    g.slot.rank ≤ g'.slot.rank := by
  cases h with
  | leave ready left =>
      rcases left with rfl | rfl
      · rw [ready]
        exact WithTop.coe_le_coe.mpr (Nat.le_succ _)
      · exact le_top
  | shift closed still later => exact later
  | install slot fits labelled =>
      rw [slot]
      exact WithTop.coe_le_coe.mpr (by omega)
  | _ => exact le_rfl

theorem rank_le_of_runs {s s' : State} {labels : List Action} (h : Runs Step s labels s') :
    s.gate.slot.rank ≤ s'.gate.slot.rank := by
  induction h with
  | nil => exact le_rfl
  | snoc _ hstep ih => exact ih.trans hstep.move.rank_le

/-- The generations installed in a run, in order. -/
def installs (labels : List Action) : List ℕ :=
  labels.filterMap (fun a => match a with
    | .installed g => some g
    | _ => none)

/-- A slot becomes ready only by an installation. -/
theorem Step.ready_cases {s s' : State} {a : Action} (h : Step s a s') :
    (∃ g c w, a = .installed (g + 1) ∧ (∃ r, s.gate.slot = .recovering g r) ∧
      s'.gate.slot = .ready (g + 1) c w) ∨
    ((∀ labels, installs (labels ++ [a]) = installs labels) ∧
      ∀ g c w, s'.gate.slot = .ready g c w → s.gate.slot = .ready g c w) := by
  by_cases hinstall : ∃ g, a = .installed g
  · obtain ⟨g, rfl⟩ := hinstall
    cases h with
    | install running stage installed =>
        obtain ⟨hslot, -, rfl⟩ := Gate.installReplacement_eq_true installed
        exact .inl ⟨_, _, _, rfl, hslot, rfl⟩
  · refine .inr ⟨fun labels => ?_, ?_⟩
    · rw [installs, List.filterMap_append]
      cases a with
      | installed g => exact absurd ⟨g, rfl⟩ hinstall
      | _ => exact List.append_nil _
    · have hclosed : ∀ {slot : Slot} {g c w : ℕ}, slot.openWord = none → slot ≠ .ready g c w := by
        intro slot g c w hnone heq
        rw [heq] at hnone
        cases hnone
      have hmove := h.move
      generalize s'.gate = gate' at hmove ⊢
      generalize s'.permits = permits' at hmove
      intro g c w hready
      cases hmove with
      | leave ready left => rcases left with rfl | rfl <;> cases hready
      | shift closed still later => exact absurd hready (hclosed still)
      | install slot fits labelled => exact absurd ⟨_, labelled⟩ hinstall
      | _ => exact hready

/-- The generations of the ready states of a run, the first one included. -/
structure Increasing (labels : List Action) (s : State) : Prop where
  strict : (0 :: installs labels).Pairwise (· < ·)
  reached : ∀ g ∈ 0 :: installs labels, WithTop.some (2 * g) ≤ s.gate.slot.rank
  current : ∀ g c a, s.gate.slot = .ready g c a → (0 :: installs labels).getLast? = some g

theorem Increasing.step {labels : List Action} {s s' : State} {a : Action}
    (h : Increasing labels s) (hstep : Step s a s') : Increasing (labels ++ [a]) s' := by
  rcases hstep.ready_cases with ⟨g, c, w, rfl, ⟨r, hslot⟩, hslot'⟩ | ⟨hsame, hready⟩
  · have happend : 0 :: installs (labels ++ [.installed (g + 1)]) =
        (0 :: installs labels) ++ [g + 1] := by
      rw [installs, List.filterMap_append]
      rfl
    have hbefore : ∀ h ∈ 0 :: installs labels, h ≤ g := by
      intro n hn
      have hle := h.reached n hn
      rw [hslot] at hle
      have := WithTop.coe_le_coe.mp hle
      omega
    refine ⟨?_, fun n hn => ?_, fun n c' a' hn => ?_⟩
    · rw [happend, List.pairwise_append]
      refine ⟨h.strict, List.pairwise_singleton _ _, fun n hn m hm => ?_⟩
      obtain rfl := List.mem_singleton.mp hm
      exact Nat.lt_succ_of_le (hbefore n hn)
    · rw [hslot']
      rw [happend, List.mem_append, List.mem_singleton] at hn
      refine WithTop.coe_le_coe.mpr ?_
      rcases hn with hn | rfl
      · have := hbefore n hn
        omega
      · exact le_rfl
    · rw [hslot'] at hn
      obtain ⟨rfl, -⟩ := Slot.ready.inj hn
      rw [happend]
      exact List.getLast?_concat
  · refine ⟨?_, fun g hg => ?_, fun g c a hg => ?_⟩
    · rw [hsame]
      exact h.strict
    · rw [hsame] at hg
      exact (h.reached g hg).trans hstep.move.rank_le
    · rw [hsame]
      exact h.current g c a (hready g c a hg)

theorem increasing_of_runs {s : State} {labels : List Action} (h : Runs Step .start labels s) :
    Increasing labels s := by
  refine h.invariant (I := Increasing) ⟨?_, ?_, ?_⟩ (fun _ _ _ _ _ hs hstep => hs.step hstep)
  · simp [installs]
  · intro g hg
    obtain rfl := List.mem_singleton.mp hg
    exact le_rfl
  · intro g c a hg
    obtain ⟨rfl, -⟩ := Slot.ready.inj hg
    rfl

/-! ### Words count the live permits -/

/-- The word of an admission tells whether it grants permits, and how many are live. -/
structure Counted (g : Gate) (permits : List ℕ) : Prop where
  word : ∀ a < g.opened, (g.words a).toNat =
    (if g.slot.openWord = some a then 0 else 2 ^ 63) + permits.count a
  few : ∀ a, permits.count a < 2 ^ 63
  opened : ∀ a ∈ permits, a < g.opened
  unopened : ∀ a, g.opened ≤ a → g.words a = 0
  current : ∀ a, g.slot.openWord = some a → a < g.opened

namespace Counted

variable {g : Gate} {permits : List ℕ}

theorem mod_word (h : Counted g permits) {a : ℕ} (ha : a < g.opened) :
    (g.words a).toNat % 2 ^ 63 = permits.count a := by
  have hword := h.word a ha
  have hfew := h.few a
  split at hword <;> omega

/-- The count bits of a word. -/
theorem count_eq (h : Counted g permits) {a : ℕ} (ha : a < g.opened) :
    (Admission.count (g.words a)).toNat = permits.count a := by
  rw [Admission.count_toNat, h.mod_word ha]

theorem setWord_unopened (h : Counted g permits) {a b : ℕ} {w : UInt64} (ha : a < g.opened)
    (hb : g.opened ≤ b) : (g.setWord a w).words b = 0 := by
  rw [Gate.setWord_words, if_neg (by omega), h.unopened b hb]

theorem close (h : Counted g permits) {generation c a : ℕ} (slot : g.slot = .ready generation c a)
    {slot' : Slot} (closed : slot'.openWord = none) :
    Counted { g.setWord a (Admission.close (g.words a)) with slot := slot' } permits := by
  have hopen : g.slot.openWord = some a := by
    rw [slot]
    rfl
  have hword := h.word a (h.current a hopen)
  rw [if_pos hopen, Nat.zero_add] at hword
  refine ⟨fun b hb => ?_, h.few, h.opened, fun b hb => ?_, fun b hb => ?_⟩
  · have hfew := h.few b
    simp only [Gate.setWord_words, closed, reduceCtorEq, if_false]
    by_cases hba : b = a
    · subst hba
      rw [if_pos rfl, Admission.close_toNat (by omega), hword]
    · have hother : g.slot.openWord ≠ some b := by
        rw [hopen]
        exact fun e => hba (Option.some.inj e).symm
      rw [if_neg hba, h.word b hb, if_neg hother]
  · exact h.setWord_unopened (h.current a hopen) hb
  · rw [closed] at hb
    cases hb

theorem move {g' : Gate} {permits' : List ℕ} {label : Action} (h : Counted g permits)
    (move : Move g permits label g' permits') : Counted g' permits' := by
  cases move with
  | same => exact h
  | @grant generation c a w slot acquired =>
      have hopen : g.slot.openWord = some a := by
        rw [slot]
        rfl
      have ha := h.current a hopen
      obtain ⟨hlt, hw⟩ := Admission.acquire_eq_ok acquired
      have hword := h.word a ha
      rw [if_pos hopen, Nat.zero_add] at hword
      refine ⟨fun b hb => ?_, fun b => ?_, fun b hb => ?_,
        fun b hb => h.setWord_unopened ha hb, h.current⟩
      · rw [Gate.setWord_words, Gate.setWord_slot, List.count_cons]
        by_cases hba : b = a
        · subst hba
          rw [if_pos rfl, if_pos hopen, hw, hword]
          simp
        · have hne : ¬ (a == b) = true := by simpa using Ne.symm hba
          rw [if_neg hba, if_neg hne, Nat.add_zero, h.word b hb]
      · have hfew := h.few b
        rw [List.count_cons]
        by_cases hba : a = b
        · subst hba
          simp only [beq_self_eq_true, if_true]
          omega
        · simpa [hba] using hfew
      · rcases List.mem_cons.mp hb with rfl | hb
        · exact ha
        · exact h.opened b hb
  | @release a live w last released =>
      have ha := h.opened a live
      have hpos : 0 < permits.count a := List.count_pos_iff.mpr live
      have hmod := h.mod_word ha
      obtain ⟨w', heq, hw'⟩ := Admission.release_of_pos (by rw [hmod]; exact hpos)
      obtain ⟨rfl, rfl⟩ := Prod.mk.inj (Option.some.inj (released.symm.trans heq))
      refine ⟨fun b hb => ?_, fun b => ?_, fun b hb => ?_,
        fun b hb => h.setWord_unopened ha hb, h.current⟩
      · rw [Gate.setWord_words, Gate.setWord_slot]
        have hword := h.word b hb
        by_cases hba : b = a
        · subst hba
          rw [if_pos rfl, List.count_erase_self, hw', hword]
          omega
        · rw [if_neg hba, List.count_erase_of_ne hba, hword]
      · exact (List.Sublist.count_le b List.erase_sublist).trans_lt (h.few b)
      · exact h.opened b (List.mem_of_mem_erase hb)
  | @uncounted a live released =>
      have hpos : 0 < permits.count a := List.count_pos_iff.mpr live
      obtain ⟨w, heq, -⟩ :=
        Admission.release_of_pos (by rw [h.mod_word (h.opened a live)]; exact hpos)
      rw [heq] at released
      cases released
  | leave ready left =>
      exact h.close ready (by rcases left with rfl | rfl <;> rfl)
  | shift closed still later =>
      refine ⟨fun a ha => ?_, h.few, h.opened, h.unopened, fun a ha => ?_⟩
      · have hword := h.word a ha
        rw [closed] at hword
        simpa only [still] using hword
      · rw [still] at ha
        cases ha
  | @install generation c r slot fits labelled =>
      have hclosed : g.slot.openWord = none := by
        rw [slot]
        rfl
      refine ⟨fun a ha => ?_, h.few, fun a ha => ?_, fun a ha => ?_, fun a ha => ?_⟩
      · have hcurrent : Slot.openWord (.ready (generation + 1) c g.opened) = some g.opened := rfl
        simp only [Gate.setWord_words, hcurrent, Option.some.injEq]
        by_cases hnew : a = g.opened
        · subst hnew
          have hnone : permits.count g.opened = 0 :=
            List.count_eq_zero.mpr (fun hm => absurd (h.opened _ hm) (lt_irrefl _))
          rw [if_pos rfl, if_pos rfl, hnone]
          rfl
        · have hlt : a < g.opened := by
            change a < g.opened + 1 at ha
            omega
          have hword := h.word a hlt
          rw [hclosed] at hword
          rw [if_neg hnew, if_neg (Ne.symm hnew), hword]
          rfl
      · exact (h.opened a ha).trans (Nat.lt_succ_self _)
      · change g.opened + 1 ≤ a at ha
        rw [Gate.setWord_words, if_neg (by omega), h.unopened a (by omega)]
      · obtain rfl := Option.some.inj ha
        exact Nat.lt_succ_self _

theorem start : Counted State.start.gate State.start.permits where
  word a ha := by
    obtain rfl := Nat.lt_one_iff.mp ha
    rfl
  few a := by simp [State.start]
  opened a ha := by simp [State.start] at ha
  unopened a _ := rfl
  current a ha := by
    obtain rfl := Option.some.inj ha
    exact Nat.zero_lt_one

end Counted

theorem counted_of_runs {s : State} {labels : List Action} (h : Runs Step .start labels s) :
    Counted s.gate s.permits :=
  h.invariant (I := fun _ s => Counted s.gate s.permits) Counted.start
    (fun _ _ _ _ _ hs hstep => hs.move hstep.move)

end Rss.Amqp
