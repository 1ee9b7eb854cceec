import Rss.Model.Saga.Snapshot
import Rss.Verification.Saga.Transition
import Mathlib.Logic.Relation

/-! # Settlement reservation

An admitted intent leaves enough entries, bytes and authentication work for every event
its settlement, the abort and the first attempt of each compensation can need. -/

namespace Rss.Saga

/-! ### The reserve as a number -/

namespace Progress

/-- Entries still owed to admitted obligations. -/
def owedEntries (p : Progress) : ℕ :=
  if p.status.isTerminal then 0
  else if p.status = .ready ∨ p.status = .running then
    2 * p.forward + 1 + if p.pending.isSome then 3 else 0
  else
    2 * p.compensation.getD 0 +
      if p.pending.isSome then 1
      else if p.compensationAttempt = 0 ∨ p.lastKind = some .resume then 2
      else 0

/-- The receipt a pending forward intent may still store. -/
def owedReceipt (p : Progress) : ℕ :=
  if (p.status = .ready ∨ p.status = .running) ∧ p.pending.isSome then receiptBytes else 0

def owedBytes (p : Progress) : ℕ := p.owedEntries * eventBytes + p.owedReceipt

theorem Inv.pending_kind {d : Definition} {p : Progress} {i : Intent} (h : Inv d p)
    (hp : p.pending = some i) :
    (i.kind = .forwardIntent ∨ i.kind = .compensationIntent) ∧ i.step < d.steps.length := by
  cases hs : p.status <;> simp only [Inv, hs] at h
  case ready | running =>
    obtain ⟨rfl, -⟩ := h.pending_eq i hp
    exact ⟨.inl rfl, h.forward_lt⟩
  case compensating | compensationFailed =>
    obtain ⟨hc, -, hk, -⟩ := h.pending_eq i hp
    obtain ⟨c, hc', hlt⟩ := h.compensation_lt
    have hf := h.forward_lt
    obtain rfl : c = i.step := Option.some.inj (hc'.symm.trans hc)
    exact ⟨.inr hk, by omega⟩
  case succeeded | compensated => simp [h.2.1] at hp

theorem Inv.forward_le {d : Definition} {p : Progress} (h : Inv d p) :
    p.forward ≤ d.steps.length := by
  cases hs : p.status <;> simp only [Inv, hs] at h
  case ready | running | compensating | compensationFailed => exact h.forward_lt.le
  case succeeded => exact h.1.le
  case compensated => exact h.1.le

theorem Inv.compensation_lt {d : Definition} {p : Progress} {c : ℕ} (h : Inv d p)
    (hc : p.compensation = some c) : c < d.steps.length := by
  cases hs : p.status <;> simp only [Inv, hs] at h
  case ready | running => simp [h.compensation_eq] at hc
  case compensating | compensationFailed =>
    obtain ⟨c', hc', hlt⟩ := h.compensation_lt
    have hf := h.forward_lt
    obtain rfl : c' = c := Option.some.inj (hc'.symm.trans hc)
    omega
  case succeeded | compensated => simp [h.2.2.1] at hc

/-- On reachable progress the reserve is defined and is what is owed. -/
theorem reserve_eq {d : Definition} {p : Progress} (hd : d.Valid) (h : Inv d p) :
    p.reserve = .ok (p.owedEntries, p.owedBytes) := by
  have hlen := hd.length_le
  have hforward : ¬ p.forward > 1024 := by
    have := h.forward_le
    omega
  have hcomp : ¬ ∃ c ∈ p.compensation, c ≥ 1024 := by
    rintro ⟨c, hc, hge⟩
    have := h.compensation_lt hc
    omega
  have hpending : ¬ ∃ i ∈ p.pending, i.step ≥ 1024 ∨
      ¬ (i.kind = .forwardIntent ∨ i.kind = .compensationIntent) := by
    rintro ⟨i, hi, hbad⟩
    obtain ⟨hk, hlt⟩ := h.pending_kind hi
    rcases hbad with hge | hbad
    · omega
    · exact hbad hk
  unfold reserve owedBytes owedEntries owedReceipt
  rw [if_neg (not_or.mpr ⟨hforward, not_or.mpr ⟨hcomp, hpending⟩⟩)]
  cases hs : p.status <;> simp [Status.isTerminal]

end Progress

/-! ### Admission as inequalities -/

namespace HistoryHead

/-- The history and everything it owes fit within a capacity. -/
def FitsIn (h : HistoryHead) (c : HistoryCapacity) : Prop :=
  c.Contains (h.revision + h.progress.owedEntries) (h.encodedBytes + h.progress.owedBytes)

instance (h : HistoryHead) (c : HistoryCapacity) : Decidable (h.FitsIn c) :=
  inferInstanceAs (Decidable (c.Contains _ _))

/-- Admission under a read budget, without the order of its checks. -/
structure Admitted (h : HistoryHead) (read : ReadBudget) : Prop where
  durable : h.FitsIn h.capacity
  readable : h.FitsIn read.history
  authenticated : h.admittedReceipts * plaintextBytes ≤ read.authenticationBytes

theorem checkCapacity_of_fitsIn {d : Definition} {h : HistoryHead} (hd : d.Valid)
    (hi : h.progress.Inv d) (hfit : h.FitsIn h.capacity) :
    h.checkCapacity =
      .ok (h.revision + h.progress.owedEntries, h.encodedBytes + h.progress.owedBytes) := by
  have he := h.capacity.entries_le
  have hb := h.capacity.bytes_le
  obtain ⟨hfe, hfb⟩ := hfit
  have hae : checkedAdd 64 h.revision h.progress.owedEntries =
      some (h.revision + h.progress.owedEntries) := checkedAdd_of_lt (by simp only [i64Max] at he; omega)
  have hab : checkedAdd 64 h.encodedBytes h.progress.owedBytes =
      some (h.encodedBytes + h.progress.owedBytes) := checkedAdd_of_lt (by simp only [i64Max] at hb; omega)
  simp [checkCapacity, reserve, Progress.reserve_eq hd hi, hae, hab, HistoryCapacity.Contains,
    hfe, hfb]

theorem checkCapacity_of_not_fitsIn {d : Definition} {h : HistoryHead} (hd : d.Valid)
    (hi : h.progress.Inv d) (hfit : ¬ h.FitsIn h.capacity) :
    h.checkCapacity = .error (.historyLimited .durableCapacity) := by
  simp only [checkCapacity, reserve, Progress.reserve_eq hd hi, ok_bind]
  cases hae : checkedAdd 64 h.revision h.progress.owedEntries with
  | none => rfl
  | some entries =>
      cases hab : checkedAdd 64 h.encodedBytes h.progress.owedBytes with
      | none => rfl
      | some bytes =>
          obtain ⟨rfl, -⟩ := checkedAdd_eq_some.mp hae
          obtain ⟨rfl, -⟩ := checkedAdd_eq_some.mp hab
          simp only [okOr_some, ok_bind]
          exact if_pos hfit

theorem admittedReceipts_le {d : Definition} {h : HistoryHead} (hd : d.Valid)
    (hi : h.progress.Inv d) : h.admittedReceipts ≤ 1025 := by
  have := hi.forward_le
  have := hd.length_le
  unfold admittedReceipts
  split <;> omega

/-- A budget check never fails by overflow at the sizes a history can have. -/
theorem check_eq_ok {read : ReadBudget} {entries bytes receipts : ℕ}
    (hr : receipts ≤ 1025) :
    read.check entries bytes receipts = .ok () ↔
      read.history.Contains entries bytes ∧
        receipts * plaintextBytes ≤ read.authenticationBytes := by
  have hm : checkedMul 64 receipts plaintextBytes = some (receipts * plaintextBytes) := by
    refine checkedMul_eq_some.mpr ⟨rfl, ?_⟩
    simp only [plaintextBytes]
    omega
  simp only [ReadBudget.check, hm, okOr_some, ok_bind]
  split
  · rename_i h
    simp only [reduceCtorEq, false_iff, not_and]
    intro hc hle
    rcases h with h | h
    · exact h hc
    · omega
  · rename_i h
    simp only [not_or, not_not, Nat.not_lt] at h
    simpa using h

/-- The admission check accepts exactly the admitted heads. -/
theorem checkAdmission_iff {d : Definition} {h : HistoryHead} {read : ReadBudget}
    (hd : d.Valid) (hi : h.progress.Inv d) :
    h.checkAdmission read = .ok () ↔ h.Admitted read := by
  by_cases hfit : h.FitsIn h.capacity
  · rw [checkAdmission, checkCapacity_of_fitsIn hd hi hfit, ok_bind, mapError_eq_ok,
      check_eq_ok (admittedReceipts_le hd hi)]
    exact ⟨fun hr => ⟨hfit, hr.1, hr.2⟩, fun hadm => ⟨hadm.readable, hadm.authenticated⟩⟩
  · simp only [checkAdmission, checkCapacity_of_not_fitsIn hd hi hfit, error_bind,
      reduceCtorEq, false_iff]
    exact fun h => hfit h.durable

end HistoryHead

/-! ### Mandatory events are paid from the reserve -/

theorem ProtectedReceipt.encodedBytes_le {r : ProtectedReceipt} {n : ℕ}
    (h : r.encodedBytes = .ok n) : n ≤ receiptBytes := by
  unfold ProtectedReceipt.encodedBytes at h
  split at h
  · cases h
  · rename_i hg
    simp only [not_or, not_lt, ne_eq, not_not, gt_iff_lt] at hg
    obtain ⟨-, hk, -, hb, ha, -, hi, hd, -⟩ := hg
    cases h
    simp only [aadBytes] at ha
    simp only [receiptBytes]
    omega

theorem Event.encodedBytes_none {e : Event} (h : e.receipt = none) :
    e.encodedBytes = .ok eventBytes := by
  simp [Event.encodedBytes, h]

theorem Event.encodedBytes_some {e : Event} {r : ProtectedReceipt} {n : ℕ}
    (h : e.receipt = some r) (hr : r.encodedBytes = .ok n) :
    e.encodedBytes = .ok (eventBytes + n) := by
  simp only [Event.encodedBytes, h, hr, ok_bind]
  rfl

theorem Event.encodedBytes_le {e : Event} {n : ℕ} (h : e.encodedBytes = .ok n) :
    n ≤ eventBytes + receiptBytes := by
  cases hr : e.receipt with
  | none =>
      rw [Event.encodedBytes_none hr] at h
      cases h
      omega
  | some r =>
      simp only [Event.encodedBytes, hr] at h
      obtain ⟨m, hm, h⟩ := bind_eq_ok.mp h
      cases h
      have := ProtectedReceipt.encodedBytes_le hm
      omega

namespace Progress

/-- Events for which an earlier admission has reserved room: the settlement of a pending
intent, the abort, and the intent that opens or resumes a compensation. -/
def Reserves (p : Progress) (e : Event) : Prop :=
  p.pending.isSome ∨ e.kind = .abort ∨
    e.kind = .compensationIntent ∧ (p.compensationAttempt = 0 ∨ p.lastKind = some .resume)

/-- A reserved event costs no more than its step releases. -/
theorem Step.owed_le {d : Definition} {p q : Progress} {e : Event} {n : ℕ}
    (h : Step d p e q) (hi : Inv d p) (hn : e.encodedBytes = .ok n) (hm : p.Reserves e) :
    q.owedEntries + 1 ≤ p.owedEntries ∧ q.owedBytes + n ≤ p.owedBytes := by
  have hcharge : e.receipt = none → n = eventBytes := by
    intro hr
    rw [Event.encodedBytes_none hr] at hn
    exact (Except.ok.inj hn).symm
  cases h with
  | forwardIntent hk hr hlt hs hp hf ha hb hmax =>
      rcases hm with hm | hm | hm <;> simp_all
  | forwardApplied r hk hr hlt ha hs hp hra hrs =>
      obtain ⟨-, hrun⟩ := hi.pendingForward hp rfl
      have hle := Event.encodedBytes_le hn
      by_cases hend : p.forward + 1 = d.steps.length
      · simp only [owedBytes, owedEntries, owedReceipt, hend, hrun, hp, Status.isTerminal,
          eventBytes] at hle ⊢
        simp
        omega
      · simp only [owedBytes, owedEntries, owedReceipt, hend, hrun, hp, Status.isTerminal,
          eventBytes] at hle ⊢
        simp
        omega
  | forwardNotApplied hk hr hlt ha hs hp hb =>
      obtain ⟨-, hrun⟩ := hi.pendingForward hp rfl
      have hn := hcharge hr
      simp [owedBytes, owedEntries, owedReceipt, hrun, hp, Status.isTerminal, hn, eventBytes]
      omega
  | forwardProbeNotApplied hk hr hlt ha hs hp =>
      obtain ⟨-, hrun⟩ := hi.pendingForward hp rfl
      have hn := hcharge hr
      simp [owedBytes, owedEntries, owedReceipt, hrun, hp, Status.isTerminal, hn, eventBytes]
      omega
  | abort hk hr hlt ha hs hp hf hat hmax hl =>
      have hn := hcharge hr
      rcases checkedSub_one_cases p.forward with ⟨hz, hc⟩ | ⟨c, hfc, hc⟩
      · simp [owedBytes, owedEntries, owedReceipt, hs, hp, hz, Status.isTerminal, hn, eventBytes]
      · simp [owedBytes, owedEntries, owedReceipt, hs, hp, hc, Status.isTerminal, hn,
          eventBytes]
        omega
  | compensationIntent hk hr hlt hs hp hc ha hb =>
      have hn := hcharge hr
      have hopen : p.compensationAttempt = 0 ∨ p.lastKind = some .resume := by
        rcases hm with hm | hm | hm <;> simp_all
      simp [owedBytes, owedEntries, owedReceipt, hs, hp, hc, hopen, Status.isTerminal, hn,
        eventBytes]
      omega
  | compensationApplied hk hr hlt ha hs hp =>
      have hn := hcharge hr
      have hc := ((hi.compensation (.inl hs)).pending_eq _ hp).1
      rcases checkedSub_one_cases e.step with ⟨hz, hc'⟩ | ⟨c, hec, hc'⟩
      · simp [owedBytes, owedEntries, owedReceipt, hs, hp, hc, hz, Status.isTerminal, hn,
          eventBytes]
      · simp [owedBytes, owedEntries, owedReceipt, hs, hp, hc, hc', Status.isTerminal, hn,
          eventBytes]
        omega
  | compensationNotApplied hk hr hlt ha hs hp =>
      have hn := hcharge hr
      obtain ⟨hc, -, -, hpos, -, -⟩ := (hi.compensation (.inl hs)).pending_eq _ hp
      simp [owedBytes, owedEntries, owedReceipt, hs, hp, hc, Status.isTerminal, hn, eventBytes,
        hpos.ne']
      omega
  | compensationFailed hk hr hlt ha hs hp =>
      have hn := hcharge hr
      obtain ⟨hc, -, -, hpos, -, -⟩ := (hi.compensation (.inl hs)).pending_eq _ hp
      simp [owedBytes, owedEntries, owedReceipt, hs, hp, hc, Status.isTerminal, hn, eventBytes,
        hpos.ne']
      omega
  | resume hk hr hlt ha hs hp hc hat =>
      rcases hm with hm | hm | hm <;> simp_all

end Progress

/-! ### Preparing an event -/

namespace Snapshot

@[simp] theorem head_progress (s : Snapshot) : s.head.progress = s.progress := rfl

@[simp] theorem head_revision (s : Snapshot) : s.head.revision = s.revision := rfl

@[simp] theorem progress_status (s : Snapshot) : s.progress.status = s.status := rfl

/-- The head an accepted event leads to. -/
def headAfter (s : Snapshot) (q : Progress) (n : ℕ) : HistoryHead :=
  { revision := s.revision + 1, encodedBytes := s.head.encodedBytes + n,
    capacity := s.head.capacity, progress := q }

theorem transition_eq_ok {s : Snapshot} {e : Event} {h : HistoryHead} :
    s.transition e = .ok h ↔
      ∃ q n, Progress.Step s.definition s.progress e q ∧ e.encodedBytes = .ok n ∧
        s.revision + 1 < 2 ^ 64 ∧ s.head.encodedBytes + n < 2 ^ 64 ∧ h = s.headAfter q n := by
  simp only [transition, bind_eq_ok, okOr_eq_ok, checkedAdd_eq_some, Progress.transition_iff]
  constructor
  · rintro ⟨q, hq, _, ⟨rfl, hrev⟩, n, hn, _, ⟨rfl, hbytes⟩, hh⟩
    exact ⟨q, n, hq, hn, hrev, hbytes, (Except.ok.inj hh).symm⟩
  · rintro ⟨q, n, hq, hn, hrev, hbytes, rfl⟩
    exact ⟨q, hq, _, ⟨rfl, hrev⟩, n, hn, _, ⟨rfl, hbytes⟩, rfl⟩

/-- Preparing a new event accepts exactly the steps whose result is admitted. -/
theorem prepare_admission_iff {s : Snapshot} {e : Event} {h : HistoryHead}
    (hd : s.definition.Valid) (hi : s.progress.Inv s.definition) :
    s.prepare e true = .ok h ↔
      e.seq = s.revision ∧ ∃ q n, Progress.Step s.definition s.progress e q ∧
        e.encodedBytes = .ok n ∧ h = s.headAfter q n ∧ h.Admitted s.read := by
  unfold prepare
  by_cases hseq : e.seq = s.revision
  · simp only [hseq, ne_eq, not_true, if_false, if_true, true_and, bind_eq_ok, transition_eq_ok]
    constructor
    · rintro ⟨_, ⟨q, n, hq, hn, -, -, rfl⟩, _, hadm, hh⟩
      obtain rfl := Except.ok.inj hh
      exact ⟨q, n, hq, hn, rfl,
        (HistoryHead.checkAdmission_iff hd (hq.inv hd hi)).mp hadm⟩
    · rintro ⟨q, n, hq, hn, rfl, hadm⟩
      have he := s.head.capacity.entries_le
      have hb := s.head.capacity.bytes_le
      obtain ⟨hfe, hfb⟩ := hadm.durable
      simp only [headAfter] at hfe hfb
      simp only [i64Max] at he hb
      refine ⟨_, ⟨q, n, hq, hn, by omega, by omega, rfl⟩, (), ?_, rfl⟩
      exact (HistoryHead.checkAdmission_iff hd (hq.inv hd hi)).mpr hadm
  · simp [hseq]

theorem apply_eq_ok {s s' : Snapshot} {e : Event} :
    s.apply e = .ok s' ↔ ∃ h, s.prepare e true = .ok h ∧ s' = s.accept e h := by
  simp only [apply, bind_eq_ok, Except.ok.injEq]
  exact exists_congr (fun h => and_congr_right (fun _ => eq_comm))

end Snapshot

/-! ### Spending the reservation -/

theorem HistoryHead.FitsIn.mono {h : HistoryHead} {c c' : HistoryCapacity} (hfit : h.FitsIn c)
    (he : c.maxEntries ≤ c'.maxEntries) (hb : c.maxEncodedBytes ≤ c'.maxEncodedBytes) :
    h.FitsIn c' :=
  ⟨hfit.1.trans he, hfit.2.trans hb⟩

namespace Snapshot

/-- A reserved event keeps the history within every capacity that contained it. -/
theorem fitsIn_headAfter {s : Snapshot} {e : Event} {q : Progress} {n : ℕ}
    {c : HistoryCapacity} (hi : s.progress.Inv s.definition)
    (hq : Progress.Step s.definition s.progress e q) (hn : e.encodedBytes = .ok n)
    (hm : s.progress.Reserves e) (hfit : s.head.FitsIn c) : (s.headAfter q n).FitsIn c := by
  obtain ⟨he, hb⟩ := hq.owed_le hi hn hm
  obtain ⟨hfe, hfb⟩ := hfit
  simp only [head_progress, head_revision] at hfe hfb
  constructor <;> simp only [headAfter] <;> omega

/-- Settling an intent leaves no more receipts to authenticate than its admission allowed. -/
theorem admittedReceipts_headAfter_le {s : Snapshot} {e : Event} {q : Progress} {n : ℕ}
    (hq : Progress.Step s.definition s.progress e q) (hp : s.progress.pending.isSome) :
    (s.headAfter q n).admittedReceipts ≤ s.head.admittedReceipts := by
  simp only [HistoryHead.admittedReceipts, headAfter, head_progress, hp, true_or, if_true]
  cases hq with
  | forwardIntent _ _ _ _ h _ _ _ _ => simp [h] at hp
  | abort _ _ _ _ _ h _ _ _ _ => simp [h] at hp
  | compensationIntent _ _ _ _ h _ _ _ => simp [h] at hp
  | resume _ _ _ _ _ h _ _ => simp [h] at hp
  | _ => simp

/-- A settlement of an admitted intent is admitted again. -/
theorem admitted_settlement {s : Snapshot} {e : Event} {q : Progress} {n : ℕ}
    (hi : s.progress.Inv s.definition) (hadm : s.head.Admitted s.read)
    (hq : Progress.Step s.definition s.progress e q) (hn : e.encodedBytes = .ok n)
    (hp : s.progress.pending.isSome) : (s.headAfter q n).Admitted s.read := by
  refine ⟨fitsIn_headAfter hi hq hn (.inl hp) hadm.durable,
    fitsIn_headAfter hi hq hn (.inl hp) hadm.readable, ?_⟩
  exact (Nat.mul_le_mul_right _ (admittedReceipts_headAfter_le hq hp)).trans hadm.authenticated

/-! ### Runs of admitted events -/

/-- One change of a live snapshot: an admitted event, or an explicit capacity growth. -/
inductive Evolves (s s' : Snapshot) : Prop where
  | apply (e : Event) (h : s.apply e = .ok s')
  | extendCapacity (expected next : HistoryCapacity)
      (h : s.extendCapacity expected next = .ok s')

/-- What every live snapshot satisfies under its fixed read budget. The empty history owes
an abort it has not been admitted for, so it is the one state outside the reservation. -/
structure Inv (s : Snapshot) : Prop where
  valid : s.definition.Valid
  progress : s.progress.Inv s.definition
  fits : s.progress = Progress.empty ∨ s.head.FitsIn s.head.capacity ∧ s.head.FitsIn s.read.history
  authenticated : 0 < s.progress.forwardAttempt →
    (s.progress.forward + 1) * plaintextBytes ≤ s.read.authenticationBytes

theorem empty_eq_ok {H : Hashing} {d : Definition} {capacity : HistoryCapacity}
    {read : ReadBudget} {s : Snapshot} (h : empty H d capacity read = .ok s) :
    d.validate H = .ok () ∧ s = ⟨d, [], [], ⟨0, 0, capacity, Progress.empty⟩, read⟩ := by
  obtain ⟨u, hv, hs⟩ := bind_eq_ok.mp h
  exact ⟨hv, (Except.ok.inj hs).symm⟩

theorem inv_of_empty {H : Hashing} {d : Definition} {capacity : HistoryCapacity}
    {read : ReadBudget} {s : Snapshot} (h : empty H d capacity read = .ok s) : s.Inv := by
  obtain ⟨hv, rfl⟩ := empty_eq_ok h
  have hd := Definition.valid_of_validate hv
  exact ⟨hd, Progress.inv_empty hd, .inl rfl, fun h => absurd h (Nat.lt_irrefl 0)⟩

/-- An open attempt was admitted together with its receipt. -/
theorem authenticated_step {s : Snapshot} {e : Event} {q : Progress} {n : ℕ}
    (hi : s.Inv) (hq : Progress.Step s.definition s.progress e q)
    (hadm : (s.headAfter q n).Admitted s.read) (hpos : 0 < q.forwardAttempt) :
    (q.forward + 1) * plaintextBytes ≤ s.read.authenticationBytes := by
  have hold := hi.authenticated
  cases hq with
  | forwardIntent _ _ _ _ _ _ _ _ _ =>
      simpa [HistoryHead.admittedReceipts, headAfter] using hadm.authenticated
  | forwardApplied _ _ _ _ _ _ _ _ _ => exact absurd hpos (Nat.lt_irrefl 0)
  | _ => exact hold hpos

theorem Evolves.inv {s s' : Snapshot} (h : Evolves s s') (hi : s.Inv) : s'.Inv := by
  cases h with
  | apply e h =>
      obtain ⟨_, hprep, rfl⟩ := apply_eq_ok.mp h
      obtain ⟨-, q, n, hq, hn, rfl, hadm⟩ :=
        (prepare_admission_iff hi.valid hi.progress).mp hprep
      exact ⟨hi.valid, hq.inv hi.valid hi.progress, .inr ⟨hadm.durable, hadm.readable⟩,
        fun hpos => authenticated_step (s := s) hi hq hadm hpos⟩
  | extendCapacity expected next h =>
      unfold Snapshot.extendCapacity at h
      split at h
      · cases h
      · rename_i hg
        simp only [not_or, ne_eq, not_not] at hg
        obtain ⟨rfl, hle, hlb, -⟩ := hg
        cases h
        refine ⟨hi.valid, hi.progress, ?_, hi.authenticated⟩
        rcases hi.fits with hempty | ⟨hcap, hread⟩
        · exact .inl hempty
        · exact .inr ⟨HistoryHead.FitsIn.mono (h := s.head) hcap hle hlb, hread⟩

theorem inv_of_evolves {s s' : Snapshot} (h : Relation.ReflTransGen Evolves s s')
    (hi : s.Inv) : s'.Inv := by
  induction h with
  | refl => exact hi
  | tail _ hstep ih => exact hstep.inv ih

/-- Progress with an open intent or an open phase has left the empty history. -/
theorem Inv.fits_of_ne {s : Snapshot} (hi : s.Inv) (hne : s.progress ≠ Progress.empty) :
    s.head.FitsIn s.head.capacity ∧ s.head.FitsIn s.read.history :=
  hi.fits.resolve_left hne

theorem apply_of_step {s : Snapshot} {e : Event} {q : Progress} {n : ℕ} (hi : s.Inv)
    (hseq : e.seq = s.revision) (hq : Progress.Step s.definition s.progress e q)
    (hn : e.encodedBytes = .ok n) (hadm : (s.headAfter q n).Admitted s.read) :
    s.apply e = .ok (s.accept e (s.headAfter q n)) :=
  apply_eq_ok.mpr ⟨_, (prepare_admission_iff hi.valid hi.progress).mpr
    ⟨hseq, q, n, hq, hn, rfl, hadm⟩, rfl⟩

/-- The head of a live snapshot with a pending intent is admitted. -/
theorem Inv.admitted_pending {s : Snapshot} (hi : s.Inv) (hp : s.progress.pending.isSome) :
    s.head.Admitted s.read := by
  obtain ⟨hcap, hread⟩ := hi.fits_of_ne (by rintro h; simp [h, Progress.empty] at hp)
  refine ⟨hcap, hread, ?_⟩
  have hpos : 0 < s.progress.forwardAttempt := by
    obtain ⟨i, hp⟩ := Option.isSome_iff_exists.mp hp
    have hinv := hi.progress
    cases hs : s.progress.status <;> simp only [Progress.Inv, hs] at hinv
    case ready | running => exact (hinv.pending_eq i hp).2.1
    case compensating | compensationFailed => exact hinv.forwardAttempt_pos
    case succeeded | compensated => simp [hinv.2.1] at hp
  simpa [HistoryHead.admittedReceipts, hp] using hi.authenticated hpos

end Snapshot

/-! ### Settlements -/

/-- The event resolves the intent: same coordinates, a settlement kind of its phase, and a
receipt exactly on forward completion. -/
def Event.Settles (e : Event) (i : Intent) (seq : ℕ) : Prop :=
  e.seq = seq ∧ e.step = i.step ∧ e.attempt = i.attempt ∧
    match i.kind with
    | .forwardIntent =>
        (e.kind = .forwardApplied ∧ ∃ r n, e.receipt = some r ∧ r.encodedBytes = .ok n ∧
          r.attempt = i.attempt ∧ r.seq = seq) ∨
        ((e.kind = .forwardNotApplied ∨ e.kind = .forwardProbeNotApplied) ∧ e.receipt = none)
    | .compensationIntent =>
        (e.kind = .compensationApplied ∨ e.kind = .compensationNotApplied ∨
          e.kind = .compensationFailed) ∧ e.receipt = none
    | _ => False

namespace Progress

/-- Every settlement of the pending intent is a step of the machine. -/
theorem Inv.settles {d : Definition} {p : Progress} {i : Intent} {e : Event} {seq : ℕ}
    (hi : Inv d p) (hp : p.pending = some i) (h : e.Settles i seq) :
    ∃ q n, Step d p e q ∧ e.encodedBytes = .ok n := by
  obtain ⟨hseq, hstep, hat, hkind⟩ := h
  obtain ⟨hk, hlt⟩ := hi.pending_kind hp
  rw [← hstep] at hlt
  rcases hk with hk | hk <;> rw [hk] at hkind
  · obtain ⟨hf, hrun⟩ := hi.pendingForward hp hk
    obtain ⟨hieq, hpos, hmax, -, -⟩ := hf.pending_eq i hp
    have ha : 0 < e.attempt := by rw [hat, hieq]; exact hpos
    have ht : p.status.isTerminal = false := by rw [hrun]; rfl
    have hp' : p.pending = some ⟨e.step, e.attempt, .forwardIntent⟩ := by
      rw [hp, hstep, hat, ← hk]
    rcases hkind with ⟨hk', r, n, hr, hn, hra, hrs⟩ | ⟨hk' | hk', hr⟩
    · exact ⟨_, _, .forwardApplied r hk' hr hlt ha ht hp' (hra.trans hat.symm)
        (hrs.trans hseq.symm), Event.encodedBytes_some hr hn⟩
    · have hb : p.forwardFailures + 1 < 2 ^ 32 := by
        have := d.maxFailures_lt p.forward
        omega
      exact ⟨_, _, .forwardNotApplied hk' hr hlt ha ht hp' hb, Event.encodedBytes_none hr⟩
    · exact ⟨_, _, .forwardProbeNotApplied hk' hr hlt ha ht hp', Event.encodedBytes_none hr⟩
  · obtain ⟨hkind, hr⟩ := hkind
    obtain ⟨hc, hs⟩ := hi.pendingCompensation hp hk
    obtain ⟨-, hia, -, hpos, -⟩ := hc.pending_eq i hp
    have ha : 0 < e.attempt := by rw [hat, hia]; exact hpos
    have hp' : p.pending = some ⟨e.step, e.attempt, .compensationIntent⟩ := by
      rw [hp, hstep, hat, ← hk]
    rcases hkind with hk' | hk' | hk'
    · exact ⟨_, _, .compensationApplied hk' hr hlt ha hs hp', Event.encodedBytes_none hr⟩
    · exact ⟨_, _, .compensationNotApplied hk' hr hlt ha hs hp', Event.encodedBytes_none hr⟩
    · exact ⟨_, _, .compensationFailed hk' hr hlt ha hs hp', Event.encodedBytes_none hr⟩

end Progress

namespace Snapshot

theorem Inv.apply_settlement {s : Snapshot} {i : Intent} {e : Event} (hi : s.Inv)
    (hp : s.progress.pending = some i) (h : e.Settles i s.revision) :
    ∃ s', s.apply e = .ok s' := by
  obtain ⟨q, n, hq, hn⟩ := hi.progress.settles hp h
  have hp' : s.progress.pending.isSome := by simp [hp]
  exact ⟨_, apply_of_step hi h.1 hq hn
    (admitted_settlement hi.progress (hi.admitted_pending hp') hq hn hp')⟩

/-- The abort of the open forward step. -/
def abortEvent (s : Snapshot) : Event :=
  { seq := s.revision, step := s.progress.forward, attempt := s.progress.forwardAttempt,
    kind := .abort, receipt := none }

theorem Inv.apply_abort {s : Snapshot} (hi : s.Inv)
    (hs : s.status = .ready ∨ s.status = .running)
    (hx : s.definition.maxFailures s.progress.forward ≤ s.progress.forwardFailures) :
    ∃ s', s.apply s.abortEvent = .ok s' := by
  have hf := hi.progress.forward hs
  obtain ⟨hready, hlast⟩ := hf.exhausted hx
  have hp : s.progress.pending = none := by
    cases hp : s.progress.pending with
    | none => rfl
    | some i => exact absurd hx (Nat.not_le.mpr (hf.pending_eq i hp).2.2.1)
  have hpos : 0 < s.progress.forwardAttempt :=
    hf.attempt_pos ((hi.valid.maxFailures_pos _ hf.forward_lt).trans_le hx)
  have hq : Progress.Step s.definition s.progress s.abortEvent _ :=
    .abort rfl rfl hf.forward_lt hpos hready hp rfl rfl hx hlast
  obtain ⟨hcap, hread⟩ := hi.fits_of_ne (by rintro h; simp [h, Progress.empty] at hlast)
  have hn : s.abortEvent.encodedBytes = .ok eventBytes := Event.encodedBytes_none rfl
  refine ⟨_, apply_of_step hi rfl hq hn ⟨fitsIn_headAfter hi.progress hq hn (.inr (.inl rfl)) hcap,
    fitsIn_headAfter hi.progress hq hn (.inr (.inl rfl)) hread, ?_⟩⟩
  refine le_trans ?_ (hi.authenticated hpos)
  apply Nat.mul_le_mul_right
  simp [HistoryHead.admittedReceipts, headAfter, hp]

/-- The intent that opens the compensation of a step. -/
def firstCompensationIntent (s : Snapshot) (step : ℕ) : Event :=
  { seq := s.revision, step, attempt := 1, kind := .compensationIntent, receipt := none }

theorem Inv.apply_firstCompensationIntent {s : Snapshot} (hi : s.Inv)
    (hs : s.status = .compensating) (h0 : s.progress.compensationAttempt = 0) :
    ∃ step s', s.progress.compensation = some step ∧
      s.apply (s.firstCompensationIntent step) = .ok s' := by
  have hc := hi.progress.compensation (.inl hs)
  obtain ⟨step, hstep, hlt⟩ := hc.compensation_lt
  have hp : s.progress.pending = none := by
    cases hp : s.progress.pending with
    | none => rfl
    | some i => exact absurd h0 (hc.pending_eq i hp).2.2.2.1.ne'
  have hn' : step < s.definition.steps.length := hi.progress.compensation_lt hstep
  have hq : Progress.Step s.definition s.progress (s.firstCompensationIntent step) _ :=
    .compensationIntent rfl rfl hn' hs hp hstep (by rw [h0]; rfl) (by simp [firstCompensationIntent])
  obtain ⟨hcap, hread⟩ := hi.fits_of_ne (by rintro h; simp [h, Progress.empty] at hstep)
  have hn : (s.firstCompensationIntent step).encodedBytes = .ok eventBytes :=
    Event.encodedBytes_none rfl
  have hm : s.progress.Reserves (s.firstCompensationIntent step) := .inr (.inr ⟨rfl, .inl h0⟩)
  refine ⟨step, _, hstep, apply_of_step hi rfl hq hn ⟨fitsIn_headAfter hi.progress hq hn hm hcap,
    fitsIn_headAfter hi.progress hq hn hm hread, ?_⟩⟩
  refine le_trans ?_ (hi.authenticated hc.forwardAttempt_pos)
  apply Nat.mul_le_mul_right
  simp [HistoryHead.admittedReceipts, headAfter]

theorem transition_closed_abort {d : Definition} {p : Progress} {e : Event}
    (hk : e.kind = .abort) (hs : p.status ≠ .ready) : p.transition d e = .error .integrity := by
  unfold Progress.transition
  split
  · rfl
  · simp [Progress.advance, hk, hs]

/-- Outside the forward phase an abort is refused for its transition, not for space. -/
theorem apply_closed_abort {s : Snapshot} (hs : ¬ (s.status = .ready ∨ s.status = .running)) :
    s.apply s.abortEvent = .error .integrity := by
  have ht : s.progress.transition s.definition s.abortEvent = .error .integrity :=
    transition_closed_abort rfl (fun h => hs (.inl h))
  have hseq : s.abortEvent.seq = s.revision := rfl
  simp [apply, prepare, transition, ht, hseq]

theorem Evolves.definition_eq {s s' : Snapshot} (h : Evolves s s') :
    s'.definition = s.definition := by
  cases h with
  | apply e h =>
      obtain ⟨_, -, rfl⟩ := apply_eq_ok.mp h
      rfl
  | extendCapacity expected next h =>
      unfold Snapshot.extendCapacity at h
      split at h
      · cases h
      · cases h
        rfl

theorem definition_of_evolves {s s' : Snapshot} (h : Relation.ReflTransGen Evolves s s') :
    s'.definition = s.definition := by
  induction h with
  | refl => rfl
  | tail _ hstep ih => exact hstep.definition_eq.trans ih

/-- Applying a list of events one after the other is a run. -/
theorem evolves_of_foldlM {s s' : Snapshot} {events : List Event}
    (h : events.foldlM Snapshot.apply s = .ok s') : Relation.ReflTransGen Evolves s s' := by
  induction events generalizing s with
  | nil =>
      cases h
      exact .refl
  | cons e events ih =>
      obtain ⟨t, ht, h⟩ := bind_eq_ok.mp h
      exact .head (.apply e ht) (ih h)

end Snapshot

/-- The reservation covers every obligation an admission creates. In each state of a live
snapshot the pending intent can be settled in every way, a used-up failure limit can be
turned into the abort as long as the forward phase lasts, and a compensation can be opened;
none of these events is ever refused for space. After the abort the failure count keeps
its value and a second abort is no transition of the machine. -/
theorem reservation_sound {H : Hashing} {d : Definition} {capacity : HistoryCapacity}
    {read : ReadBudget} {s₀ s : Snapshot} (h₀ : Snapshot.empty H d capacity read = .ok s₀)
    (hr : Relation.ReflTransGen Snapshot.Evolves s₀ s) :
    (∀ i e, s.progress.pending = some i → e.Settles i s.revision →
      ∃ s', s.apply e = .ok s') ∧
    (∀ spec, d.steps[s.progress.forward]? = some spec →
      spec.maxFailures.toNat ≤ s.progress.forwardFailures →
      (s.status = .ready ∨ s.status = .running → ∃ s', s.apply s.abortEvent = .ok s') ∧
      (¬ (s.status = .ready ∨ s.status = .running) →
        s.apply s.abortEvent = .error .integrity)) ∧
    (s.status = .compensating → s.progress.compensationAttempt = 0 →
      ∃ step s', s.progress.compensation = some step ∧
        s.apply (s.firstCompensationIntent step) = .ok s') := by
  have hi := Snapshot.inv_of_evolves hr (Snapshot.inv_of_empty h₀)
  have hdef : s.definition = d := by
    rw [Snapshot.definition_of_evolves hr]
    obtain ⟨-, rfl⟩ := Snapshot.empty_eq_ok h₀
    rfl
  refine ⟨fun i e hp he => hi.apply_settlement hp he, ?_,
    fun hs h0 => hi.apply_firstCompensationIntent hs h0⟩
  intro spec hspec hmax
  refine ⟨fun hs => hi.apply_abort hs ?_, Snapshot.apply_closed_abort⟩
  simpa only [hdef, Definition.maxFailures, hspec] using hmax

/-! ### A two-step order -/

def orderDefinition : Definition where
  owner := "orders"
  identity := ⟨"orders.checkout", "v1",
    "sha256:aaaaaaaaaaaaaaaaaaaaaaaaaaaaaaaaaaaaaaaaaaaaaaaaaaaaaaaaaaaaaaaa",
    "sha256:bbbbbbbbbbbbbbbbbbbbbbbbbbbbbbbbbbbbbbbbbbbbbbbbbbbbbbbbbbbbbbbb"⟩
  steps := [⟨"reserve", "receipt.v1", "reserve", "release", 1⟩,
    ⟨"charge", "receipt.v1", "charge", "refund", 1⟩]
  fingerprint := [47, 239, 202, 68, 233, 139, 147, 240, 96, 224, 22, 33, 8, 18, 21, 120, 196,
    84, 1, 152, 110, 141, 219, 154, 189, 139, 10, 60, 68, 91, 233, 136]

/-- The canonical bytes and the digest the libraries compute for `orderDefinition`. -/
def orderHashing : Hashing where
  canonicalJson _ _ _ := some (textBytes
    "[\"orders\",\x7b\"contract\":\"orders.checkout\",\"generation\":\"sha256:bbbbbbbbbbbbbbbbbbbbbbbbbbbbbbbbbbbbbbbbbbbbbbbbbbbbbbbbbbbbbbbb\",\"schema\":\"sha256:aaaaaaaaaaaaaaaaaaaaaaaaaaaaaaaaaaaaaaaaaaaaaaaaaaaaaaaaaaaaaaaa\",\"version\":\"v1\"\x7d,[\x7b\"compensation_scope\":\"release\",\"forward_scope\":\"reserve\",\"max_failures\":1,\"name\":\"reserve\",\"receipt_schema\":\"receipt.v1\"\x7d,\x7b\"compensation_scope\":\"refund\",\"forward_scope\":\"charge\",\"max_failures\":1,\"name\":\"charge\",\"receipt_schema\":\"receipt.v1\"\x7d]]")
  sha256 _ := orderDefinition.fingerprint

def orderCapacity : HistoryCapacity :=
  ⟨100, 64 * 1024 * 1024, by decide, by decide, by decide, by decide⟩

def orderRead : ReadBudget := ⟨orderCapacity, 4 * 1024 * 1024, by decide, by decide⟩

def orderReceipt : ProtectedReceipt where
  ciphertext := ⟨"key-1", [7]⟩
  keyId := "integrity-v1"
  digest := List.replicate 32 0
  aad := []
  format := 1
  attempt := 1
  seq := 1

/-- The first step succeeds, the second fails once, and the saga aborts. -/
def orderEvents : List Event :=
  [⟨0, 0, 1, .forwardIntent, none⟩, ⟨1, 0, 1, .forwardApplied, some orderReceipt⟩,
    ⟨2, 1, 1, .forwardIntent, none⟩, ⟨3, 1, 1, .forwardNotApplied, none⟩,
    ⟨4, 1, 1, .abort, none⟩]

def orderSnapshot (events : List Event) : Result Snapshot := do
  let s ← Snapshot.empty orderHashing orderDefinition orderCapacity orderRead
  events.foldlM Snapshot.apply s

theorem orderSnapshot_reachable {events : List Event} {s : Snapshot}
    (h : orderSnapshot events = .ok s) :
    ∃ s₀, Snapshot.empty orderHashing orderDefinition orderCapacity orderRead = .ok s₀ ∧
      Relation.ReflTransGen Snapshot.Evolves s₀ s := by
  obtain ⟨s₀, h₀, h⟩ := bind_eq_ok.mp h
  exact ⟨s₀, h₀, Snapshot.evolves_of_foldlM h⟩

/-- The order with its first intent pending. -/
def orderPending : Snapshot where
  definition := orderDefinition
  events := orderEvents.take 1
  receiptSequences := []
  head := ⟨1, 256, orderCapacity,
    ⟨.running, 0, 1, 0, none, 0, some ⟨0, 1, .forwardIntent⟩, some .forwardIntent⟩⟩
  read := orderRead

/-- The order after its abort. -/
def orderAborted : Snapshot where
  definition := orderDefinition
  events := orderEvents
  receiptSequences := [1]
  head := ⟨5, 2571, orderCapacity, ⟨.compensating, 1, 1, 1, some 0, 0, none, some .abort⟩⟩
  read := orderRead

theorem orderSnapshot_pending : orderSnapshot (orderEvents.take 1) = .ok orderPending := by
  decide +kernel

theorem orderSnapshot_aborted : orderSnapshot orderEvents = .ok orderAborted := by
  decide +kernel

theorem reservation_sound_order :
    orderPending.progress.pending = some ⟨0, 1, .forwardIntent⟩ ∧
      ∃ s', orderPending.apply ⟨1, 0, 1, .forwardApplied, some orderReceipt⟩ = .ok s' := by
  obtain ⟨s₀, h₀, hr⟩ := orderSnapshot_reachable orderSnapshot_pending
  refine ⟨rfl, (reservation_sound h₀ hr).1 ⟨0, 1, .forwardIntent⟩ _ rfl ?_⟩
  exact ⟨rfl, rfl, rfl, .inl ⟨rfl, orderReceipt, 1291, rfl, by decide +kernel, rfl, rfl⟩⟩

/-- The failure count survives the abort, so a state where it has reached the limit need
not accept one: the aborted order compensates and takes no abort event. -/
theorem abort_refused_after_abort :
    ¬ ∀ (H : Hashing) (d : Definition) (capacity : HistoryCapacity) (read : ReadBudget)
        (s₀ s : Snapshot), Snapshot.empty H d capacity read = .ok s₀ →
      Relation.ReflTransGen Snapshot.Evolves s₀ s →
      ∀ spec, d.steps[s.progress.forward]? = some spec →
        spec.maxFailures.toNat ≤ s.progress.forwardFailures →
        ∃ e s', e.kind = .abort ∧ s.apply e = .ok s' := by
  intro h
  obtain ⟨s₀, h₀, hr⟩ := orderSnapshot_reachable orderSnapshot_aborted
  obtain ⟨e, s', hk, ha⟩ := h _ _ _ _ _ _ h₀ hr _ rfl (by decide)
  obtain ⟨head, hprep, -⟩ := Snapshot.apply_eq_ok.mp ha
  have hi := Snapshot.inv_of_evolves hr (Snapshot.inv_of_empty h₀)
  obtain ⟨-, q, n, hq, -, -, -⟩ :=
    (Snapshot.prepare_admission_iff hi.valid hi.progress).mp hprep
  rw [← Progress.transition_iff, Snapshot.transition_closed_abort hk (by decide)] at hq
  cases hq

end Rss.Saga
