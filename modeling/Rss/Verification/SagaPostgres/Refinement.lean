import Rss.Verification.SagaPostgres.Encoding

/-! # The SQL projection refines the reducer

`next_progress` accepts the events that `Progress::transition` accepts, with the same result,
and `commit_event` admits what `Snapshot::prepare` admits. -/

namespace Rss.SagaPostgres

open Rss.Sql Rss.Saga

/-! ### Conditions on encoded values -/

theorem equal_some {α : Type} [DecidableEq α] (a b : α) :
    equal (some a) (some b) = some true ↔ a = b := by
  simp [equal, comparing]

theorem equal_nat (a b : ℕ) : equal (some (a : ℤ)) (some (b : ℤ)) = some true ↔ a = b := by
  rw [equal_some]
  exact Int.ofNat_inj

theorem less_nat (a b : ℕ) : less (some (a : ℤ)) (some (b : ℤ)) = some true ↔ a < b := by
  simp [less, comparing]

theorem not_less_nat (a b : ℕ) :
    (less (some (a : ℤ)) (some (b : ℤ))).map not = some true ↔ b ≤ a := by
  simp [less, comparing]

theorem kind_text_injective {k k' : EventKind} (h : k.text = k'.text) : k = k' := by
  cases k <;> cases k' <;> first | rfl | (exfalso; revert h; decide)

theorem status_text_injective {s s' : Status} (h : s.text = s'.text) : s = s' := by
  cases s <;> cases s' <;> first | rfl | (exfalso; revert h; decide)

theorem equal_status (s s' : Status) : equal (some s.text) (some s'.text) = some true ↔ s = s' := by
  rw [equal_some]
  exact ⟨status_text_injective, congrArg _⟩

theorem status_forward (s : Status) :
    isIn (some s.text) ["Ready", "Running"] = some true ↔ s = .ready ∨ s = .running := by
  cases s <;> decide

theorem status_terminal (s : Status) :
    isIn (some s.text) ["Succeeded", "Compensated"] = some s.isTerminal := by
  cases s <;> decide

theorem pending_null (i : Option Intent) :
    equal (some (encodeOption Intent.encode i)) (some .null) = some true ↔ i = none := by
  rw [equal_some]
  cases i <;> simp [encodeOption, Intent.encode]

theorem intentObject_encode (s a : ℕ) (k : EventKind) :
    intentObject (some (s : ℤ)) (some (a : ℤ)) (some k.text) = Intent.encode ⟨s, a, k⟩ := rfl

theorem pending_matches (i : Option Intent) (s a : ℕ) (k : EventKind) :
    equal (some (encodeOption Intent.encode i))
      (some (intentObject (some (s : ℤ)) (some (a : ℤ)) (some k.text))) = some true ↔
        i = some ⟨s, a, k⟩ := by
  rw [equal_some, intentObject_encode]
  cases i with
  | none => simp [encodeOption, Intent.encode]
  | some i =>
      obtain ⟨s', a', k'⟩ := i
      simp only [encodeOption, Intent.encode, encodeNat, Json.obj.injEq, List.cons.injEq,
        Prod.mk.injEq, true_and, and_true, Json.num.injEq, Json.str.injEq, Option.some.injEq,
        Intent.mk.injEq, Int.ofNat_inj]
      exact and_congr_right fun _ => and_congr_right fun _ => ⟨kind_text_injective, congrArg _⟩

theorem lastKind_text (k : Option EventKind) (k' : EventKind) :
    equal (k.map EventKind.text) (some k'.text) = some true ↔ k = some k' := by
  cases k with
  | none => simp [equal, comparing]
  | some k =>
      rw [Option.map_some, equal_some, Option.some.injEq]
      exact ⟨kind_text_injective, congrArg _⟩

theorem add_one_nat {a : ℕ} (h : a + 1 < 2 ^ 63) :
    add (some (a : ℤ)) (some 1) = .ok (some ((a + 1 : ℕ) : ℤ)) := by
  have hr : ranged 64 ((a : ℤ) + 1) = .ok ((a : ℤ) + 1) := by
    refine ranged_eq_ok.mpr ⟨rfl, ?_, ?_⟩
    · norm_num
      omega
    · norm_num at h ⊢
      omega
  rw [add, arith, hr]
  push_cast
  rfl

theorem below_nat {n : ℕ} (h : n < 2 ^ 63) :
    below (some (n : ℤ)) = .ok ((checkedSub n 1).map (fun c : ℕ => (c : ℤ))) := by
  cases n with
  | zero => simp [below, equal, comparing]
  | succ n =>
      have hne : equal (some ((n + 1 : ℕ) : ℤ)) (some 0) ≠ some true := by
        rw [ne_eq, equal_some]
        omega
      have hr : ranged 64 (((n + 1 : ℕ) : ℤ) - 1) = .ok (n : ℤ) := by
        refine ranged_eq_ok.mpr ⟨by omega, ?_, ?_⟩
        · norm_num
        · norm_num at h ⊢
          omega
      rw [below, if_neg hne, sub, arith, hr, checkedSub_succ_one]
      rfl

theorem compensationState_eq (n : ℕ) :
    compensationState ((checkedSub n 1).map (fun c : ℕ => (c : ℤ))) =
      some (if checkedSub n 1 = none then Status.compensated else .compensating).text := by
  cases n with
  | zero => rfl
  | succ n => simp [compensationState, Status.text]

/-! ### Branches -/

/-- A comparison with a computed operand holds when the operand is that value. -/
theorem computed_eq_true {α : Type} {x : Outcome α} {a : α} {f : α → Truth} (hx : x = .ok a)
    (hf : f a = some true) : (do return f (← x) : Outcome Truth) = .ok (some true) := by
  rw [hx]
  exact congrArg Except.ok hf

/-- Every step of the machine is a valid branch with the assignments of that step. -/
theorem branch_of_step {d : Definition} {p q : Progress} {e : Event} {j : Json} (hd : d.Valid)
    (hp : Ranged p) (hj : Denotes j e) (h : Progress.Step d p e q) :
    branch (varsOf p) (p.lastKind.map EventKind.text) (some d.encode) (some j)
      (some e.kind.text) (some (e.step : ℤ)) (some (e.attempt : ℤ)) = .ok (some true, varsOf q) := by
  obtain ⟨hpf, hpfa, hpff, hpc, hpca⟩ := hp
  cases h with
  | forwardIntent hk hr hn hs hpend hf ha hb hm =>
      simp only [branch, hk, EventKind.text, if_true]
      rw [(allOf_eq_true).mpr]
      · rfl
      · simp only [← allOf_eq_true, allOf_cons_eq_true, allOf_nil, and_true, Except.ok.injEq]
        refine ⟨(status_forward _).mpr hs, (pending_null _).mpr hpend, (equal_nat _ _).mpr hf, ?_, ?_⟩
        · exact computed_eq_true (add_one_nat (by omega)) ((equal_nat _ _).mpr ha)
        · exact computed_eq_true (maxFailures_encode hd hn) ((less_nat _ _).mpr hm)
  | forwardApplied r hk hr hn ha hs hpend hra hrs =>
      have hreceipt := Option.mem_def.mpr hr
      have hcount : (if equal (some ((p.forward + 1 : ℕ) : ℤ)) (some (d.steps.length : ℤ)) =
          some true then "Succeeded" else "Running") =
          (if p.forward + 1 = d.steps.length then Status.succeeded else .running).text := by
        simp only [equal_nat]
        split <;> rfl
      simp only [branch, hk, EventKind.text, Option.some.injEq, String.reduceEq, if_false, if_true]
      rw [(allOf_eq_true).mpr]
      · simp only [ok_bind, varsOf, add_one_nat (by omega : p.forward + 1 < 2 ^ 63),
          arrayLength_steps, hcount]
        rfl
      · simp only [← allOf_eq_true, allOf_cons_eq_true, allOf_nil, and_true, Except.ok.injEq]
        refine ⟨(pending_matches _ _ _ .forwardIntent).mpr hpend, ?_, ?_⟩
        · rw [hj.receiptSeq r hreceipt, hj.seq]
          exact congrArg Except.ok ((equal_nat _ _).mpr hrs)
        · rw [hj.receiptAttempt r hreceipt]
          exact congrArg Except.ok ((equal_nat _ _).mpr hra)
  | forwardNotApplied hk hr hn ha hs hpend hb =>
      have hmatch := (pending_matches p.pending e.step e.attempt .forwardIntent).mpr hpend
      simp only [EventKind.text] at hmatch
      simp only [branch, hk, EventKind.text, Option.some.injEq, String.reduceEq, if_false, if_true,
        true_or, varsOf, add_one_nat (by omega : p.forwardFailures + 1 < 2 ^ 63), ok_bind, hmatch]
      rfl
  | forwardProbeNotApplied hk hr hn ha hs hpend =>
      have hmatch := (pending_matches p.pending e.step e.attempt .forwardIntent).mpr hpend
      simp only [EventKind.text] at hmatch
      simp only [branch, hk, EventKind.text, Option.some.injEq, String.reduceEq, if_false, if_true,
        or_true, varsOf, ok_bind, hmatch]
      rfl
  | abort hk hr hn ha hs hpend hf hat hm hl =>
      simp only [branch, hk, EventKind.text, Option.some.injEq, String.reduceEq, if_false, if_true,
        or_self]
      rw [(allOf_eq_true).mpr]
      · simp only [ok_bind, varsOf, below_nat (by omega : p.forward < 2 ^ 63), compensationState_eq]
        rfl
      · simp only [← allOf_eq_true, allOf_cons_eq_true, allOf_nil, and_true, Except.ok.injEq]
        exact ⟨(equal_status _ .ready).mpr hs, (pending_null _).mpr hpend, (equal_nat _ _).mpr hf,
          (equal_nat _ _).mpr hat, (lastKind_text _ .forwardNotApplied).mpr hl,
          computed_eq_true (maxFailures_encode hd hn) ((not_less_nat _ _).mpr hm)⟩
  | compensationIntent hk hr hn hs hpend hc ha hb =>
      simp only [branch, hk, EventKind.text, Option.some.injEq, String.reduceEq, if_false, if_true,
        or_self]
      rw [(allOf_eq_true).mpr]
      · rfl
      · simp only [← allOf_eq_true, allOf_cons_eq_true, allOf_nil, and_true, Except.ok.injEq]
        refine ⟨(equal_status _ .compensating).mpr hs, (pending_null _).mpr hpend, ?_, ?_⟩
        · simp only [varsOf, hc]
          exact (equal_nat _ _).mpr rfl
        · exact computed_eq_true (add_one_nat (by omega)) ((equal_nat _ _).mpr ha)
  | compensationApplied hk hr hn ha hs hpend =>
      have hlen := hd.length_le
      simp only [branch, hk, EventKind.text, Option.some.injEq, String.reduceEq, if_false, if_true,
        or_self, true_or]
      rw [(allOf_eq_true).mpr]
      · simp only [ok_bind, varsOf, below_nat (by omega : e.step < 2 ^ 63), compensationState_eq]
        rfl
      · simp only [← allOf_eq_true, allOf_cons_eq_true, allOf_nil, and_true, Except.ok.injEq]
        exact ⟨(equal_status _ .compensating).mpr hs,
          (pending_matches _ _ _ .compensationIntent).mpr hpend⟩
  | compensationNotApplied hk hr hn ha hs hpend =>
      simp only [branch, hk, EventKind.text, Option.some.injEq, String.reduceEq, if_false, if_true,
        or_self, true_or, or_true]
      rw [(allOf_eq_true).mpr]
      · rfl
      · simp only [← allOf_eq_true, allOf_cons_eq_true, allOf_nil, and_true, Except.ok.injEq]
        exact ⟨(equal_status _ .compensating).mpr hs,
          (pending_matches _ _ _ .compensationIntent).mpr hpend⟩
  | compensationFailed hk hr hn ha hs hpend =>
      simp only [branch, hk, EventKind.text, Option.some.injEq, String.reduceEq, if_false, if_true,
        or_self, or_true]
      rw [(allOf_eq_true).mpr]
      · rfl
      · simp only [← allOf_eq_true, allOf_cons_eq_true, allOf_nil, and_true, Except.ok.injEq]
        exact ⟨(equal_status _ .compensating).mpr hs,
          (pending_matches _ _ _ .compensationIntent).mpr hpend⟩
  | resume hk hr hn ha hs hpend hc hat =>
      simp only [branch, hk, EventKind.text, Option.some.injEq, String.reduceEq, if_false, if_true,
        or_self]
      rw [(allOf_eq_true).mpr]
      · rfl
      · simp only [← allOf_eq_true, allOf_cons_eq_true, allOf_nil, and_true, Except.ok.injEq]
        refine ⟨(equal_status _ .compensationFailed).mpr hs, (pending_null _).mpr hpend, ?_,
          (equal_nat _ _).mpr hat⟩
        simp only [varsOf, hc]
        exact (equal_nat _ _).mpr rfl

theorem of_computed_eq_true {α : Type} {x : Outcome α} {a : α} {f : α → Truth} (hx : x = .ok a)
    (h : (do return f (← x) : Outcome Truth) = .ok (some true)) : f a = some true := by
  rw [hx] at h
  exact Except.ok.inj h

theorem compensation_eq {p : Progress} {s : ℕ}
    (h : equal (some (s : ℤ)) (varsOf p).c = some true) : p.compensation = some s := by
  cases hc : p.compensation with
  | none => simp [varsOf, hc, equal, comparing] at h
  | some c =>
      simp only [varsOf, hc, Option.map_some, equal_nat] at h
      rw [h]

theorem compensation_settled {p : Progress} {s a : ℕ}
    (h : allOf [.ok (equal (varsOf p).state (some "Compensating")),
      .ok (equal (varsOf p).pending
        (some (intentObject (some (s : ℤ)) (some (a : ℤ)) (some "CompensationIntent"))))] =
      .ok (some true)) :
    p.status = .compensating ∧ p.pending = some ⟨s, a, .compensationIntent⟩ := by
  simp only [allOf_cons_eq_true, allOf_nil, and_true, Except.ok.injEq] at h
  exact ⟨(equal_status _ .compensating).mp h.1, (pending_matches _ _ _ .compensationIntent).mp h.2⟩

/-- A valid branch is a step of the machine. -/
theorem step_of_branch {d : Definition} {p : Progress} {e : Event} {j : Json} {v : Vars}
    (hd : d.Valid) (hp : Ranged p) (hi : p.Inv d) (hj : Denotes j e)
    (hn : e.step < d.steps.length) (ha : 0 < e.attempt) (hb : e.attempt < 2 ^ 32)
    (ht : p.status.isTerminal = false) (hrec : e.kind = .forwardApplied ↔ e.receipt.isSome)
    (h : branch (varsOf p) (p.lastKind.map EventKind.text) (some d.encode) (some j)
      (some e.kind.text) (some (e.step : ℤ)) (some (e.attempt : ℤ)) = .ok (some true, v)) :
    ∃ q, Progress.Step d p e q := by
  obtain ⟨hpf, hpfa, hpff, hpc, hpca⟩ := hp
  have hnone : e.kind ≠ .forwardApplied → e.receipt = none := by
    intro hk
    simpa using mt hrec.mpr hk
  cases hk : e.kind with
  | forwardIntent =>
      simp only [branch, hk, EventKind.text, if_true] at h
      obtain ⟨valid, hvalid, h⟩ := bind_eq_ok.mp h
      obtain rfl := (Prod.mk.inj (Except.ok.inj h)).1
      simp only [allOf_cons_eq_true, allOf_nil, and_true, Except.ok.injEq] at hvalid
      obtain ⟨hs, hpend, hf, hat, hm⟩ := hvalid
      exact ⟨_, .forwardIntent hk (hnone (by simp [hk])) hn ((status_forward _).mp hs)
        ((pending_null _).mp hpend) ((equal_nat _ _).mp hf)
        ((equal_nat _ _).mp (of_computed_eq_true (add_one_nat (by omega)) hat)) hb
        ((less_nat _ _).mp (of_computed_eq_true (maxFailures_encode hd hn) hm))⟩
  | forwardApplied =>
      obtain ⟨r, hr⟩ := Option.isSome_iff_exists.mp (hrec.mp hk)
      have hreceipt := Option.mem_def.mpr hr
      simp only [branch, hk, EventKind.text, Option.some.injEq, String.reduceEq, if_false,
        if_true] at h
      obtain ⟨valid, hvalid, h⟩ := bind_eq_ok.mp h
      obtain ⟨f, hf, h⟩ := bind_eq_ok.mp h
      obtain ⟨count, hcount, h⟩ := bind_eq_ok.mp h
      obtain rfl := (Prod.mk.inj (Except.ok.inj h)).1
      simp only [allOf_cons_eq_true, allOf_nil, and_true, Except.ok.injEq] at hvalid
      obtain ⟨hmatch, hseq, hat⟩ := hvalid
      rw [hj.receiptSeq r hreceipt, hj.seq] at hseq
      rw [hj.receiptAttempt r hreceipt] at hat
      exact ⟨_, .forwardApplied r hk hr hn ha ht
        ((pending_matches _ _ _ .forwardIntent).mp hmatch)
        ((equal_nat _ _).mp (Except.ok.inj hat)) ((equal_nat _ _).mp (Except.ok.inj hseq))⟩
  | forwardNotApplied =>
      simp only [branch, hk, EventKind.text, Option.some.injEq, String.reduceEq, if_false, if_true,
        true_or] at h
      obtain ⟨ff, -, h⟩ := bind_eq_ok.mp h
      have hmatch := (pending_matches _ _ _ .forwardIntent).mp (Prod.mk.inj (Except.ok.inj h)).1
      have hforward := (hi.pendingForward hmatch rfl).1
      have hlt : p.forwardFailures < d.maxFailures p.forward :=
        (hforward.pending_eq _ hmatch).2.2.1
      have := d.maxFailures_lt p.forward
      exact ⟨_, .forwardNotApplied hk (hnone (by simp [hk])) hn ha ht hmatch (by omega)⟩
  | forwardProbeNotApplied =>
      simp only [branch, hk, EventKind.text, Option.some.injEq, String.reduceEq, if_false, if_true,
        or_true] at h
      obtain ⟨ff, -, h⟩ := bind_eq_ok.mp h
      have hmatch := (pending_matches _ _ _ .forwardIntent).mp (Prod.mk.inj (Except.ok.inj h)).1
      exact ⟨_, .forwardProbeNotApplied hk (hnone (by simp [hk])) hn ha ht hmatch⟩
  | abort =>
      simp only [branch, hk, EventKind.text, Option.some.injEq, String.reduceEq, if_false, if_true,
        or_self] at h
      obtain ⟨valid, hvalid, h⟩ := bind_eq_ok.mp h
      obtain ⟨c, -, h⟩ := bind_eq_ok.mp h
      obtain rfl := (Prod.mk.inj (Except.ok.inj h)).1
      simp only [allOf_cons_eq_true, allOf_nil, and_true, Except.ok.injEq] at hvalid
      obtain ⟨hs, hpend, hf, hat, hl, hm⟩ := hvalid
      exact ⟨_, .abort hk (hnone (by simp [hk])) hn ha ((equal_status _ .ready).mp hs)
        ((pending_null _).mp hpend) ((equal_nat _ _).mp hf) ((equal_nat _ _).mp hat)
        ((not_less_nat _ _).mp (of_computed_eq_true (f := fun m => (less (varsOf p).ff m).map not)
          (maxFailures_encode hd hn) hm))
        ((lastKind_text _ .forwardNotApplied).mp hl)⟩
  | compensationIntent =>
      simp only [branch, hk, EventKind.text, Option.some.injEq, String.reduceEq, if_false, if_true,
        or_self] at h
      obtain ⟨valid, hvalid, h⟩ := bind_eq_ok.mp h
      obtain rfl := (Prod.mk.inj (Except.ok.inj h)).1
      simp only [allOf_cons_eq_true, allOf_nil, and_true, Except.ok.injEq] at hvalid
      obtain ⟨hs, hpend, hc, hat⟩ := hvalid
      exact ⟨_, .compensationIntent hk (hnone (by simp [hk])) hn
        ((equal_status _ .compensating).mp hs) ((pending_null _).mp hpend) (compensation_eq hc)
        ((equal_nat _ _).mp (of_computed_eq_true (add_one_nat (by omega)) hat)) hb⟩
  | compensationApplied =>
      simp only [branch, hk, EventKind.text, Option.some.injEq, String.reduceEq, if_false, if_true,
        or_self, true_or] at h
      obtain ⟨valid, hvalid, h⟩ := bind_eq_ok.mp h
      obtain ⟨c, -, h⟩ := bind_eq_ok.mp h
      obtain rfl := (Prod.mk.inj (Except.ok.inj h)).1
      obtain ⟨hs, hmatch⟩ := compensation_settled hvalid
      exact ⟨_, .compensationApplied hk (hnone (by simp [hk])) hn ha hs hmatch⟩
  | compensationNotApplied =>
      simp only [branch, hk, EventKind.text, Option.some.injEq, String.reduceEq, if_false, if_true,
        or_self, true_or, or_true] at h
      obtain ⟨valid, hvalid, h⟩ := bind_eq_ok.mp h
      obtain rfl := (Prod.mk.inj (Except.ok.inj h)).1
      obtain ⟨hs, hmatch⟩ := compensation_settled hvalid
      exact ⟨_, .compensationNotApplied hk (hnone (by simp [hk])) hn ha hs hmatch⟩
  | compensationFailed =>
      simp only [branch, hk, EventKind.text, Option.some.injEq, String.reduceEq, if_false, if_true,
        or_self, or_true] at h
      obtain ⟨valid, hvalid, h⟩ := bind_eq_ok.mp h
      obtain rfl := (Prod.mk.inj (Except.ok.inj h)).1
      obtain ⟨hs, hmatch⟩ := compensation_settled hvalid
      exact ⟨_, .compensationFailed hk (hnone (by simp [hk])) hn ha hs hmatch⟩
  | resume =>
      simp only [branch, hk, EventKind.text, Option.some.injEq, String.reduceEq, if_false, if_true,
        or_self] at h
      obtain ⟨valid, hvalid, h⟩ := bind_eq_ok.mp h
      obtain rfl := (Prod.mk.inj (Except.ok.inj h)).1
      simp only [allOf_cons_eq_true, allOf_nil, and_true, Except.ok.injEq] at hvalid
      obtain ⟨hs, hpend, hc, hat⟩ := hvalid
      exact ⟨_, .resume hk (hnone (by simp [hk])) hn ha ((equal_status _ .compensationFailed).mp hs)
        ((pending_null _).mp hpend) (compensation_eq hc) ((equal_nat _ _).mp hat)⟩

/-! ### The projection -/

theorem step_lastKind {d : Definition} {p q : Progress} {e : Event} (h : Progress.Step d p e q) :
    q.lastKind = some e.kind := by
  cases h <;> simp [*]

theorem step_receipt {d : Definition} {p q : Progress} {e : Event} (h : Progress.Step d p e q) :
    e.kind = .forwardApplied ↔ e.receipt.isSome := by
  cases h <;> simp [*]

/-- The coordinates of a step are those of an open attempt, so they are in range. -/
theorem step_attempt {d : Definition} {p q : Progress} {e : Event} (hp : Ranged p)
    (hi : p.Inv d) (h : Progress.Step d p e q) : 0 < e.attempt ∧ e.attempt < 2 ^ 32 := by
  have hmatched : ∀ k, p.pending = some ⟨e.step, e.attempt, k⟩ → e.attempt < 2 ^ 32 := by
    intro k hpend
    rcases (hi.pending_kind hpend).1 with hk | hk
    · have hforward := (hi.pendingForward hpend hk).1
      obtain ⟨heq, -⟩ := hforward.pending_eq _ hpend
      have := congrArg Intent.attempt heq
      exact lt_of_eq_of_lt this hp.forwardAttempt
    · obtain ⟨-, heq, -⟩ := (hi.pendingCompensation hpend hk).1.pending_eq _ hpend
      exact lt_of_eq_of_lt heq hp.compensationAttempt
  cases h with
  | forwardIntent _ _ _ _ _ _ ha hb _ => exact ⟨by omega, hb⟩
  | forwardApplied _ _ _ _ ha _ hpend _ _ => exact ⟨ha, hmatched _ hpend⟩
  | forwardNotApplied _ _ _ ha _ hpend _ => exact ⟨ha, hmatched _ hpend⟩
  | forwardProbeNotApplied _ _ _ ha _ hpend => exact ⟨ha, hmatched _ hpend⟩
  | abort _ _ _ ha _ _ _ hat _ _ => exact ⟨ha, hat ▸ hp.forwardAttempt⟩
  | compensationIntent _ _ _ _ _ _ ha hb => exact ⟨by omega, hb⟩
  | compensationApplied _ _ _ ha _ hpend => exact ⟨ha, hmatched _ hpend⟩
  | compensationNotApplied _ _ _ ha _ hpend => exact ⟨ha, hmatched _ hpend⟩
  | compensationFailed _ _ _ ha _ hpend => exact ⟨ha, hmatched _ hpend⟩
  | resume _ _ _ ha _ _ _ hat => exact ⟨ha, hat ▸ hp.compensationAttempt⟩

/-- The guard shared by all kinds. -/
def Addressed (d : Definition) (p : Progress) (e : Event) : Prop :=
  e.step < d.steps.length ∧ (1 ≤ e.attempt ∧ e.attempt ≤ 4294967295) ∧ p.status.isTerminal = false

instance (d : Definition) (p : Progress) (e : Event) : Decidable (Addressed d p e) :=
  inferInstanceAs (Decidable (_ ∧ _ ∧ _))

theorem guard_encode (d : Definition) (p : Progress) (e : Event) :
    anyOf [.ok (some (some (e.step : ℤ) = none)), .ok (less (some (e.step : ℤ)) (some 0)),
      do return (less (some (e.step : ℤ)) (← arrayLength (member (some d.encode) "steps"))).map not,
      .ok (some (some (e.attempt : ℤ) = none)), .ok (notBetween (some (e.attempt : ℤ)) 1 4294967295),
      .ok (isIn (varsOf p).state ["Succeeded", "Compensated"])] =
    .ok (some (decide (¬ Addressed d p e))) := by
  simp only [arrayLength_steps, ok_bind]
  rw [show isIn (varsOf p).state ["Succeeded", "Compensated"] = some p.status.isTerminal from
    status_terminal p.status]
  refine (anyOf_some [decide _, decide _, !decide _, decide _, decide _, _]).trans ?_
  congr 2
  rw [Bool.eq_iff_iff]
  simp only [List.any_cons, List.any_nil, id, Bool.or_eq_true, decide_eq_true_eq, Bool.or_false,
    Bool.not_eq_true', decide_eq_false_iff_not, reduceCtorEq]
  unfold Addressed
  cases p.status.isTerminal with
  | true => simp
  | false =>
      simp only [and_true, Bool.false_eq_true, or_false, false_or]
      omega

theorem object_varsOf {q : Progress} {k : EventKind} (h : q.lastKind = some k) :
    (varsOf q).object (some k.text) = q.encode := by
  have hc : ofInteger (q.compensation.map (fun c : ℕ => (c : ℤ))) =
      encodeOption encodeNat q.compensation := by
    cases q.compensation <;> rfl
  simp only [Vars.object, varsOf, Progress.encode, h, hc]
  rfl

/-- The SQL projection of an event is the encoding of the reducer's, and exists exactly when
that does. -/
theorem nextProgress_eq_ok {d : Definition} {p : Progress} {e : Event} {j r : Json}
    (hd : d.Valid) (hp : Ranged p) (hi : p.Inv d) (hj : Denotes j e) :
    nextProgress (some p.encode) (some d.encode) (some j) = .ok r ↔
      ∃ q, Progress.Step d p e q ∧ r = q.encode := by
  have hpairing : equal (some e.kind.text) (some "ForwardApplied") =
      some (decide (e.kind = .forwardApplied)) := by
    cases e.kind <;> rfl
  simp only [nextProgress, read_encode hp, hj.kind, hj.step, hj.attempt, hj.hasReceipt, ok_bind,
    guard_encode, memberText_lastKind, hpairing, Option.some.injEq, decide_eq_true_eq]
  constructor
  · intro h
    split at h
    · cases h
    · rename_i hadd
      split at h
      · cases h
      · rename_i hrec
        obtain ⟨⟨valid, v⟩, hbranch, h⟩ := bind_eq_ok.mp h
        dsimp only at h
        split at h
        · cases h
        · rename_i hvalid
          obtain rfl := not_not.mp hvalid
          obtain ⟨hn, ⟨ha, hb⟩, ht⟩ := not_not.mp hadd
          have hrec' : e.kind = .forwardApplied ↔ e.receipt.isSome := by
            rw [← Option.some.inj (not_not.mp hrec), decide_eq_true_iff]
          obtain ⟨q, hq⟩ := step_of_branch hd hp hi hj hn (by omega) (by omega) ht hrec' hbranch
          have hv := hbranch.symm.trans (branch_of_step hd hp hj hq)
          obtain rfl := (Prod.mk.inj (Except.ok.inj hv)).2
          exact ⟨q, hq, (Except.ok.inj h).symm.trans (object_varsOf (step_lastKind hq))⟩
  · rintro ⟨q, hq, rfl⟩
    obtain ⟨ht, hn, -, -⟩ := Progress.transition_guard hq.execution
    obtain ⟨ha, hb⟩ := step_attempt hp hi hq
    have hadd : Addressed d p e := ⟨hn, ⟨ha, by omega⟩, ht⟩
    have hrec : decide (e.kind = .forwardApplied) = e.receipt.isSome := by
      rw [Bool.eq_iff_iff, decide_eq_true_iff]
      exact step_receipt hq
    rw [if_neg (not_not.mpr hadd), if_neg (not_not.mpr (congrArg some hrec)),
      branch_of_step hd hp hj hq]
    simp [object_varsOf (step_lastKind hq)]

/-! ### The reserve -/

theorem arith_nat {f : ℤ → ℤ → ℤ} {a b c : ℕ} (hf : f a b = c) (hc : c < 2 ^ 63) :
    arith f (some (a : ℤ)) (some (b : ℤ)) = .ok (some (c : ℤ)) := by
  have hr : ranged 64 (c : ℤ) = .ok (c : ℤ) := by
    refine ranged_eq_ok.mpr ⟨rfl, ?_, ?_⟩
    · norm_num
    · norm_num at hc ⊢
      omega
  rw [arith, hf, hr]
  rfl

theorem pending_open (i : Option Intent) :
    unequal (some (encodeOption Intent.encode i)) (some .null) = some i.isSome := by
  cases i <;> simp [unequal, comparing, encodeOption, Intent.encode]

theorem fresh_encode {p : Progress} (hp : Ranged p) :
    ∃ t, anyOf [do return equal (← bigint (some p.encode) "compensationAttempt") (some 0),
      .ok (equal (memberText (some p.encode) "lastKind") (some "Resume"))] = .ok t ∧
    (t = some true ↔ p.compensationAttempt = 0 ∨ p.lastKind = some .resume) := by
  have hattempt : bigint (some p.encode) "compensationAttempt" =
      .ok (some (p.compensationAttempt : ℤ)) :=
    bigint_num rfl (by have := hp.compensationAttempt; omega)
  have hzero : equal (some (p.compensationAttempt : ℤ)) (some 0) =
      some (decide (p.compensationAttempt = 0)) := by
    simp [equal, comparing]
  have hresume := lastKind_text p.lastKind .resume
  rw [memberText_lastKind, hattempt, ok_bind, hzero]
  by_cases hz : p.compensationAttempt = 0
  · exact ⟨some true, by simp only [hz, decide_true]; rfl, by simp [hz]⟩
  · refine ⟨_, ?_, by simpa [hz] using hresume⟩
    simp only [hz, decide_false, EventKind.text]
    rcases equal (p.lastKind.map EventKind.text) (some "Resume") with _ | _ | _ <;> rfl

theorem reserveEntries_forward {p : Progress} (hp : Ranged p)
    (hs : p.status = .ready ∨ p.status = .running) :
    reserveEntries (some p.encode) = .ok (some (p.owedEntries : ℤ), some p.pending.isSome) := by
  have hf := hp.forward
  have howed : p.owedEntries = 2 * p.forward + 1 + if p.pending.isSome then 3 else 0 := by
    rcases hs with hs | hs <;> simp [Progress.owedEntries, hs, Status.isTerminal]
  have hstatus : memberText (some p.encode) "status" = some p.status.text := memberText_str rfl
  have hpending : member (some p.encode) "pending" =
    some (encodeOption Intent.encode p.pending) := rfl
  have hforward : bigint (some p.encode) "forward" = .ok (some (p.forward : ℤ)) :=
    bigint_num rfl (by omega)
  have hmul : mul (some 2) (some (p.forward : ℤ)) = .ok (some ((2 * p.forward : ℕ) : ℤ)) :=
    arith_nat (a := 2) (by push_cast; ring) (by omega)
  have hone : add (some ((2 * p.forward : ℕ) : ℤ)) (some 1) =
      .ok (some ((2 * p.forward + 1 : ℕ) : ℤ)) := add_one_nat (by omega)
  have hlast : add (some ((2 * p.forward + 1 : ℕ) : ℤ))
      (some (if some p.pending.isSome = some true then 3 else 0)) = .ok (some (p.owedEntries : ℤ)) := by
    rw [howed]
    cases p.pending.isSome with
    | true => exact arith_nat (b := 3) (c := 2 * p.forward + 1 + 3) (by push_cast; rfl) (by omega)
    | false => exact arith_nat (b := 0) (c := 2 * p.forward + 1 + 0) (by push_cast; rfl) (by omega)
  simp only [reserveEntries, hstatus, hpending, pending_open, (status_forward _).mpr hs, if_true,
    hforward, ok_bind, hmul, hone, hlast]

theorem reserveEntries_compensation {p : Progress} (hp : Ranged p)
    (hs : p.status = .compensating ∨ p.status = .compensationFailed) :
    reserveEntries (some p.encode) = .ok (some (p.owedEntries : ℤ), some false) := by
  have hc : p.compensation.getD 0 < 1024 := by
    cases h : p.compensation with
    | none => decide
    | some c => exact hp.compensation c h
  have howed : p.owedEntries = 2 * p.compensation.getD 0 + if p.pending.isSome then 1
      else if p.compensationAttempt = 0 ∨ p.lastKind = some .resume then 2 else 0 := by
    rcases hs with hs | hs <;> simp [Progress.owedEntries, hs, Status.isTerminal]
  have hstatus : memberText (some p.encode) "status" = some p.status.text := memberText_str rfl
  have hpending : member (some p.encode) "pending" =
    some (encodeOption Intent.encode p.pending) := rfl
  have hforward : ¬ isIn (some p.status.text) ["Ready", "Running"] = some true := by
    rw [status_forward]
    rcases hs with hs | hs <;> simp [hs]
  have hcomp : isIn (some p.status.text) ["Compensating", "CompensationFailed"] = some true := by
    rcases hs with hs | hs <;> rw [hs] <;> decide
  have hget : (p.compensation.map (fun c : ℕ => (c : ℤ))).getD 0 =
      ((p.compensation.getD 0 : ℕ) : ℤ) := by
    cases p.compensation <;> rfl
  have hmul : mul (some 2) (some ((p.compensation.getD 0 : ℕ) : ℤ)) =
      .ok (some ((2 * p.compensation.getD 0 : ℕ) : ℤ)) :=
    arith_nat (a := 2) (by push_cast; ring) (by omega)
  obtain ⟨t, ht, hfresh⟩ := fresh_encode hp
  simp only [reserveEntries, hstatus, hpending, pending_open, hforward, hcomp, if_true, if_false,
    bigint_compensation hp, hget, ok_bind, hmul, ht]
  cases hopen : p.pending.isSome with
  | true =>
      have hlast : add (some ((2 * p.compensation.getD 0 : ℕ) : ℤ)) (some 1) =
          .ok (some (p.owedEntries : ℤ)) := by
        rw [howed, hopen]
        exact add_one_nat (by omega)
      simp only [if_true, ok_bind, hlast]
  | false =>
      have hlast : add (some ((2 * p.compensation.getD 0 : ℕ) : ℤ))
          (some (if t = some true then 2 else 0)) = .ok (some (p.owedEntries : ℤ)) := by
        simp only [howed, hopen, hfresh, Bool.false_eq_true, if_false]
        split
        · exact arith_nat (b := 2) (by push_cast; ring) (by omega)
        · exact arith_nat (b := 0) (by push_cast; ring) (by omega)
      simp only [Option.some.injEq, Bool.false_eq_true, if_false, ok_bind, hlast]

theorem reserveEntries_terminal {p : Progress} (hs : p.status.isTerminal = true) :
    reserveEntries (some p.encode) = .ok (some (p.owedEntries : ℤ), some false) := by
  have howed : p.owedEntries = 0 := by simp [Progress.owedEntries, hs]
  have hstatus : memberText (some p.encode) "status" = some p.status.text := memberText_str rfl
  simp only [reserveEntries, hstatus, howed]
  cases h : p.status with
  | succeeded => rfl
  | compensated => rfl
  | _ => simp [h, Status.isTerminal] at hs

theorem owedEntries_le {p : Progress} (hp : Ranged p) : p.owedEntries ≤ 2052 := by
  have hf := hp.forward
  have hc : p.compensation.getD 0 < 1024 := by
    cases h : p.compensation with
    | none => decide
    | some c => exact hp.compensation c h
  unfold Progress.owedEntries
  split_ifs <;> omega

/-- On stored projections the SQL reserve is what the reducer owes. -/
theorem historyReserve_encode {p : Progress} (hp : Ranged p) :
    historyReserve (some p.encode) =
      .ok (.obj [("entries", encodeNat p.owedEntries), ("bytes", encodeNat p.owedBytes)]) := by
  have hentries : reserveEntries (some p.encode) = .ok (some (p.owedEntries : ℤ),
      some (decide ((p.status = .ready ∨ p.status = .running) ∧ p.pending.isSome))) := by
    cases hs : p.status with
    | ready => simpa [hs] using reserveEntries_forward hp (.inl hs)
    | running => simpa [hs] using reserveEntries_forward hp (.inr hs)
    | compensating => simpa [hs] using reserveEntries_compensation hp (.inl hs)
    | compensationFailed => simpa [hs] using reserveEntries_compensation hp (.inr hs)
    | succeeded => simpa [hs] using reserveEntries_terminal (p := p) (by rw [hs]; rfl)
    | compensated => simpa [hs] using reserveEntries_terminal (p := p) (by rw [hs]; rfl)
  have hle := owedEntries_le hp
  have hmul : mul (some (p.owedEntries : ℤ)) (some 256) =
      .ok (some ((p.owedEntries * 256 : ℕ) : ℤ)) := arith_nat (b := 256) (by push_cast; ring) (by omega)
  have hadd : add (some ((p.owedEntries * 256 : ℕ) : ℤ))
      (some (if some (decide ((p.status = .ready ∨ p.status = .running) ∧ p.pending.isSome)) =
        some true then receiptReserve else 0)) = .ok (some (p.owedBytes : ℤ)) := by
    have hreserve : receiptReserve = ((receiptBytes : ℕ) : ℤ) := by
      norm_num [receiptReserve, receiptBytes]
    have hsmall : receiptBytes < 2 ^ 32 := by norm_num [receiptBytes]
    have hbytes : p.owedBytes = p.owedEntries * 256 + p.owedReceipt := rfl
    rw [hreserve, hbytes, Progress.owedReceipt]
    by_cases hopen : (p.status = .ready ∨ p.status = .running) ∧ p.pending.isSome
    · simp only [hopen, and_self, decide_true, if_true]
      exact arith_nat (by push_cast; rfl) (by omega)
    · simp only [hopen, decide_false, Option.some.injEq, Bool.false_eq_true, if_false]
      exact arith_nat (b := 0) (by push_cast; rfl) (by omega)
  simp only [historyReserve, hentries, ok_bind, hmul, hadd]
  rfl

end Rss.SagaPostgres
