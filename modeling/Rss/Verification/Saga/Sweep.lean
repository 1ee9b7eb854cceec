import Rss.Library.Runs
import Rss.Model.Saga.Sweep

/-! # Sweeps over any store

What one sweep does with the page it is given, and what a caller that passes the cursor back has
admitted. -/

namespace Rss.Sweep

open Rss.Sql (Uuid)
open Rss.Saga (ErrorKind Result CandidateFilter)

variable {σ : Type} {W : Services σ} {candidates : Discovery σ} {tenant : Uuid}

/-! ### Pages -/

theorem inOrder_iff {after : Option Uuid} {scopes : List Scope} :
    inOrder tenant after scopes = true ↔
      (∀ x ∈ scopes, x.tenant = tenant ∧ ∀ id ∈ after, id < x.id) ∧
        scopes.Pairwise (fun x y => x.id < y.id) := by
  induction scopes generalizing after with
  | nil => simp [inOrder]
  | cons scope scopes ih =>
      have hhead : (!after.any fun id => scope.id ≤ id) = true ↔ ∀ id ∈ after, id < scope.id := by
        cases after <;> simp
      simp only [inOrder, Bool.and_eq_true, decide_eq_true_eq, hhead, ih, List.forall_mem_cons,
        List.pairwise_cons, Option.mem_def, Option.some.injEq, forall_eq']
      constructor
      · intro h
        obtain ⟨⟨htenant, hafter⟩, hrest, hpairwise⟩ := h
        exact ⟨⟨⟨htenant, hafter⟩, fun x hx => ⟨(hrest x hx).1, fun id hid =>
          BitVec.lt_trans (hafter id hid) (hrest x hx).2⟩⟩, fun x hx => (hrest x hx).2, hpairwise⟩
      · intro h
        obtain ⟨⟨⟨htenant, hafter⟩, hrest⟩, hgreater, hpairwise⟩ := h
        exact ⟨⟨htenant, hafter⟩, fun x hx => ⟨(hrest x hx).1, hgreater x hx⟩, hpairwise⟩

theorem validateCandidates_eq_ok {scopes : List Scope} {cursor : Option Scope} {limit : ℕ} :
    validateCandidates scopes tenant cursor limit = .ok () ↔
      scopes.length ≤ limit ∧ inOrder tenant (cursor.map Scope.id) scopes = true := by
  unfold validateCandidates
  split
  · rename_i h
    exact iff_of_false (fun h' => by cases h') fun h' => absurd h'.1 (Nat.not_le_of_gt h)
  · rename_i h
    split
    · rename_i hok
      exact iff_of_true rfl ⟨Nat.le_of_not_gt h, hok⟩
    · rename_i hbad
      exact iff_of_false (fun h' => by cases h') fun h' => hbad h'.2

theorem validateCandidates_eq_error {scopes : List Scope} {cursor : Option Scope} {limit : ℕ}
    {e : ErrorKind} (h : validateCandidates scopes tenant cursor limit = .error e) :
    e = .integrity := by
  unfold validateCandidates at h
  split at h
  · cases h
    rfl
  · split at h
    · cases h
    · cases h
      rfl

/-! ### One sweep -/

/-- The sweep admits a first part of its page, and its cursor is the last admitted. -/
structure Admits (page : List Scope) (before : SweepReport) (admitted : List Scope)
    (after : SweepReport) : Prop where
  isPrefix : admitted <+: page
  items : after.items.map InstanceResult.scope = before.items.map InstanceResult.scope ++ admitted
  cursor : after.nextCursor = admitted.getLast?.or before.nextCursor
  complete : after.stop = .pageComplete → admitted = page

theorem sweepStop_ne (kind : ErrorKind) : sweepStop kind ≠ .pageComplete := by
  unfold sweepStop
  split <;> decide

theorem admits_admitPage {page : List Scope} {before : SweepReport} {s : σ}
    (hstop : before.stop = .pageComplete) :
    ∃ admitted, Admits page before admitted (admitPage W page before s).1 := by
  induction page generalizing before s with
  | nil =>
      exact ⟨[], List.prefix_rfl, (List.append_nil _).symm, rfl, fun _ => rfl⟩
  | cons scope page ih =>
      unfold admitPage
      split
      · exact ⟨[], List.nil_prefix, (List.append_nil _).symm, rfl,
          fun h => absurd h (sweepStop_ne _)⟩
      · rename_i s₁ _
        simp only
        split
        · rename_i kind _
          refine ⟨[scope], List.prefix_append [scope] page, ?_, rfl,
            fun h => absurd h (sweepStop_ne kind)⟩
          rw [List.map_append]
          rfl
        · obtain ⟨admitted, h⟩ := @ih { before with
            items := before.items ++ [⟨scope, (W.run scope 1 s₁).1⟩], nextCursor := some scope }
            (W.run scope 1 s₁).2 hstop
          refine ⟨scope :: admitted, (List.prefix_cons_inj scope).mpr h.isPrefix, ?_, ?_,
            fun hcomplete => by rw [h.complete hcomplete]⟩
          · rw [h.items, List.map_append, List.append_assoc]
            rfl
          · rw [h.cursor, List.getLast?_cons]
            cases admitted.getLast? <;> rfl

/-! ### Calls -/

/-- A call of `run_once`, the tenant and the cursor apart. -/
structure Call (σ : Type) where
  services : Services σ
  candidates : Discovery σ
  budget : SweepBudget
  world : σ

namespace Call

def limit (c : Call σ) : ℕ := min c.budget.instances c.budget.advances

def outcome (c : Call σ) (tenant : Uuid) (cursor : Option Scope) : Result SweepReport × σ :=
  runOnce c.services c.candidates tenant cursor c.budget c.world

/-- What the store answers to the call. -/
def page (c : Call σ) (tenant : Uuid) (cursor : Option Scope) : Result (List Scope) × σ :=
  c.candidates .runnable tenant (cursor.map Scope.id) c.limit c.world

def admitted (c : Call σ) (tenant : Uuid) (cursor : Option Scope) : List Scope :=
  match (c.outcome tenant cursor).1 with
  | .ok report => report.items.map InstanceResult.scope
  | .error _ => []

/-- The cursor that the caller passes to its next call; after an error it keeps the one it has. -/
def next (c : Call σ) (tenant : Uuid) (cursor : Option Scope) : Option Scope :=
  match (c.outcome tenant cursor).1 with
  | .ok report => report.nextCursor
  | .error _ => cursor

/-- The call reports that no candidate is left. -/
def Completes (c : Call σ) (tenant : Uuid) (cursor : Option Scope) : Prop :=
  ∃ report, (c.outcome tenant cursor).1 = .ok report ∧ report.stop = .pageComplete ∧
    report.nextCursor = none

/-- What a call does: it fails or finds an empty page, or it admits a first part of its page. -/
inductive Sweeps (c : Call σ) (tenant : Uuid) (cursor : Option Scope) : Prop where
  | failed (hadmitted : c.admitted tenant cursor = []) (hnext : c.next tenant cursor = cursor)
      (hopen : ¬ c.Completes tenant cursor)
  | empty (s : σ) (hpage : c.page tenant cursor = (.ok [], s))
      (hadmitted : c.admitted tenant cursor = []) (hnext : c.next tenant cursor = none)
      (hcomplete : c.Completes tenant cursor)
  | some (page : List Scope) (s : σ) (hpage : c.page tenant cursor = (.ok page, s))
      (hlength : page.length ≤ c.limit)
      (horder : inOrder tenant (cursor.map Scope.id) page = true)
      (hpre : c.admitted tenant cursor <+: page)
      (hnext : c.next tenant cursor = (c.admitted tenant cursor).getLast?.or cursor)
      (hopen : ¬ c.Completes tenant cursor)

section Outcome

variable {c : Call σ} {cursor : Option Scope} {page : List Scope} {s : σ} {e : ErrorKind}

theorem outcome_of_tenant (h : cursor.any (fun scope => scope.tenant ≠ tenant) = true) :
    c.outcome tenant cursor = (.error .definition, c.world) := by
  rw [outcome, runOnce, if_pos h]

/-- What a call answers to a page, by what the check says of the page. -/
def answered (c : Call σ) (cursor : Option Scope) (page : List Scope) (s : σ) :
    Result Unit → Result SweepReport × σ
  | .error e => (.error e, s)
  | .ok () =>
      if page.isEmpty then (.ok ⟨[], none, .pageComplete⟩, s)
      else (.ok (admitPage c.services page ⟨[], cursor, .pageComplete⟩ s).1,
        (admitPage c.services page ⟨[], cursor, .pageComplete⟩ s).2)

/-- With a cursor of its tenant, a call asks the store first. -/
theorem outcome_of_page (h : cursor.any (fun scope => scope.tenant ≠ tenant) = false)
    (hpage : c.page tenant cursor = (.ok page, s)) :
    c.outcome tenant cursor =
      c.answered cursor page s (validateCandidates page tenant cursor c.limit) := by
  have hasked : c.candidates .runnable tenant (cursor.map Scope.id)
      (min c.budget.instances c.budget.advances) c.world = (.ok page, s) := hpage
  have hlimit : min c.budget.instances c.budget.advances = c.limit := rfl
  unfold outcome runOnce
  rw [h, if_neg Bool.false_ne_true]
  simp only [hasked]
  rw [hlimit]
  cases validateCandidates page tenant cursor c.limit with
  | error e => rfl
  | ok => rfl

theorem outcome_of_error (h : cursor.any (fun scope => scope.tenant ≠ tenant) = false)
    (hpage : c.page tenant cursor = (.error e, s)) :
    c.outcome tenant cursor = (.error e, s) := by
  have hasked : c.candidates .runnable tenant (cursor.map Scope.id)
      (min c.budget.instances c.budget.advances) c.world = (.error e, s) := hpage
  unfold outcome runOnce
  rw [h, if_neg Bool.false_ne_true]
  simp only [hasked]

/-- A page out of order, of another tenant or beyond the limit ends the call as it is read. -/
theorem outcome_of_invalid (h : cursor.any (fun scope => scope.tenant ≠ tenant) = false)
    (hpage : c.page tenant cursor = (.ok page, s))
    (hinvalid : validateCandidates page tenant cursor c.limit ≠ .ok ()) :
    c.outcome tenant cursor = (.error .integrity, s) := by
  rw [outcome_of_page h hpage]
  cases hvalid : validateCandidates page tenant cursor c.limit with
  | error e =>
      rw [validateCandidates_eq_error hvalid]
      rfl
  | ok => exact absurd hvalid hinvalid

end Outcome

theorem sweeps (c : Call σ) (tenant : Uuid) (cursor : Option Scope) : c.Sweeps tenant cursor := by
  have herror : ∀ e, (c.outcome tenant cursor).1 = .error e → c.Sweeps tenant cursor := by
    intro e he
    refine .failed (by rw [admitted, he]) (by rw [next, he]) fun hc => ?_
    obtain ⟨report, hok, -⟩ := hc
    rw [he] at hok
    cases hok
  cases htenant : cursor.any (fun scope => scope.tenant ≠ tenant) with
  | true => exact herror _ (by rw [outcome_of_tenant htenant])
  | false =>
      rcases hpage : c.page tenant cursor with ⟨e | page, s⟩
      · exact herror e (by rw [outcome_of_error htenant hpage])
      · have houtcome := outcome_of_page htenant hpage
        cases hvalid : validateCandidates page tenant cursor c.limit with
        | error e => exact herror e (by rw [houtcome, hvalid, answered])
        | ok =>
            obtain ⟨hlength, horder⟩ := validateCandidates_eq_ok.mp hvalid
            rw [hvalid, answered] at houtcome
            cases page with
            | nil =>
                exact .empty s hpage (by rw [admitted, houtcome]; rfl) (by rw [next, houtcome]; rfl)
                  ⟨_, by rw [houtcome]; rfl, rfl, rfl⟩
            | cons scope page =>
                obtain ⟨scopes, h⟩ := @admits_admitPage _ c.services (scope :: page)
                  ⟨[], cursor, .pageComplete⟩ s rfl
                have hadmitted : c.admitted tenant cursor = scopes := by
                  rw [admitted, houtcome]
                  exact h.items
                refine .some (scope :: page) s hpage hlength horder (hadmitted ▸ h.isPrefix) ?_
                  fun hc => ?_
                · rw [hadmitted, next, houtcome]
                  exact h.cursor
                · obtain ⟨report, hok, hstop, hnone⟩ := hc
                  rw [houtcome] at hok
                  cases hok
                  have hlast := h.cursor
                  rw [hnone, h.complete hstop] at hlast
                  simp [List.getLast?_cons] at hlast

end Call

/-! ### Advances -/

namespace Services

/-- The same services, with the instances that were advanced written down. -/
def recording (W : Services σ) : Services (σ × List Scope) where
  check s := ((W.check s.1).1, (W.check s.1).2, s.2)
  claim scope s := ((W.claim scope s.1).1, (W.claim scope s.1).2, s.2)
  prepare scope s := ((W.prepare scope s.1).1, (W.prepare scope s.1).2, s.2)
  status scope s := W.status scope s.1
  advance scope s := ((W.advance scope s.1).1, (W.advance scope s.1).2, s.2 ++ [scope])
  release scope s := ((W.release scope s.1).1, (W.release scope s.1).2, s.2)

section Recording

variable {s s' : σ} {scope : Scope} (log : List Scope)

theorem recording_check {i : Option Interruption} (h : W.check s = (i, s')) :
    W.recording.check (s, log) = (i, s', log) := by
  simp [recording, h]

theorem recording_claim {r : Result Unit} (h : W.claim scope s = (r, s')) :
    W.recording.claim scope (s, log) = (r, s', log) := by
  simp [recording, h]

theorem recording_prepare {r : Result Unit × Option ErrorKind} (h : W.prepare scope s = (r, s')) :
    W.recording.prepare scope (s, log) = (r, s', log) := by
  simp [recording, h]

theorem recording_advance {r : Result Unit × Option ErrorKind} (h : W.advance scope s = (r, s')) :
    W.recording.advance scope (s, log) = (r, s', log ++ [scope]) := by
  simp [recording, h]

theorem recording_release {r : Result Unit} (h : W.release scope s = (r, s')) :
    W.recording.release scope (s, log) = (r, s', log) := by
  simp [recording, h]

theorem recording_status : W.recording.status scope (s, log) = W.status scope s := rfl

end Recording

/-- The loop of an invocation advances its instance at most as often as it is allowed to. -/
theorem drive_recording (W : Services σ) (scope : Scope) (left advances : ℕ) (s : σ)
    (log : List Scope) : ∃ n ≤ left, W.recording.drive scope left advances (s, log) =
      ((W.drive scope left advances s).1, (W.drive scope left advances s).2,
        log ++ List.replicate n scope) := by
  induction left generalizing advances s log with
  | zero => exact ⟨0, Nat.le_refl 0, by simp [drive, recording]⟩
  | succ left ih =>
      unfold drive
      rcases hcheck : W.check s with ⟨_ | i, s₁⟩
      · simp only [recording_check log hcheck]
        by_cases hdone : settled (W.status scope s₁) = true
        · have hdone' : settled (W.recording.status scope (s₁, log)) = true := hdone
          simp only [if_pos hdone, if_pos hdone']
          exact ⟨0, Nat.zero_le _, by simp [recording_status]⟩
        · have hdone' : ¬ settled (W.recording.status scope (s₁, log)) = true := hdone
          simp only [if_neg hdone, if_neg hdone']
          rcases hadvance : W.advance scope s₁ with ⟨⟨e | _, _ | renewal⟩, s₂⟩
          · simp only [recording_advance log hadvance]
            refine ⟨1, Nat.le_add_left 1 left, ?_⟩
            cases e <;> rfl
          · simp only [recording_advance log hadvance]
            exact ⟨1, Nat.le_add_left 1 left, rfl⟩
          · simp only [recording_advance log hadvance]
            obtain ⟨n, hn, hrec⟩ := ih (advances + 1) s₂ (log ++ [scope])
            refine ⟨n + 1, Nat.succ_le_succ hn, ?_⟩
            rw [hrec, List.replicate_succ, List.append_assoc, List.singleton_append]
          · simp only [recording_advance log hadvance]
            exact ⟨1, Nat.le_add_left 1 left, rfl⟩
      · simp only [recording_check log hcheck]
        exact ⟨0, Nat.zero_le _, by simp⟩

theorem recover_recording (W : Services σ) (scope : Scope) (budget : ℕ) (s : σ)
    (log : List Scope) : ∃ n ≤ budget, W.recording.recover scope budget (s, log) =
      ((W.recover scope budget s).1, (W.recover scope budget s).2,
        log ++ List.replicate n scope) := by
  unfold recover
  rcases hprepare : W.prepare scope s with ⟨⟨e | _, _ | renewal⟩, s₁⟩
  · simp only [recording_prepare log hprepare]
    exact ⟨0, Nat.zero_le _, by simp⟩
  · simp only [recording_prepare log hprepare]
    exact ⟨0, Nat.zero_le _, by simp⟩
  · simp only [recording_prepare log hprepare]
    exact W.drive_recording scope budget 0 s₁ log
  · simp only [recording_prepare log hprepare]
    exact ⟨0, Nat.zero_le _, by simp⟩

theorem run_recording (W : Services σ) (scope : Scope) (budget : ℕ) (s : σ) (log : List Scope) :
    ∃ n ≤ budget, W.recording.run scope budget (s, log) =
      ((W.run scope budget s).1, (W.run scope budget s).2, log ++ List.replicate n scope) := by
  unfold run
  by_cases hbudget : budget = 0
  · exact ⟨0, Nat.zero_le _, by simp [hbudget]⟩
  · simp only [hbudget, if_false]
    rcases hcheck : W.check s with ⟨_ | i, s₁⟩
    · simp only [recording_check log hcheck]
      rcases hclaim : W.claim scope s₁ with ⟨e | _, s₂⟩
      · simp only [recording_claim log hclaim]
        exact ⟨0, Nat.zero_le _, by simp⟩
      · obtain ⟨n, hn, hrec⟩ := W.recover_recording scope budget s₂ log
        simp only [recording_claim log hclaim, hrec]
        refine ⟨n, hn, ?_⟩
        split
        · rfl
        · rcases hrelease : W.release scope (W.recover scope budget s₂).2 with ⟨e | _, s₃⟩ <;>
            simp only [recording_release _ hrelease]
    · simp only [recording_check log hcheck]
      exact ⟨0, Nat.zero_le _, by simp⟩

end Services

/-- The sweep of the recording services is the sweep, and each instance it admits is advanced at
most once, in the order of admission. -/
theorem admit_recording (W : Services σ) (page : List Scope) (report : SweepReport) (s : σ)
    (log : List Scope) : ∃ admitted l, (admitPage W page report s).1.items.map InstanceResult.scope =
        report.items.map InstanceResult.scope ++ admitted ∧ l.Sublist admitted ∧
      admitPage W.recording page report (s, log) =
        ((admitPage W page report s).1, (admitPage W page report s).2, log ++ l) := by
  induction page generalizing report s log with
  | nil => exact ⟨[], [], by simp [admitPage], List.Sublist.slnil, by simp [admitPage]⟩
  | cons scope page ih =>
      unfold admitPage
      rcases hcheck : W.check s with ⟨_ | i, s₁⟩
      · obtain ⟨n, hn, hrun⟩ := W.run_recording scope 1 s₁ log
        have hadvances : (List.replicate n scope).Sublist [scope] :=
          List.replicate_sublist_replicate scope |>.mpr hn
        simp only [Services.recording_check log hcheck, hrun]
        cases hinterrupted : interrupted (W.run scope 1 s₁).1 with
        | some kind =>
            exact ⟨[scope], List.replicate n scope, by simp, hadvances, rfl⟩
        | none =>
            obtain ⟨admitted, l, hitems, hl, hrec⟩ := ih { report with
              items := report.items ++ [⟨scope, (W.run scope 1 s₁).1⟩], nextCursor := some scope }
              (W.run scope 1 s₁).2 (log ++ List.replicate n scope)
            refine ⟨scope :: admitted, List.replicate n scope ++ l, ?_,
              List.Sublist.append hadvances hl, ?_⟩
            · simp [hitems]
            · simp [hrec]
      · simp only [Services.recording_check log hcheck]
        exact ⟨[], [], by simp, List.Sublist.slnil, by simp⟩

namespace Call

/-- The call with its advances written down. -/
def recording (c : Call σ) : Call (σ × List Scope) where
  services := c.services.recording
  candidates filter tenant after limit s :=
    ((c.candidates filter tenant after limit s.1).1,
      (c.candidates filter tenant after limit s.1).2, s.2)
  budget := c.budget
  world := (c.world, [])

/-- The instances that the call advances, in order. -/
def advances (c : Call σ) (tenant : Uuid) (cursor : Option Scope) : List Scope :=
  (c.recording.outcome tenant cursor).2.2

theorem outcome_recording (c : Call σ) (tenant : Uuid) (cursor : Option Scope) :
    ∃ l, l.Sublist (c.admitted tenant cursor) ∧ c.recording.outcome tenant cursor =
      ((c.outcome tenant cursor).1, (c.outcome tenant cursor).2, l) := by
  cases htenant : cursor.any (fun scope => scope.tenant ≠ tenant) with
  | true =>
      rw [outcome_of_tenant htenant, outcome_of_tenant htenant]
      exact ⟨[], List.nil_sublist _, rfl⟩
  | false =>
      rcases hpage : c.page tenant cursor with ⟨e | page, s⟩
      · have hpage' : c.recording.page tenant cursor = (.error e, s, []) :=
          congrArg (fun r => (r.1, r.2, [])) hpage
        rw [outcome_of_error htenant hpage, outcome_of_error htenant hpage']
        exact ⟨[], List.nil_sublist _, rfl⟩
      · have hpage' : c.recording.page tenant cursor = (.ok page, s, []) :=
          congrArg (fun r => (r.1, r.2, [])) hpage
        have houtcome := outcome_of_page htenant hpage
        rw [outcome_of_page htenant hpage']
        have hlimit : c.recording.limit = c.limit := rfl
        rw [hlimit]
        cases hvalid : validateCandidates page tenant cursor c.limit with
        | error e =>
            rw [hvalid] at houtcome
            rw [houtcome]
            exact ⟨[], List.nil_sublist _, rfl⟩
        | ok =>
            rw [hvalid, answered] at houtcome
            rw [answered]
            cases page with
            | nil =>
                rw [houtcome]
                exact ⟨[], List.nil_sublist _, rfl⟩
            | cons scope page =>
                obtain ⟨admitted, l, hitems, hl, hrec⟩ := admit_recording c.services
                  (scope :: page) ⟨[], cursor, .pageComplete⟩ s []
                refine ⟨l, ?_, ?_⟩
                · have hadmitted : c.admitted tenant cursor = admitted := by
                    rw [Call.admitted, houtcome]
                    exact hitems
                  rw [hadmitted]
                  exact hl
                · rw [houtcome]
                  simp only [List.isEmpty_cons, Bool.false_eq_true, if_false]
                  have hservices : c.recording.services = c.services.recording := rfl
                  rw [hservices, hrec]
                  rfl

theorem advances_sublist (c : Call σ) (tenant : Uuid) (cursor : Option Scope) :
    (c.advances tenant cursor).Sublist (c.admitted tenant cursor) := by
  obtain ⟨l, hl, hrec⟩ := c.outcome_recording tenant cursor
  rw [advances, hrec]
  exact hl

theorem length_admitted_le (c : Call σ) (tenant : Uuid) (cursor : Option Scope) :
    (c.admitted tenant cursor).length ≤ c.limit := by
  cases c.sweeps tenant cursor with
  | failed hadmitted => simp [hadmitted]
  | empty s hpage hadmitted => simp [hadmitted]
  | some page s hpage hlength horder hpre => exact Nat.le_trans hpre.length_le hlength

end Call

/-! ### Passes -/

/-- What a caller has: the cursor to pass back, and the instances it admitted since the start. -/
structure Progress where
  cursor : Option Scope
  admitted : List Scope

def Progress.start : Progress := ⟨none, []⟩

/-- A caller that passes the cursor back. -/
def Step (tenant : Uuid) (p : Progress) (c : Call σ) (p' : Progress) : Prop :=
  p' = ⟨c.next tenant p.cursor, p.admitted ++ c.admitted tenant p.cursor⟩

/-- A call within a pass: the pass ends when no candidate is left. -/
def Within (tenant : Uuid) (p : Progress) (c : Call σ) (p' : Progress) : Prop :=
  Step tenant p c p' ∧ ¬ c.Completes tenant p.cursor

/-- The cursor of a pass is the last instance it admitted, and the admitted ones ascend. -/
structure Progress.Ascends (tenant : Uuid) (p : Progress) : Prop where
  cursor : p.cursor = p.admitted.getLast?
  tenants : ∀ x ∈ p.admitted, x.tenant = tenant
  ascending : p.admitted.Pairwise (fun x y => x.id < y.id)

theorem le_of_getLast? {l : List Scope} {x z : Scope}
    (h : l.Pairwise (fun x y => x.id < y.id)) (hx : x ∈ l) (hz : l.getLast? = some z) :
    x.id ≤ z.id := by
  obtain ⟨init, rfl⟩ := List.getLast?_eq_some_iff.mp hz
  rcases List.mem_append.mp hx with hx | hx
  · exact BitVec.le_of_lt ((List.pairwise_append.mp h).2.2 x hx z List.mem_cons_self)
  · rw [List.mem_singleton.mp hx]
    exact BitVec.le_refl _

theorem Progress.Ascends.step {p p' : Progress} {c : Call σ} (h : p.Ascends tenant)
    (hstep : Within tenant p c p') : p'.Ascends tenant := by
  obtain ⟨rfl, hopen⟩ := hstep
  cases c.sweeps tenant p.cursor with
  | failed hadmitted hnext =>
      rw [hadmitted, hnext, List.append_nil]
      exact h
  | empty s hpage hadmitted hnext hcomplete => exact absurd hcomplete hopen
  | some page s hpage hlength horder hpre hnext =>
      obtain ⟨hpage, hascending⟩ := inOrder_iff.mp horder
      have hmem : ∀ x ∈ c.admitted tenant p.cursor, x ∈ page := fun x hx => hpre.subset hx
      refine ⟨?_, ?_, ?_⟩
      · rw [List.getLast?_append, ← h.cursor]
        exact hnext
      · intro x hx
        rcases List.mem_append.mp hx with hx | hx
        · exact h.tenants x hx
        · exact (hpage x (hmem x hx)).1
      · refine List.pairwise_append.mpr ⟨h.ascending, hascending.sublist hpre.sublist,
          fun x hx y hy => ?_⟩
        obtain ⟨z, hz⟩ : ∃ z, p.admitted.getLast? = some z :=
          List.getLast?_isSome.mpr (List.ne_nil_of_mem hx) |> Option.isSome_iff_exists.mp
        have hafter := (hpage y (hmem y hy)).2 z.id (by rw [h.cursor, hz]; rfl)
        exact BitVec.lt_def.mpr (Nat.lt_of_le_of_lt
          (BitVec.le_def.mp (le_of_getLast? h.ascending hx hz)) (BitVec.lt_def.mp hafter))

theorem Progress.ascends {p : Progress} {calls : List (Call σ)}
    (h : Runs (Within tenant) .start calls p) : p.Ascends tenant :=
  h.invariant (I := fun _ p => p.Ascends tenant)
    ⟨rfl, by simp [Progress.start], List.Pairwise.nil⟩ fun _ _ _ _ _ hp hstep => hp.step hstep

end Rss.Sweep
