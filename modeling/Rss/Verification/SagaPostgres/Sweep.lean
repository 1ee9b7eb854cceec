import Rss.Model.SagaPostgres.Candidates
import Rss.Verification.Saga.Sweep

/-! # Sweeps over the PostgreSQL store

A page of the store is a first part of the runnable instances behind the cursor, so a pass visits
each of them once. -/

namespace Rss.SagaPostgres

open Rss.Sql
open Rss.Saga (CandidateFilter ErrorKind)
open Rss.Sweep

variable {σ : Type}

/-! ### The query -/

theorem whereRows_eq_ok {α : Type} {p : α → Outcome Bool} {rows out : List α}
    (h : whereRows p rows = .ok out) :
    out.Sublist rows ∧ ∀ row, row ∈ out ↔ row ∈ rows ∧ p row = .ok true := by
  induction rows generalizing out with
  | nil =>
      cases h
      exact ⟨List.Sublist.slnil, by simp⟩
  | cons first rows ih =>
      simp only [whereRows, bind_eq_ok] at h
      obtain ⟨holds, hfirst, rest, hrest, h⟩ := h
      cases h
      obtain ⟨hsub, hmem⟩ := ih hrest
      cases holds with
      | true =>
          refine ⟨hsub.cons_cons first, fun row => ?_⟩
          simp only [if_true, List.mem_cons, hmem]
          constructor
          · intro h
            rcases h with rfl | h
            · exact ⟨.inl rfl, hfirst⟩
            · exact ⟨.inr h.1, h.2⟩
          · intro h
            rcases h.1 with rfl | hrow
            · exact .inl rfl
            · exact .inr ⟨hrow, h.2⟩
      | false =>
          refine ⟨hsub.cons first, fun row => ?_⟩
          simp only [Bool.false_eq_true, if_false, List.mem_cons, hmem]
          constructor
          · intro h
            exact ⟨.inr h.1, h.2⟩
          · intro h
            rcases h.1 with rfl | hrow
            · rw [hfirst] at h
              cases h.2
            · exact ⟨hrow, h.2⟩

/-- The instance is of the kind that a sweep looks for. -/
def Db.Runnable (db : Db) (scope : Scope) (now : ℤ) : Prop :=
  ∃ row, db.instances.get? (scope.tenant, scope.id) = some row ∧
    row.qualifies .runnable now = .ok (some true)

theorem pairwise_lt_mergeSort {ids : List Uuid} (h : ids.Nodup) :
    (ids.mergeSort fun a b => a ≤ b).Pairwise (fun a b => a < b) := by
  have hsorted := @List.pairwise_mergeSort _ (fun a b : Uuid => decide (a ≤ b))
    (fun a b c hab hbc => decide_eq_true
      (BitVec.le_trans (of_decide_eq_true hab) (of_decide_eq_true hbc)))
    (fun a b => by simpa using BitVec.le_total a b) ids
  have hnodup : (ids.mergeSort fun a b => decide (a ≤ b)).Nodup :=
    (List.mergeSort_perm ids _).nodup_iff.mpr h
  exact (hsorted.and hnodup).imp fun hab =>
    BitVec.lt_of_le_ne (of_decide_eq_true hab.1) hab.2

/-- The ids of a page are the least of those behind the cursor. -/
theorem Db.candidates_eq_ok {db : Db} {tenant : Uuid} {after : Option Uuid} {limit : ℕ} {now : ℤ}
    {ids : List Uuid} (h : db.candidates .runnable tenant after limit now = .ok ids) :
    ∃ all : List Uuid, ids = all.take limit ∧ all.Pairwise (fun a b => a < b) ∧
      ∀ id, id ∈ all ↔ db.Runnable ⟨tenant, id⟩ now ∧ ∀ a ∈ after, a < id := by
  simp only [Db.candidates, bind_eq_ok] at h
  obtain ⟨rows, hrows, h⟩ := h
  cases h
  obtain ⟨hsub, hmem⟩ := whereRows_eq_ok hrows
  have hrow : ∀ row, row ∈ rows ↔ row ∈ db.instances.rows ∧ row.1.1 = tenant ∧
      (∀ a ∈ after, a < row.1.2) ∧ row.2.qualifies .runnable now = .ok (some true) := by
    intro row
    rw [hmem]
    refine and_congr_right fun _ => ?_
    split
    · rename_i hkey
      obtain ⟨htenant, hafter⟩ := hkey
      rw [Option.all_eq_true] at hafter
      simp only [decide_eq_true_eq] at hafter
      simp only [bind_eq_ok]
      constructor
      · intro h
        obtain ⟨t, ht, h⟩ := h
        cases t with
        | none => cases h
        | some b => cases b with
          | false => cases h
          | true => exact ⟨htenant, hafter, ht⟩
      · intro h
        exact ⟨_, h.2.2, rfl⟩
    · rename_i hkey
      refine iff_of_false (fun h => by cases h) fun h => hkey ⟨h.1, ?_⟩
      rw [Option.all_eq_true]
      exact fun a ha => decide_eq_true (h.2.1 a ha)
  have hnodup : (rows.map fun row => row.1.2).Nodup := by
    have hkeys : (rows.map Prod.fst).Nodup := db.instances.nodup.sublist (hsub.map Prod.fst)
    have hids : ((rows.map Prod.fst).map Prod.snd).Nodup := by
      refine List.Nodup.map_on (fun k hk l hl heq => ?_) hkeys
      obtain ⟨row, hr, rfl⟩ := List.mem_map.mp hk
      obtain ⟨row', hr', rfl⟩ := List.mem_map.mp hl
      exact Prod.ext (((hrow row).mp hr).2.1.trans ((hrow row').mp hr').2.1.symm) heq
    rwa [List.map_map] at hids
  refine ⟨_, rfl, ?_, fun id => ?_⟩
  · exact pairwise_lt_mergeSort hnodup
  · rw [List.mem_mergeSort, List.mem_map]
    constructor
    · intro h
      obtain ⟨⟨⟨t, i⟩, row⟩, hr, rfl⟩ := h
      obtain ⟨hin, rfl, hafter, hqualifies⟩ := (hrow _).mp hr
      exact ⟨⟨row, Table.mem_rows.mp hin, hqualifies⟩, hafter⟩
    · intro h
      obtain ⟨⟨row, hget, hqualifies⟩, hafter⟩ := h
      exact ⟨((tenant, id), row), (hrow _).mpr
        ⟨Table.mem_rows.mpr hget, rfl, hafter, hqualifies⟩, rfl⟩

/-- The answer over the tables that the transaction reads. -/
theorem PgStore.candidates_of_transact {transact : σ → Except ErrorKind (Db × ℤ) × σ}
    {filter : CandidateFilter} {tenant : Uuid} {after : Option Uuid} {limit : ℕ} {s s' : σ}
    {db : Db} {now : ℤ} (hlimit : 0 < limit ∧ limit ≤ 10000)
    (h : transact s = (.ok (db, now), s')) :
    PgStore.candidates transact filter tenant after limit s =
      match db.candidates filter tenant after limit now with
      | .error fault => (.error (sqlError fault), s')
      | .ok ids => (.ok (ids.map fun id => ⟨tenant, id⟩), s') := by
  have hvalid : ¬ (limit = 0 ∨ limit > 10000) := by omega
  cases hids : db.candidates filter tenant after limit now with
  | error fault => simp only [PgStore.candidates, if_neg hvalid, h, hids]
  | ok ids => simp only [PgStore.candidates, if_neg hvalid, h, hids]

end Rss.SagaPostgres

namespace Rss.Sweep

open Rss.Sql (Uuid)
open Rss.Saga (ErrorKind)
open Rss.SagaPostgres (Db PgStore.candidates PgStore.candidates_of_transact)

variable {σ : Type}

/-! ### Pages -/

namespace Call

/-- The store of the call is the PostgreSQL one, and the instance is runnable in the tables that it
reads. -/
def Offers (c : Call σ) (scope : Scope) : Prop :=
  ∃ transact, c.candidates = PgStore.candidates transact ∧
    ∀ db now s, transact c.world = (.ok (db, now), s) → db.Runnable scope now

theorem limit_valid (c : Call σ) : 0 < c.limit ∧ c.limit ≤ 10000 :=
  ⟨Nat.lt_min.mpr ⟨c.budget.instances_pos, c.budget.advances_pos⟩,
    Nat.le_trans (Nat.min_le_left _ _) c.budget.instances_le⟩

section Offers

variable {c : Call σ} {tenant id : Uuid} {cursor : Option Scope}

/-- An offered instance behind the cursor is in the page, or it is behind all of a full page. -/
theorem Offers.page {page : List Scope} {s : σ} (h : c.Offers ⟨tenant, id⟩)
    (hpage : c.page tenant cursor = (.ok page, s)) (hafter : ∀ a ∈ cursor, a.id < id) :
    ⟨tenant, id⟩ ∈ page ∨ page ≠ [] ∧ ∀ x ∈ page, x.id < id := by
  obtain ⟨transact, hcandidates, hrunnable⟩ := h
  have hlimit := c.limit_valid
  unfold Call.page at hpage
  rw [hcandidates] at hpage
  rcases htransact : transact c.world with ⟨e | ⟨db, now⟩, s₁⟩
  · have hvalid : ¬ (c.limit = 0 ∨ c.limit > 10000) := by omega
    rw [PgStore.candidates, if_neg hvalid, htransact] at hpage
    cases hpage
  · rw [PgStore.candidates_of_transact hlimit htransact] at hpage
    cases hids : db.candidates .runnable tenant (cursor.map Scope.id) c.limit now with
    | error fault =>
        rw [hids] at hpage
        cases hpage
    | ok ids =>
        rw [hids] at hpage
        cases hpage
        obtain ⟨all, rfl, hascending, hall⟩ := Db.candidates_eq_ok hids
        have hid : id ∈ all := (hall id).mpr ⟨hrunnable db now _ htransact, fun a ha => by
          obtain ⟨scope, hscope, rfl⟩ := Option.map_eq_some_iff.mp ha
          exact hafter scope hscope⟩
        rw [← List.take_append_drop c.limit all] at hid hascending
        rcases List.mem_append.mp hid with htake | hdrop
        · exact .inl (List.mem_map_of_mem htake)
        · refine .inr ⟨fun hnil => ?_, fun x hx => ?_⟩
          · rw [List.map_eq_nil_iff, List.take_eq_nil_iff] at hnil
            rcases hnil with hzero | rfl
            · omega
            · simp at hdrop
          · obtain ⟨i, hi, rfl⟩ := List.mem_map.mp hx
            exact (List.pairwise_append.mp hascending).2.2 i hi id hdrop

/-- An offered instance is passed over by the cursor when it is admitted, and not before. -/
theorem Offers.admitted {z : Scope} (h : c.Offers ⟨tenant, id⟩) (hafter : ∀ a ∈ cursor, a.id < id)
    (hnext : c.next tenant cursor = some z) (hz : id ≤ z.id) :
    ⟨tenant, id⟩ ∈ c.admitted tenant cursor := by
  have hnot : ∀ w : Uuid, w < id → w ≠ z.id := fun w hw heq =>
    absurd (BitVec.lt_def.mp (heq ▸ hw)) (Nat.not_lt_of_ge (BitVec.le_def.mp hz))
  have hkept : c.next tenant cursor ≠ cursor := fun hkept =>
    hnot z.id (hafter z (hkept ▸ hnext)) rfl
  cases c.sweeps tenant cursor with
  | failed hadmitted hsame => exact absurd hsame hkept
  | empty s hpage hadmitted hnone =>
      rw [hnext] at hnone
      cases hnone
  | some page s hpage hlength horder hpre hlast =>
      have hzlast : (c.admitted tenant cursor).getLast? = some z := by
        rw [hlast] at hnext hkept
        cases hadmitted : (c.admitted tenant cursor).getLast? with
        | none => exact absurd (by rw [hadmitted]; rfl) hkept
        | some y =>
            rw [hadmitted] at hnext
            exact hnext
      have hzmem := List.mem_of_getLast? hzlast
      rcases h.page hpage hafter with hmem | ⟨-, hbehind⟩
      · obtain ⟨rest, rfl⟩ := hpre
        rcases List.mem_append.mp hmem with hmem | hrest
        · exact hmem
        · have hlt := (List.pairwise_append.mp (inOrder_iff.mp horder).2).2.2 z hzmem _ hrest
          exact absurd (BitVec.lt_def.mp hlt) (Nat.not_lt_of_ge (BitVec.le_def.mp hz))
      · exact absurd rfl (hnot z.id (hbehind z (hpre.subset hzmem)))

/-- A pass over the store ends when no offered instance is behind the cursor. -/
theorem Offers.not_after (h : c.Offers ⟨tenant, id⟩) (hcomplete : c.Completes tenant cursor) :
    ∃ z ∈ cursor, id ≤ z.id := by
  cases c.sweeps tenant cursor with
  | failed hadmitted hnext hopen => exact absurd hcomplete hopen
  | some page s hpage hlength horder hpre hnext hopen => exact absurd hcomplete hopen
  | empty s hpage =>
      by_contra hnone
      have hafter : ∀ a ∈ cursor, a.id < id := fun a ha =>
        BitVec.not_le.mp fun hle => hnone ⟨a, ha, hle⟩
      rcases h.page hpage hafter with hmem | ⟨hne, -⟩
      · cases hmem
      · exact hne rfl

end Offers

theorem admitted_of_completes {c : Call σ} {tenant : Uuid} {cursor : Option Scope}
    (h : c.Completes tenant cursor) : c.admitted tenant cursor = [] := by
  cases c.sweeps tenant cursor with
  | failed hadmitted hnext hopen => exact absurd h hopen
  | some page s hpage hlength horder hpre hnext hopen => exact absurd h hopen
  | empty s hpage hadmitted => exact hadmitted

end Call

/-! ### Passes -/

/-- What was offered throughout and is not behind the cursor was admitted. -/
theorem Progress.admitted_of_offers {tenant id : Uuid} {calls : List (Call σ)} {p : Progress}
    (h : Runs (Within tenant) .start calls p) (hoffers : ∀ c ∈ calls, c.Offers ⟨tenant, id⟩) :
    ∀ z ∈ p.cursor, id ≤ z.id → ⟨tenant, id⟩ ∈ p.admitted := by
  induction h with
  | nil => exact fun z hz => by cases hz
  | @snoc calls p p' c hrun hstep ih =>
      rw [List.forall_mem_append, List.forall_mem_singleton] at hoffers
      obtain ⟨rfl, hopen⟩ := hstep
      intro z hz hle
      by_cases hafter : ∀ a ∈ p.cursor, a.id < id
      · exact List.mem_append_right _ (hoffers.2.admitted hafter hz hle)
      · simp only [not_forall] at hafter
        obtain ⟨a, ha, hbehind⟩ := hafter
        exact List.mem_append_left _ (ih hoffers.1 a ha (BitVec.not_lt.mp hbehind))

/-- A page that a store may not return: it is too long, of another tenant or out of order. -/
def Malformed (tenant : Uuid) (cursor : Option Scope) (limit : ℕ) (page : List Scope) : Prop :=
  limit < page.length ∨ (∃ x ∈ page, x.tenant ≠ tenant ∨ ∃ a ∈ cursor, x.id ≤ a.id) ∨
    ¬ page.Pairwise (fun x y => x.id < y.id)

theorem validateCandidates_of_malformed {tenant : Uuid} {cursor : Option Scope} {limit : ℕ}
    {page : List Scope} (h : Malformed tenant cursor limit page) :
    validateCandidates page tenant cursor limit ≠ .ok () := by
  intro hvalid
  obtain ⟨hlength, horder⟩ := validateCandidates_eq_ok.mp hvalid
  obtain ⟨hpage, hascending⟩ := inOrder_iff.mp horder
  rcases h with hlong | hbad | hdisorder
  · exact absurd hlength (Nat.not_le_of_gt hlong)
  · obtain ⟨x, hx, htenant | ⟨a, ha, hle⟩⟩ := hbad
    · exact htenant (hpage x hx).1
    · exact BitVec.not_le.mpr ((hpage x hx).2 a.id (Option.mem_map_of_mem Scope.id ha)) hle
  · exact hdisorder hascending

/-- One pass, from its start to the call that finds no candidate. What it admits ascends, and an
instance offered to all of its calls is admitted once; the cursor moves past an offered instance
in the call that admits it and stays where nothing is admitted. A call admits at most its limit,
advances what it admits at most once, and ends as it reads a malformed page. -/
theorem pass_visits_once {tenant : Uuid} {calls : List (Call σ)} {p : Progress}
    (h : Runs (Within tenant) .start calls p) :
    p.admitted.Pairwise (fun x y => x.id < y.id) ∧ p.admitted.Nodup ∧
    (∀ x ∈ p.admitted, x.tenant = tenant) ∧ p.cursor = p.admitted.getLast? ∧
    ∀ c : Call σ,
      (c.Completes tenant p.cursor → c.next tenant p.cursor = none ∧
        c.admitted tenant p.cursor = [] ∧ ∀ id, (∀ c' ∈ calls ++ [c], c'.Offers ⟨tenant, id⟩) →
          p.admitted.count ⟨tenant, id⟩ = 1) ∧
      (∀ id, c.Offers ⟨tenant, id⟩ → (∀ a ∈ p.cursor, a.id < id) →
        (∃ z ∈ c.next tenant p.cursor, id ≤ z.id) →
          ⟨tenant, id⟩ ∈ c.admitted tenant p.cursor) ∧
      (¬ c.Completes tenant p.cursor → c.admitted tenant p.cursor = [] →
        c.next tenant p.cursor = p.cursor) ∧
      (c.admitted tenant p.cursor).length ≤ min c.budget.instances c.budget.advances ∧
      (c.advances tenant p.cursor).Sublist (c.admitted tenant p.cursor) ∧
      ∀ page s, c.page tenant p.cursor = (.ok page, s) →
        Malformed tenant p.cursor c.limit page →
          c.outcome tenant p.cursor = (.error .integrity, s) := by
  have hascends := Progress.ascends h
  have hnodup : p.admitted.Nodup := by
    apply hascends.ascending.imp
    intro x y hlt heq
    subst heq
    exact Nat.lt_irrefl _ (BitVec.lt_def.mp hlt)
  refine ⟨hascends.ascending, hnodup, hascends.tenants, hascends.cursor, fun c =>
    ⟨fun hcomplete => ⟨?_, Call.admitted_of_completes hcomplete, fun id hoffers => ?_⟩,
      fun id hoffers hafter hnext => ?_, fun hopen hadmitted => ?_, c.length_admitted_le _ _,
      c.advances_sublist _ _, fun page s hpage hbad => ?_⟩⟩
  · obtain ⟨report, hok, -, hnone⟩ := hcomplete
    rw [Call.next, hok]
    exact hnone
  · rw [List.forall_mem_append, List.forall_mem_singleton] at hoffers
    obtain ⟨z, hz, hle⟩ := hoffers.2.not_after hcomplete
    exact List.count_eq_one_of_mem hnodup (Progress.admitted_of_offers h hoffers.1 z hz hle)
  · obtain ⟨z, hz, hle⟩ := hnext
    exact hoffers.admitted hafter hz hle
  · cases c.sweeps tenant p.cursor with
    | failed _ hnext => exact hnext
    | empty s hpage _ hnext hcomplete => exact absurd hcomplete hopen
    | some page s hpage hlength horder hpre hnext =>
        rw [hnext, hadmitted]
        rfl
  · refine Call.outcome_of_invalid ?_ hpage (validateCandidates_of_malformed hbad)
    rw [Option.any_eq_false]
    intro scope hscope
    have hmem := List.mem_of_getLast? (hascends.cursor.symm.trans hscope)
    simp [hascends.tenants scope hmem]

/-! ### Two orders -/

def order : Rss.SagaPostgres.Instance where
  definition := .obj [("steps", .arr [.obj [("max_failures", .num 1)]])]
  revision := 0
  leaseToken := none
  epoch := 0
  expiresAt := none
  progress := Rss.SagaPostgres.emptyProgress
  historyEncodedBytes := 0
  historyEntryLimit := 100
  historyByteLimit := 1000000000

def orders : Db where
  instances := ⟨[((1, 7), order), ((1, 9), order)], by decide⟩
  journal := Table.empty

/-- A transaction of a caller that has cancelled or not; it cancels meanwhile, or never. -/
def readOrders (cancels cancelled : Bool) : Except ErrorKind (Db × ℤ) × Bool :=
  if cancelled then (.error .cancelled, cancelled) else (.ok (orders, 0), cancels)

theorem orderInstances_le : 1 ≤ 10000 := by decide

theorem orderAdvances_pos : 0 < 10 := by decide

/-- A call for one order. -/
def orderCall (cancels : Bool) : Call Bool where
  services := {
    check := fun cancelled => (if cancelled then some .cancelled else none, cancelled)
    claim := fun _ cancelled => (.ok (), cancelled)
    prepare := fun _ cancelled => ((.ok (), none), cancelled)
    status := fun _ _ => .running
    advance := fun _ cancelled => ((.ok (), none), cancelled)
    release := fun _ cancelled => (.ok (), cancelled) }
  candidates := PgStore.candidates (readOrders cancels)
  budget := ⟨1, 10, Nat.one_pos, orderInstances_le, orderAdvances_pos⟩
  world := false

theorem order_qualifies : order.qualifies .runnable 0 = .ok (some true) := by decide +kernel

theorem step_of_report {tenant : Uuid} {p : Progress} {c : Call σ} {report : SweepReport}
    (h : (c.outcome tenant p.cursor).1 = .ok report) :
    Step tenant p c ⟨report.nextCursor, p.admitted ++ report.items.map InstanceResult.scope⟩ := by
  rw [Step, Call.next, Call.admitted, h]

theorem orderCall_offers (cancels : Bool) {id : Uuid} (hid : id ∈ ([7, 9] : List Uuid)) :
    (orderCall cancels).Offers ⟨1, id⟩ := by
  refine ⟨_, rfl, fun db now s h => ?_⟩
  cases h
  refine ⟨order, ?_, order_qualifies⟩
  rcases List.mem_pair.mp hid with rfl | rfl
  · rfl
  · rfl

theorem orderCall_page (cancels : Bool) {after : Option Scope} {ids : List Uuid}
    (h : orders.candidates .runnable 1 (after.map Scope.id) 1 0 = .ok ids) :
    (orderCall cancels).page 1 after = (.ok (ids.map fun id => ⟨1, id⟩), cancels) := by
  have hread : readOrders cancels false = (.ok (orders, 0), cancels) := rfl
  have hpage : (orderCall cancels).page 1 after =
      PgStore.candidates (readOrders cancels) .runnable 1 (after.map Scope.id) 1 false := rfl
  rw [hpage, PgStore.candidates_of_transact (by decide) hread, h]

theorem orderCall_first (cancels : Bool) :
    (orderCall cancels).page 1 none = (.ok [⟨1, 7⟩], cancels) := by
  refine @orderCall_page cancels none [7] ?_
  simp [Db.candidates, orders, SagaPostgres.whereRows, order_qualifies,
    List.mergeSort_of_pairwise]

theorem orderCall_second : (orderCall false).page 1 (some ⟨1, 7⟩) = (.ok [⟨1, 9⟩], false) := by
  refine @orderCall_page false (some ⟨1, 7⟩) [9] ?_
  simp [Db.candidates, orders, SagaPostgres.whereRows, order_qualifies]

theorem orderCall_rest : (orderCall false).page 1 (some ⟨1, 9⟩) = (.ok [], false) := by
  refine @orderCall_page false (some ⟨1, 9⟩) [] ?_
  simp [Db.candidates, orders, SagaPostgres.whereRows]

/-- The pass over the two orders: two calls admit one each, and the next finds nothing. -/
theorem pass_visits_once_order :
    ∃ p, Runs (Within 1) .start [orderCall false, orderCall false] p ∧
      (orderCall false).Completes 1 p.cursor ∧ p.admitted = [⟨1, 7⟩, ⟨1, 9⟩] ∧
      ∀ id ∈ ([7, 9] : List Uuid), p.admitted.count ⟨1, id⟩ = 1 := by
  have hfirst : ((orderCall false).outcome 1 none).1 =
      .ok ⟨[⟨⟨1, 7⟩, .ok ⟨1, .yielded⟩⟩], some ⟨1, 7⟩, .pageComplete⟩ :=
    congrArg Prod.fst (Call.outcome_of_page rfl (orderCall_first false))
  have hsecond : ((orderCall false).outcome 1 (some ⟨1, 7⟩)).1 =
      .ok ⟨[⟨⟨1, 9⟩, .ok ⟨1, .yielded⟩⟩], some ⟨1, 9⟩, .pageComplete⟩ :=
    congrArg Prod.fst (Call.outcome_of_page (by decide) orderCall_second)
  have hrest : ((orderCall false).outcome 1 (some ⟨1, 9⟩)).1 =
      .ok ⟨[], none, .pageComplete⟩ :=
    congrArg Prod.fst (Call.outcome_of_page (by decide) orderCall_rest)
  have hcomplete : (orderCall false).Completes 1 (some ⟨1, 9⟩) := ⟨_, hrest, rfl, rfl⟩
  -- A call that has admitted an order does not complete the pass.
  have hopen : ∀ cursor report, ((orderCall false).outcome 1 cursor).1 = .ok report →
      report.nextCursor ≠ none → ¬ (orderCall false).Completes 1 cursor := by
    rintro cursor report hok hsome ⟨report', hok', -, hnone⟩
    rw [hok] at hok'
    cases hok'
    exact hsome hnone
  have hrun : Runs (Within 1) .start [orderCall false, orderCall false]
      ⟨some ⟨1, 9⟩, [⟨1, 7⟩, ⟨1, 9⟩]⟩ := by
    have hone : Within 1 .start (orderCall false) ⟨some ⟨1, 7⟩, [⟨1, 7⟩]⟩ :=
      ⟨step_of_report (p := .start) hfirst, hopen none _ hfirst (by decide)⟩
    have htwo : Within 1 ⟨some ⟨1, 7⟩, [⟨1, 7⟩]⟩ (orderCall false)
        ⟨some ⟨1, 9⟩, [⟨1, 7⟩, ⟨1, 9⟩]⟩ :=
      ⟨step_of_report (p := ⟨some ⟨1, 7⟩, [⟨1, 7⟩]⟩) hsecond, hopen _ _ hsecond (by decide)⟩
    exact (Runs.single hone).snoc htwo
  refine ⟨_, hrun, hcomplete, rfl, fun id hid => ?_⟩
  refine (((pass_visits_once hrun).2.2.2.2 (orderCall false)).1 hcomplete).2.2 id fun c hc => ?_
  have hc : c = orderCall false := by simpa using hc
  exact hc ▸ orderCall_offers false hid

/-- A pass as the cursors alone tell it: it ends with the first call that leaves none. -/
def UntilNone (tenant : Uuid) (calls : List (Call σ)) (p : Progress) : Prop :=
  ∃ init last q, calls = init ++ [last] ∧
    Runs (fun p c p' => Step tenant p c p' ∧ p'.cursor ≠ none) .start init q ∧
    Step tenant q last p ∧ p.cursor = none

/-- A call that is cancelled before its first admission leaves no cursor either, and the order that
it was offered is not admitted. -/
theorem cancelled_pass_misses_order :
    ¬ ∀ (calls : List (Call Bool)) (p : Progress), UntilNone 1 calls p →
      ∀ id, (∀ c ∈ calls, c.Offers ⟨1, id⟩) → p.admitted.count ⟨1, id⟩ = 1 := by
  intro h
  have hfirst : ((orderCall true).outcome 1 none).1 = .ok ⟨[], none, .cancelled⟩ :=
    congrArg Prod.fst (Call.outcome_of_page rfl (orderCall_first true))
  have hstep : Step 1 .start (orderCall true) ⟨none, []⟩ :=
    step_of_report (p := .start) hfirst
  have hcount := h [orderCall true] ⟨none, []⟩ ⟨[], orderCall true, .start, rfl, .nil, hstep, rfl⟩ 7
    fun c hc => by
      have hc : c = orderCall true := by simpa using hc
      exact hc ▸ orderCall_offers true (by decide)
  cases hcount

end Rss.Sweep
