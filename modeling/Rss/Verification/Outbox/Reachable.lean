import Rss.Verification.Outbox.Keys

/-! # Reachable databases

The keys that hold in every database the steps lead to: a member delivers a source of its own
tenant, no plan has two members for one message and group, and a tenant has one plan per
lineage and epoch. -/

namespace Rss.Outbox

open Rss.Sql
open Rss.Messaging.Inbox (Digest)

structure Db.Sound (db : Db) : Prop where
  message : ∀ {seq seq' src src'}, db.sources.get? seq = some src →
    db.sources.get? seq' = some src' → src.tenant = src'.tenant →
      src.messageId = src'.messageId → seq = seq'
  source : ∀ {k m seq}, db.members.get? k = some m → m.outboxSeq = some seq →
    m.consumerGroup = "" ∧ ∃ src, db.sources.get? seq = some src ∧ src.tenant = k.tenant ∧
      src.messageId = m.messageId
  member : ∀ {k k' m m'}, db.members.get? k = some m → db.members.get? k' = some m' →
    k.tenant = k'.tenant → k.operation = k'.operation → m.messageId = m'.messageId →
      m.consumerGroup = m'.consumerGroup → k = k'
  plan : ∀ {tenant o o' p p'}, db.plans.get? (tenant, o) = some p →
    db.plans.get? (tenant, o') = some p' → p.lineage = p'.lineage → p.epoch = p'.epoch → o = o'

namespace Db

variable {db db' : Db}

theorem Sound.initial (storage : Option Messaging.Storage) (epochs : Table Uuid ℤ) :
    (Db.initial storage epochs).Sound := by
  constructor <;> intros <;> simp_all [Db.initial]

theorem Sound.keeps (h : db.Sound) (hk : db.Keeps db') : db'.Sound := by
  constructor
  case message =>
    intro seq seq' src src' hsrc hsrc' ht hm
    obtain ⟨old, hold, hf⟩ := hk.source hsrc
    obtain ⟨old', hold', hf'⟩ := hk.source hsrc'
    simp only [Source.facts, Prod.mk.injEq] at hf hf'
    exact h.message hold hold' (by rw [← hf.1, ← hf'.1, ht]) (by rw [← hf.2.1, ← hf'.2.1, hm])
  case source =>
    intro k m seq hm hseq
    obtain ⟨old, hold, hf⟩ := hk.member hm
    simp only [Member.facts, Prod.mk.injEq] at hf
    obtain ⟨hgroup, src, hsrc, ht, hmsg⟩ := h.source hold (by rw [← hf.2.2.2.2, hseq])
    obtain ⟨src', hsrc', hf'⟩ := hk.symm.source hsrc
    simp only [Source.facts, Prod.mk.injEq] at hf'
    refine ⟨by rw [hf.2.1, hgroup], src', hsrc', ?_, ?_⟩
    · rw [← hf'.1, ht]
    · rw [← hf'.2.1, hmsg, hf.1]
  case member =>
    intro k k' m m' hm hm' ht ho hmsg hgroup
    obtain ⟨old, hold, hf⟩ := hk.member hm
    obtain ⟨old', hold', hf'⟩ := hk.member hm'
    simp only [Member.facts, Prod.mk.injEq] at hf hf'
    exact h.member hold hold' ht ho (by rw [← hf.1, ← hf'.1, hmsg])
      (by rw [← hf.2.1, ← hf'.2.1, hgroup])
  case plan =>
    intro tenant o o' p p' hp hp'
    rw [hk.plans] at hp hp'
    exact h.plan hp hp'

theorem Sound.append {s : Session} {seq : ℤ} {m : NewMessage} {ordinal : Option ℤ} {now : ℤ}
    {partitions : Table (Uuid × String × String) Allocator} (h : db.Sound)
    (hseq : db.sources.get? seq = none) (hfresh : db.findSource s.tenant m.id = none) :
    ({ db with
      partitions, sources := db.sources.insertNew seq (newSource s m ordinal now) } : Db).Sound := by
  have hget (seq' : ℤ) : (db.sources.insertNew seq (newSource s m ordinal now)).get? seq' =
      if seq' = seq then some (newSource s m ordinal now) else db.sources.get? seq' := by
    rw [Table.get?_insertNew, hseq, Option.getD_none]
  constructor
  case message =>
    intro i j src src' hi hj ht hm
    simp only [hget] at hi hj
    split at hi
    · split at hj
      · simp_all
      · cases hi
        exact absurd hm.symm (findSource_eq_none hfresh hj ht.symm)
    · split at hj
      · cases hj
        exact absurd hm (findSource_eq_none hfresh hi ht)
      · exact h.message hi hj ht hm
  case source =>
    intro k x seq' hx hseq'
    obtain ⟨hgroup, src, hsrc, ht, hmsg⟩ := h.source hx hseq'
    refine ⟨hgroup, src, ?_, ht, hmsg⟩
    simp only [hget]
    rw [if_neg, hsrc]
    rintro rfl
    rw [hseq] at hsrc
    cases hsrc
  case member => exact h.member
  case plan => exact h.plan

theorem Sound.insertMember {k : MemberKey} {m : Member} (h : db.Sound)
    (hnew : db.insertMember k m = .ok db')
    (hsource : ∀ seq, m.outboxSeq = some seq → m.consumerGroup = "" ∧
      ∃ src, db.sources.get? seq = some src ∧ src.tenant = k.tenant ∧ src.messageId = m.messageId) :
    db'.Sound ∧ db'.sources = db.sources := by
  unfold Db.insertMember at hnew
  split at hnew
  · cases hnew
  · next hfree =>
      split at hnew
      · cases hnew
      · cases hnew
        have hfree : ∀ k' m', db.members.get? k' = some m' → k' ≠ k ∧
            ¬ (k'.tenant = k.tenant ∧ k'.operation = k.operation ∧ m'.messageId = m.messageId ∧
              m'.consumerGroup = m.consumerGroup) := by
          intro k' m' hm'
          have hrow := Table.mem_rows.mpr hm'
          simp only [List.any_eq_true, not_exists, not_and] at hfree
          have hnot := hfree _ hrow
          simp only [Bool.or_eq_true, Bool.and_eq_true, decide_eq_true_eq, not_or] at hnot
          exact ⟨hnot.1, fun hall => hnot.2 ⟨⟨⟨hall.1, hall.2.1⟩, hall.2.2.1⟩, hall.2.2.2⟩⟩
        have hnone : db.members.get? k = none := by
          cases hk : db.members.get? k with
          | none => rfl
          | some m' => exact absurd rfl (hfree k m' hk).1
        have hget (k' : MemberKey) : (db.members.insertNew k m).get? k' =
            if k' = k then some m else db.members.get? k' := by
          rw [Table.get?_insertNew, hnone, Option.getD_none]
        refine ⟨?_, rfl⟩
        constructor
        case message => exact h.message
        case source =>
          intro k' m' seq hm' hseq
          simp only [hget] at hm'
          split at hm'
          · next hk =>
              cases hm'
              rw [hk]
              exact hsource seq hseq
          · exact h.source hm' hseq
        case member =>
          intro i j x y hx hy ht ho hmsg hgroup
          simp only [hget] at hx hy
          split at hx
          · split at hy
            · simp_all
            · next hi _ =>
                cases hx
                rw [hi] at ht ho
                exact absurd ⟨ht.symm, ho.symm, hmsg.symm, hgroup.symm⟩ (hfree j y hy).2
          · split at hy
            · next hj =>
                cases hy
                rw [hj] at ht ho
                exact absurd ⟨ht, ho, hmsg, hgroup⟩ (hfree i x hx).2
            · exact h.member hx hy ht ho hmsg hgroup
        case plan => exact h.plan

theorem Sound.addSource {s : Session} {operation : Uuid} {ordinal : ℕ} {item : DatabaseItem}
    {now : ℤ} (h : db.Sound) (hadd : db.addSource s operation ordinal item now = .ok db') :
    db'.Sound := by
  unfold Db.addSource at hadd
  split at hadd
  · cases hadd
  · next seq src hfind =>
      split at hadd
      · cases hadd
      · split at hadd
        · cases hadd
        · obtain ⟨hsrc, ht, -⟩ := findSource_eq_some hfind
          refine (h.insertMember hadd fun seq' hseq' => ?_).1
          cases hseq'
          exact ⟨rfl, src, hsrc, ht, rfl⟩

theorem Sound.addConsumer {s : Session} {operation : Uuid} {ordinal : ℕ} {item : BrokerItem}
    {now : ℤ} (h : db.Sound) (hadd : db.addConsumer s operation ordinal item now = .ok db') :
    db'.Sound := by
  unfold Db.addConsumer at hadd
  dsimp only at hadd
  split at hadd
  · cases hadd
  · exact (h.insertMember hadd (by simp)).1

/-- What adding one member keeps, adding them all keeps. -/
theorem addMembers_invariant {α : Type} {add : Db → ℕ → α → ℤ → Outcome Db} {I : Db → Prop}
    (hadd : ∀ {db db' ordinal item now}, I db → add db ordinal item now = .ok db' → I db')
    {ordinal : ℕ} {items : List α} {clock : Clock} (h : I db)
    (hall : db.addMembers add ordinal items clock = .ok db') : I db' := by
  induction items generalizing db ordinal clock with
  | nil =>
      cases hall
      exact h
  | cons item items ih =>
      obtain ⟨next, hnext, hall⟩ := bind_eq_ok.mp hall
      exact ih (hadd h hnext) hall

theorem Sound.insertPlan {tenant operation : Uuid} {p : Plan} (h : db.Sound)
    (hnew : db.insertPlan tenant operation p = .ok db') : db'.Sound := by
  unfold Db.insertPlan at hnew
  split at hnew
  · cases hnew
  · next hfree =>
      cases hnew
      have hfree : ∀ o q, db.plans.get? (tenant, o) = some q → o ≠ operation ∧
          ¬ (q.lineage = p.lineage ∧ q.epoch = p.epoch) := by
        intro o q hq
        have hrow := Table.mem_rows.mpr hq
        simp only [List.any_eq_true, not_exists, not_and] at hfree
        have hnot := hfree _ hrow
        simp only [decide_true, Bool.true_and, Bool.or_eq_true, Bool.and_eq_true,
          decide_eq_true_eq, not_or] at hnot
        exact ⟨hnot.1.1, fun hall => hnot.1.2 hall⟩
      have hnone : db.plans.get? (tenant, operation) = none := by
        cases hp : db.plans.get? (tenant, operation) with
        | none => rfl
        | some q => exact absurd rfl (hfree operation q hp).1
      have hget (k : Uuid × Uuid) : (db.plans.insertNew (tenant, operation) p).get? k =
          if k = (tenant, operation) then some p else db.plans.get? k := by
        rw [Table.get?_insertNew, hnone, Option.getD_none]
      constructor
      case message => exact h.message
      case source => exact h.source
      case member => exact h.member
      case plan =>
        intro t o o' q q' hq hq' hlineage hepoch
        simp only [hget, Prod.mk.injEq] at hq hq'
        split at hq
        · next heq =>
            split at hq'
            · next heq' => rw [heq.2, heq'.2]
            · cases hq
              rw [heq.1] at hq'
              exact absurd ⟨hlineage.symm, hepoch.symm⟩ (hfree o' q' hq').2
        · split at hq'
          · next heq' =>
              cases hq'
              rw [heq'.1] at hq
              exact absurd ⟨hlineage, hepoch⟩ (hfree o q hq).2
          · exact h.plan hq hq' hlineage hepoch

theorem Sound.applyNew {s : Session} {operation : Uuid} {digest : Digest}
    {request : PlanRequest} {clock : Clock} {epoch : ℤ} (h : db.Sound)
    (hnew : db.applyNew s operation digest request clock = .ok (db', epoch)) : db'.Sound := by
  obtain ⟨next, -, hnew⟩ := bind_eq_ok.mp hnew
  obtain ⟨planned, hplanned, hnew⟩ := bind_eq_ok.mp hnew
  have hmoved : ({ db with epochs := db.epochs.modify s.tenant fun _ => next } : Db).Sound :=
    h.keeps (.of_eq rfl rfl rfl)
  have hsound := hmoved.insertPlan hplanned
  cases request with
  | database items =>
      obtain ⟨result, hend, hnew⟩ := bind_eq_ok.mp hnew
      cases hnew
      exact addMembers_invariant (fun h hadd => h.addSource hadd) hsound hend
  | broker items =>
      obtain ⟨result, hend, hnew⟩ := bind_eq_ok.mp hnew
      cases hnew
      exact addMembers_invariant (fun h hadd => h.addConsumer hadd) hsound hend
  | terminate operation digest =>
      cases hnew
      exact hsound

/-- A plan call changes nothing, or applies a new plan. -/
theorem applyDr_cases {s : Session} {operation : Uuid} {digest : Digest}
    {request : PlanRequest} {expected epoch : ℤ} {clock : Clock}
    (h : db.applyDr s operation digest request expected clock = .ok (db', epoch)) :
    (db' = db ∧ ∃ prior, db.plans.get? (s.tenant, operation) = some prior ∧
      prior.requestDigest = digest ∧ prior.lineage = s.lineage ∧ epoch = prior.epoch) ∨
    (db.plans.get? (s.tenant, operation) = none ∧ db.epochs.get? s.tenant = some s.epoch ∧
      s.epoch = expected ∧ db.applyNew s operation digest request clock = .ok (db', epoch)) := by
  unfold Db.applyDr at h
  split at h
  · cases h
  · split at h
    · cases h
    · next current hcurrent =>
        split at h
        · next prior hprior =>
            split at h
            · cases h
            · next hsame =>
                rw [not_or, not_not, not_not] at hsame
                cases h
                exact .inl ⟨rfl, prior, hprior, hsame.1, hsame.2, rfl⟩
        · next hnone =>
            split at h
            · cases h
            · next hfence =>
                rw [not_or, not_not, not_not] at hfence
                split at h
                · cases h
                · obtain ⟨-, -, h⟩ := bind_eq_ok.mp h
                  exact .inr ⟨hnone, by rw [hcurrent, hfence.1], hfence.1 ▸ hfence.2, h⟩

end Db

/-! ### Runs -/

theorem Step.sound {digest : Mutation → Digest} {st st' : State} {e : Event} (h : st.db.Sound)
    (hstep : Step digest st e st') : st'.db.Sound := by
  cases hstep with
  | fence storage epochs => exact h.keeps (.of_eq rfl rfl rfl)
  | prepare hrun => exact h.keeps (keeps_preparePartitions hrun)
  | append hrun =>
      rcases appendOutbox_cases hrun with rfl | ⟨hseq, hfresh, ordinal, partitions, rfl⟩
      · exact h
      · exact h.append hseq hfresh
  | claim hrun => exact h.keeps (keeps_claimOutbox hrun)
  | lease hrun => exact h.keeps (keeps_outboxLease hrun)
  | settle hrun => exact h.keeps (keeps_settleOutbox hrun)
  | plan hrun =>
      rcases Db.applyDr_cases hrun with ⟨rfl, -⟩ | ⟨-, -, -, hnew⟩
      · exact h
      · exact h.applyNew hnew
  | receive hrun => exact h.keeps (writeInbox_frame hrun).2
  | mutate tenant hrun => exact h.keeps (keeps_mutate hrun)
  | begin source tenant acquired hrun => exact h.keeps (writeInbox_frame hrun).2
  | meet source tenant held terminal => exact h
  | renew issued tenant held claim hrun => exact h.keeps (writeInbox_frame hrun).2
  | release issued tenant held claim => exact h.keeps (.of_eq rfl rfl rfl)
  | commit issued tenant seq operation hrun => exact h.keeps (keeps_commitEffect hrun)
  | finish issued tenant seq operation hrun => exact h.keeps (keeps_finishExisting hrun)

/-- A database that some run from empty tables leads to. -/
def Db.Reachable (digest : Mutation → Digest) (db : Db) : Prop :=
  ∃ storage epochs events issued,
    Runs (Step digest) (State.initial storage epochs) events ⟨db, issued⟩

theorem Db.Reachable.sound {digest : Mutation → Digest} {db : Db} (h : db.Reachable digest) :
    db.Sound := by
  obtain ⟨storage, epochs, events, issued, hrun⟩ := h
  exact hrun.invariant (I := fun _ st => st.db.Sound) (Db.Sound.initial storage epochs)
    fun _ _ _ _ _ h hstep => hstep.sound h

end Rss.Outbox
