import Rss.Verification.Outbox.Readback
import Rss.Verification.Outbox.Wakeup

/-! # Operator decisions

A dead letter is redriven before its window ends and resolved from then on, an operation is
applied once, versions only grow, and the readback of a local projection agrees with all of it
unless a source is taken where its rejected receipt does not follow. -/

namespace Rss.Outbox

open Rss.Sql
open Rss.Messaging.Inbox (Digest Row)

/-! ### What every step keeps -/

/-- Whatever was claimed once has a window. -/
def Db.Windowed (db : Db) : Prop :=
  ∀ seq src, db.sources.get? seq = some src → src.status ≠ .pending →
    src.automaticRetryDeadline.isSome

/-- Sources stay with growing versions, windows stay, and receipts of operations stay. -/
structure Db.Grows (db db' : Db) : Prop where
  source : ∀ seq src, db.sources.get? seq = some src → ∃ src', db'.sources.get? seq = some src' ∧
    src'.facts = src.facts ∧ src.recoveryVersion ≤ src'.recoveryVersion
  window : db.Windowed → db'.Windowed
  operation : ∀ k row, db.operations.get? k = some row → db'.operations.get? k = some row

namespace Db

variable {db db' : Db}

theorem Grows.of_eq (hsources : db'.sources = db.sources)
    (hoperations : db'.operations = db.operations) : db.Grows db' := by
  constructor
  case source =>
    rw [hsources]
    exact fun seq src hsrc => ⟨src, hsrc, rfl, le_rfl⟩
  case window =>
    unfold Windowed
    rw [hsources]
    exact id
  case operation =>
    rw [hoperations]
    exact fun _ _ h => h

theorem Leases.grows (h : db.Leases db') : db.Grows db' where
  source := by
    intro seq src hsrc
    obtain ⟨src', hsrc', hfacts⟩ := facts_eq_of_get h.keeps hsrc
    obtain ⟨old, hold, hleased⟩ := h.sources seq src' hsrc'
    rw [hsrc] at hold
    cases hold
    exact ⟨src', hsrc', hfacts, hleased.version.ge⟩
  window := by
    intro hwindow seq src' hsrc'
    obtain ⟨src, hsrc, hleased⟩ := h.sources seq src' hsrc'
    exact hleased.deadline (hwindow seq src hsrc)
  operation := by
    rw [h.operations]
    exact fun _ _ h => h

/-- One source is written, with its window kept and a version no smaller. -/
theorem Grows.modify {seq : ℤ} {o : Source} {f : Source → Source}
    (hsources : db'.sources = db.sources.modify seq f) (ho : db.sources.get? seq = some o)
    (hfacts : (f o).facts = o.facts) (hversion : o.recoveryVersion ≤ (f o).recoveryVersion)
    (hdeadline : (f o).automaticRetryDeadline = o.automaticRetryDeadline)
    (hstatus : o.status ≠ .pending)
    (hoperation : ∀ k row, db.operations.get? k = some row → db'.operations.get? k = some row) :
    db.Grows db' where
  source := by
    intro seq' src hsrc
    rw [hsources, Table.get?_modify]
    split
    · next heq =>
        subst heq
        obtain rfl : src = o := Option.some.inj (hsrc.symm.trans ho)
        exact ⟨f src, by rw [hsrc, Option.map_some], hfacts, hversion⟩
    · exact ⟨src, hsrc, rfl, le_rfl⟩
  window := by
    intro hwindow seq' src' hsrc' hne
    rw [hsources, Table.get?_modify] at hsrc'
    split at hsrc'
    · next heq =>
        subst heq
        rw [ho, Option.map_some, Option.some.injEq] at hsrc'
        rw [← hsrc', hdeadline]
        exact hwindow seq' o ho hstatus
    · exact hwindow seq' src' hsrc' hne
  operation := hoperation

end Db

theorem settleOutbox_grows {db db' : Db} {s : Session} {tenant : Uuid} {c : ClaimRef}
    {d : Disposition} {env env' : Env}
    (h : settleOutbox db s tenant c d env = .ok (db', .settled, env')) : db.Grows db' := by
  obtain ⟨-, hoperations, hsources⟩ := settleOutbox_sources h
  cases hop : c.operation with
  | none =>
      simp only [hop] at hsources
      obtain ⟨o, o', lease, ho, hstatus, -, hfacts, hdeadline, hversion, heq⟩ := hsources
      refine Db.Grows.modify heq ho hfacts hversion hdeadline (by simp [hstatus]) ?_
      rw [hoperations]
      exact fun _ _ h => h
  | some op =>
      simp only [hop] at hsources
      exact .of_eq hsources hoperations

/-- A transition moves a dead letter to its next version. -/
theorem mutate_grows {db db' : Db} {digest : Mutation → Digest} {s : Session} {m : Mutation}
    {clock : Clock} {receipt : Receipt} (h : db.mutate digest s m clock = .ok (db', receipt)) :
    db.Grows db' := by
  rcases mutate_cases h with ⟨rfl, -⟩ | ⟨hfresh, next, htransition, rfl⟩
  · exact .of_eq rfl rfl
  · obtain ⟨seq, src, deadline, status, hfind, hdead, -, -, -, hversion, -, -, rfl⟩ :=
      transition_cases htransition
    obtain ⟨hsrc, -, -⟩ := Db.findSource_eq_some hfind
    refine Db.Grows.modify (f := fun src => { src with
      status, recoveryVersion := receipt.version, retryAfter := clock.tick.tick.tick.now })
      rfl hsrc rfl ?_ rfl (by simp [hdead]) fun k row hrow => ?_
    · dsimp only
      rw [hversion]
      exact le_add_of_nonneg_right zero_le_one
    · dsimp only
      rw [Table.get?_insertNew, if_neg, hrow]
      rintro rfl
      rw [hfresh] at hrow
      cases hrow

theorem appendOutbox_grows {db db' : Db} {s : Session} {xid : ℕ} {seq : ℤ} {m : NewMessage}
    {now : ℤ} {reply : AppendReply} (h : appendOutbox db s xid seq m now = .ok (db', reply)) :
    db.Grows db' := by
  rcases appendOutbox_cases h with rfl | ⟨hseq, -, ordinal, partitions, rfl⟩
  · exact .of_eq rfl rfl
  · have hget (seq' : ℤ) : (db.sources.insertNew seq (newSource s m ordinal now)).get? seq' =
        if seq' = seq then some (newSource s m ordinal now) else db.sources.get? seq' := by
      rw [Table.get?_insertNew, hseq, Option.getD_none]
    constructor
    case source =>
      intro seq' src hsrc
      refine ⟨src, ?_, rfl, le_rfl⟩
      dsimp only
      rw [hget, if_neg, hsrc]
      rintro rfl
      rw [hseq] at hsrc
      cases hsrc
    case window =>
      intro hwindow seq' src hsrc hne
      dsimp only at hsrc
      rw [hget] at hsrc
      split at hsrc
      · cases hsrc
        exact absurd rfl hne
      · exact hwindow seq' src hsrc hne
    case operation => exact fun _ _ h => h

theorem Db.Grows.trans {db db' db'' : Db} (h : db.Grows db') (h' : db'.Grows db'') :
    db.Grows db'' where
  source := by
    intro seq src hsrc
    obtain ⟨src', hsrc', hfacts, hle⟩ := h.source seq src hsrc
    obtain ⟨src'', hsrc'', hfacts', hle'⟩ := h'.source seq src' hsrc'
    exact ⟨src'', hsrc'', hfacts'.trans hfacts, hle.trans hle'⟩
  window := fun hw => h'.window (h.window hw)
  operation := fun k row hrow => h'.operation k row (h.operation k row hrow)

theorem writeInbox_grows {db db' : Db} {s : Session} {message group : String} {r : Row}
    (h : db.writeInbox s message group r = .ok db') : db.Grows db' := by
  have hframe := (writeInbox_frame h).1
  exact .of_eq (by rw [hframe]) (by rw [hframe])

theorem Step.grows {digest : Mutation → Digest} {st st' : State} {e : Event}
    (h : Step digest st e st') : st.db.Grows st'.db := by
  cases h with
  | fence storage epochs => exact .of_eq rfl rfl
  | prepare hrun =>
      have hframe := preparePartitions_frame hrun
      exact .of_eq (by rw [hframe]) (by rw [hframe])
  | append hrun => exact appendOutbox_grows hrun
  | claim hrun => exact (leases_claimOutbox hrun).grows
  | lease hrun => exact (leases_outboxLease hrun).grows
  | settle hrun => exact settleOutbox_grows hrun
  | plan hrun =>
      rcases Db.applyDr_cases hrun with ⟨rfl, -⟩ | ⟨-, -, -, hnew⟩
      · exact .of_eq rfl rfl
      · have hplanned := Db.Planned.applyNew hnew
        exact .of_eq hplanned.sources hplanned.operations
  | receive hrun => exact writeInbox_grows hrun
  | mutate tenant hrun => exact mutate_grows hrun
  | begin source tenant acquired hrun => exact writeInbox_grows hrun
  | meet source tenant held terminal => exact .of_eq rfl rfl
  | renew issued tenant held claim hrun => exact writeInbox_grows hrun
  | release issued tenant held claim => exact .of_eq rfl rfl
  | commit issued tenant seq operation hrun =>
      obtain ⟨row, written, env', -, -, hwrite, hsettle⟩ := commitEffect_some hrun
      exact (writeInbox_grows hwrite).trans (settleOutbox_grows hsettle)
  | finish issued tenant seq operation hrun =>
      obtain ⟨row, receipt, env', -, -, -, -, hsettle⟩ := finishExisting_some hrun
      exact settleOutbox_grows hsettle

/-! ### Dead letters -/

/-- The mutation is accepted. -/
def Db.Accepts (digest : Mutation → Digest) (db : Db) (s : Session) (m : Mutation)
    (clock : Clock) : Prop :=
  ∃ reply, db.mutate digest s m clock = .ok reply

/-- A first request for the current version of a source. -/
structure Mutation.For (m : Mutation) (db : Db) (s : Session) (src : Source) : Prop where
  tenant : m.tenant = src.tenant
  message : m.message = src.messageId
  version : m.version = src.recoveryVersion
  fence : checkExecution db s = .ok ()
  fresh : db.operations.get? (m.tenant, m.operation) = none

section

variable {db : Db} {digest : Mutation → Digest} {s : Session} {m : Mutation} {clock : Clock}
  {seq deadline : ℤ} {src : Source}

theorem Db.Sound.findSource (hs : db.Sound) (hsrc : db.sources.get? seq = some src) :
    db.findSource src.tenant src.messageId = some (seq, src) := by
  cases hfind : db.findSource src.tenant src.messageId with
  | none => exact absurd rfl (Db.findSource_eq_none hfind hsrc rfl)
  | some row =>
      obtain ⟨hrow, ht, hm⟩ := Db.findSource_eq_some hfind
      obtain ⟨hseq, heq⟩ := hs.source_eq hrow hsrc ht hm
      exact congrArg some (Prod.ext hseq heq)

/-- A first request goes through when the target and the second look at the clock allow it. -/
theorem accepts_iff (hs : db.Sound) (hsrc : db.sources.get? seq = some src)
    (hdead : src.status = .deadLetter) (hdeadline : src.automaticRetryDeadline = some deadline)
    (hversion : src.recoveryVersion < bigintMax) (hm : m.For db s src) :
    db.Accepts digest s m clock ↔ ∃ status outcome,
      db.target m (decide (deadline ≤ clock.tick.now)) = .ok (status, outcome) ∧
        Db.windowAllows status deadline clock.tick.tick.now = true := by
  constructor
  · rintro ⟨⟨db', receipt⟩, hrun⟩
    rcases mutate_cases hrun with ⟨-, hread⟩ | ⟨-, next, htransition, -⟩
    · rw [Db.readReceipt, hm.fresh] at hread
      cases hread
    · obtain ⟨seq', src', deadline', status, hfind, -, hdeadline', -, -, -, htarget, hallows, -⟩ :=
        transition_cases htransition
      rw [hm.tenant, hm.message, hs.findSource hsrc] at hfind
      cases hfind
      rw [hdeadline] at hdeadline'
      cases hdeadline'
      exact ⟨status, receipt.outcome, htarget, hallows⟩
  · rintro ⟨status, outcome, htarget, hallows⟩
    have hnext : Db.nextVersion src m = .ok (src.recoveryVersion + 1) := by
      rw [Db.nextVersion, if_neg (not_not.mpr hm.version.symm), succ, if_pos hversion]
      rfl
    have htransition : ∃ reply, db.transition m clock = .ok reply := by
      rw [Db.transition, hm.tenant, hm.message, hs.findSource hsrc]
      simp only [hnext, ok_bind, hdead, hdeadline, ne_eq, not_true_eq_false, if_false, okOr_some,
        htarget, hallows, if_true]
      exact ⟨_, rfl⟩
    obtain ⟨⟨next, receipt⟩, htransition⟩ := htransition
    simp only [Db.Accepts, Db.mutate, hm.fence, Except.mapError, ok_bind, Db.readReceipt, hm.fresh,
      htransition]
    exact ⟨_, rfl⟩

/-- Redrive is accepted strictly before the deadline. -/
theorem accepts_redrive (hs : db.Sound) (hsrc : db.sources.get? seq = some src)
    (hdead : src.status = .deadLetter) (hdeadline : src.automaticRetryDeadline = some deadline)
    (hversion : src.recoveryVersion < bigintMax) (hm : m.For db s src)
    (haction : m.action = .redrive) :
    db.Accepts digest s m clock ↔ clock.tick.tick.now < deadline := by
  rw [accepts_iff hs hsrc hdead hdeadline hversion hm]
  have hle := Clock.le_tick clock.tick
  simp only [Db.target, haction]
  constructor
  · rintro ⟨status, outcome, htarget, hallows⟩
    split at htarget
    · cases htarget
    · cases htarget
      exact of_decide_eq_true hallows
  · intro hlt
    have hopen : ¬ deadline ≤ clock.tick.now := by omega
    exact ⟨.pending, .redriven, by simp [hopen], decide_eq_true hlt⟩

/-- A resolution is accepted from the deadline on. -/
theorem accepts_resolve (hs : db.Sound) (hsrc : db.sources.get? seq = some src)
    (hdead : src.status = .deadLetter) (hdeadline : src.automaticRetryDeadline = some deadline)
    (hversion : src.recoveryVersion < bigintMax) (hm : m.For db s src)
    (haction : m.action = .acceptedGap ∨ ∃ evidence, m.action = .compensated evidence ∧
      db.validateEvidence m evidence = .ok ()) :
    db.Accepts digest s m clock ↔ deadline ≤ clock.tick.now := by
  rw [accepts_iff hs hsrc hdead hdeadline hversion hm]
  have hle := Clock.le_tick clock.tick
  have htarget : db.target m (decide (deadline ≤ clock.tick.now)) =
      if deadline ≤ clock.tick.now then .ok (.resolved, .resolved) else .error .notExpired := by
    rcases haction with hgap | ⟨evidence, hcompensated, hvalid⟩
    · simp only [Db.target, hgap, decide_eq_true_eq]
    · simp only [Db.target, hcompensated, decide_eq_true_eq, hvalid]
      rfl
  rw [htarget]
  constructor
  · rintro ⟨status, outcome, heq, -⟩
    split at heq
    · assumption
    · cases heq
  · intro hover
    rw [if_pos hover]
    exact ⟨.resolved, .resolved, rfl, decide_eq_true (hover.trans hle)⟩

end

/-! ### Receipts of operations -/

/-- A stored operation answers its request again and refuses any other. -/
theorem mutate_again {db : Db} {digest : Mutation → Digest} {s : Session} {m : Mutation}
    {clock : Clock} {row : Operation} (hcheck : checkExecution db s = .ok ())
    (hrow : db.operations.get? (m.tenant, m.operation) = some row) :
    db.mutate digest s m clock =
      if digest m = row.requestDigest then .ok (db, ⟨m, row.outcome, row.resultVersion⟩)
      else .error .conflict := by
  simp only [Db.mutate, hcheck, Except.mapError, ok_bind, Db.readReceipt, hrow]
  by_cases hsame : digest m = row.requestDigest
  · simp only [hsame, ne_eq, not_true_eq_false, if_false, if_true]
    rfl
  · simp only [hsame, Ne.symm hsame, ne_eq, not_false_eq_true, if_false, if_true]
    rfl

theorem mutate_stores {db db' : Db} {digest : Mutation → Digest} {s : Session} {m : Mutation}
    {clock : Clock} {receipt : Receipt} (h : db.mutate digest s m clock = .ok (db', receipt)) :
    receipt.request = m ∧ ∃ row, db'.operations.get? (m.tenant, m.operation) = some row ∧
      row.requestDigest = digest m ∧ row.outcome = receipt.outcome ∧
        row.resultVersion = receipt.version := by
  rcases mutate_cases h with ⟨rfl, hread⟩ | ⟨hfresh, next, htransition, rfl⟩
  · unfold Db.readReceipt at hread
    split at hread
    · cases hread
    · next row hrow =>
        split at hread
        · cases hread
        · next hsame =>
            cases hread
            exact ⟨rfl, row, hrow, not_not.mp hsame, rfl, rfl⟩
  · obtain ⟨seq, src, deadline, status, -, -, -, -, hrequest, -, -, -, rfl⟩ :=
      transition_cases htransition
    refine ⟨hrequest, ⟨digest m, m.message, receipt.outcome, receipt.version⟩, ?_, rfl, rfl, rfl⟩
    dsimp only
    rw [Table.get?_insertNew_self, hfresh, Option.getD_none]

/-! ### Runs -/

/-- The step takes no source where a rejected receipt of its message does not follow: no
resolution and no other success ends it, and no rejection through a member comes upon an
ordinary attempt. Receipts are written by the projection only. -/
def State.Clear (st : State) : Event → Prop
  | .received _ _ _ => False
  | .mutated m _ => m.action = .redrive ∨
      (st.db.operations.get? (m.tenant, m.operation)).isSome ∨
      ¬ st.db.Rejected m.tenant m.message
  | .settled _ c d => d = .published → c.operation = none → ∀ src,
      st.db.sources.get? c.seq = some src → ¬ st.db.Rejected src.tenant src.messageId
  | .met r => r.operation = none → ∀ receipt kind,
      st.db.terminal r.tenant r.message r.group = some receipt →
        receipt.disposition = .rejected kind →
          (st.db.sources.get? r.seq).all fun src => src.status ≠ .published
  | .committed r d =>
      (d = .succeeded → r.operation = none → ¬ st.db.Rejected r.tenant r.message) ∧
      ∀ kind, d = .rejected kind → r.operation ≠ none → ∀ r' ∈ st.issued, r'.operation = none →
        r'.tenant = r.tenant → r'.message = r.message → r'.group ≠ r.group
  | _ => True

def ClearStep (digest : Mutation → Digest) (st : State) (e : Event) (st' : State) : Prop :=
  Step digest st e st' ∧ st.Clear e

theorem Readable.step {digest : Mutation → Digest} {st st' : State} {e : Event} (h : Readable st)
    (hstep : Step digest st e st') (hclear : st.Clear e) : Readable st' := by
  have hcontract {s : Session} {r : Recovery} {row : Row} (hr : r ∈ st.issued)
      (ht : r.tenant = s.tenant)
      (hrow : st.db.inbox.get? (s.tenant, r.message, r.group) = some row) :
      ∃ src, st.db.sources.get? r.seq = some src ∧ src.tenant = s.tenant ∧
        src.messageId = r.message ∧ src.contract = row.contract := by
    obtain ⟨src, hsrc, hsrc_t, hsrc_m, -⟩ := h.issued r hr
    obtain ⟨seq, src', hsrc', ht', hm', hc, -⟩ := h.inbox s.tenant r.message r.group row hrow
    obtain ⟨rfl, rfl⟩ := h.sound.source_eq hsrc hsrc' ((hsrc_t.trans ht).trans ht'.symm)
      (hsrc_m.trans hm'.symm)
    exact ⟨src, hsrc, ht', hm', hc⟩
  cases hstep with
  | fence storage epochs => exact h.write (.of_eq rfl rfl rfl) rfl fun _ _ _ _ hrow => .inl hrow
  | prepare hrun =>
      have hframe := preparePartitions_frame hrun
      refine h.write (keeps_preparePartitions hrun) (by rw [hframe]) fun _ _ _ _ hrow => .inl ?_
      rw [hframe] at hrow
      exact hrow
  | append hrun => exact h.append hrun
  | claim hrun => exact h.moves (leases_claimOutbox hrun).moves
  | lease hrun => exact h.moves (leases_outboxLease hrun).moves
  | settle hrun => exact h.moves (settleOutbox_moves hrun hclear)
  | plan hrun => exact h.plan hrun
  | receive hrun => exact absurd hclear id
  | mutate tenant hrun => exact h.moves (mutate_moves hrun hclear)
  | @begin s c src group ttl token now row db hsrc tenant acquired hrun =>
      have hnone : row.receipt = none ∧ src.contract = row.contract := by
        unfold Db.acquire at acquired
        split at acquired
        · cases acquired
          exact ⟨rfl, rfl⟩
        · split at acquired
          · next hclaimable =>
              obtain ⟨count, -, hrow⟩ := Option.map_eq_some_iff.mp acquired
              subst hrow
              exact ⟨hclaimable.1, hclaimable.2.2.symm⟩
          · cases acquired
      have hwritten := h.writeInbox hrun hnone.1 hsrc tenant rfl hnone.2
      have hsame := (writeInbox_frame hrun).1
      refine hwritten.issue (by rw [hsame]; exact hsrc) fun hop receipt kind hterminal hd => ?_
      -- The row was just written without a receipt.
      obtain ⟨row', hrow', hsome⟩ := Option.bind_eq_some_iff.mp hterminal
      rw [hsame, tenant] at hrow'
      dsimp only at hrow'
      rw [Table.get?_upsert_const, if_pos rfl, Option.some.injEq] at hrow'
      rw [← hrow', hnone.1] at hsome
      cases hsome
  | meet hsrc tenant held terminal =>
      refine h.issue hsrc fun hop receipt kind hterminal hd hstatus => ?_
      have hall := hclear hop receipt kind hterminal hd
      simp only [recoveryOf, hsrc, Option.all_some, hstatus] at hall
      exact absurd rfl (of_decide_eq_true hall)
  | renew issued tenant held claim hrun =>
      obtain ⟨src, hsrc, ht, hm, hc⟩ := hcontract issued tenant held
      exact h.writeInbox hrun claim.2.1 hsrc ht hm hc
  | release issued tenant held claim =>
      refine h.write (.of_eq rfl rfl rfl) rfl fun t m g row' hrow' => .inl ?_
      dsimp only at hrow'
      rw [Table.get?_delete] at hrow'
      split at hrow'
      · cases hrow'
      · exact hrow'
  | commit issued tenant seq operation hrun =>
      exact h.commit issued tenant seq operation hrun hclear.1 hclear.2
  | finish issued tenant seq operation hrun => exact h.finish issued tenant seq hrun

/-- Operator decisions and the readback, after a run with the given events from the given store. -/
structure Recoverable (digest : Mutation → Digest) (st₀ : State) (events : List Event)
    (st : State) : Prop where
  /-- At every instant a dead letter admits a redrive or a resolution, and not both. -/
  decides : ∀ seq src, st.db.sources.get? seq = some src → src.status = .deadLetter →
    src.recoveryVersion < bigintMax → ∃ deadline, src.automaticRetryDeadline = some deadline ∧
      ∀ s m clock, m.For st.db s src →
        (m.action = .redrive →
          (st.db.Accepts digest s m clock ↔ clock.tick.tick.now < deadline)) ∧
        (m.action = .acceptedGap ∨ (∃ evidence, m.action = .compensated evidence ∧
            st.db.validateEvidence m evidence = .ok ()) →
          (st.db.Accepts digest s m clock ↔ deadline ≤ clock.tick.now))
  /-- A request is answered once; later ones change nothing. -/
  once : ∀ m receipt, .mutated m receipt ∈ events → receipt.request = m ∧ ∀ s m' clock,
    m'.tenant = m.tenant → m'.operation = m.operation → checkExecution st.db s = .ok () →
      st.db.mutate digest s m' clock = if digest m' = digest m then
        .ok (st.db, ⟨m', receipt.outcome, receipt.version⟩) else .error .conflict
  /-- Versions never fall, and rise with every operation that is applied. -/
  versions : ∀ e st', Step digest st e st' →
    (∀ seq src src', st.db.sources.get? seq = some src → st'.db.sources.get? seq = some src' →
      src.recoveryVersion ≤ src'.recoveryVersion) ∧
    ∀ m receipt, e = .mutated m receipt →
      st.db.operations.get? (m.tenant, m.operation) = none → ∃ seq src src',
        st.db.sources.get? seq = some src ∧ st'.db.sources.get? seq = some src' ∧
          src.tenant = m.tenant ∧ src.messageId = m.message ∧
          receipt.version = src'.recoveryVersion ∧ src.recoveryVersion < src'.recoveryVersion
  /-- The readback is the receipt when both sides are durable, as long as every step is clear. -/
  readback : Runs (ClearStep digest) st₀ events st →
    ∀ r ∈ st.issued, st.db.resolve r = .ok (st.db.durable r)

theorem versions_step {digest : Mutation → Digest} {st st' : State} {e : Event}
    (hstep : Step digest st e st') :
    (∀ seq src src', st.db.sources.get? seq = some src → st'.db.sources.get? seq = some src' →
      src.recoveryVersion ≤ src'.recoveryVersion) ∧
    ∀ m receipt, e = .mutated m receipt →
      st.db.operations.get? (m.tenant, m.operation) = none → ∃ seq src src',
        st.db.sources.get? seq = some src ∧ st'.db.sources.get? seq = some src' ∧
          src.tenant = m.tenant ∧ src.messageId = m.message ∧
          receipt.version = src'.recoveryVersion ∧ src.recoveryVersion < src'.recoveryVersion := by
  constructor
  · intro seq src src' hsrc hsrc'
    obtain ⟨next, hnext, -, hle⟩ := hstep.grows.source seq src hsrc
    rw [hsrc'] at hnext
    cases hnext
    exact hle
  · rintro m receipt rfl hfresh
    cases hstep with
    | @mutate s _ clock db _ tenant hrun =>
        rcases mutate_cases hrun with ⟨-, hread⟩ | ⟨-, next, htransition, rfl⟩
        · rw [Db.readReceipt, hfresh] at hread
          cases hread
        · obtain ⟨seq, src, deadline, status, hfind, -, -, -, -, hversion, -, -, rfl⟩ :=
            transition_cases htransition
          obtain ⟨hsrc, ht, hm⟩ := Db.findSource_eq_some hfind
          refine ⟨seq, src, { src with
            status, recoveryVersion := receipt.version, retryAfter := clock.tick.tick.tick.now },
            hsrc, ?_, ht, hm, rfl, ?_⟩
          · dsimp only
            rw [Table.get?_modify_self, hsrc, Option.map_some]
          · dsimp only
            omega

/-- What an operation left is found in every later state. -/
theorem stored_of_mem {digest : Mutation → Digest} {st₀ st : State} {events : List Event}
    (hrun : Runs (Step digest) st₀ events st) {m : Mutation} {receipt : Receipt}
    (hmem : .mutated m receipt ∈ events) :
    receipt.request = m ∧ ∃ row, st.db.operations.get? (m.tenant, m.operation) = some row ∧
      row.requestDigest = digest m ∧ row.outcome = receipt.outcome ∧
        row.resultVersion = receipt.version := by
  induction hrun with
  | nil => cases hmem
  | snoc hrun hstep ih =>
      rcases List.mem_append.mp hmem with hold | hnew
      · obtain ⟨hrequest, row, hrow, hrest⟩ := ih hold
        exact ⟨hrequest, row, hstep.grows.operation _ row hrow, hrest⟩
      · rw [List.mem_singleton] at hnew
        subst hnew
        cases hstep with
        | mutate tenant hrun' => exact mutate_stores hrun'

section

variable {digest : Mutation → Digest} {storage : Option Messaging.Storage} {epochs : Table Uuid ℤ}
  {st : State} {events : List Event}

theorem windowed_run (hrun : Runs (Step digest) (.initial storage epochs) events st) :
    st.db.Windowed :=
  hrun.invariant (I := fun _ st => st.db.Windowed)
    (by intro seq src hsrc; simp [State.initial, Db.initial] at hsrc)
    fun _ _ _ _ _ h hstep => hstep.grows.window h

theorem readable_run (hrun : Runs (ClearStep digest) (.initial storage epochs) events st) :
    Readable st :=
  hrun.invariant (I := fun _ st => Readable st) (Readable.initial storage epochs)
    fun _ _ _ _ _ h hstep => h.step hstep.1 hstep.2

/-- In every run the decisions on dead letters, the receipts of operations and the versions are as
the operators rely on, and so is the readback in every run whose steps are clear. -/
theorem recovery_decisions (hsteps : Runs (Step digest) (.initial storage epochs) events st) :
    Recoverable digest (.initial storage epochs) events st := by
  have hsound : st.db.Sound := Db.Reachable.sound ⟨storage, epochs, events, st.issued, hsteps⟩
  constructor
  case decides =>
    intro seq src hsrc hdead hversion
    have hsome := windowed_run hsteps seq src hsrc (by rw [hdead]; nofun)
    obtain ⟨deadline, hdeadline⟩ := Option.isSome_iff_exists.mp hsome
    refine ⟨deadline, hdeadline, fun s m clock hm => ⟨?_, ?_⟩⟩
    · exact accepts_redrive hsound hsrc hdead hdeadline hversion hm
    · exact accepts_resolve hsound hsrc hdead hdeadline hversion hm
  case once =>
    intro m receipt hmem
    obtain ⟨hrequest, row, hrow, hdigest, houtcome, hversion⟩ := stored_of_mem hsteps hmem
    refine ⟨hrequest, fun s m' clock ht ho hcheck => ?_⟩
    rw [mutate_again hcheck (by rw [ht, ho, hrow]), hdigest, houtcome, hversion]
  case versions => exact fun e st' hstep => versions_step hstep
  case readback => exact fun hclear r hr => (readable_run hclear).resolve hr

end

/-! ### A resolved rejection -/

/-- No receipt is written but by the projection. -/
def Event.Local : Event → Prop
  | .received _ _ _ => False
  | _ => True

/-- The effect of a projection on a fresh message is rejected. -/
def rejectedOrder : Outcome (Db × Recovery) := do
  let a ← appendOutbox (.initial (some ⟨1, 1⟩) (Table.empty.insertNew 1 1)) (relay 1) 1 1
    (order "a") 0
  let claimed ← sortedOutbox a.1 (relay 1) "orders" 1 1000 (pausing 0 0 0)
  let c : ClaimRef := ⟨1, 1, 1000000, none⟩
  let src ← okOr (claimed.db.sources.get? c.seq) .checkViolation
  if src.tenant = 1 then do
    let r := recoveryOf src c "projection"
    let row ← okOr (claimed.db.acquire (relay 1) r 1000 9 0) .checkViolation
    let begun ← claimed.db.writeInbox (relay 1) src.messageId "projection" row
    let done ← begun.commitEffect (relay 1) r ⟨9, (relay 1).binding⟩ c (.rejected .permanent)
      (pausing 0 0 0)
    let db ← okOr done .checkViolation
    .ok (db, r)
  else .error .checkViolation

theorem run_rejectedOrder {db : Db} {r : Recovery} (h : rejectedOrder = .ok (db, r)) :
    ∃ events, Runs (ClearStep fun _ => 0)
      (.initial (some ⟨1, 1⟩) (Table.empty.insertNew 1 1)) events ⟨db, [r]⟩ := by
  obtain ⟨a, ha, h⟩ := bind_eq_ok.mp h
  obtain ⟨claimed, hclaimed, h⟩ := bind_eq_ok.mp h
  obtain ⟨src, hsrc, h⟩ := bind_eq_ok.mp h
  split at h
  · next ht =>
      obtain ⟨row, hrow, h⟩ := bind_eq_ok.mp h
      obtain ⟨begun, hbegun, h⟩ := bind_eq_ok.mp h
      obtain ⟨done, hdone, h⟩ := bind_eq_ok.mp h
      obtain ⟨result, hend, h⟩ := bind_eq_ok.mp h
      cases h
      rw [okOr_eq_ok] at hsrc hrow hend
      subst hend
      have hstart : Runs (ClearStep fun _ => 0)
        (.initial (some ⟨1, 1⟩) (Table.empty.insertNew 1 1)) []
        (.initial (some ⟨1, 1⟩) (Table.empty.insertNew 1 1)) := .nil
      have happended := hstart.snoc ⟨.append ha, trivial⟩
      have hsound : a.1.Sound := by
        rcases appendOutbox_cases ha with heq | ⟨hseq, hfresh, ordinal, partitions, heq⟩
        · rw [heq]
          exact Db.Sound.initial _ _
        · rw [heq]
          exact (Db.Sound.initial _ _).append hseq hfresh
      have hheld := happended.snoc ⟨.claim (claimOutbox_of_sorted hsound hclaimed), trivial⟩
      have hstarted := hheld.snoc ⟨.begin hsrc ht hrow hbegun, trivial⟩
      have hfirst : (.rejected .permanent : TerminalDisposition) ≠ .succeeded := nofun
      exact ⟨_, hstarted.snoc ⟨.commit (s := relay 1) (List.mem_singleton_self _) ht rfl rfl hdone,
        fun hd => absurd hd hfirst, fun _ _ hop => absurd rfl hop⟩⟩
  · cases h

def request (action : Action) : Mutation := ⟨1, 3, "a", 2, action⟩

/-- What the readback says after an operator accepted the gap. -/
def readResolved : Outcome (Except Db.ResolveError (Option TerminalDisposition)) := do
  let (db, r) ← rejectedOrder
  let (db, _) ← (db.mutate (fun _ => 0) (relay 1) (request .acceptedGap)
    ⟨automaticWindow, fun _ => 0⟩).mapError fun _ => .checkViolation
  .ok (db.resolve r)

/-- After the resolution of a rejected message its readback is an invariant error. -/
theorem resolution_breaks_readback : ¬ ∀ storage epochs events st,
    Runs (Step fun _ => 0) (.initial storage epochs) events st → (∀ e ∈ events, e.Local) →
      ∀ r ∈ st.issued, st.db.resolve r = .ok (st.db.durable r) := by
  intro hall
  have hread : readResolved = .ok (.error .invariant) := by decide +kernel
  obtain ⟨⟨db, r⟩, hrejected, hread⟩ := bind_eq_ok.mp hread
  obtain ⟨⟨db', receipt⟩, hmutate, hread⟩ := bind_eq_ok.mp hread
  obtain ⟨events, hrun⟩ := run_rejectedOrder hrejected
  have hlocal : ∀ e ∈ events, e.Local := by
    refine hrun.forall_labels fun s e s' hstep => ?_
    cases e with
    | received => exact absurd hstep.2 id
    | _ => trivial
  have hlast := (hrun.mono fun _ _ _ hstep => hstep.1).snoc
    (.mutate (s := relay 1) rfl (mapError_eq_ok.mp hmutate))
  have hall_local : ∀ e ∈ events ++ [.mutated (request .acceptedGap) receipt], e.Local := by
    intro e he
    rcases List.mem_append.mp he with he | he
    · exact hlocal e he
    · rw [List.mem_singleton] at he
      subst he
      trivial
  have hok := hall _ _ _ _ hlast hall_local r (List.mem_singleton_self _)
  rw [Except.ok.inj hread] at hok
  cases hok

/-- Before the resolution the readback finds the rejection. -/
theorem rejectedOrder_recoverable : ∃ db r, rejectedOrder = .ok (db, r) ∧
    db.resolve r = .ok (db.durable r) ∧ db.durable r = some (.rejected .permanent) := by
  have hread : (rejectedOrder >>= fun x => (.ok (x.1.resolve x.2) : Outcome _)) =
      .ok (.ok (some (.rejected .permanent))) := by decide +kernel
  obtain ⟨⟨db, r⟩, hrejected, hread⟩ := bind_eq_ok.mp hread
  obtain ⟨events, hrun⟩ := run_rejectedOrder hrejected
  have hresolved := (recovery_decisions (hrun.mono fun _ _ _ hstep => hstep.1)).readback hrun r
    (List.mem_singleton_self r)
  have hread := Except.ok.inj hread
  exact ⟨db, r, hrejected, hresolved, Except.ok.inj (hresolved.symm.trans hread)⟩

end Rss.Outbox
