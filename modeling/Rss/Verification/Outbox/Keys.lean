import Rss.Model.Outbox.Projection
import Rss.Library.Runs

/-! # What the rows of the outbox keep

Every operation leaves the facts of a row as they were inserted, and the members of one plan
stay distinct rows of the tenant that owns their sources. -/

namespace Rss.Outbox

open Rss.Sql
open Rss.Messaging.Inbox (Digest)

/-! ### Facts -/

/-- The columns of a source that no update names. -/
def Source.facts (src : Source) :
    Uuid × String × String × Option (String × ℤ) × String × Option String × Digest :=
  (src.tenant, src.messageId, src.domain, src.partition, src.contract, src.causation,
    src.fingerprint)

/-- The columns of a member that no update names. -/
def Member.facts (m : Member) : String × String × Option String × Digest × Option ℤ :=
  (m.messageId, m.consumerGroup, m.contract, m.fingerprint, m.outboxSeq)

@[simp] theorem facts_rebind (old next : Source) (s : Session) :
    (old.rebind next s).facts = next.facts := by
  unfold Source.rebind
  split <;> rfl

@[simp] theorem facts_claim (src : Source) (s : Session) (lease : Lease) (n : ℤ) :
    (src.claim s lease n).facts = src.facts := by
  rw [Source.claim, facts_rebind]
  rfl

theorem facts_settle {o o' : Source} {s : Session} {d : Disposition} {n : ℤ}
    (h : o.settle s d n = .ok o') : o'.facts = o.facts := by
  cases d with
  | published =>
      cases h
      exact facts_rebind _ _ _
  | retry =>
      obtain ⟨count, -, h⟩ := bind_eq_ok.mp h
      cases h
      exact facts_rebind _ _ _
  | deadLetter =>
      obtain ⟨version, -, h⟩ := bind_eq_ok.mp h
      cases h
      exact facts_rebind _ _ _

/-- The same plans, and the same members and sources up to the columns that updates name. -/
structure Db.Keeps (db db' : Db) : Prop where
  plans : db'.plans = db.plans
  members : ∀ k, (db'.members.get? k).map Member.facts = (db.members.get? k).map Member.facts
  sources : ∀ seq, (db'.sources.get? seq).map Source.facts = (db.sources.get? seq).map Source.facts

namespace Db

variable {db db' db'' : Db}

theorem Keeps.refl (db : Db) : db.Keeps db := ⟨rfl, fun _ => rfl, fun _ => rfl⟩

theorem Keeps.symm (h : db.Keeps db') : db'.Keeps db :=
  ⟨h.plans.symm, fun k => (h.members k).symm, fun seq => (h.sources seq).symm⟩

theorem Keeps.trans (h : db.Keeps db') (h' : db'.Keeps db'') : db.Keeps db'' :=
  ⟨h'.plans.trans h.plans, fun k => (h'.members k).trans (h.members k),
    fun seq => (h'.sources seq).trans (h.sources seq)⟩

/-- A row of the later state, as it was before. -/
theorem Keeps.member (h : db.Keeps db') {k : MemberKey} {m' : Member}
    (hm : db'.members.get? k = some m') :
    ∃ m, db.members.get? k = some m ∧ m'.facts = m.facts := by
  have heq := h.members k
  rw [hm, Option.map_some, eq_comm, Option.map_eq_some_iff] at heq
  obtain ⟨m, hget, hfacts⟩ := heq
  exact ⟨m, hget, hfacts.symm⟩

theorem Keeps.source (h : db.Keeps db') {seq : ℤ} {src' : Source}
    (hs : db'.sources.get? seq = some src') :
    ∃ src, db.sources.get? seq = some src ∧ src'.facts = src.facts := by
  have heq := h.sources seq
  rw [hs, Option.map_some, eq_comm, Option.map_eq_some_iff] at heq
  obtain ⟨src, hget, hfacts⟩ := heq
  exact ⟨src, hget, hfacts.symm⟩

theorem keeps_updateMembers (db : Db) (tenant operation : Uuid) (seq : ℤ) {f : Member → Member}
    (hf : ∀ m, (f m).facts = m.facts) :
    db.Keeps (db.updateMembers tenant operation seq f) := by
  refine ⟨rfl, ?_, fun _ => rfl⟩
  intro k
  rw [updateMembers, Table.get?_update]
  cases hm : db.members.get? k with
  | none => rfl
  | some m =>
      simp only [Option.map_some]
      split
      · rw [hf m]
      · rfl

theorem keeps_modifyMember (db : Db) (k : MemberKey) {f : Member → Member}
    (hf : ∀ m, (f m).facts = m.facts) :
    db.Keeps { db with members := db.members.modify k f } := by
  refine ⟨rfl, ?_, fun _ => rfl⟩
  intro k'
  change ((db.members.modify k f).get? k').map Member.facts = _
  rw [Table.get?_modify]
  split
  · rw [Option.map_map]
    congr 1
    funext m
    exact hf m
  · rfl

theorem keeps_modifySource (db : Db) (seq : ℤ) {f : Source → Source}
    (hf : ∀ src, db.sources.get? seq = some src → (f src).facts = src.facts) :
    db.Keeps { db with sources := db.sources.modify seq f } := by
  refine ⟨rfl, fun _ => rfl, ?_⟩
  intro seq'
  change ((db.sources.modify seq f).get? seq').map Source.facts = _
  rw [Table.get?_modify]
  split
  · next hseq =>
      subst hseq
      cases hsrc : db.sources.get? seq' with
      | none => rfl
      | some src =>
          simp only [Option.map_some]
          rw [hf src hsrc]
  · rfl

/-- Tables that hold neither sources, plans nor members do not matter. -/
theorem Keeps.of_eq (hp : db'.plans = db.plans) (hm : db'.members = db.members)
    (hs : db'.sources = db.sources) : db.Keeps db' :=
  ⟨hp, fun _ => by rw [hm], fun _ => by rw [hs]⟩

end Db

/-! ### Operations -/

theorem keeps_claimRow (s : Session) (ttl : ℤ) (st : Claiming) (r : Candidate) :
    st.db.Keeps (claimRow s ttl st r).db := by
  cases hsrc : st.db.sources.get? r.seq with
  | none =>
      simp only [claimRow, hsrc]
      exact .refl _
  | some o =>
      cases hop : r.operation with
      | none =>
          simp only [claimRow, hsrc, hop]
          split
          · exact Db.keeps_modifySource _ _ fun _ _ => facts_claim _ _ _ _
          · exact .refl _
      | some op =>
          cases hm : st.db.findMember s.tenant op r.seq with
          | none =>
              simp only [claimRow, hsrc, hop, hm]
              exact .refl _
          | some m =>
              simp only [claimRow, hsrc, hop, hm]
              split
              · split
                · exact Db.keeps_updateMembers _ _ _ _ fun _ => rfl
                · exact Db.keeps_updateMembers _ _ _ _ fun _ => rfl
              · exact .refl _

theorem keeps_claimRows (s : Session) (ttl : ℤ) (st : Claiming) (rows : List Candidate) :
    st.db.Keeps (rows.foldl (claimRow s ttl) st).db := by
  induction rows generalizing st with
  | nil => exact .refl _
  | cons r rows ih => exact (keeps_claimRow s ttl st r).trans (ih _)

theorem keeps_claimLoop {s : Session} {domain : String} {limit fuel : ℕ} {ttl : ℤ}
    {st result : Claiming} (h : claimLoop s domain limit ttl fuel st = some result) :
    st.db.Keeps result.db := by
  induction fuel generalizing st with
  | zero => cases h
  | succ fuel ih =>
      have hpage : st.db.Keeps (claimPage s domain limit ttl st).2.db :=
        keeps_claimRows s ttl { st with env := (dueRows _ st.env).2 } _
      rw [claimLoop] at h
      dsimp only at h
      split at h
      · cases h
        exact hpage
      · exact hpage.trans (ih h)

theorem keeps_claimOutbox {db : Db} {s : Session} {tenant : Uuid} {domain : String}
    {limit ttl : ℤ} {env : Env} {fuel : ℕ} {result : Claiming}
    (h : claimOutbox db s tenant domain limit ttl env fuel = .ok (some result)) :
    db.Keeps result.db := by
  obtain ⟨-, -, h⟩ := bind_eq_ok.mp h
  split at h
  · cases h
  · have hloop : claimLoop s domain limit.toNat ttl fuel ⟨db, env, []⟩ = some result := by
      injection h
    exact keeps_claimLoop hloop

theorem keeps_outboxLease {db db' : Db} {s : Session} {tenant : Uuid} {c : ClaimRef}
    {extendMs : ℤ} {env env' : Env} {reply : Option LeaseReply}
    (h : outboxLease db s tenant c extendMs env = .ok (db', reply, env')) : db.Keeps db' := by
  obtain ⟨-, -, h⟩ := bind_eq_ok.mp h
  dsimp only at h
  split at h
  · cases h
    exact .refl _
  · split at h
    · cases h
      exact .refl _
    · split at h
      · cases h
        exact .refl _
      · cases h
        split
        · exact Db.keeps_modifySource _ _ fun _ _ => rfl
        · exact Db.keeps_updateMembers _ _ _ _ fun _ => rfl

/-- The found row of a member is one of the table with the keys asked for. -/
theorem Db.findMember_eq_some {db : Db} {tenant operation : Uuid} {seq : ℤ}
    {row : MemberKey × Member} (h : db.findMember tenant operation seq = some row) :
    db.members.get? row.1 = some row.2 ∧ row.1.tenant = tenant ∧ row.1.operation = operation ∧
      row.2.outboxSeq = some seq := by
  have hmem := List.mem_of_find?_eq_some h
  have hkey := List.find?_some h
  simp only [Bool.and_eq_true, decide_eq_true_eq] at hkey
  exact ⟨Table.mem_rows.mp hmem, hkey.1.1, hkey.1.2, hkey.2⟩

theorem Db.findSource_eq_some {db : Db} {tenant : Uuid} {message : String} {row : ℤ × Source}
    (h : db.findSource tenant message = some row) :
    db.sources.get? row.1 = some row.2 ∧ row.2.tenant = tenant ∧ row.2.messageId = message := by
  have hmem := List.mem_of_find?_eq_some h
  have hkey := List.find?_some h
  simp only [Bool.and_eq_true, decide_eq_true_eq] at hkey
  exact ⟨Table.mem_rows.mp hmem, hkey.1, hkey.2⟩

theorem Db.findSource_eq_none {db : Db} {tenant : Uuid} {message : String}
    (h : db.findSource tenant message = none) {seq : ℤ} {src : Source}
    (hsrc : db.sources.get? seq = some src) (ht : src.tenant = tenant) :
    src.messageId ≠ message := by
  intro hm
  have hrow := List.find?_eq_none.mp h (seq, src) (Table.mem_rows.mpr hsrc)
  simp [ht, hm] at hrow

theorem Db.heldBy_eq_some {db : Db} {s : Session} {c : ClaimRef} {n : ℤ} {o : Source}
    {lease : Lease} (h : db.heldBy s c n = some (o, lease)) :
    db.sources.get? c.seq = some o ∧ o.tenant = s.tenant ∧ db.claimedLease s c o = some lease ∧
      n < lease.until' ∧ lease.until' = c.leaseUs := by
  unfold Db.heldBy at h
  split at h
  · cases h
  · next o' hsrc =>
      obtain ⟨lease', hlease, heq⟩ := Option.map_eq_some_iff.mp h
      obtain ⟨rfl, rfl⟩ := Prod.mk.inj heq
      obtain ⟨hclaimed, hrest⟩ := Option.filter_eq_some_iff.mp hlease
      obtain ⟨hget, htenant⟩ := Option.filter_eq_some_iff.mp hsrc
      simp only [Bool.and_eq_true, decide_eq_true_eq] at hrest htenant
      exact ⟨hget, htenant, hclaimed, hrest.1, hrest.2⟩

/-- Without an extension a lease call only looks. -/
theorem outboxLease_zero {db db' : Db} {s : Session} {tenant : Uuid} {c : ClaimRef}
    {env env' : Env} {reply : LeaseReply}
    (h : outboxLease db s tenant c 0 env = .ok (db', some reply, env')) :
    tenant = s.tenant ∧ ∃ o lease, db.heldBy s c env'.now = some (o, lease) ∧
      reply = leaseReply o lease.until' env'.now := by
  obtain ⟨-, -, h⟩ := bind_eq_ok.mp h
  dsimp only at h
  split at h
  · cases h
  · next hscope =>
      split at h
      · cases h
      · next o lease hheld =>
          rw [if_pos rfl] at h
          cases h
          exact ⟨by_contra fun hne => hscope (.inl hne), o, lease, hheld, rfl⟩

/-- A settlement is accepted for a claim that is still held, and writes one row. -/
theorem settleOutbox_settled {db db' : Db} {s : Session} {tenant : Uuid} {c : ClaimRef}
    {d : Disposition} {env env' : Env}
    (h : settleOutbox db s tenant c d env = .ok (db', .settled, env')) :
    ∃ o lease n, db.heldBy s c n = some (o, lease) ∧
      match c.operation with
      | none => ∃ o', o.settle s d env'.now = .ok o' ∧
          db' = { db with sources := db.sources.modify c.seq fun _ => o' }
      | some op => ∃ m m', db.findMember s.tenant op c.seq = some m ∧
          m.2.settle d (leaseReply o lease.until' n).deliveryUs env'.now = .ok m' ∧
          db' = db.updateMembers s.tenant op c.seq fun m => m.become m' := by
  obtain ⟨⟨db₁, reply, env₁⟩, hlease, h⟩ := bind_eq_ok.mp h
  cases reply with
  | none => cases h
  | some reply =>
      obtain ⟨-, o, lease, hheld, rfl⟩ := outboxLease_zero hlease
      obtain ⟨hsrc, -, hclaimed, -, -⟩ := Db.heldBy_eq_some hheld
      refine ⟨o, lease, env₁.now, hheld, ?_⟩
      cases hop : c.operation with
      | none =>
          simp only [hop, hsrc] at h
          obtain ⟨o', ho', h⟩ := bind_eq_ok.mp h
          cases h
          exact ⟨o', ho', rfl⟩
      | some op =>
          unfold Db.claimedLease at hclaimed
          simp only [hop] at hclaimed
          split at hclaimed
          · cases hclaimed
          · next m hm =>
              simp only [hop, hm] at h
              obtain ⟨m', hm', h⟩ := bind_eq_ok.mp h
              cases h
              exact ⟨m, m', hm, hm', rfl⟩

theorem settleOutbox_lost {db db' : Db} {s : Session} {tenant : Uuid} {c : ClaimRef}
    {d : Disposition} {env env' : Env}
    (h : settleOutbox db s tenant c d env = .ok (db', .lostLease, env')) : db' = db := by
  obtain ⟨⟨db₁, reply, env₁⟩, -, h⟩ := bind_eq_ok.mp h
  cases reply with
  | none =>
      cases h
      rfl
  | some reply =>
      cases hop : c.operation with
      | none =>
          cases hsrc : db.sources.get? c.seq with
          | none =>
              simp only [hop, hsrc] at h
              cases h
          | some o =>
              simp only [hop, hsrc] at h
              obtain ⟨o', -, h⟩ := bind_eq_ok.mp h
              cases h
      | some op =>
          cases hm : db.findMember s.tenant op c.seq with
          | none =>
              simp only [hop, hm] at h
              cases h
          | some m =>
              simp only [hop, hm] at h
              obtain ⟨m', -, h⟩ := bind_eq_ok.mp h
              cases h

theorem keeps_settleOutbox {db db' : Db} {s : Session} {tenant : Uuid} {c : ClaimRef}
    {d : Disposition} {env env' : Env} {reply : SettleReply}
    (h : settleOutbox db s tenant c d env = .ok (db', reply, env')) : db.Keeps db' := by
  cases reply with
  | lostLease =>
      rw [settleOutbox_lost h]
      exact .refl _
  | settled =>
      obtain ⟨o, lease, n, hheld, hwrite⟩ := settleOutbox_settled h
      cases hop : c.operation with
      | none =>
          simp only [hop] at hwrite
          obtain ⟨o', ho', rfl⟩ := hwrite
          refine Db.keeps_modifySource _ _ fun src hsrc => ?_
          rw [(Db.heldBy_eq_some hheld).1] at hsrc
          cases hsrc
          exact facts_settle ho'
      | some op =>
          simp only [hop] at hwrite
          obtain ⟨m, m', -, -, rfl⟩ := hwrite
          exact Db.keeps_updateMembers _ _ _ _ fun _ => rfl

theorem preparePartitions_frame {db db' : Db} {s : Session} {xid : ℕ}
    {pairs : List (String × String)} (h : preparePartitions db s xid pairs = .ok db') :
    db' = { db with partitions := db'.partitions } := by
  obtain ⟨-, -, h⟩ := bind_eq_ok.mp h
  split at h
  · cases h
    rfl
  · split at h
    · cases h
    · cases h
      rfl

theorem keeps_preparePartitions {db db' : Db} {s : Session} {xid : ℕ}
    {pairs : List (String × String)} (h : preparePartitions db s xid pairs = .ok db') :
    db.Keeps db' := by
  rw [preparePartitions_frame h]
  exact .of_eq rfl rfl rfl

/-- An append leaves the tables alone, or adds one row under a new key. -/
theorem appendOutbox_cases {db db' : Db} {s : Session} {xid : ℕ} {seq : ℤ} {m : NewMessage}
    {now : ℤ} {reply : AppendReply} (h : appendOutbox db s xid seq m now = .ok (db', reply)) :
    db' = db ∨ (db.sources.get? seq = none ∧ db.findSource s.tenant m.id = none ∧
      ∃ ordinal partitions, db' = { db with
        partitions, sources := db.sources.insertNew seq (newSource s m ordinal now) }) := by
  obtain ⟨-, -, h⟩ := bind_eq_ok.mp h
  split at h
  · cases h
  · cases hfind : db.findSource s.tenant m.id with
    | some row =>
        left
        cases hp : m.partition with
        | none =>
            simp only [hfind, hp] at h
            cases h
            rfl
        | some key =>
            simp only [hfind, hp] at h
            split at h
            · cases h
            · cases h
              rfl
    | none =>
        right
        cases hseq : db.sources.get? seq with
        | some src =>
            simp only [hfind, hseq, Option.isSome_some, if_true] at h
            cases h
        | none =>
            cases hp : m.partition with
            | none =>
                simp only [hfind, hseq, hp] at h
                cases h
                exact ⟨rfl, rfl, none, _, rfl⟩
            | some key =>
                cases ha : db.declared s.tenant m.domain key xid with
                | none =>
                    simp only [hfind, hseq, hp, ha] at h
                    cases h
                | some a =>
                    simp only [hfind, hseq, hp, ha] at h
                    obtain ⟨ordinal, -, h⟩ := bind_eq_ok.mp h
                    cases h
                    exact ⟨rfl, rfl, some ordinal, _, rfl⟩

theorem completeMember_frame {db db' : Db} {row : MemberKey × Member}
    {r : Messaging.Inbox.Row} (h : Db.completeMember row r db = .ok db') :
    db' = { db with members := db'.members } ∧ db.Keeps db' := by
  unfold Db.completeMember at h
  split at h
  · cases h
  · split at h
    · cases h
      exact ⟨rfl, .refl _⟩
    · split at h
      · cases h
        exact ⟨rfl, Db.keeps_modifyMember _ _ fun _ => rfl⟩
      · cases h
        exact ⟨rfl, Db.keeps_modifyMember _ _ fun _ => rfl⟩
      · cases h
      · cases h

theorem completeMembers_frame {db db' : Db} {rows : List (MemberKey × Member)}
    {r : Messaging.Inbox.Row}
    (h : rows.foldlM (fun db row => Db.completeMember row r db) db = .ok db') :
    db' = { db with members := db'.members } ∧ db.Keeps db' := by
  induction rows generalizing db with
  | nil =>
      cases h
      exact ⟨rfl, .refl _⟩
  | cons row rows ih =>
      rw [List.foldlM_cons] at h
      obtain ⟨next, hnext, h⟩ := bind_eq_ok.mp h
      obtain ⟨hframe, hkeeps⟩ := completeMember_frame hnext
      obtain ⟨hframe', hkeeps'⟩ := ih h
      refine ⟨?_, hkeeps.trans hkeeps'⟩
      rw [hframe', hframe]

/-- A write of the inbox changes its row and may complete members. -/
theorem writeInbox_frame {db db' : Db} {s : Session} {message group : String}
    {r : Messaging.Inbox.Row} (h : db.writeInbox s message group r = .ok db') :
    db' = { db with
      inbox := db.inbox.upsert (s.tenant, message, group) r fun _ => r, members := db'.members } ∧
      db.Keeps db' := by
  obtain ⟨-, -, h⟩ := bind_eq_ok.mp h
  obtain ⟨hframe, hkeeps⟩ := completeMembers_frame h
  refine ⟨hframe, Db.Keeps.trans ?_ hkeeps⟩
  exact .of_eq rfl rfl rfl

/-- What a recovery mutation writes besides its receipt. -/
theorem transition_cases {db db' : Db} {m : Mutation} {clock : Clock} {receipt : Receipt}
    (h : db.transition m clock = .ok (db', receipt)) :
    ∃ seq src deadline status,
      db.findSource m.tenant m.message = some (seq, src) ∧ src.status = .deadLetter ∧
      src.automaticRetryDeadline = some deadline ∧ src.recoveryVersion = m.version ∧
      receipt.request = m ∧ receipt.version = src.recoveryVersion + 1 ∧
      db.target m (decide (deadline ≤ clock.tick.now)) = .ok (status, receipt.outcome) ∧
      Db.windowAllows status deadline clock.tick.tick.now = true ∧
      db' = { db with
        sources := db.sources.modify seq fun src => { src with
          status, recoveryVersion := receipt.version, retryAfter := clock.tick.tick.tick.now } } := by
  unfold Db.transition at h
  split at h
  · cases h
  · next seq src hfind =>
      obtain ⟨version, hversion, h⟩ := bind_eq_ok.mp h
      split at h
      · cases h
      · next hdead =>
          obtain ⟨deadline, hdeadline, h⟩ := bind_eq_ok.mp h
          obtain ⟨⟨status, outcome⟩, htarget, h⟩ := bind_eq_ok.mp h
          dsimp only at h
          split at h
          · next hallows =>
              cases h
              unfold Db.nextVersion at hversion
              split at hversion
              · cases hversion
              · next hsame =>
                  exact ⟨seq, src, deadline, status, hfind, not_not.mp hdead,
                    okOr_eq_ok.mp hdeadline, not_not.mp hsame, rfl,
                    succ_eq_some (okOr_eq_ok.mp hversion), htarget, hallows, rfl⟩
          · cases h

/-- A mutation returns the receipt it finds, or applies a transition and stores one. -/
theorem mutate_cases {db db' : Db} {digest : Mutation → Digest} {s : Session} {m : Mutation}
    {clock : Clock} {receipt : Receipt} (h : db.mutate digest s m clock = .ok (db', receipt)) :
    (db' = db ∧ db.readReceipt digest m = .ok (some receipt)) ∨
    (db.operations.get? (m.tenant, m.operation) = none ∧ ∃ next,
      db.transition m clock = .ok (next, receipt) ∧
      db' = { next with
        operations := next.operations.insertNew (m.tenant, m.operation)
          ⟨digest m, m.message, receipt.outcome, receipt.version⟩ }) := by
  obtain ⟨-, -, h⟩ := bind_eq_ok.mp h
  obtain ⟨found, hread, h⟩ := bind_eq_ok.mp h
  cases found with
  | some prior =>
      cases h
      exact .inl ⟨rfl, hread⟩
  | none =>
      obtain ⟨⟨next, receipt'⟩, htransition, h⟩ := bind_eq_ok.mp h
      cases h
      refine .inr ⟨?_, next, htransition, rfl⟩
      unfold Db.readReceipt at hread
      split at hread
      · assumption
      · split at hread
        · cases hread
        · cases hread

theorem keeps_mutate {db db' : Db} {digest : Mutation → Digest} {s : Session} {m : Mutation}
    {clock : Clock} {receipt : Receipt} (h : db.mutate digest s m clock = .ok (db', receipt)) :
    db.Keeps db' := by
  rcases mutate_cases h with ⟨rfl, -⟩ | ⟨-, next, htransition, rfl⟩
  · exact .refl _
  · have hnext : db.Keeps next := by
      obtain ⟨seq, src, deadline, status, -, -, -, -, -, -, -, -, hwrite⟩ :=
        transition_cases htransition
      rw [hwrite]
      exact Db.keeps_modifySource _ _ fun _ _ => rfl
    exact hnext.trans (.of_eq rfl rfl rfl)

/-- The commit of an effect: the receipt on a row its claim held, and the settlement. -/
theorem commitEffect_some {db db' : Db} {s : Session} {r : Recovery}
    {inbox : Messaging.Inbox.Claim} {c : ClaimRef} {d : TerminalDisposition} {env : Env}
    (h : db.commitEffect s r inbox c d env = .ok (some db')) :
    ∃ row written env', db.inbox.get? (s.tenant, r.message, r.group) = some row ∧
      row.HeldBy inbox env.tick.now ∧
      db.writeInbox s r.message r.group { row with receipt := some ⟨r.fingerprint, d⟩ } =
        .ok written ∧
      settleOutbox written s s.tenant c (settlementOf d) env.tick = .ok (db', .settled, env') := by
  unfold Db.commitEffect at h
  split at h
  · cases h
  · next row hrow =>
      obtain ⟨hget, hheld⟩ := Option.filter_eq_some_iff.mp hrow
      obtain ⟨written, hwritten, h⟩ := bind_eq_ok.mp h
      obtain ⟨⟨next, reply, env'⟩, hsettle, h⟩ := bind_eq_ok.mp h
      cases reply with
      | lostLease => cases h
      | settled =>
          cases h
          exact ⟨row, written, env', hget, of_decide_eq_true hheld, hwritten, hsettle⟩

/-- A delivery that meets a matching receipt settles its source as the receipt says. -/
theorem finishExisting_some {db db' : Db} {s : Session} {r : Recovery} {c : ClaimRef} {env : Env}
    (h : db.finishExisting s r c env = .ok (some db')) :
    ∃ row receipt env', db.inbox.get? (s.tenant, r.message, r.group) = some row ∧
      row.contract = r.contract ∧ row.receipt = some receipt ∧
      receipt.fingerprint = r.fingerprint ∧
      settleOutbox db s s.tenant c (settlementOf receipt.disposition) env =
        .ok (db', .settled, env') := by
  unfold Db.finishExisting at h
  split at h
  · cases h
  · next receipt hreceipt =>
      obtain ⟨row, hrow, hreceipt⟩ := Option.bind_eq_some_iff.mp hreceipt
      obtain ⟨hget, hcontract⟩ := Option.filter_eq_some_iff.mp hrow
      split at h
      · cases h
      · next hsame =>
          obtain ⟨⟨next, reply, env'⟩, hsettle, h⟩ := bind_eq_ok.mp h
          cases reply with
          | lostLease => cases h
          | settled =>
              cases h
              exact ⟨row, receipt, env', hget, of_decide_eq_true hcontract, hreceipt,
                not_not.mp hsame, hsettle⟩

theorem keeps_commitEffect {db db' : Db} {s : Session} {r : Recovery}
    {inbox : Messaging.Inbox.Claim} {c : ClaimRef} {d : TerminalDisposition} {env : Env}
    (h : db.commitEffect s r inbox c d env = .ok (some db')) : db.Keeps db' := by
  obtain ⟨row, written, env', -, -, hwritten, hsettle⟩ := commitEffect_some h
  exact (writeInbox_frame hwritten).2.trans (keeps_settleOutbox hsettle)

theorem keeps_finishExisting {db db' : Db} {s : Session} {r : Recovery} {c : ClaimRef} {env : Env}
    (h : db.finishExisting s r c env = .ok (some db')) : db.Keeps db' := by
  obtain ⟨row, receipt, env', -, -, -, -, hsettle⟩ := finishExisting_some h
  exact keeps_settleOutbox hsettle

end Rss.Outbox
