import Rss.Verification.Outbox.Reachable

/-! # The status of a source

What each operation can do to the status, the version and the window of a source: claims and
lease extensions keep it between `pending` and `publishing`, a settlement ends a claim, and a
mutation reopens or closes a dead letter. -/

namespace Rss.Outbox

open Rss.Sql
open Rss.Messaging.Inbox (Digest)

/-! ### Claims and leases -/

/-- A source after claims and extensions of leases. -/
structure Source.Leased (a b : Source) : Prop where
  facts : b.facts = a.facts
  version : b.recoveryVersion = a.recoveryVersion
  status : b.status = a.status ∨ (a.status.open' = true ∧ b.status.open' = true)
  deadline : (a.status ≠ .pending → a.automaticRetryDeadline.isSome) →
    b.status ≠ .pending → b.automaticRetryDeadline.isSome

theorem Source.Leased.refl (a : Source) : a.Leased a := ⟨rfl, rfl, .inl rfl, id⟩

theorem Source.Leased.trans {a b c : Source} (h : a.Leased b) (h' : b.Leased c) : a.Leased c where
  facts := h'.facts.trans h.facts
  version := h'.version.trans h.version
  status := by
    rcases h'.status with hsame' | ⟨hopen', hclosed'⟩
    · rw [hsame']
      exact h.status
    · rcases h.status with hsame | ⟨hopen, -⟩
      · exact .inr ⟨hsame ▸ hopen', hclosed'⟩
      · exact .inr ⟨hopen, hclosed'⟩
  deadline := fun ha => h'.deadline (h.deadline ha)

/-- The database after claims and extensions of leases. -/
structure Db.Leases (db db' : Db) : Prop where
  keeps : db.Keeps db'
  sources : ∀ seq src', db'.sources.get? seq = some src' →
    ∃ src, db.sources.get? seq = some src ∧ src.Leased src'
  inbox : db'.inbox = db.inbox
  operations : db'.operations = db.operations

namespace Db

variable {db db' db'' : Db}

theorem Leases.refl (db : Db) : db.Leases db :=
  ⟨.refl db, fun _ src' h => ⟨src', h, .refl src'⟩, rfl, rfl⟩

theorem Leases.trans (h : db.Leases db') (h' : db'.Leases db'') : db.Leases db'' where
  keeps := h.keeps.trans h'.keeps
  sources := by
    intro seq src'' hsrc''
    obtain ⟨src', hsrc', hleased'⟩ := h'.sources seq src'' hsrc''
    obtain ⟨src, hsrc, hleased⟩ := h.sources seq src' hsrc'
    exact ⟨src, hsrc, hleased.trans hleased'⟩
  inbox := h'.inbox.trans h.inbox
  operations := h'.operations.trans h.operations

/-- One source is leased, the others stay. -/
theorem Leases.modifySource {seq : ℤ} {f : Source → Source}
    (hf : ∀ src, db.sources.get? seq = some src → src.Leased (f src)) :
    db.Leases { db with sources := db.sources.modify seq f } where
  keeps := keeps_modifySource db seq fun src hsrc => (hf src hsrc).facts
  sources := by
    intro seq' src' hsrc'
    dsimp only at hsrc'
    rw [Table.get?_modify] at hsrc'
    split at hsrc'
    · next hseq =>
        subst hseq
        obtain ⟨src, hsrc, rfl⟩ := Option.map_eq_some_iff.mp hsrc'
        exact ⟨src, hsrc, hf src hsrc⟩
    · exact ⟨src', hsrc', .refl src'⟩
  inbox := rfl
  operations := rfl

theorem Leases.updateMembers (tenant operation : Uuid) (seq : ℤ) {f : Member → Member}
    (hf : ∀ m, (f m).facts = m.facts) : db.Leases (db.updateMembers tenant operation seq f) :=
  ⟨keeps_updateMembers db tenant operation seq hf, fun _ src' h => ⟨src', h, .refl src'⟩, rfl, rfl⟩

end Db

@[simp] theorem version_rebind (old next : Source) (s : Session) :
    (old.rebind next s).recoveryVersion = next.recoveryVersion := by
  unfold Source.rebind
  split <;> rfl

@[simp] theorem status_rebind (old next : Source) (s : Session) :
    (old.rebind next s).status = next.status := by
  unfold Source.rebind
  split <;> rfl

@[simp] theorem deadline_rebind (old next : Source) (s : Session) :
    (old.rebind next s).automaticRetryDeadline = next.automaticRetryDeadline := by
  unfold Source.rebind
  split <;> rfl

theorem open_of_claimable_source {src : Source} {g : Generation} {n : ℤ}
    (h : src.claimable g n = true) : src.status.open' = true := by
  cases hstatus : src.status <;> simp [Source.claimable, hstatus, Status.open'] at h ⊢

theorem leased_claim {src : Source} {g : Generation} {n : ℤ} (h : src.claimable g n = true)
    (s : Session) (lease : Lease) : src.Leased (src.claim s lease n) where
  facts := facts_claim src s lease n
  version := version_rebind _ _ _
  status := by
    refine .inr ⟨open_of_claimable_source h, ?_⟩
    rw [Source.claim, status_rebind]
    rfl
  deadline := by
    intro _ _
    rw [Source.claim, deadline_rebind]
    rfl

theorem leases_claimRow (s : Session) (ttl : ℤ) (st : Claiming) (r : Candidate) :
    st.db.Leases (claimRow s ttl st r).db := by
  cases hsrc : st.db.sources.get? r.seq with
  | none =>
      simp only [claimRow, hsrc]
      exact .refl _
  | some o =>
      cases hop : r.operation with
      | none =>
          simp only [claimRow, hsrc, hop]
          split
          · next hclaim =>
              refine Db.Leases.modifySource fun src hsrc' => ?_
              rw [hsrc] at hsrc'
              cases hsrc'
              exact leased_claim hclaim _ _
          · exact .refl _
      | some op =>
          cases hm : st.db.findMember s.tenant op r.seq with
          | none =>
              simp only [claimRow, hsrc, hop, hm]
              exact .refl _
          | some m =>
              simp only [claimRow, hsrc, hop, hm]
              split
              · split
                · exact Db.Leases.updateMembers _ _ _ fun _ => rfl
                · exact Db.Leases.updateMembers _ _ _ fun _ => rfl
              · exact .refl _

theorem leases_claimRows (s : Session) (ttl : ℤ) (st : Claiming) (rows : List Candidate) :
    st.db.Leases (rows.foldl (claimRow s ttl) st).db := by
  induction rows generalizing st with
  | nil => exact .refl _
  | cons r rows ih => exact (leases_claimRow s ttl st r).trans (ih _)

theorem leases_claimLoop {s : Session} {domain : String} {limit fuel : ℕ} {ttl : ℤ}
    {st result : Claiming} (h : claimLoop s domain limit ttl fuel st = some result) :
    st.db.Leases result.db := by
  induction fuel generalizing st with
  | zero => cases h
  | succ fuel ih =>
      have hpage : st.db.Leases (claimPage s domain limit ttl st).2.db :=
        leases_claimRows s ttl { st with env := (dueRows _ st.env).2 } _
      rw [claimLoop] at h
      dsimp only at h
      split at h
      · cases h
        exact hpage
      · exact hpage.trans (ih h)

theorem leases_claimOutbox {db : Db} {s : Session} {tenant : Uuid} {domain : String}
    {limit ttl : ℤ} {env : Env} {fuel : ℕ} {result : Claiming}
    (h : claimOutbox db s tenant domain limit ttl env fuel = .ok (some result)) :
    db.Leases result.db := by
  obtain ⟨-, -, h⟩ := bind_eq_ok.mp h
  split at h
  · cases h
  · have hloop : claimLoop s domain limit.toNat ttl fuel ⟨db, env, []⟩ = some result := by
      injection h
    exact leases_claimLoop hloop

theorem leased_extended (src : Source) (until' : ℤ) :
    src.Leased { src with status := src.status.extended until' } := by
  cases hstatus : src.status with
  | publishing lease =>
      exact ⟨rfl, rfl, .inr ⟨by rw [hstatus]; rfl, rfl⟩, fun ha _ => ha (by rw [hstatus]; nofun)⟩
  | pending | published | deadLetter | resolved =>
      exact ⟨rfl, rfl, .inl hstatus.symm, fun ha hb => ha (by rw [hstatus]; exact hb)⟩

theorem leases_outboxLease {db db' : Db} {s : Session} {tenant : Uuid} {c : ClaimRef}
    {extendMs : ℤ} {env env' : Env} {reply : Option LeaseReply}
    (h : outboxLease db s tenant c extendMs env = .ok (db', reply, env')) : db.Leases db' := by
  obtain ⟨-, -, h⟩ := bind_eq_ok.mp h
  dsimp only at h
  split at h
  · cases h
    exact .refl _
  · split at h
    · cases h
      exact .refl _
    · split at h
      · cases h
        exact .refl _
      · cases h
        split
        · exact Db.Leases.modifySource fun src _ => leased_extended src _
        · exact Db.Leases.updateMembers _ _ _ fun _ => rfl

/-! ### Settlements -/

/-- The status an ordinary settlement leaves. -/
def Disposition.status : Disposition → Status
  | .published => .published
  | .retry => .pending
  | .deadLetter => .deadLetter

theorem settle_spec {o o' : Source} {s : Session} {d : Disposition} {n : ℤ}
    (h : o.settle s d n = .ok o') : o'.status = d.status ∧
      o'.automaticRetryDeadline = o.automaticRetryDeadline ∧
      o.recoveryVersion ≤ o'.recoveryVersion := by
  cases d with
  | published =>
      cases h
      exact ⟨status_rebind _ _ _, deadline_rebind _ _ _, (version_rebind _ _ _).ge⟩
  | retry =>
      obtain ⟨count, -, h⟩ := bind_eq_ok.mp h
      cases h
      exact ⟨status_rebind _ _ _, deadline_rebind _ _ _, (version_rebind _ _ _).ge⟩
  | deadLetter =>
      obtain ⟨version, hversion, h⟩ := bind_eq_ok.mp h
      cases h
      refine ⟨status_rebind _ _ _, deadline_rebind _ _ _, ?_⟩
      rw [version_rebind, succ_eq_some (okOr_eq_ok.mp hversion)]
      exact le_add_of_nonneg_right zero_le_one

/-- An ordinary claim is held while its source is published. -/
theorem Db.publishing_of_heldBy {db : Db} {s : Session} {c : ClaimRef} {n : ℤ} {o : Source}
    {lease : Lease} (h : db.heldBy s c n = some (o, lease)) (hop : c.operation = none) :
    o.status = .publishing lease := by
  have hclaimed := (heldBy_eq_some h).2.2.1
  unfold claimedLease at hclaimed
  simp only [hop] at hclaimed
  split at hclaimed
  · have hlease := (Option.filter_eq_some_iff.mp hclaimed).1
    cases hstatus : o.status with
    | publishing lease' =>
        rw [hstatus] at hlease
        cases hlease
        rfl
    | pending | published | deadLetter | resolved =>
        rw [hstatus] at hlease
        cases hlease
  · cases hclaimed

/-- A settlement ends the claim of one source, or is one of a member and leaves the sources. -/
theorem settleOutbox_sources {db db' : Db} {s : Session} {tenant : Uuid} {c : ClaimRef}
    {d : Disposition} {env env' : Env}
    (h : settleOutbox db s tenant c d env = .ok (db', .settled, env')) :
    db'.inbox = db.inbox ∧ db'.operations = db.operations ∧
      match c.operation with
      | some _ => db'.sources = db.sources
      | none => ∃ o o' lease, db.sources.get? c.seq = some o ∧ o.status = .publishing lease ∧
          o'.status = d.status ∧ o'.facts = o.facts ∧
          o'.automaticRetryDeadline = o.automaticRetryDeadline ∧
          o.recoveryVersion ≤ o'.recoveryVersion ∧
          db'.sources = db.sources.modify c.seq fun _ => o' := by
  obtain ⟨o, lease, n, hheld, hwrite⟩ := settleOutbox_settled h
  cases hop : c.operation with
  | none =>
      simp only [hop] at hwrite ⊢
      obtain ⟨o', ho', rfl⟩ := hwrite
      obtain ⟨hstatus, hdeadline, hversion⟩ := settle_spec ho'
      exact ⟨rfl, rfl, o, o', lease, (Db.heldBy_eq_some hheld).1, Db.publishing_of_heldBy hheld hop,
        hstatus, facts_settle ho', hdeadline, hversion, rfl⟩
  | some op =>
      simp only [hop] at hwrite ⊢
      obtain ⟨m, m', -, -, rfl⟩ := hwrite
      exact ⟨rfl, rfl, rfl⟩

end Rss.Outbox
