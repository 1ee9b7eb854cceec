import Rss.Verification.Outbox.Candidates

/-! # Turns of the claim loop

A turn changes the row it has locked and no other. Every due candidate is still claimable when
it is locked, so each turn claims it or blocks it, and the loop ends. -/

namespace Rss.Outbox

open Rss.Sql

theorem greatest_le {a n : ℤ} {b : Option ℤ} :
    greatest a b ≤ n ↔ a ≤ n ∧ ∀ v, b = some v → v ≤ n := by
  cases b with
  | none => simp [greatest]
  | some b => simp [greatest]

theorem le_greatest_right {a v : ℤ} {b : Option ℤ} (h : b = some v) : v ≤ greatest a b :=
  (greatest_le.mp le_rfl).2 v h

/-! ### Rows left alone -/

/-- Turns over the listed rows may have led from the first database to the second. -/
structure Db.Turned (db : Db) (s : Session) (rows : List Candidate) (db' : Db) : Prop where
  keeps : db.Keeps db'
  finished : ∀ seq, (db'.sources.get? seq).map (fun o => o.status.finished) =
    (db.sources.get? seq).map (fun o => o.status.finished)
  completed : ∀ k, (db'.members.get? k).map (fun m => decide (m.status = .completed)) =
    (db.members.get? k).map (fun m => decide (m.status = .completed))
  sources : ∀ seq, (∀ c ∈ rows, c.operation = none → c.seq ≠ seq) →
    db'.sources.get? seq = db.sources.get? seq
  members : ∀ k m, db.members.get? k = some m → (∀ c ∈ rows, k.tenant = s.tenant →
    c.operation = some k.operation → m.outboxSeq ≠ some c.seq) → db'.members.get? k = some m
  others : db'.storage = db.storage ∧ db'.epochs = db.epochs ∧ db'.partitions = db.partitions ∧
    db'.inbox = db.inbox ∧ db'.operations = db.operations

namespace Db

variable {db db' db'' : Db} {s : Session} {rows rows' : List Candidate}

theorem Turned.refl (db : Db) (s : Session) (rows : List Candidate) : db.Turned s rows db :=
  ⟨.refl db, fun _ => rfl, fun _ => rfl, fun _ _ => rfl, fun _ _ hm _ => hm,
    rfl, rfl, rfl, rfl, rfl⟩

theorem Turned.trans (h : db.Turned s rows db') (h' : db'.Turned s rows' db'') :
    db.Turned s (rows ++ rows') db'' := by
  constructor
  case keeps => exact h.keeps.trans h'.keeps
  case finished => exact fun seq => (h'.finished seq).trans (h.finished seq)
  case completed => exact fun k => (h'.completed k).trans (h.completed k)
  case sources =>
    intro seq hne
    rw [h'.sources seq fun c hc => hne c (List.mem_append_right _ hc),
      h.sources seq fun c hc => hne c (List.mem_append_left _ hc)]
  case members =>
    intro k m hm hne
    exact h'.members k m (h.members k m hm fun c hc => hne c (List.mem_append_left _ hc))
      fun c hc => hne c (List.mem_append_right _ hc)
  case others =>
    obtain ⟨h₁, h₂, h₃, h₄, h₅⟩ := h.others
    obtain ⟨h₁', h₂', h₃', h₄', h₅'⟩ := h'.others
    exact ⟨h₁'.trans h₁, h₂'.trans h₂, h₃'.trans h₃, h₄'.trans h₄, h₅'.trans h₅⟩

theorem Turned.symm (h : db.Turned s rows db') : db'.Turned s rows db := by
  constructor
  case keeps => exact h.keeps.symm
  case finished => exact fun seq => (h.finished seq).symm
  case completed => exact fun k => (h.completed k).symm
  case sources => exact fun seq hne => (h.sources seq hne).symm
  case members =>
    intro k m' hm' hne
    obtain ⟨m, hm, hfacts⟩ := h.keeps.member hm'
    have hseq : m'.outboxSeq = m.outboxSeq := by
      simp only [Member.facts, Prod.mk.injEq] at hfacts
      exact hfacts.2.2.2.2
    have hsame := h.members k m hm fun c hc ht ho => hseq ▸ hne c hc ht ho
    rw [hm'] at hsame
    rw [hm, hsame]
  case others =>
    obtain ⟨h₁, h₂, h₃, h₄, h₅⟩ := h.others
    exact ⟨h₁.symm, h₂.symm, h₃.symm, h₄.symm, h₅.symm⟩

theorem current_of_plans (h : db'.plans = db.plans) (g : Generation) (k : MemberKey) :
    db'.current g k = db.current g k := by
  unfold current
  rw [h]

/-- A member that was still to be delivered is so after the turns. -/
theorem Turned.unfinished (h : db.Turned s rows db') {g : Generation} {seq : ℤ} {k : MemberKey}
    {m : Member} (hm : db.Unfinished g seq k m) : ∃ m', db'.Unfinished g seq k m' := by
  obtain ⟨hget, hseq, hstatus, hcurrent⟩ := hm
  obtain ⟨m', hget', hfacts⟩ := h.keeps.symm.member hget
  have hcompleted := h.completed k
  rw [hget, hget', Option.map_some, Option.map_some, Option.some.injEq, decide_eq_decide]
    at hcompleted
  simp only [Member.facts, Prod.mk.injEq] at hfacts
  exact ⟨m', hget', by rw [← hfacts.2.2.2.2, hseq], mt hcompleted.mp hstatus,
    by rw [current_of_plans h.keeps.plans, hcurrent]⟩

theorem precedes_congr {a a' b b' : Source} (ha : a'.facts = a.facts) (hb : b'.facts = b.facts) :
    a'.precedes b' = a.precedes b := by
  simp only [Source.facts, Prod.mk.injEq] at ha hb
  unfold Source.precedes
  rw [ha.1, ha.2.2.1, ha.2.2.2.1, hb.1, hb.2.2.1, hb.2.2.2.1]

theorem Turned.head (h : db.Turned s rows db') {g : Generation} {src src' : Source}
    (hfacts : src'.facts = src.facts) (hhead : db.Head g src) : db'.Head g src' := by
  rcases hhead with hnone | hall
  · simp only [Source.facts, Prod.mk.injEq] at hfacts
    exact .inl (hfacts.2.2.2.1.trans hnone)
  · refine .inr fun seq p' hp' hprec => ?_
    obtain ⟨p, hp, hp_facts⟩ := h.keeps.source hp'
    rw [precedes_congr hp_facts hfacts] at hprec
    obtain ⟨hfinished, hnone⟩ := hall seq p hp hprec
    constructor
    · have heq := h.finished seq
      rw [hp, hp', Option.map_some, Option.map_some, Option.some.injEq] at heq
      rw [heq, hfinished]
    · intro k m' hm'
      obtain ⟨m, hm⟩ := h.symm.unfinished hm'
      exact hnone k m hm

/-- A candidate that no turn was over is one after them. -/
theorem Turned.isCandidate (h : db.Turned s rows db') {g : Generation} {tenant : Uuid}
    {domain : String} {c : Candidate} (hc : db.IsCandidate g tenant domain c)
    (hrows : ∀ r ∈ rows, r.seq ≠ c.seq) : db'.IsCandidate g tenant domain c := by
  cases hc with
  | @ordinary seq src hsrc hscope hopen halone hhead =>
      have hsrc' : db'.sources.get? seq = some src := by
        rw [h.sources seq fun r hr _ => hrows r hr, hsrc]
      refine .ordinary hsrc' hscope hopen (fun k m' hm' => ?_) (h.head rfl hhead)
      obtain ⟨m, hm⟩ := h.symm.unfinished hm'
      exact halone k m hm
  | @recovery seq src k m hsrc hscope hm hopen hhead =>
      have hsrc' : db'.sources.get? seq = some src := by
        rw [h.sources seq fun r hr _ => hrows r hr, hsrc]
      have hget : db'.members.get? k = some m := by
        refine h.members k m hm.1 fun r hr _ _ hseq => hrows r hr ?_
        exact Option.some.inj (hseq.symm.trans hm.2.1)
      refine .recovery hsrc' hscope ⟨hget, hm.2.1, hm.2.2.1, ?_⟩ hopen (h.head rfl hhead)
      rw [current_of_plans h.keeps.plans, hm.2.2.2]

/-! ### The member of a source -/

theorem Sound.sameMember (h : db.Sound) {k k' : MemberKey} {m m' : Member} {seq : ℤ}
    (hm : db.members.get? k = some m) (hm' : db.members.get? k' = some m')
    (ht : k.tenant = k'.tenant) (ho : k.operation = k'.operation) (hseq : m.outboxSeq = some seq)
    (hseq' : m'.outboxSeq = some seq) : k = k' := by
  obtain ⟨hgroup, src, hsrc, -, hmsg⟩ := h.source hm hseq
  obtain ⟨hgroup', src', hsrc', -, hmsg'⟩ := h.source hm' hseq'
  rw [hsrc] at hsrc'
  cases hsrc'
  exact h.member hm hm' ht ho (hmsg.symm.trans hmsg') (hgroup.trans hgroup'.symm)

theorem Sound.findMember (h : db.Sound) {k : MemberKey} {m : Member} {seq : ℤ}
    (hm : db.members.get? k = some m) (hseq : m.outboxSeq = some seq) :
    db.findMember k.tenant k.operation seq = some (k, m) := by
  cases hfind : db.findMember k.tenant k.operation seq with
  | none =>
      have hnot := List.find?_eq_none.mp hfind (k, m) (Table.mem_rows.mpr hm)
      simp [hseq] at hnot
  | some row =>
      obtain ⟨hget, ht, ho, hseq'⟩ := findMember_eq_some hfind
      have hk : row.1 = k := h.sameMember hget hm ht ho hseq' hseq
      rw [hk, hm] at hget
      exact congrArg some (Prod.ext hk (Option.some.inj hget).symm)

/-- An update by plan and source is one of a single row. -/
theorem Sound.updateMembers (h : db.Sound) {k : MemberKey} {m : Member} {seq : ℤ}
    (hm : db.members.get? k = some m) (hseq : m.outboxSeq = some seq) (f : Member → Member) :
    db.updateMembers k.tenant k.operation seq f =
      { db with members := db.members.modify k f } := by
  unfold Db.updateMembers Table.modify Table.update
  congr 2
  refine List.map_congr_left fun row hrow => ?_
  have hget : db.members.get? row.1 = some row.2 := Table.mem_rows.mp hrow
  dsimp only
  by_cases hk : row.1 = k
  · rw [hk, hm] at hget
    cases hget
    rw [if_pos ⟨by rw [hk], by rw [hk], hseq⟩, if_pos hk]
  · rw [if_neg, if_neg hk]
    rintro ⟨ht, ho, hseq'⟩
    exact hk (h.sameMember hget hm ht ho hseq' hseq)

/-! ### The recheck under the lock -/

/-- The condition the loop rechecks once it has locked the row of a candidate. -/
inductive Takes (db : Db) (s : Session) (n : ℤ) : Candidate → Prop where
  | ordinary {seq e : ℤ} {src : Source} (source : db.sources.get? seq = some src)
      (claimable : src.claimable s.generation n = true) : Takes db s n ⟨seq, none, e⟩
  | recovery {seq e : ℤ} {src : Source} {k : MemberKey} {m : Member}
      (source : db.sources.get? seq = some src) (tenant : k.tenant = s.tenant)
      (member : db.members.get? k = some m) (seq_eq : m.outboxSeq = some seq)
      (claimable : m.claimable n = true) : Takes db s n ⟨seq, some k.operation, e⟩

/-- A due candidate passes the recheck. -/
theorem IsCandidate.takes {domain : String} {c : Candidate} {n : ℤ}
    (hc : db.IsCandidate s.generation s.tenant domain c) (h : db.Sound) (hdue : c.eligibleAt ≤ n) :
    db.Takes s n c := by
  cases hc with
  | @ordinary seq src hsrc hscope hopen halone hhead =>
      obtain ⟨hafter, hlease⟩ := greatest_le.mp hdue
      refine .ordinary hsrc ?_
      rw [Source.claimable, Bool.and_eq_true, decide_eq_true_eq]
      refine ⟨?_, hafter⟩
      unfold Source.leaseUntil at hlease
      cases hstatus : src.status with
      | pending => rfl
      | publishing lease =>
          simp only [hstatus] at hlease ⊢
          by_cases hsame : some src.claimEpoch = s.generation.epoch ∧
              src.claimLineage = s.generation.lineage
          · rw [if_pos hsame] at hlease
            simp [hlease lease.until' rfl]
          · rw [not_and_or] at hsame
            simp only [Bool.or_eq_true, decide_eq_true_eq, or_assoc]
            exact .inr hsame
      | published | deadLetter | resolved =>
          rw [hstatus] at hopen
          cases hopen
  | @recovery seq src k m hsrc hscope hm hopen hhead =>
      obtain ⟨hafter, hlease⟩ := greatest_le.mp hdue
      refine .recovery hsrc ((hm.tenant h hsrc).trans hscope.1) hm.1 hm.2.1 ?_
      rw [Member.claimable, Bool.and_eq_true, decide_eq_true_eq]
      refine ⟨?_, hafter⟩
      unfold Member.leaseUntil at hlease
      cases hstatus : m.status with
      | pending => rfl
      | publishing lease =>
          rw [hstatus] at hlease
          exact decide_eq_true (hlease lease.until' rfl)
      | completed | blocked =>
          rw [hstatus] at hopen
          cases hopen

theorem Takes.mono {n n' : ℤ} {c : Candidate} (h : db.Takes s n c) (hle : n ≤ n') :
    db.Takes s n' c := by
  cases h with
  | @ordinary seq e src hsrc hclaim =>
      refine .ordinary hsrc ?_
      rw [Source.claimable, Bool.and_eq_true, decide_eq_true_eq] at hclaim ⊢
      refine ⟨?_, hclaim.2.trans hle⟩
      split at hclaim
      · rfl
      · simp only [Bool.or_eq_true, decide_eq_true_eq] at hclaim ⊢
        exact hclaim.1.imp_left (Or.imp_left fun hu => hu.trans hle)
      · exact absurd hclaim.1 Bool.false_ne_true
  | @recovery seq e src k m hsrc ht hm hseq hclaim =>
      refine .recovery hsrc ht hm hseq ?_
      rw [Member.claimable, Bool.and_eq_true, decide_eq_true_eq] at hclaim ⊢
      refine ⟨?_, hclaim.2.trans hle⟩
      split at hclaim
      · rfl
      · exact decide_eq_true ((of_decide_eq_true hclaim.1).trans hle)
      · exact absurd hclaim.1 Bool.false_ne_true

/-- The recheck reads one row of each table. -/
theorem Turned.takes (h : db.Turned s rows db') {n : ℤ} {c : Candidate} (hc : db.Takes s n c)
    (hrows : ∀ r ∈ rows, r.seq ≠ c.seq) : db'.Takes s n c := by
  cases hc with
  | @ordinary seq e src hsrc hclaim =>
      exact .ordinary ((h.sources seq fun r hr _ => hrows r hr).trans hsrc) hclaim
  | @recovery seq e src k m hsrc ht hm hseq hclaim =>
      refine .recovery ((h.sources seq fun r hr _ => hrows r hr).trans hsrc) ht
        (h.members k m hm fun r hr _ _ heq => hrows r hr ?_) hseq hclaim
      exact Option.some.inj (heq.symm.trans hseq)

end Db

/-! ### Turns -/

/-- The lease that the next turn may give out. -/
def Claiming.lease (st : Claiming) (ttl : ℤ) : Lease :=
  ⟨st.env.tick.token, st.env.tick.now + milliseconds ttl⟩

/-- A turn over a claimable row: the source or its member is leased, or the member is blocked. -/
inductive Turn (s : Session) (ttl : ℤ) (st : Claiming) : Candidate → Claiming → Prop where
  | source {seq e : ℤ} {src : Source} (source : st.db.sources.get? seq = some src)
      (claimable : src.claimable s.generation st.env.tick.now = true) :
      Turn s ttl st ⟨seq, none, e⟩
        ⟨{ st.db with
            sources := st.db.sources.modify seq fun o => o.claim s (st.lease ttl) st.env.tick.now },
          st.env.tick.draw, st.claimed ++ [⟨seq, st.lease ttl, none⟩]⟩
  | member {seq e : ℤ} {src : Source} {k : MemberKey} {m : Member}
      (source : st.db.sources.get? seq = some src) (tenant : k.tenant = s.tenant)
      (member : st.db.members.get? k = some m) (seq_eq : m.outboxSeq = some seq)
      (claimable : m.claimable st.env.tick.now = true)
      (current : src.expired st.env.tick.now = false) :
      Turn s ttl st ⟨seq, some k.operation, e⟩
        ⟨{ st.db with
            members := st.db.members.modify k fun m =>
              { m with status := .publishing (st.lease ttl) } },
          st.env.tick.draw, st.claimed ++ [⟨seq, st.lease ttl, some k.operation⟩]⟩
  | blocked {seq e : ℤ} {src : Source} {k : MemberKey} {m : Member}
      (source : st.db.sources.get? seq = some src) (tenant : k.tenant = s.tenant)
      (member : st.db.members.get? k = some m) (seq_eq : m.outboxSeq = some seq)
      (claimable : m.claimable st.env.tick.now = true)
      (expired : src.expired st.env.tick.now = true) :
      Turn s ttl st ⟨seq, some k.operation, e⟩
        ⟨{ st.db with
            members := st.db.members.modify k fun m =>
              { m with status := .blocked .deadlineExpired } }, st.env.tick, st.claimed⟩

section

variable {s : Session} {ttl : ℤ} {st st' : Claiming} {r : Candidate}

theorem turn_claimRow (h : st.db.Sound) (ht : st.db.Takes s st.env.tick.now r) :
    Turn s ttl st r (claimRow s ttl st r) := by
  cases ht with
  | @ordinary seq e src hsrc hclaim =>
      simp only [claimRow, hsrc, hclaim, if_true]
      exact .source hsrc hclaim
  | @recovery seq e src k m hsrc htenant hm hseq hclaim =>
      have hfind := h.findMember hm hseq
      simp only [claimRow, hsrc, ← htenant, hfind, hclaim, if_true,
        h.updateMembers hm hseq]
      split
      · next hexpired => exact .blocked hsrc htenant hm hseq hclaim hexpired
      · next hcurrent =>
          exact .member hsrc htenant hm hseq hclaim (Bool.not_eq_true _ ▸ hcurrent)

theorem not_completed_of_claimable {m : Member} {n : ℤ} (h : m.claimable n = true) :
    m.status ≠ .completed := by
  rintro heq
  simp [Member.claimable, heq] at h

theorem not_finished_of_claimable {src : Source} {g : Generation} {n : ℤ}
    (h : src.claimable g n = true) : src.status.finished = false := by
  cases hstatus : src.status <;> simp [Source.claimable, hstatus, Status.finished] at h ⊢

theorem status_claim (src : Source) (s : Session) (lease : Lease) (n : ℤ) :
    (src.claim s lease n).status = .publishing lease := by
  unfold Source.claim Source.rebind
  split <;> rfl

/-- Changing the status of one unfinished member is no more than a turn over it. -/
theorem Db.turned_member {db : Db} {k : MemberKey} {m : Member} {seq : ℤ} {e : ℤ}
    {status : MemberStatus} (ht : k.tenant = s.tenant) (hm : db.members.get? k = some m)
    (hseq : m.outboxSeq = some seq) (hopen : m.status ≠ .completed) (hnew : status ≠ .completed) :
    db.Turned s [⟨seq, some k.operation, e⟩]
      { db with members := db.members.modify k fun m => { m with status } } := by
  constructor
  case keeps => exact Db.keeps_modifyMember _ _ fun _ => rfl
  case finished => exact fun _ => rfl
  case completed =>
    intro k'
    dsimp only
    rw [Table.get?_modify]
    split
    · next hk =>
        rw [hk, hm]
        simp [hopen, hnew]
    · rfl
  case sources => exact fun _ _ => rfl
  case members =>
    intro k' m' hm' hne
    dsimp only
    rw [Table.get?_modify_of_ne, hm']
    rintro rfl
    rw [hm] at hm'
    cases hm'
    exact hne _ (List.mem_singleton_self _) ht rfl hseq
  case others => exact ⟨rfl, rfl, rfl, rfl, rfl⟩

/-- A turn leaves the other rows alone. -/
theorem Turn.turned (h : Turn s ttl st r st') : st.db.Turned s [r] st'.db := by
  cases h with
  | @source seq e src hsrc hclaim =>
      constructor
      case keeps => exact Db.keeps_modifySource _ _ fun _ _ => facts_claim _ _ _ _
      case finished =>
        intro seq'
        dsimp only
        rw [Table.get?_modify]
        split
        · next hseq =>
            simp only [hseq, hsrc, Option.map_some, Option.some.injEq]
            rw [status_claim, not_finished_of_claimable hclaim]
            rfl
        · rfl
      case completed => exact fun _ => rfl
      case sources =>
        intro seq' hne
        exact Table.get?_modify_of_ne _ (hne _ (List.mem_singleton_self _) rfl).symm _
      case members => exact fun _ _ hm _ => hm
      case others => exact ⟨rfl, rfl, rfl, rfl, rfl⟩
  | member hsrc ht hm hseq hclaim hcurrent =>
      exact Db.turned_member ht hm hseq (not_completed_of_claimable hclaim) (by simp)
  | blocked hsrc ht hm hseq hclaim hexpired =>
      exact Db.turned_member ht hm hseq (not_completed_of_claimable hclaim) (by simp)

theorem Turn.sound (h : Turn s ttl st r st') (hs : st.db.Sound) : st'.db.Sound :=
  hs.keeps h.turned.keeps

theorem Turn.le_now (h : Turn s ttl st r st') : st.env.now ≤ st'.env.now := by
  cases h <;> exact Clock.le_tick _

/-- A claim under a new token binds the row to this generation. -/
theorem leaseUntil_claim {src : Source} {lease : Lease} {n : ℤ}
    (hfresh : ∀ old, src.status = .publishing old → old.token ≠ lease.token) :
    (src.claim s lease n).leaseUntil s.generation = some lease.until' := by
  have hne : ¬ (Status.lease? (.publishing lease)).map Lease.token =
      src.status.lease?.map Lease.token := by
    cases hstatus : src.status with
    | publishing old => exact fun heq => hfresh old hstatus (Option.some.inj heq).symm
    | pending | published | deadLetter | resolved => exact nofun
  unfold Source.claim Source.rebind
  rw [if_neg hne]
  simp [Source.leaseUntil, Session.generation]

/-- A recovery candidate still has its member after a turn over it. -/
theorem recovering {db' : Db} {domain : String} {seq e : ℤ} {k : MemberKey} {m : Member}
    {rows : List Candidate} (hs : st.db.Sound)
    (hr : st.db.IsCandidate s.generation s.tenant domain ⟨seq, some k.operation, e⟩)
    (ht : k.tenant = s.tenant) (hm : st.db.members.get? k = some m)
    (hseq : m.outboxSeq = some seq) (hturned : st.db.Turned s rows db') :
    ∃ m', db'.Unfinished s.generation seq k m' := by
  generalize hop : some k.operation = op at hr
  cases hr with
  | ordinary => cases hop
  | @recovery _ src k₀ m₀ hsrc hscope hm₀ =>
      have hk : k₀ = k := hs.sameMember hm₀.1 hm ((hm₀.tenant hs hsrc).trans (hscope.1.trans ht.symm))
        (Option.some.inj hop).symm hm₀.2.1 hseq
      subst hk
      exact hturned.unfinished hm₀

/-- After a turn its row is no candidate before the lease is over. -/
theorem Turn.later (h : Turn s ttl st r st') (hs : st.db.Sound) {domain : String}
    (hr : st.db.IsCandidate s.generation s.tenant domain r)
    (hfresh : ∀ src old, st.db.sources.get? r.seq = some src → src.status = .publishing old →
      old.token ≠ st.env.tick.token) {c : Candidate}
    (hc : st'.db.IsCandidate s.generation s.tenant domain c) (hseq : c.seq = r.seq) :
    st.env.tick.now + milliseconds ttl ≤ c.eligibleAt := by
  have hs' := h.sound hs
  have hturned := h.turned
  cases h with
  | @source seq e src hsrc hclaim =>
      cases hr with
      | ordinary hsrc₀ hscope hopen halone hhead =>
          cases hc with
          | @ordinary _ src' hsrc' =>
              dsimp only at hseq
              subst hseq
              rw [Table.get?_modify_self, hsrc, Option.map_some, Option.some.injEq] at hsrc'
              subst hsrc'
              exact le_greatest_right (leaseUntil_claim fun old hold => hfresh src old hsrc hold)
          | recovery hsrc' hscope' hm' =>
              dsimp only at hseq
              subst hseq
              obtain ⟨m, hm⟩ := hturned.symm.unfinished hm'
              exact absurd hm (halone _ m)
  | @member seq e src k m hsrc ht hm hm_seq hclaim hcurrent =>
      obtain ⟨m', hm'⟩ := recovering hs hr ht hm hm_seq hturned
      cases hc with
      | ordinary hsrc' hscope' hopen' halone' =>
          dsimp only at hseq
          subst hseq
          exact absurd hm' (halone' k m')
      | recovery hsrc' hscope' hm₁ =>
          dsimp only at hseq
          subst hseq
          obtain ⟨rfl, rfl⟩ := hm₁.unique hs' hm'
          have hget := hm'.1
          rw [Table.get?_modify_self, hm, Option.map_some, Option.some.injEq] at hget
          subst hget
          exact le_greatest_right rfl
  | @blocked seq e src k m hsrc ht hm hm_seq hclaim hexpired =>
      obtain ⟨m', hm'⟩ := recovering hs hr ht hm hm_seq hturned
      cases hc with
      | ordinary hsrc' hscope' hopen' halone' =>
          dsimp only at hseq
          subst hseq
          exact absurd hm' (halone' k m')
      | recovery hsrc' hscope' hm₁ hopen' =>
          dsimp only at hseq
          subst hseq
          obtain ⟨rfl, rfl⟩ := hm₁.unique hs' hm'
          have hget := hm'.1
          rw [Table.get?_modify_self, hm, Option.map_some, Option.some.injEq] at hget
          subst hget
          cases hopen'

/-! ### Termination -/

theorem countP_lt_countP {α : Type} {p q : α → Bool} {l : List α} {x : α}
    (h : ∀ y ∈ l, p y = true → q y = true) (hx : x ∈ l) (hp : p x = false) (hq : q x = true) :
    l.countP p < l.countP q := by
  induction l with
  | nil => cases hx
  | cons y l ih =>
      have hle : l.countP p ≤ l.countP q :=
        List.countP_mono_left fun z hz => h z (List.mem_cons_of_mem _ hz)
      rw [List.countP_cons, List.countP_cons]
      rcases List.mem_cons.mp hx with rfl | hx
      · simp only [hp, hq, Bool.false_eq_true, if_false, if_true]
        exact Nat.lt_succ_of_le hle
      · have hlt := ih (fun z hz => h z (List.mem_cons_of_mem _ hz)) hx
        have hy := h y List.mem_cons_self
        cases hpy : p y with
        | false =>
            simp only [Bool.false_eq_true, if_false]
            exact Nat.lt_of_lt_of_le hlt (Nat.le_add_right _ _)
        | true =>
            simp only [hy hpy, if_true]
            exact Nat.succ_lt_succ hlt

/-- The members that a turn could still block. -/
def Db.openMembers (db : Db) : ℕ := db.members.rows.countP fun row => row.2.status.open'

theorem open_of_claimable {m : Member} {n : ℤ} (h : m.claimable n = true) :
    m.status.open' = true := by
  cases hstatus : m.status <;> simp [Member.claimable, hstatus, MemberStatus.open'] at h ⊢

theorem Db.openMembers_modify {db : Db} {k : MemberKey} {m : Member}
    (hm : db.members.get? k = some m) (hopen : m.status.open' = true) (status : MemberStatus) :
    ({ db with members := db.members.modify k fun m => { m with status } } : Db).openMembers +
      (if status.open' then 0 else 1) ≤ db.openMembers := by
  have hrows : ∀ row ∈ db.members.rows,
      (if row.1 = k then { row.2 with status } else row.2 : Member).status.open' = true →
        row.2.status.open' = true := by
    intro row hrow hnew
    by_cases hk : row.1 = k
    · have hget : db.members.get? row.1 = some row.2 := Table.mem_rows.mp hrow
      rw [hk, hm] at hget
      cases hget
      exact hopen
    · rwa [if_neg hk] at hnew
  simp only [openMembers, Table.modify, Table.update, List.countP_map, Function.comp_def]
  split
  · exact List.countP_mono_left hrows
  · next hclosed =>
      refine countP_lt_countP hrows (Table.mem_rows.mpr hm) ?_ hopen
      rw [if_pos rfl]
      exact Bool.not_eq_true _ ▸ hclosed

/-- What is left to claim or to block. -/
def Claiming.work (st : Claiming) (limit : ℕ) : ℕ :=
  limit - st.claimed.length + st.db.openMembers

theorem Turn.work_lt (h : Turn s ttl st r st') {limit : ℕ}
    (hlimit : st.claimed.length < limit) :
    st'.work limit < st.work limit ∧ st'.claimed.length ≤ st.claimed.length + 1 := by
  unfold Claiming.work
  cases h with
  | source hsrc hclaim =>
      simp only [List.length_append, List.length_singleton, Db.openMembers]
      omega
  | member hsrc ht hm hseq hclaim hcurrent =>
      have hle := Db.openMembers_modify hm (open_of_claimable hclaim) (.publishing (st.lease ttl))
      simp only [List.length_append, List.length_singleton, MemberStatus.open', if_true] at hle ⊢
      omega
  | blocked hsrc ht hm hseq hclaim hexpired =>
      have hle := Db.openMembers_modify hm (open_of_claimable hclaim) (.blocked .deadlineExpired)
      simp only [MemberStatus.open', Bool.false_eq_true, if_false] at hle ⊢
      omega

/-! ### Pages -/

/-- The turns over the rows of a page. -/
inductive Turns (s : Session) (ttl : ℤ) : Claiming → List Candidate → Claiming → Prop where
  | nil (st : Claiming) : Turns s ttl st [] st
  | cons {st st₁ st' : Claiming} {r : Candidate} {rows : List Candidate}
      (first : Turn s ttl st r st₁) (rest : Turns s ttl st₁ rows st') :
      Turns s ttl st (r :: rows) st'

/-- Due rows of different sources are all taken, whatever the clock does meanwhile. -/
theorem turns_claimRows {rows : List Candidate} (hs : st.db.Sound)
    (hnodup : (rows.map Candidate.seq).Nodup)
    (htakes : ∀ r ∈ rows, st.db.Takes s st.env.now r) :
    Turns s ttl st rows (rows.foldl (claimRow s ttl) st) := by
  induction rows generalizing st with
  | nil => exact .nil st
  | cons r rows ih =>
      rw [List.map_cons, List.nodup_cons] at hnodup
      have hturn : Turn s ttl st r (claimRow s ttl st r) :=
        turn_claimRow hs ((htakes r List.mem_cons_self).mono (Clock.le_tick _))
      refine .cons hturn (ih (hturn.sound hs) hnodup.2 fun c hc => ?_)
      have hc' := (htakes c (List.mem_cons_of_mem _ hc)).mono hturn.le_now
      refine hturn.turned.takes hc' fun r' hr' heq => hnodup.1 ?_
      rw [List.mem_singleton] at hr'
      subst hr'
      exact heq ▸ List.mem_map_of_mem hc

theorem Turns.turned {rows : List Candidate} (h : Turns s ttl st rows st') :
    st.db.Turned s rows st'.db := by
  induction h with
  | nil st => exact .refl _ _ _
  | cons first rest ih => exact first.turned.trans ih

theorem Turns.sound {rows : List Candidate} (h : Turns s ttl st rows st') (hs : st.db.Sound) :
    st'.db.Sound :=
  hs.keeps h.turned.keeps

theorem Turns.le_now {rows : List Candidate} (h : Turns s ttl st rows st') :
    st.env.now ≤ st'.env.now := by
  induction h with
  | nil st => exact le_rfl
  | cons first rest ih => exact first.le_now.trans ih

theorem Turns.work_le {rows : List Candidate} (h : Turns s ttl st rows st') {limit : ℕ}
    (hlen : rows.length ≤ limit - st.claimed.length) :
    st'.work limit + rows.length ≤ st.work limit := by
  induction h with
  | nil st => exact le_rfl
  | @cons st st₁ st' r rows first rest ih =>
      rw [List.length_cons] at hlen ⊢
      have hroom : st.claimed.length < limit := by omega
      obtain ⟨hlt, hclaimed⟩ := first.work_lt hroom
      have hle := ih (by omega)
      omega

theorem le_dueRows (cs : List Candidate) (env : Env) : env.now ≤ (dueRows cs env).2.now := by
  induction cs generalizing env with
  | nil => exact le_rfl
  | cons c cs ih => exact (Clock.le_tick env.clock).trans (ih env.tick)

theorem dueRows_sublist (cs : List Candidate) (env : Env) : (dueRows cs env).1.Sublist cs := by
  induction cs generalizing env with
  | nil => exact .slnil
  | cons c cs ih =>
      rw [dueRows]
      dsimp only
      split
      · exact (ih env.tick).cons_cons c
      · exact (ih env.tick).cons c

/-- A row found due is so at the end of the scan. -/
theorem due_of_mem_dueRows {cs : List Candidate} {env : Env} {c : Candidate}
    (h : c ∈ (dueRows cs env).1) : c.eligibleAt ≤ (dueRows cs env).2.now := by
  induction cs generalizing env with
  | nil => cases h
  | cons c' cs ih =>
      rw [dueRows] at h ⊢
      dsimp only at h ⊢
      split at h
      · next hdue =>
          rcases List.mem_cons.mp h with rfl | h
          · exact hdue.trans (le_dueRows cs env.tick)
          · exact ih h
      · exact ih h

/-- The due rows in the order of `seq`, up to the number asked for. -/
def pageRows (s : Session) (domain : String) (limit : ℕ) (st : Claiming) : List Candidate :=
  (((dueRows (st.db.outboxCandidates s.generation s.tenant domain) st.env).1).mergeSort
    fun a b => a.seq ≤ b.seq).take (limit - st.claimed.length)

/-- The page starts once the query has read the clock for every candidate. -/
def Claiming.scanned (st : Claiming) (s : Session) (domain : String) : Claiming :=
  { st with env := (dueRows (st.db.outboxCandidates s.generation s.tenant domain) st.env).2 }

theorem claimPage_eq {domain : String} {limit : ℕ} : claimPage s domain limit ttl st =
    (!(pageRows s domain limit st).isEmpty,
      (pageRows s domain limit st).foldl (claimRow s ttl) (st.scanned s domain)) := rfl

theorem mem_pageRows {domain : String} {limit : ℕ} {r : Candidate} (hs : st.db.Sound)
    (h : r ∈ pageRows s domain limit st) :
    st.db.IsCandidate s.generation s.tenant domain r ∧
      r.eligibleAt ≤ (st.scanned s domain).env.now := by
  have hdue := List.mem_mergeSort.mp (List.mem_of_mem_take h)
  exact ⟨(Db.mem_outboxCandidates hs).mp ((dueRows_sublist _ _).mem hdue), due_of_mem_dueRows hdue⟩

theorem nodup_pageRows {domain : String} {limit : ℕ} (hs : st.db.Sound) :
    ((pageRows s domain limit st).map Candidate.seq).Nodup := by
  have hall : ((st.db.outboxCandidates s.generation s.tenant domain).map Candidate.seq).Nodup :=
    Db.nodup_outboxCandidates hs
  have hdue := ((dueRows_sublist _ st.env).map Candidate.seq).nodup hall
  have hsorted := (((List.mergeSort_perm _ fun a b : Candidate =>
    decide (a.seq ≤ b.seq)).map Candidate.seq).nodup_iff).mpr hdue
  exact ((List.take_sublist _ _).map Candidate.seq).nodup hsorted

theorem turns_claimPage {domain : String} {limit : ℕ} (hs : st.db.Sound) :
    Turns s ttl (st.scanned s domain) (pageRows s domain limit st)
      (claimPage s domain limit ttl st).2 := by
  refine turns_claimRows hs (nodup_pageRows hs) fun r hr => ?_
  obtain ⟨hc, hdue⟩ := mem_pageRows hs hr
  exact hc.takes hs hdue

/-- Every page that finds a row leaves less work, so the loop ends on any clock. -/
theorem claimLoop_isSome {domain : String} {limit fuel : ℕ} (hs : st.db.Sound)
    (hfuel : st.work limit < fuel) : (claimLoop s domain limit ttl fuel st).isSome := by
  induction fuel generalizing st with
  | zero => exact absurd hfuel (Nat.not_lt_zero _)
  | succ fuel ih =>
      have hturns : Turns s ttl (st.scanned s domain) (pageRows s domain limit st)
        (claimPage s domain limit ttl st).2 := turns_claimPage hs
      have hwork : (claimPage s domain limit ttl st).2.work limit +
          (pageRows s domain limit st).length ≤ (st.scanned s domain).work limit :=
        hturns.work_le (List.length_take_le _ _)
      rw [claimLoop, claimPage_eq]
      rw [claimPage_eq] at hturns hwork
      dsimp only at hturns hwork ⊢
      split
      · rfl
      · next hgo =>
          refine ih (hturns.sound hs) ?_
          have hrows : 0 < (pageRows s domain limit st).length := by
            rw [List.length_pos_iff]
            intro hnil
            exact hgo (.inr (by rw [hnil]; rfl))
          have hsame : (st.scanned s domain).work limit = st.work limit := rfl
          omega

end

end Rss.Outbox
