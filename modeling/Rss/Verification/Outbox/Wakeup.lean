import Rss.Verification.Outbox.Quiet
import Mathlib.Data.List.Sort

/-! # Candidates, claims and wake-ups

Both forms of the candidate query return the same rows, a claim ends and takes the first of
them that are due, and a wake-up tells when a claim would next find a row. -/

namespace Rss.Outbox

open Rss.Sql

section

variable {db : Db} {s : Session} {domain : String} {ttl t₀ t₁ : ℤ} {result : Claiming}

/-! ### Claims and blocks -/

/-- The call claimed a row or blocked a member. -/
def Acts (db : Db) (result : Claiming) : Prop :=
  result.claimed ≠ [] ∨ ∃ k m, db.members.get? k = some m ∧ m.status.open' = true ∧
    result.db.members.get? k = some { m with status := .blocked .deadlineExpired }

theorem ClaimsFirst.acts_iff {limit : ℕ} (h : ClaimsFirst db s domain limit ttl t₀ t₁ result)
    (hlimit : 1 ≤ limit) : Acts db result ↔ db.queue s domain t₀ ≠ [] := by
  constructor
  · intro hacts hnil
    have hclaimed := h.claimed
    have hrest := h.rest
    rw [hnil] at hclaimed hrest
    rw [upTo_nil] at hrest
    rcases hacts with hsome | ⟨k, m, hm, hopen, hblocked⟩
    · simp at hclaimed
      exact hsome hclaimed
    · rw [hrest.members k m hm nofun, Option.some.injEq] at hblocked
      rw [hblocked] at hopen
      cases hopen
  · intro hsome
    obtain ⟨c, cs, hqueue⟩ := List.exists_cons_of_ne_nil hsome
    have hin : c ∈ upTo (fun c => !db.lapsed t₀ c) limit (db.queue s domain t₀) := by
      obtain ⟨n, rfl⟩ := Nat.exists_eq_add_of_le' hlimit
      rw [hqueue]
      exact List.mem_cons_self
    cases h.took c hin with
    | source hsrc hwithin hterm hlisted hrow => exact .inl (List.ne_nil_of_mem hlisted)
    | member hsrc hcurrent ht hm hseq hwithin hterm hlisted hrow =>
        exact .inl (List.ne_nil_of_mem hlisted)
    | blocked hsrc hexpired ht hm hseq hopen hrow => exact .inr ⟨_, _, hm, hopen, hrow⟩

/-! ### Calls -/

/-- A claim between whose first and last reading of the clock nothing changes by itself. -/
structure QuietCall (db : Db) (s : Session) (domain : String) (limit ttl t₀ t₁ : ℤ)
    (result : Claiming) : Prop where
  call : ∃ env fuel, claimOutbox db s s.tenant domain limit ttl env fuel = .ok (some result) ∧
    env.tick.now = t₀ ∧ db.Calm s domain env.tokens t₀ t₁
  window : t₀ ≤ t₁
  last : result.env.now ≤ t₁
  short : t₁ < t₀ + milliseconds ttl

theorem QuietCall.first {limit : ℤ} (h : QuietCall db s domain limit ttl t₀ t₁ result)
    (hs : db.Sound) : ClaimsFirst db s domain limit.toNat ttl t₀ t₁ result := by
  obtain ⟨env, fuel, hcall, hfirst, hcalm⟩ := h.call
  exact claimOutbox_first hs hcall hfirst h.window h.last hcalm h.short

theorem QuietCall.acts_iff {limit : ℤ} (h : QuietCall db s domain limit ttl t₀ t₁ result)
    (hs : db.Sound) : Acts db result ↔ db.queue s domain t₀ ≠ [] := by
  obtain ⟨env, fuel, hcall, -, -⟩ := h.call
  have hlimit := (claimOutbox_cases hcall).2.1
  exact (h.first hs).acts_iff (by omega)

theorem claimLoop_mono {limit fuel fuel' : ℕ} {st : Claiming} (hle : fuel ≤ fuel')
    (h : claimLoop s domain limit ttl fuel st = some result) :
    claimLoop s domain limit ttl fuel' st = some result := by
  induction fuel generalizing st fuel' with
  | zero => cases h
  | succ fuel ih =>
      have hpos : 1 ≤ fuel' := (Nat.le_add_left 1 fuel).trans hle
      obtain ⟨fuel', rfl⟩ := Nat.exists_eq_add_of_le' hpos
      rw [claimLoop] at h ⊢
      dsimp only at h ⊢
      split at h
      · next hstop =>
          rw [if_pos hstop]
          exact h
      · next hgo =>
          rw [if_neg hgo]
          exact ih (by omega) h

/-- A claim ends, on any clock and with any tokens. -/
theorem claimOutbox_ends (hs : db.Sound) (tenant : Uuid) (limit : ℤ) (env : Env) :
    ∃ n reply, reply ≠ .ok none ∧
      ∀ fuel, n ≤ fuel → claimOutbox db s tenant domain limit ttl env fuel = reply := by
  refine ⟨(⟨db, env, []⟩ : Claiming).work limit.toNat + 1, ?_⟩
  have hsome : (claimLoop s domain limit.toNat ttl
      ((⟨db, env, []⟩ : Claiming).work limit.toNat + 1) ⟨db, env, []⟩).isSome :=
    claimLoop_isSome hs (Nat.lt_succ_self _)
  obtain ⟨result, hend⟩ := Option.isSome_iff_exists.mp hsome
  unfold claimOutbox
  cases hcheck : checkExecution db s with
  | error fault => exact ⟨.error fault, nofun, fun _ _ => rfl⟩
  | ok u =>
      by_cases hvalid : tenant ≠ s.tenant ∨ limit < 1 ∨ ttl < 1 ∨ 86400000 < ttl
      · refine ⟨raise "22023" "invalid claim", nofun, fun _ _ => ?_⟩
        simp only [hvalid, if_true]
        rfl
      · refine ⟨.ok (some result), nofun, fun fuel hle => ?_⟩
        simp only [hvalid, if_false, claimLoop_mono hle hend]
        rfl

/-! ### Wake-ups -/

/-- A wake-up read at an instant: whether a claim would act then, and how long until the due
candidates next change. -/
structure WakesFor (db : Db) (s : Session) (domain : String) (n : ℤ) (w : Wakeup) : Prop where
  now : ∀ limit ttl t₁ result, QuietCall db s domain limit ttl n t₁ result →
    (w.dueNow = true ↔ Acts db result)
  next : ∀ u, w.nextUs = some u → 0 < u ∧ db.queue s domain (n + u) ≠ db.queue s domain n ∧
    ∀ v, 0 ≤ v → v < u → db.queue s domain (n + v) = db.queue s domain n
  never : w.nextUs = none → ∀ v, 0 ≤ v → db.queue s domain (n + v) = db.queue s domain n
  later : w.dueNow = false → ∀ limit ttl t₀ t₁ result, n ≤ t₀ →
    QuietCall db s domain limit ttl t₀ t₁ result →
      (Acts db result ↔ ∃ u, w.nextUs = some u ∧ n + u ≤ t₀)

theorem queue_eq_of_quiet (h : ∀ c ∈ db.outboxCandidates s.generation s.tenant domain,
    c.eligibleAt ≤ t₁ → c.eligibleAt ≤ t₀) (hle : t₀ ≤ t₁) :
    db.queue s domain t₁ = db.queue s domain t₀ := by
  unfold Db.queue
  congr 1
  refine List.filter_congr fun c hc => ?_
  exact decide_eq_decide.mpr ⟨h c hc, fun h => h.trans hle⟩

theorem queue_ne_nil {t : ℤ} : db.queue s domain t ≠ [] ↔
    ∃ c ∈ db.outboxCandidates s.generation s.tenant domain, c.eligibleAt ≤ t := by
  simp only [ne_eq, List.eq_nil_iff_forall_not_mem, not_forall, not_not, Db.queue,
    List.mem_mergeSort, List.mem_filter, decide_eq_true_eq]

theorem dueNow_iff {n : ℤ} :
    (wakeupAt (db.outboxCandidates s.generation s.tenant domain) n).dueNow = true ↔
      db.queue s domain n ≠ [] := by
  rw [queue_ne_nil, wakeupAt]
  simp only [List.any_eq_true, decide_eq_true_eq]

/-- The wake-up time is the first later instant at which a candidate falls due. -/
theorem nextUs_eq_some {cs : List Candidate} {n u : ℤ} : (wakeupAt cs n).nextUs = some u ↔
    0 < u ∧ (∃ c ∈ cs, c.eligibleAt = n + u) ∧ ∀ c ∈ cs, n < c.eligibleAt → n + u ≤ c.eligibleAt := by
  simp only [wakeupAt, Option.map_eq_some_iff, List.min?_eq_some_iff, List.mem_filter,
    List.mem_map, decide_eq_true_eq]
  constructor
  · rintro ⟨t, ⟨⟨⟨c, hc, rfl⟩, hlt⟩, hmin⟩, rfl⟩
    refine ⟨by omega, ⟨c, hc, by omega⟩, fun c' hc' hlt' => ?_⟩
    have hle := hmin c'.eligibleAt ⟨⟨c', hc', rfl⟩, hlt'⟩
    omega
  · rintro ⟨hpos, ⟨c, hc, heq⟩, hmin⟩
    refine ⟨n + u, ⟨⟨⟨c, hc, heq⟩, by omega⟩, ?_⟩, by omega⟩
    rintro t ⟨⟨c', hc', rfl⟩, hlt⟩
    exact hmin c' hc' hlt

theorem nextUs_eq_none {cs : List Candidate} {n : ℤ} (h : (wakeupAt cs n).nextUs = none) :
    ∀ c ∈ cs, c.eligibleAt ≤ n := by
  simp only [wakeupAt, Option.map_eq_none_iff, List.min?_eq_none_iff, List.filter_eq_nil_iff,
    List.mem_map, decide_eq_true_eq, not_lt] at h
  exact fun c hc => h _ ⟨c, hc, rfl⟩

theorem wakesFor (hs : db.Sound) (n : ℤ) : WakesFor db s domain n
    (wakeupAt (db.outboxCandidates s.generation s.tenant domain) n) := by
  constructor
  case now =>
    intro limit ttl t₁ result hcall
    rw [dueNow_iff, hcall.acts_iff hs]
  case next =>
    intro u hu
    obtain ⟨hpos, ⟨c, hc, heq⟩, hmin⟩ := nextUs_eq_some.mp hu
    refine ⟨hpos, fun hsame => ?_, fun v hv hlt => ?_⟩
    · have hin : c ∈ db.queue s domain (n + u) :=
        (mem_queue hs).mpr ⟨(Db.mem_outboxCandidates hs).mp hc, heq.le⟩
      rw [hsame] at hin
      have hle := ((mem_queue hs).mp hin).2
      omega
    · refine queue_eq_of_quiet (fun c hc hle => ?_) (by omega)
      by_contra hlater
      have hge := hmin c hc (not_le.mp hlater)
      omega
  case never =>
    intro hnone v hv
    exact queue_eq_of_quiet (fun c hc _ => nextUs_eq_none hnone c hc) (by omega)
  case later =>
    intro hdue limit ttl t₀ t₁ result hle hcall
    rw [hcall.acts_iff hs, queue_ne_nil]
    have hidle : ∀ c ∈ db.outboxCandidates s.generation s.tenant domain, n < c.eligibleAt := by
      intro c hc
      by_contra hnot
      have hnow := dueNow_iff.mpr (queue_ne_nil.mpr ⟨c, hc, not_lt.mp hnot⟩)
      rw [hdue] at hnow
      cases hnow
    constructor
    · rintro ⟨c, hc, hc_due⟩
      cases hnext : (wakeupAt (db.outboxCandidates s.generation s.tenant domain) n).nextUs with
      | none =>
          have hpast := nextUs_eq_none hnext c hc
          have := hidle c hc
          omega
      | some u =>
          obtain ⟨-, -, hmin⟩ := nextUs_eq_some.mp hnext
          exact ⟨u, rfl, (hmin c hc (hidle c hc)).trans hc_due⟩
    · rintro ⟨u, hu, hge⟩
      obtain ⟨-, ⟨c, hc, heq⟩, -⟩ := nextUs_eq_some.mp hu
      exact ⟨c, hc, heq ▸ hge⟩

end

/-! ### The main result -/

/-- In every reachable database the two candidate queries agree, a claim ends and, while
nothing falls due during the call, takes the first due candidates, and a wake-up tells when such
a claim would next act. -/
theorem candidates_claims_wakeups {digest : Mutation → Rss.Messaging.Inbox.Digest} {db : Db}
    (h : db.Reachable digest) :
    (∀ g tenant domain c, c ∈ db.outboxCandidates g tenant domain ↔
      c ∈ db.outboxCandidatesPlain g tenant domain) ∧
    (∀ s tenant domain limit ttl env, ∃ n reply, reply ≠ .ok none ∧
      ∀ fuel, n ≤ fuel → claimOutbox db s tenant domain limit ttl env fuel = reply) ∧
    (∀ s domain limit ttl t₀ t₁ result, QuietCall db s domain limit ttl t₀ t₁ result →
      ClaimsFirst db s domain limit.toNat ttl t₀ t₁ result) ∧
    ∀ s domain env w, nextOutboxWakeup db s s.tenant domain env = .ok w →
      WakesFor db s domain env.tick.now w := by
  have hs := h.sound
  refine ⟨fun g tenant domain c => Db.candidates_agree hs,
    fun s tenant domain limit ttl env => claimOutbox_ends hs tenant limit env,
    fun s domain limit ttl t₀ t₁ result hcall => hcall.first hs, ?_⟩
  intro s domain env w hw
  obtain ⟨-, -, hw⟩ := bind_eq_ok.mp hw
  rw [if_neg (not_not.mpr rfl)] at hw
  cases hw
  exact wakesFor hs _

/-! ### A call in which a row falls due

The counterexample is evaluated with insertion sort, which the kernel can run. -/

/-- The loop of the claim with another way to sort the same rows. -/
def sortedLoop (s : Session) (domain : String) (limit : ℕ) (ttl : ℤ) :
    ℕ → Claiming → Option Claiming
  | 0, _ => none
  | fuel + 1, st =>
      let rows := (((dueRows (st.db.outboxCandidates s.generation s.tenant domain)
        st.env).1).insertionSort fun a b => a.seq ≤ b.seq).take (limit - st.claimed.length)
      let next := rows.foldl (claimRow s ttl) (st.scanned s domain)
      if limit ≤ next.claimed.length ∨ (!rows.isEmpty) = false then some next
      else sortedLoop s domain limit ttl fuel next

/-- Rows of different sources are sorted in one way only. -/
theorem insertionSort_seq {cs : List Candidate} (h : (cs.map Candidate.seq).Nodup) :
    (cs.insertionSort fun a b => a.seq ≤ b.seq) = cs.mergeSort fun a b => a.seq ≤ b.seq := by
  have hstrict {l : List Candidate} (hperm : l.Perm cs)
      (hle : l.Pairwise fun a b => a.seq ≤ b.seq) : l.Pairwise fun a b => a.seq < b.seq := by
    have hnodup := (hperm.map Candidate.seq).nodup_iff.mpr h
    exact (hle.and (List.pairwise_map.mp hnodup)).imp fun hab => lt_of_le_of_ne hab.1 hab.2
  refine eq_of_pairwise_seq ?_ ?_ fun c => ?_
  · have htotal : Std.Total fun a b : Candidate => a.seq ≤ b.seq := ⟨fun a b => le_total a.seq b.seq⟩
    have htrans : IsTrans Candidate fun a b => a.seq ≤ b.seq := ⟨fun _ _ _ => le_trans⟩
    exact hstrict (List.perm_insertionSort _ _) (List.pairwise_insertionSort _ _)
  · exact hstrict (List.mergeSort_perm _ _) (pairwise_mergeSort_seq cs)
  · rw [(List.perm_insertionSort _ _).mem_iff, List.mem_mergeSort]

theorem sortedLoop_eq {s : Session} {domain : String} {limit fuel : ℕ} {ttl : ℤ} {st : Claiming}
    (hs : st.db.Sound) :
    sortedLoop s domain limit ttl fuel st = claimLoop s domain limit ttl fuel st := by
  induction fuel generalizing st with
  | zero => rfl
  | succ fuel ih =>
      have hall : ((st.db.outboxCandidates s.generation s.tenant domain).map
          Candidate.seq).Nodup := Db.nodup_outboxCandidates hs
      have hsort := insertionSort_seq (((dueRows_sublist _ st.env).map Candidate.seq).nodup hall)
      have hturns : Turns s ttl (st.scanned s domain) (pageRows s domain limit st)
        (claimPage s domain limit ttl st).2 := turns_claimPage hs
      rw [sortedLoop, claimLoop]
      dsimp only
      rw [← ih (hturns.sound hs), hsort]
      rfl

/-- `claimOutbox` over the sorted loop, for at most nine pages. -/
def sortedOutbox (db : Db) (s : Session) (domain : String) (limit ttl : ℤ) (env : Env) :
    Outcome Claiming := do
  checkExecution db s
  if limit < 1 ∨ ttl < 1 ∨ 86400000 < ttl then raise "22023" "invalid claim"
  else okOr (sortedLoop s domain limit.toNat ttl 9 ⟨db, env, []⟩) .checkViolation

theorem claimOutbox_of_sorted {db : Db} {s : Session} {domain : String} {limit ttl : ℤ} {env : Env}
    {result : Claiming} (hs : db.Sound)
    (h : sortedOutbox db s domain limit ttl env = .ok result) :
    claimOutbox db s s.tenant domain limit ttl env 9 = .ok (some result) := by
  obtain ⟨u, hcheck, h⟩ := bind_eq_ok.mp h
  split at h
  · cases h
  · next hvalid =>
      rw [sortedLoop_eq hs] at h
      refine bind_eq_ok.mpr ⟨u, hcheck, ?_⟩
      rw [if_neg fun hbad => hvalid (hbad.resolve_left (not_not.mpr rfl)), okOr_eq_ok.mp h]
      rfl

theorem Db.Reachable.next {digest : Mutation → Rss.Messaging.Inbox.Digest} {db db' : Db}
    (h : db.Reachable digest)
    (hstep : ∀ issued, ∃ e issued', Step digest ⟨db, issued⟩ e ⟨db', issued'⟩) :
    db'.Reachable digest := by
  obtain ⟨storage, epochs, events, issued, hrun⟩ := h
  obtain ⟨e, issued', hlast⟩ := hstep issued
  exact ⟨storage, epochs, events ++ [e], issued', hrun.snoc hlast⟩

/-- A relay of the given epoch. -/
def relay (epoch : ℤ) : Session := ⟨1, ⟨⟨1, 1⟩, epoch⟩⟩

def order (id : String) : NewMessage := ⟨1, id, "orders", none, "order", none, 7⟩

/-- The clock stands still for the given number of readings and then moves on. -/
def pausing (now : ℤ) (readings elapsed : ℕ) : Env :=
  ⟨⟨now, fun i => if i = readings then elapsed else 0⟩, fun i => BitVec.ofNat 128 (i + 1)⟩

/-- The tables after the settlement of a claim that is still held. -/
def settled (db : Db) (s : Session) (c : ClaimRef) (d : Disposition) (now : ℤ) : Outcome Db := do
  let reply ← settleOutbox db s s.tenant c d (pausing now 0 0)
  if reply.2.1 = .settled then .ok reply.1 else .error .checkViolation

/-- Two messages are claimed for a day; the second goes through, and at the end of the day the
first is to be tried again in a second. A plan delivers the second once more, and a third has
arrived. -/
def endOfDay : Outcome Db := do
  let a ← appendOutbox (.initial (some ⟨1, 1⟩) (Table.empty.insertNew 1 1)) (relay 1) 1 1
    (order "a") 0
  let b ← appendOutbox a.1 (relay 1) 1 2 (order "b") 0
  let claimed ← sortedOutbox b.1 (relay 1) "orders" 2 86400000 (pausing 0 0 0)
  let sent ← settled claimed.db (relay 1) ⟨2, 2, automaticWindow, none⟩ .published 0
  let retried ← settled sent (relay 1) ⟨1, 1, automaticWindow, none⟩ .retry (automaticWindow - 1)
  let planned ← retried.applyDr (relay 1) 5 5 (.database [⟨"b", 7, 1⟩]) 1
    ⟨automaticWindow - 1, fun _ => 0⟩
  let c ← appendOutbox planned.1 (relay 2) 2 3 (order "c") (automaticWindow - 1)
  .ok c.1

theorem reachable_settled {digest : Mutation → Rss.Messaging.Inbox.Digest} {db db' : Db}
    {s : Session} {c : ClaimRef} {d : Disposition} {now : ℤ} (h : db.Reachable digest)
    (hrun : settled db s c d now = .ok db') : db'.Reachable digest := by
  obtain ⟨⟨next, reply, env⟩, hsettle, hrun⟩ := bind_eq_ok.mp hrun
  split at hrun
  · next hreply =>
      cases hrun
      cases hreply
      exact h.next fun issued => ⟨_, _, .settle hsettle⟩
  · cases hrun

theorem reachable_endOfDay {db : Db} (h : endOfDay = .ok db) : db.Reachable fun _ => 0 := by
  obtain ⟨a, ha, h⟩ := bind_eq_ok.mp h
  obtain ⟨b, hb, h⟩ := bind_eq_ok.mp h
  obtain ⟨claimed, hclaimed, h⟩ := bind_eq_ok.mp h
  obtain ⟨sent, hsent, h⟩ := bind_eq_ok.mp h
  obtain ⟨retried, hretried, h⟩ := bind_eq_ok.mp h
  obtain ⟨planned, hplanned, h⟩ := bind_eq_ok.mp h
  obtain ⟨c, hc, h⟩ := bind_eq_ok.mp h
  cases h
  have hstart : (Db.initial (some ⟨1, 1⟩) (Table.empty.insertNew 1 1)).Reachable fun _ => 0 :=
    ⟨_, _, [], [], .nil⟩
  have hb' := (hstart.next fun issued => ⟨_, _, .append ha⟩).next fun issued => ⟨_, _, .append hb⟩
  have hclaim := hb'.next fun issued => ⟨_, _, .claim (claimOutbox_of_sorted hb'.sound hclaimed)⟩
  have hretry := reachable_settled (reachable_settled hclaim hsent) hretried
  exact (hretry.next fun issued => ⟨_, _, .plan hplanned⟩).next fun issued => ⟨_, _, .append hc⟩

/-- The call at the end of the day, in which the second passes between the two pages. -/
def lateReply : Outcome (List ℤ) := do
  let db ← endOfDay
  let result ← sortedOutbox db (relay 2) "orders" 2 10000 (pausing automaticWindow 5 1000000)
  .ok (result.claimed.map Claimed.seq)

/-- The first page blocks the second message and takes the third; the next one finds the first
message due and returns it last, so the reply is in no queue's order. -/
theorem late_row_listed_last : ¬ ∀ db : Db, db.Reachable (fun _ => 0) →
    ∀ s domain limit ttl env fuel result,
      claimOutbox db s s.tenant domain limit ttl env fuel = .ok (some result) →
      ∃ t, result.claimed.map Claimed.seq =
        (((db.queue s domain t).filter fun c => !db.lapsed t c).take limit.toNat).map
          Candidate.seq := by
  intro hall
  have hreply : lateReply = .ok [3, 1] := by decide +kernel
  obtain ⟨db, hdb, h⟩ := bind_eq_ok.mp hreply
  obtain ⟨result, hend, h⟩ := bind_eq_ok.mp h
  have hreachable := reachable_endOfDay hdb
  obtain ⟨t, ht⟩ := hall db hreachable _ _ _ _ _ _ _ (claimOutbox_of_sorted hreachable.sound hend)
  rw [Except.ok.inj h] at ht
  have hordered : (((db.queue (relay 2) "orders" t).filter fun c => !db.lapsed t c).take
      (2 : ℤ).toNat).Pairwise fun a b => a.seq < b.seq :=
    ((pairwise_queue hreachable.sound t).sublist List.filter_sublist).sublist
      (List.take_sublist _ _)
  have hpairs := List.pairwise_map.mpr hordered
  rw [← ht] at hpairs
  exact absurd hpairs (by decide)

/-- The wake-up at the end of that day. -/
theorem endOfDay_wakes : ∃ db, endOfDay = .ok db ∧
    WakesFor db (relay 2) "orders" automaticWindow ⟨true, some 999999⟩ := by
  have hwake : (endOfDay >>= fun db => nextOutboxWakeup db (relay 2) 1 "orders"
      (pausing automaticWindow 0 0)) = .ok ⟨true, some 999999⟩ := by decide +kernel
  obtain ⟨db, hdb, hw⟩ := bind_eq_ok.mp hwake
  exact ⟨db, hdb, (candidates_claims_wakeups (reachable_endOfDay hdb)).2.2.2 (relay 2) "orders"
    (pausing automaticWindow 0 0) _ hw⟩

end Rss.Outbox
