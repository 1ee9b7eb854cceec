import Rss.Verification.Outbox.Claiming

/-! # Claims while nothing falls due

When no candidate falls due and no delivery window ends between the first reading of the clock
and the last, a claim takes the due candidates in the order of `seq`, blocks those whose window
is over, and stops at the limit. -/

namespace Rss.Outbox

open Rss.Sql

/-- The due candidates in the order of `seq`. -/
def Db.queue (db : Db) (s : Session) (domain : String) (t : ℤ) : List Candidate :=
  ((db.outboxCandidates s.generation s.tenant domain).filter fun c => c.eligibleAt ≤ t).mergeSort
    fun a b => a.seq ≤ b.seq

/-- The delivery window of a recovery candidate is over. -/
def Db.lapsed (db : Db) (t : ℤ) (c : Candidate) : Bool :=
  c.operation.isSome && (db.sources.get? c.seq).any fun src => src.expired t

/-- A list up to the place of the `n`-th element that counts. -/
def upTo (counts : Candidate → Bool) : ℕ → List Candidate → List Candidate
  | _, [] => []
  | 0, _ => []
  | n + 1, c :: cs => c :: upTo counts (if counts c then n else n + 1) cs

section

variable {counts : Candidate → Bool}

@[simp] theorem upTo_zero (cs : List Candidate) : upTo counts 0 cs = [] := by
  cases cs <;> rfl

@[simp] theorem upTo_nil (n : ℕ) : upTo counts n [] = [] := by
  cases n <;> rfl

/-- The counted elements of the prefix are the first `n`. -/
theorem filter_upTo (n : ℕ) (cs : List Candidate) :
    (upTo counts n cs).filter counts = (cs.filter counts).take n := by
  induction cs generalizing n with
  | nil => simp
  | cons c cs ih =>
      cases n with
      | zero => simp
      | succ n =>
          rw [upTo]
          cases hc : counts c with
          | true => simp [hc, ih]
          | false => simp [hc, ih]

/-- A page no longer than what is left lies inside the prefix. -/
theorem upTo_append {n : ℕ} {page rest : List Candidate} (h : page.length ≤ n) :
    upTo counts n (page ++ rest) = page ++ upTo counts (n - (page.filter counts).length) rest := by
  induction page generalizing n with
  | nil => simp
  | cons c page ih =>
      cases n with
      | zero => simp at h
      | succ n =>
          rw [List.length_cons, Nat.succ_le_succ_iff] at h
          rw [List.cons_append, upTo]
          cases hc : counts c with
          | true => simp [hc, ih h]
          | false =>
              have hle : page.length ≤ n + 1 := h.trans (Nat.le_succ n)
              simp [hc, ih hle]

end

/-! ### The queue -/

section

variable {db : Db} {s : Session} {domain : String}

theorem mem_queue (hs : db.Sound) {t : ℤ} {c : Candidate} :
    c ∈ db.queue s domain t ↔
      db.IsCandidate s.generation s.tenant domain c ∧ c.eligibleAt ≤ t := by
  rw [Db.queue, List.mem_mergeSort, List.mem_filter, Db.mem_outboxCandidates hs,
    decide_eq_true_eq]

theorem pairwise_mergeSort_seq (cs : List Candidate) :
    (cs.mergeSort fun a b => a.seq ≤ b.seq).Pairwise fun a b => a.seq ≤ b.seq := by
  refine (List.pairwise_mergeSort ?_ ?_ cs).imp of_decide_eq_true
  · intro a b c hab hbc
    exact decide_eq_true (le_trans (of_decide_eq_true hab) (of_decide_eq_true hbc))
  · intro a b
    rw [Bool.or_eq_true]
    exact (le_total a.seq b.seq).imp decide_eq_true decide_eq_true

theorem pairwise_queue (hs : db.Sound) (t : ℤ) :
    (db.queue s domain t).Pairwise fun a b => a.seq < b.seq := by
  have hsorted : (db.queue s domain t).Pairwise fun a b => a.seq ≤ b.seq :=
    pairwise_mergeSort_seq _
  have hall : ((db.outboxCandidates s.generation s.tenant domain).map Candidate.seq).Nodup :=
    Db.nodup_outboxCandidates hs
  have hnodup : ((db.queue s domain t).map Candidate.seq).Nodup :=
    (((List.mergeSort_perm _ _).map Candidate.seq).nodup_iff).mpr
      ((List.filter_sublist.map Candidate.seq).nodup hall)
  refine (hsorted.and (List.pairwise_map.mp hnodup)).imp fun hab => ?_
  exact lt_of_le_of_ne hab.1 hab.2

theorem nodup_of_pairwise {cs : List Candidate} (h : cs.Pairwise fun a b => a.seq < b.seq) :
    cs.Nodup :=
  h.imp fun hlt heq => absurd (congrArg Candidate.seq heq) hlt.ne

/-- Lists in the order of `seq` with the same elements are equal. -/
theorem eq_of_pairwise_seq {cs cs' : List Candidate}
    (h : cs.Pairwise fun a b => a.seq < b.seq) (h' : cs'.Pairwise fun a b => a.seq < b.seq)
    (hmem : ∀ c, c ∈ cs ↔ c ∈ cs') : cs = cs' := by
  have hperm := (List.perm_ext_iff_of_nodup (nodup_of_pairwise h) (nodup_of_pairwise h')).mpr hmem
  refine List.Perm.eq_of_pairwise ?_ h h' hperm
  intro a b _ _ hab hba
  exact absurd (hab.trans hba) (lt_irrefl _)

/-- A scan that passes no instant at which a candidate falls due finds the same rows as one at
a fixed time. -/
theorem dueRows_eq {cs : List Candidate} {env : Env} {t₀ t₁ : ℤ}
    (hquiet : ∀ c ∈ cs, c.eligibleAt ≤ t₁ → c.eligibleAt ≤ t₀) (hfirst : t₀ ≤ env.tick.now)
    (hlast : (dueRows cs env).2.now ≤ t₁) :
    (dueRows cs env).1 = cs.filter fun c => c.eligibleAt ≤ t₀ := by
  induction cs generalizing env with
  | nil => rfl
  | cons c cs ih =>
      have hnow : env.tick.now ≤ t₁ := (le_dueRows cs env.tick).trans hlast
      have hrest := ih (fun c' hc' => hquiet c' (List.mem_cons_of_mem _ hc'))
        (hfirst.trans (Clock.le_tick env.tick.clock)) hlast
      have hiff : c.eligibleAt ≤ env.tick.now ↔ c.eligibleAt ≤ t₀ :=
        ⟨fun h => hquiet c List.mem_cons_self (h.trans hnow), fun h => h.trans hfirst⟩
      rw [dueRows, List.filter_cons]
      simp only [hrest, hiff, decide_eq_true_eq]

/-! ### A turn in a quiet window -/

/-- From one time to the other nothing falls due, no window ends, and the tokens to come are
not those of leases already over. -/
structure Db.Calm (db : Db) (s : Session) (domain : String) (tokens : ℕ → Uuid) (t₀ t₁ : ℤ) :
    Prop where
  due : ∀ c, db.IsCandidate s.generation s.tenant domain c → c.eligibleAt ≤ t₁ → c.eligibleAt ≤ t₀
  window : ∀ c, db.IsCandidate s.generation s.tenant domain c → c.eligibleAt ≤ t₁ →
    db.lapsed t₁ c = true → db.lapsed t₀ c = true
  tokens : ∀ c src old i, db.IsCandidate s.generation s.tenant domain c → c.eligibleAt ≤ t₁ →
    db.sources.get? c.seq = some src → src.status = .publishing old → old.token ≠ tokens i

variable {ttl t₀ t₁ : ℤ} {st st' : Claiming} {r : Candidate} {rows rest : List Candidate}

/-- Up to the end of the window a turn takes its row out of the due candidates, and no more. -/
theorem Turn.due_iff (h : Turn s ttl st r st') (hs : st.db.Sound)
    (hr : st.db.IsCandidate s.generation s.tenant domain r) (hdue : r.eligibleAt ≤ t₁)
    (hcalm : st.db.Calm s domain st.env.tokens t₀ t₁)
    (hlong : t₁ < st.env.tick.now + milliseconds ttl) (c : Candidate) :
    st'.db.IsCandidate s.generation s.tenant domain c ∧ c.eligibleAt ≤ t₁ ↔
      (st.db.IsCandidate s.generation s.tenant domain c ∧ c.eligibleAt ≤ t₁) ∧ c.seq ≠ r.seq := by
  constructor
  · rintro ⟨hc, hle⟩
    have hne : c.seq ≠ r.seq := by
      intro hseq
      have hlater := h.later hs hr
        (fun src old hsrc hold => hcalm.tokens r src old 0 hr hdue hsrc hold) hc hseq
      omega
    refine ⟨⟨h.turned.symm.isCandidate hc fun r' hr' => ?_, hle⟩, hne⟩
    rw [List.mem_singleton] at hr'
    exact hr' ▸ hne.symm
  · rintro ⟨⟨hc, hle⟩, hne⟩
    refine ⟨h.turned.isCandidate hc fun r' hr' => ?_, hle⟩
    rw [List.mem_singleton] at hr'
    exact hr' ▸ hne.symm

theorem Turn.source_eq (h : Turn s ttl st r st') {seq : ℤ} (hne : seq ≠ r.seq) :
    st'.db.sources.get? seq = st.db.sources.get? seq := by
  refine h.turned.sources seq fun r' hr' _ => ?_
  rw [List.mem_singleton] at hr'
  exact hr' ▸ hne.symm

theorem Turn.lapsed_eq (h : Turn s ttl st r st') {c : Candidate} (hne : c.seq ≠ r.seq) (t : ℤ) :
    st'.db.lapsed t c = st.db.lapsed t c := by
  rw [Db.lapsed, Db.lapsed, h.source_eq hne]

theorem Turn.tokens_eq (h : Turn s ttl st r st') (i : ℕ) :
    ∃ j, st'.env.tokens i = st.env.tokens j := by
  cases h with
  | source => exact ⟨i + 1, rfl⟩
  | member => exact ⟨i + 1, rfl⟩
  | blocked => exact ⟨i, rfl⟩

theorem Turn.calm (h : Turn s ttl st r st') (hs : st.db.Sound)
    (hr : st.db.IsCandidate s.generation s.tenant domain r) (hdue : r.eligibleAt ≤ t₁)
    (hcalm : st.db.Calm s domain st.env.tokens t₀ t₁)
    (hlong : t₁ < st.env.tick.now + milliseconds ttl) :
    st'.db.Calm s domain st'.env.tokens t₀ t₁ := by
  have hiff := h.due_iff hs hr hdue hcalm hlong
  constructor
  case due =>
    intro c hc hle
    obtain ⟨⟨hc, -⟩, -⟩ := (hiff c).mp ⟨hc, hle⟩
    exact hcalm.due c hc hle
  case window =>
    intro c hc hle
    obtain ⟨⟨hc, -⟩, hne⟩ := (hiff c).mp ⟨hc, hle⟩
    rw [h.lapsed_eq hne, h.lapsed_eq hne]
    exact hcalm.window c hc hle
  case tokens =>
    intro c src old i hc hle hsrc hold
    obtain ⟨⟨hc, -⟩, hne⟩ := (hiff c).mp ⟨hc, hle⟩
    obtain ⟨j, hj⟩ := h.tokens_eq i
    rw [h.source_eq hne] at hsrc
    rw [hj]
    exact hcalm.tokens c src old j hc hle hsrc hold

/-- A turn over the head of the queue leaves its tail. -/
theorem Turn.queue (h : Turn s ttl st r st') (hs : st.db.Sound)
    (hqueue : st.db.queue s domain t₀ = r :: rest)
    (hcalm : st.db.Calm s domain st.env.tokens t₀ t₁) (hwindow : t₀ ≤ t₁)
    (hlong : t₁ < st.env.tick.now + milliseconds ttl) : st'.db.queue s domain t₀ = rest := by
  have hpairwise : (r :: rest).Pairwise fun a b => a.seq < b.seq := hqueue ▸ pairwise_queue hs t₀
  obtain ⟨hhead, htail⟩ := List.pairwise_cons.mp hpairwise
  have hmem (c : Candidate) : c ∈ r :: rest ↔
      st.db.IsCandidate s.generation s.tenant domain c ∧ c.eligibleAt ≤ t₀ := by
    rw [← hqueue, mem_queue hs]
  obtain ⟨hr, hr_due⟩ := (hmem r).mp List.mem_cons_self
  have hiff := h.due_iff hs hr (hr_due.trans hwindow) hcalm hlong
  refine eq_of_pairwise_seq (pairwise_queue (h.sound hs) t₀) htail fun c => ?_
  rw [mem_queue (h.sound hs)]
  constructor
  · rintro ⟨hc, hle⟩
    obtain ⟨⟨hc, -⟩, hne⟩ := (hiff c).mp ⟨hc, hle.trans hwindow⟩
    have hin := (hmem c).mpr ⟨hc, hle⟩
    exact List.mem_of_ne_of_mem (fun heq => hne (congrArg Candidate.seq heq)) hin
  · intro hc
    obtain ⟨hcandidate, hle⟩ := (hmem c).mp (List.mem_cons_of_mem _ hc)
    have hall := (hiff c).mpr ⟨⟨hcandidate, hle.trans hwindow⟩, (hhead c hc).ne'⟩
    exact ⟨hall.1, hle⟩

/-! ### What became of a row -/

/-- A candidate got a lease that the reply lists, or lost its member to the window. -/
inductive Db.Took (db : Db) (s : Session) (ttl t₀ t₁ : ℤ) (claimed : List Claimed) (db' : Db) :
    Candidate → Prop where
  | source {seq e n : ℤ} {src : Source} {lease : Lease}
      (source : db.sources.get? seq = some src) (within : t₀ ≤ n ∧ n ≤ t₁)
      (term : lease.until' = n + milliseconds ttl) (listed : ⟨seq, lease, none⟩ ∈ claimed)
      (row : db'.sources.get? seq = some (src.claim s lease n)) :
      Took db s ttl t₀ t₁ claimed db' ⟨seq, none, e⟩
  | member {seq e n : ℤ} {src : Source} {k : MemberKey} {m : Member} {lease : Lease}
      (source : db.sources.get? seq = some src) (current : src.expired t₀ = false)
      (tenant : k.tenant = s.tenant) (member : db.members.get? k = some m)
      (seq_eq : m.outboxSeq = some seq) (within : t₀ ≤ n ∧ n ≤ t₁)
      (term : lease.until' = n + milliseconds ttl)
      (listed : ⟨seq, lease, some k.operation⟩ ∈ claimed)
      (row : db'.members.get? k = some { m with status := .publishing lease }) :
      Took db s ttl t₀ t₁ claimed db' ⟨seq, some k.operation, e⟩
  | blocked {seq e : ℤ} {src : Source} {k : MemberKey} {m : Member}
      (source : db.sources.get? seq = some src) (expired : src.expired t₀ = true)
      (tenant : k.tenant = s.tenant) (member : db.members.get? k = some m)
      (seq_eq : m.outboxSeq = some seq) (pending : m.status.open' = true)
      (row : db'.members.get? k = some { m with status := .blocked .deadlineExpired }) :
      Took db s ttl t₀ t₁ claimed db' ⟨seq, some k.operation, e⟩

variable {claimed claimed' : List Claimed} {db' db'' : Db} {c : Candidate}

/-- Turns over other rows before do not matter. -/
theorem Db.Took.before (h : db'.Took s ttl t₀ t₁ claimed db'' c) (hturned : db.Turned s rows db')
    (hrows : ∀ r ∈ rows, r.seq ≠ c.seq) : db.Took s ttl t₀ t₁ claimed db'' c := by
  have hsource {seq : ℤ} (hseq : ∀ r ∈ rows, r.seq ≠ seq) :
      db.sources.get? seq = db'.sources.get? seq :=
    hturned.symm.sources seq fun r hr _ => hseq r hr
  have hmember {seq : ℤ} {k : MemberKey} {m : Member} (hseq : ∀ r ∈ rows, r.seq ≠ seq)
      (hm : db'.members.get? k = some m) (hm_seq : m.outboxSeq = some seq) :
      db.members.get? k = some m :=
    hturned.symm.members k m hm fun r hr _ _ heq =>
      hseq r hr (Option.some.inj (heq.symm.trans hm_seq))
  cases h with
  | source hsrc hwithin hterm hlisted hrow =>
      exact .source ((hsource hrows).trans hsrc) hwithin hterm hlisted hrow
  | member hsrc hcurrent ht hm hseq hwithin hterm hlisted hrow =>
      exact .member ((hsource hrows).trans hsrc) hcurrent ht (hmember hrows hm hseq) hseq hwithin
        hterm hlisted hrow
  | blocked hsrc hexpired ht hm hseq hopen hrow =>
      exact .blocked ((hsource hrows).trans hsrc) hexpired ht (hmember hrows hm hseq) hseq hopen
        hrow

/-- Nor do turns over other rows afterwards. -/
theorem Db.Took.after (h : db.Took s ttl t₀ t₁ claimed db' c) (hturned : db'.Turned s rows db'')
    (hrows : ∀ r ∈ rows, r.seq ≠ c.seq) (hsub : ∀ x ∈ claimed, x ∈ claimed') :
    db.Took s ttl t₀ t₁ claimed' db'' c := by
  have hmember {seq : ℤ} {k : MemberKey} {m : Member} (hseq : ∀ r ∈ rows, r.seq ≠ seq)
      (hm : db'.members.get? k = some m) (hm_seq : m.outboxSeq = some seq) :
      db''.members.get? k = some m :=
    hturned.members k m hm fun r hr _ _ heq =>
      hseq r hr (Option.some.inj (heq.symm.trans hm_seq))
  cases h with
  | source hsrc hwithin hterm hlisted hrow =>
      refine .source hsrc hwithin hterm (hsub _ hlisted) ?_
      exact (hturned.sources _ fun r hr _ => hrows r hr).trans hrow
  | member hsrc hcurrent ht hm hseq hwithin hterm hlisted hrow =>
      exact .member hsrc hcurrent ht hm hseq hwithin hterm (hsub _ hlisted)
        (hmember hrows hrow hseq)
  | blocked hsrc hexpired ht hm hseq hopen hrow =>
      exact .blocked hsrc hexpired ht hm hseq hopen (hmember hrows hrow hseq)

/-- A turn claims its row, or blocks it when its window is over. -/
theorem Turn.took (h : Turn s ttl st r st')
    (hr : st.db.IsCandidate s.generation s.tenant domain r) (hdue : r.eligibleAt ≤ t₁)
    (hcalm : st.db.Calm s domain st.env.tokens t₀ t₁) (hfirst : t₀ ≤ st.env.tick.now)
    (hlast : st.env.tick.now ≤ t₁) :
    st.db.Took s ttl t₀ t₁ st'.claimed st'.db r ∧
      st'.claimed.map (fun c => (c.seq, c.operation)) =
        st.claimed.map (fun c => (c.seq, c.operation)) ++
          ([r].filter fun c => !st.db.lapsed t₀ c).map fun c => (c.seq, c.operation) := by
  have hexpired (src : Source) {n n' : ℤ} (hle : n ≤ n') (h : src.expired n = true) :
      src.expired n' = true := by
    unfold Source.expired at h ⊢
    split at h
    · rfl
    · exact decide_eq_true ((of_decide_eq_true h).trans hle)
  cases h with
  | @source seq e src hsrc hclaim =>
      have hlisted : (⟨seq, st.lease ttl, none⟩ : Claimed) ∈
          st.claimed ++ [⟨seq, st.lease ttl, none⟩] :=
        List.mem_append_right _ (List.mem_singleton_self _)
      refine ⟨.source hsrc ⟨hfirst, hlast⟩ rfl hlisted ?_, ?_⟩
      · rw [Table.get?_modify_self, hsrc, Option.map_some]
      · simp [Db.lapsed]
  | @member seq e src k m hsrc ht hm hseq hclaim hcurrent =>
      have hcurrent₀ : src.expired t₀ = false := by
        rw [← Bool.not_eq_true]
        intro h₀
        rw [hexpired src hfirst h₀] at hcurrent
        cases hcurrent
      have hlisted : (⟨seq, st.lease ttl, some k.operation⟩ : Claimed) ∈
          st.claimed ++ [⟨seq, st.lease ttl, some k.operation⟩] :=
        List.mem_append_right _ (List.mem_singleton_self _)
      refine ⟨.member hsrc hcurrent₀ ht hm hseq ⟨hfirst, hlast⟩ rfl hlisted ?_, ?_⟩
      · rw [Table.get?_modify_self, hm, Option.map_some]
      · simp [Db.lapsed, hsrc, hcurrent₀]
  | @blocked seq e src k m hsrc ht hm hseq hclaim hlapsed =>
      have hwindow := hcalm.window _ hr hdue
      simp only [Db.lapsed, hsrc, Option.isSome_some, Bool.true_and, Option.any_some] at hwindow
      have hlapsed₀ := hwindow (hexpired src hlast hlapsed)
      refine ⟨.blocked hsrc hlapsed₀ ht hm hseq (open_of_claimable hclaim) ?_, ?_⟩
      · rw [Table.get?_modify_self, hm, Option.map_some]
      · simp [Db.lapsed, hsrc, hlapsed₀]

/-! ### Runs of turns -/

theorem Turn.claimed_sub (h : Turn s ttl st r st') : ∀ x ∈ st.claimed, x ∈ st'.claimed := by
  intro x hx
  cases h with
  | source | member => exact List.mem_append_left _ hx
  | blocked => exact hx

theorem Turns.claimed_sub (h : Turns s ttl st rows st') : ∀ x ∈ st.claimed, x ∈ st'.claimed := by
  induction h with
  | nil st => exact fun _ hx => hx
  | cons first rest ih => exact fun x hx => ih x (first.claimed_sub x hx)

theorem Turn.tick_le (h : Turn s ttl st r st') :
    st.env.tick.now ≤ st'.env.now ∧ st.env.tick.now ≤ st'.env.tick.now := by
  cases h <;> exact ⟨le_rfl, Clock.le_tick _⟩

/-- How far the loop has come from a queue, in a quiet window. -/
structure Progress (s : Session) (domain : String) (ttl t₀ t₁ : ℤ) (start : Claiming)
    (done rest : List Candidate) (st : Claiming) : Prop where
  sound : st.db.Sound
  calm : st.db.Calm s domain st.env.tokens t₀ t₁
  queue : st.db.queue s domain t₀ = rest
  reading : t₀ ≤ st.env.tick.now
  turned : start.db.Turned s done st.db
  took : ∀ c ∈ done, start.db.Took s ttl t₀ t₁ st.claimed st.db c
  apart : ∀ c ∈ done, ∀ c' ∈ rest, c.seq ≠ c'.seq
  claimed : st.claimed.map (fun c => (c.seq, c.operation)) =
    start.claimed.map (fun c => (c.seq, c.operation)) ++
      (done.filter fun c => !start.db.lapsed t₀ c).map fun c => (c.seq, c.operation)

variable {start : Claiming} {done : List Candidate}

theorem Turn.progress (h : Turn s ttl st r st')
    (hp : Progress s domain ttl t₀ t₁ start done (r :: rest) st) (hwindow : t₀ ≤ t₁)
    (hlong : t₁ < t₀ + milliseconds ttl) (hlast : st.env.tick.now ≤ t₁) :
    Progress s domain ttl t₀ t₁ start (done ++ [r]) rest st' := by
  have hin : r ∈ st.db.queue s domain t₀ := hp.queue ▸ List.mem_cons_self
  obtain ⟨hr, hr_due⟩ := (mem_queue hp.sound).mp hin
  have hdue := hr_due.trans hwindow
  have hlong' : t₁ < st.env.tick.now + milliseconds ttl := by
    have := hp.reading
    omega
  have hpairwise : (r :: rest).Pairwise fun a b => a.seq < b.seq :=
    hp.queue ▸ pairwise_queue hp.sound t₀
  have hapart : ∀ c ∈ done, c.seq ≠ r.seq := fun c hc => hp.apart c hc r List.mem_cons_self
  have hnot : ∀ c ∈ done, ∀ r' ∈ [r], r'.seq ≠ c.seq := by
    intro c hc r' hr'
    rw [List.mem_singleton] at hr'
    exact hr' ▸ (hapart c hc).symm
  obtain ⟨htook, hclaimed⟩ := h.took hr hdue hp.calm hp.reading hlast
  have hlapsed : st.db.lapsed t₀ r = start.db.lapsed t₀ r := by
    rw [Db.lapsed, Db.lapsed, hp.turned.sources r.seq fun c hc _ => hapart c hc]
  constructor
  case sound => exact h.sound hp.sound
  case calm => exact h.calm hp.sound hr hdue hp.calm hlong'
  case queue => exact h.queue hp.sound hp.queue hp.calm hwindow hlong'
  case reading => exact hp.reading.trans h.tick_le.2
  case turned => exact hp.turned.trans h.turned
  case took =>
    intro c hc
    rcases List.mem_append.mp hc with hc | hc
    · exact (hp.took c hc).after h.turned (hnot c hc) h.claimed_sub
    · rw [List.mem_singleton] at hc
      subst hc
      exact htook.before hp.turned hapart
  case apart =>
    intro c hc c' hc'
    rcases List.mem_append.mp hc with hc | hc
    · exact hp.apart c hc c' (List.mem_cons_of_mem _ hc')
    · rw [List.mem_singleton] at hc
      subst hc
      exact ((List.pairwise_cons.mp hpairwise).1 c' hc').ne
  case claimed =>
    rw [hclaimed, hp.claimed, List.filter_append, List.map_append, List.append_assoc]
    simp only [List.filter_cons, List.filter_nil, hlapsed]

theorem Turns.progress (h : Turns s ttl st rows st')
    (hp : Progress s domain ttl t₀ t₁ start done (rows ++ rest) st) (hwindow : t₀ ≤ t₁)
    (hlong : t₁ < t₀ + milliseconds ttl) (hlast : st'.env.now ≤ t₁) :
    Progress s domain ttl t₀ t₁ start (done ++ rows) rest st' := by
  induction h generalizing done with
  | nil st => simpa using hp
  | @cons st st₁ st' r rows first others ih =>
      have hnow : st.env.tick.now ≤ t₁ := (first.tick_le.1.trans others.le_now).trans hlast
      have hnext := first.progress hp hwindow hlong hnow
      simpa using ih hnext hlast

/-! ### The loop -/

theorem tokens_dueRows (cs : List Candidate) (env : Env) :
    (dueRows cs env).2.tokens = env.tokens := by
  induction cs generalizing env with
  | nil => rfl
  | cons c cs ih => exact ih env.tick

theorem tick_le_dueRows (cs : List Candidate) (env : Env) :
    env.tick.now ≤ (dueRows cs env).2.tick.now := by
  induction cs generalizing env with
  | nil => exact le_rfl
  | cons c cs ih => exact (Clock.le_tick env.tick.clock).trans (ih env.tick)

theorem le_scanned (st : Claiming) (s : Session) (domain : String) :
    st.env.now ≤ (st.scanned s domain).env.now := le_dueRows _ _

theorem Progress.scanned (hp : Progress s domain ttl t₀ t₁ start done rest st) :
    Progress s domain ttl t₀ t₁ start done rest (st.scanned s domain) where
  sound := hp.sound
  calm := by
    have htokens : (st.scanned s domain).env.tokens = st.env.tokens := tokens_dueRows _ _
    rw [htokens]
    exact hp.calm
  queue := hp.queue
  reading := hp.reading.trans (tick_le_dueRows _ _)
  turned := hp.turned
  took := hp.took
  apart := hp.apart
  claimed := hp.claimed

theorem Progress.length (hp : Progress s domain ttl t₀ t₁ start done rest st) :
    st.claimed.length =
      start.claimed.length + (done.filter fun c => !start.db.lapsed t₀ c).length := by
  have h := congrArg List.length hp.claimed
  simpa using h

/-- In a quiet window a page is the next part of the queue. -/
theorem Progress.pageRows (hp : Progress s domain ttl t₀ t₁ start done rest st) {limit : ℕ}
    (hlast : (st.scanned s domain).env.now ≤ t₁) :
    pageRows s domain limit st = rest.take (limit - st.claimed.length) := by
  have hdue := dueRows_eq
    (fun c hc => hp.calm.due c ((Db.mem_outboxCandidates hp.sound).mp hc)) hp.reading hlast
  rw [Outbox.pageRows, hdue]
  exact congrArg (List.take _) hp.queue

theorem claimLoop_le_now {limit fuel : ℕ} {result : Claiming} (hs : st.db.Sound)
    (h : claimLoop s domain limit ttl fuel st = some result) : st.env.now ≤ result.env.now := by
  induction fuel generalizing st with
  | zero => cases h
  | succ fuel ih =>
      have hturns : Turns s ttl (st.scanned s domain) (pageRows s domain limit st)
        (claimPage s domain limit ttl st).2 := turns_claimPage hs
      have hpage := (le_scanned st s domain).trans hturns.le_now
      rw [claimLoop] at h
      dsimp only at h
      split at h
      · cases h
        exact hpage
      · exact hpage.trans (ih (hturns.sound hs) h)

theorem claimLoop_progress {limit fuel : ℕ} {result : Claiming}
    (hp : Progress s domain ttl t₀ t₁ start done rest st) (hwindow : t₀ ≤ t₁)
    (hlong : t₁ < t₀ + milliseconds ttl)
    (h : claimLoop s domain limit ttl fuel st = some result) (hlast : result.env.now ≤ t₁) :
    ∃ rest', Progress s domain ttl t₀ t₁ start
      (done ++ upTo (fun c => !start.db.lapsed t₀ c) (limit - st.claimed.length) rest) rest' result := by
  induction fuel generalizing st done rest with
  | zero => cases h
  | succ fuel ih =>
      have hturns : Turns s ttl (st.scanned s domain) (pageRows s domain limit st)
        (claimPage s domain limit ttl st).2 := turns_claimPage hp.sound
      have hsound := hturns.sound hp.sound
      rw [claimLoop] at h
      dsimp only at h
      have hnow : (claimPage s domain limit ttl st).2.env.now ≤ t₁ := by
        split at h
        · cases h
          exact hlast
        · exact (claimLoop_le_now hsound h).trans hlast
      have hrows : pageRows s domain limit st = rest.take (limit - st.claimed.length) :=
        hp.pageRows (hturns.le_now.trans hnow)
      generalize hn : limit - st.claimed.length = n at hrows ⊢
      have hpage : Progress s domain ttl t₀ t₁ start (done ++ rest.take n) (rest.drop n)
          (claimPage s domain limit ttl st).2 := by
        rw [hrows] at hturns
        refine hturns.progress ?_ hwindow hlong hnow
        rw [List.take_append_drop]
        exact hp.scanned
      have hcount : (claimPage s domain limit ttl st).2.claimed.length = st.claimed.length +
          ((rest.take n).filter fun c => !start.db.lapsed t₀ c).length := by
        rw [hpage.length, hp.length, List.filter_append, List.length_append, Nat.add_assoc]
      have hsplit : upTo (fun c => !start.db.lapsed t₀ c) n rest = rest.take n ++
          upTo (fun c => !start.db.lapsed t₀ c)
            (limit - (claimPage s domain limit ttl st).2.claimed.length) (rest.drop n) := by
        conv_lhs => rw [← List.take_append_drop n rest]
        rw [upTo_append (List.length_take_le _ _), hcount, ← hn, Nat.sub_add_eq]
      rw [hsplit, ← List.append_assoc]
      split at h
      · next hstop =>
          cases h
          refine ⟨rest.drop n, ?_⟩
          have hnone : upTo (fun c => !start.db.lapsed t₀ c)
              (limit - (claimPage s domain limit ttl st).2.claimed.length) (rest.drop n) = [] := by
            rcases hstop with hfull | hempty
            · rw [Nat.sub_eq_zero_of_le hfull, upTo_zero]
            · rw [claimPage_eq, hrows, Bool.not_eq_false', List.isEmpty_iff,
                List.take_eq_nil_iff] at hempty
              rcases hempty with hzero | hnil
              · have hfull : limit - (claimPage s domain limit ttl st).2.claimed.length = 0 := by
                  omega
                rw [hfull, upTo_zero]
              · rw [hnil, List.drop_nil, upTo_nil]
          rw [hnone, List.append_nil]
          exact hpage
      · exact ih hpage h

/-! ### The call -/

/-- The reply lists the first due candidates whose window is not over, as many as the limit
allows; of the candidates up to the last of these, each is claimed or blocked; the rest of the
database is as before. -/
structure ClaimsFirst (db : Db) (s : Session) (domain : String) (limit : ℕ) (ttl t₀ t₁ : ℤ)
    (result : Claiming) : Prop where
  claimed : result.claimed.map (fun c => (c.seq, c.operation)) =
    (((db.queue s domain t₀).filter fun c => !db.lapsed t₀ c).take limit).map
      fun c => (c.seq, c.operation)
  took : ∀ c ∈ upTo (fun c => !db.lapsed t₀ c) limit (db.queue s domain t₀),
    db.Took s ttl t₀ t₁ result.claimed result.db c
  rest : db.Turned s (upTo (fun c => !db.lapsed t₀ c) limit (db.queue s domain t₀)) result.db

theorem claimOutbox_cases {tenant : Uuid} {limit : ℤ} {env : Env} {fuel : ℕ} {result : Claiming}
    (h : claimOutbox db s tenant domain limit ttl env fuel = .ok (some result)) :
    tenant = s.tenant ∧ 1 ≤ limit ∧ 1 ≤ ttl ∧
      claimLoop s domain limit.toNat ttl fuel ⟨db, env, []⟩ = some result := by
  obtain ⟨-, -, h⟩ := bind_eq_ok.mp h
  split at h
  · cases h
  · next hvalid =>
      simp only [not_or, not_not, not_lt] at hvalid
      exact ⟨hvalid.1, hvalid.2.1, hvalid.2.2.1, Except.ok.inj h⟩

/-- A claim in a quiet window takes the first due candidates. -/
theorem claimOutbox_first {tenant : Uuid} {limit : ℤ} {env : Env} {fuel : ℕ} {result : Claiming}
    (hs : db.Sound) (h : claimOutbox db s tenant domain limit ttl env fuel = .ok (some result))
    (hfirst : env.tick.now = t₀) (hwindow : t₀ ≤ t₁) (hlast : result.env.now ≤ t₁)
    (hcalm : db.Calm s domain env.tokens t₀ t₁) (hlong : t₁ < t₀ + milliseconds ttl) :
    ClaimsFirst db s domain limit.toNat ttl t₀ t₁ result := by
  obtain ⟨-, -, -, hloop⟩ := claimOutbox_cases h
  have hstart : Progress s domain ttl t₀ t₁ ⟨db, env, []⟩ [] (db.queue s domain t₀)
      ⟨db, env, []⟩ :=
    ⟨hs, hcalm, rfl, hfirst.ge, .refl _ _ _, nofun, nofun, rfl⟩
  obtain ⟨rest', hend⟩ := claimLoop_progress hstart hwindow hlong hloop hlast
  constructor
  case claimed =>
    have hclaimed := hend.claimed
    simp only [List.map_nil, List.nil_append, List.length_nil, Nat.sub_zero] at hclaimed
    rw [hclaimed, filter_upTo]
  case took => exact hend.took
  case rest => exact hend.turned

end

end Rss.Outbox
