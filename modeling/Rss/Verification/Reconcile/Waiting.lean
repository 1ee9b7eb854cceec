import Rss.Verification.Reconcile.Exclusion

/-! # Waiting tickets

A target waits with its own place in the queue, and the oldest waiter of a tenant is never
kept from resources that nobody holds. -/

namespace Rss.Reconcile

open Rss.Sql

/-! ### Where tickets wait -/

/-- The target waits for the resource with this ticket. -/
def WaitsFor (db : Db) (key : Key) (res : String) (ticket : ℤ) : Prop :=
  db.targetResources.get? (key, res) = some (some ticket)

/-- The target is queued under the ticket, is due and holds no live lease. -/
structure Ready (s : State) (key : Key) (ticket : ℤ) : Prop where
  exists_row : ∃ row, s.db.targets.get? key = some row ∧ row.queueTicket = some ticket ∧
    (∃ n, row.nextRun = some n ∧ n ≤ s.now) ∧ expired row.leaseUntil s.now

/-- Every waiting ticket is the current one of a target that is ready to run. -/
def TicketsCurrent (s : State) : Prop :=
  ∀ key res ticket, WaitsFor s.db key res ticket → Ready s key ticket

theorem expired_mono {leaseUntil : Option ℤ} {now now' : ℤ} (h : expired leaseUntil now)
    (hle : now ≤ now') : expired leaseUntil now' :=
  fun u hu => (h u hu).trans hle

/-- A change of one target keeps the other tickets current. -/
theorem TicketsCurrent.update {s s' : State} {key : Key} (h : TicketsCurrent s)
    (hnow : s.now ≤ s'.now)
    (hothers : ∀ key', key' ≠ key → s'.db.targets.get? key' = s.db.targets.get? key')
    (hkeep : ∀ key' res ticket, key' ≠ key → WaitsFor s'.db key' res ticket →
      WaitsFor s.db key' res ticket)
    (hkey : ∀ res ticket, WaitsFor s'.db key res ticket → Ready s' key ticket) :
    TicketsCurrent s' := by
  intro key' res ticket hw
  by_cases hne : key' = key
  · subst hne
    exact hkey res ticket hw
  · obtain ⟨row, hrow, hticket, ⟨n, hn, hdue⟩, hfree⟩ :=
      (h key' res ticket (hkeep key' res ticket hne hw)).exists_row
    exact ⟨row, (hothers key' hne).trans hrow, hticket, ⟨n, hn, hdue.trans hnow⟩,
      expired_mono hfree hnow⟩

theorem TicketsCurrent.later {s s' : State} (h : TicketsCurrent s) (hle : s.now ≤ s'.now)
    (htargets : s'.db.targets = s.db.targets)
    (hwaiting : s'.db.targetResources = s.db.targetResources) : TicketsCurrent s' := by
  intro key res ticket hw
  rw [WaitsFor, hwaiting] at hw
  obtain ⟨row, hrow, hticket, ⟨n, hn, hdue⟩, hfree⟩ := (h key res ticket hw).exists_row
  exact ⟨row, htargets ▸ hrow, hticket, ⟨n, hn, hdue.trans hle⟩, expired_mono hfree hle⟩

/-- The holder of a live lease does not wait. -/
theorem TicketsCurrent.not_waits {s : State} {key : Key} {k : Option Uuid} {g : Option ℤ}
    {row : Target} (h : TicketsCurrent s) (ha : Authority s.db s.now key k g row)
    (res : String) (ticket : ℤ) : ¬ WaitsFor s.db key res ticket := by
  intro hw
  obtain ⟨row', hrow', -, -, hfree⟩ := (h key res ticket hw).exists_row
  obtain rfl := Option.some.inj (ha.get.symm.trans hrow')
  obtain ⟨u, hu, hlt⟩ := ha.lease
  exact absurd (hfree u hu) (not_le.mpr hlt)

theorem waitsFor_setWaiting {db : Db} {key key' : Key} {ticket : Option ℤ} {res : String} {w : ℤ} :
    WaitsFor (db.setWaiting key ticket) key' res w ↔
      if key' = key then ticket = some w ∧ Declares db key' res else WaitsFor db key' res w := by
  unfold WaitsFor Declares Db.setWaiting
  rw [Table.get?_update]
  cases db.targetResources.get? (key', res) with
  | none => split <;> simp
  | some waiting => split <;> simp [*]

/-! ### Calls keep tickets current -/

theorem renew_tickets {db db' : Db} {clock clock' : Clock} {session : Option Uuid} {key : Key}
    {k : Option Uuid} {g b ttl : Option ℤ} (hi : TicketsCurrent ⟨db, clock.now⟩)
    (h : renew db clock session key k g b ttl = .ok (db', clock')) :
    TicketsCurrent ⟨db', clock'.now⟩ := by
  have hdo := renew_does h
  unfold renew at h
  obtain ⟨clock₁, hbind, h⟩ := bind_eq_ok.mp h
  obtain ⟨ttl, -, h⟩ := bind_eq_ok.mp h
  obtain ⟨⟨row, ha⟩, -⟩ := underBinding_ok hbind
  cases h
  exact hi.update hdo.now_le hdo.others (fun _ _ _ _ hw => hw)
    (fun res ticket hw => absurd hw (hi.not_waits ha res ticket))

theorem markApplied_tickets {db db' : Db} {clock clock' : Clock} {session : Option Uuid}
    {key : Key} {k : Option Uuid} {g b : Option ℤ} (hi : TicketsCurrent ⟨db, clock.now⟩)
    (h : markApplied db clock session key k g b = .ok (db', clock')) :
    TicketsCurrent ⟨db', clock'.now⟩ := by
  have hdo := markApplied_does h
  unfold markApplied at h
  obtain ⟨clock₁, hbind, h⟩ := bind_eq_ok.mp h
  obtain ⟨⟨row, ha⟩, -⟩ := underBinding_ok hbind
  cases h
  exact hi.update hdo.now_le hdo.others (fun _ _ _ _ hw => hw)
    (fun res ticket hw => absurd hw (hi.not_waits ha res ticket))

theorem release_tickets {db db' : Db} {clock clock' : Clock} {session : Option Uuid} {key : Key}
    {k : Option Uuid} {g : Option ℤ} (hi : TicketsCurrent ⟨db, clock.now⟩)
    (h : release db clock session key k g = .ok (db', clock')) :
    TicketsCurrent ⟨db', clock'.now⟩ := by
  have hdo := release_does h
  unfold release at h
  obtain ⟨⟨row, clock₁⟩, hauth, h⟩ := bind_eq_ok.mp h
  obtain ⟨ha, -⟩ := lockAuthority_ok hauth
  cases h
  exact hi.update hdo.now_le hdo.others (fun _ _ _ _ hw => hw)
    (fun res ticket hw => absurd hw (hi.not_waits ha res ticket))

theorem finish_tickets {db db' : Db} {clock clock' : Clock} {session : Option Uuid} {key : Key}
    {k : Option Uuid} {g b w delay f : Option ℤ} {outcome : Option Outcome}
    (hi : TicketsCurrent ⟨db, clock.now⟩)
    (h : finish db clock session key k g b w outcome delay f = .ok (db', clock')) :
    TicketsCurrent ⟨db', clock'.now⟩ := by
  obtain ⟨version, result, -, -, hdo⟩ := finish_does h
  unfold finish at h
  obtain ⟨⟨row, clock₁⟩, -, h⟩ := bind_eq_ok.mp h
  obtain ⟨clock₂, -, h⟩ := bind_eq_ok.mp h
  obtain ⟨result, -, h⟩ := bind_eq_ok.mp h
  obtain ⟨failures, -, h⟩ := bind_eq_ok.mp h
  obtain ⟨delay, -, h⟩ := bind_eq_ok.mp h
  obtain ⟨version, -, h⟩ := bind_eq_ok.mp h
  obtain ⟨ticket, -, h⟩ := bind_eq_ok.mp h
  cases h
  refine hi.update hdo.now_le hdo.others ?_ ?_
  · intro key' res w hne hw
    simpa [hne] using (@waitsFor_setWaiting db _ _ _ _ _).mp hw
  · intro res w hw
    simpa using (@waitsFor_setWaiting db _ _ _ _ _).mp hw

/-- A declared resource waits with the queue ticket of a target that was seen ready. -/
theorem declare_waits {key : Key} {row : Target} {wasWaiting : Bool} {resources : List String}
    {table : Table (Key × String) (Option ℤ)} {clock : Clock} {res : String} {ticket : ℤ}
    (h : (declare key row wasWaiting resources table clock).1.get? (key, res) =
      some (some ticket)) :
    table.get? (key, res) = some (some ticket) ∨ row.queueTicket = some ticket ∧
      (∃ n, row.nextRun = some n ∧
        n ≤ (declare key row wasWaiting resources table clock).2.now) ∧
      expired row.leaseUntil (declare key row wasWaiting resources table clock).2.now := by
  induction resources generalizing table clock with
  | nil => exact .inl h
  | cons r rest ih =>
      have hle := declare_now_le key row wasWaiting rest
        (table.insertNew (key, r) (waitingTicket row wasWaiting clock)) clock.tick.tick
      rcases ih h with hold | hnew
      · rw [Table.get?_insertNew] at hold
        split at hold
        · rename_i heq
          rw [heq]
          cases ht : table.get? (key, r) with
          | some waiting =>
              left
              simpa [ht] using hold
          | none =>
              right
              simp only [ht, Option.getD_none, Option.some.injEq, waitingTicket] at hold
              split at hold
              · rename_i hready
                obtain ⟨-, ⟨n, hn, hdue⟩, hfree⟩ := hready
                have htick := clock.tick.le_tick
                exact ⟨hold, ⟨n, hn, (hdue.trans htick).trans hle⟩, expired_mono hfree hle⟩
              · cases hold
        · exact .inl hold
      · exact .inr hnew

theorem bindResources_tickets {db db' : Db} {clock clock' : Clock} {session : Option Uuid}
    {key : Key} {keys : Option (List (Option String))} (hi : TicketsCurrent ⟨db, clock.now⟩)
    (h : bindResources db clock session key keys = .ok (db', clock')) :
    TicketsCurrent ⟨db', clock'.now⟩ := by
  rcases bindResources_does h with ⟨rfl, rfl⟩ | hdo
  · exact hi
  · unfold bindResources at h
    obtain ⟨_, -, h⟩ := bind_eq_ok.mp h
    obtain ⟨ks, -, h⟩ := bind_eq_ok.mp h
    obtain ⟨row, hrow, h⟩ := bind_eq_ok.mp h
    split at h
    · cases h
      exact hi
    · obtain ⟨_, -, h⟩ := bind_eq_ok.mp h
      obtain ⟨revision, -, h⟩ := bind_eq_ok.mp h
      cases h
      refine hi.update hdo.now_le hdo.others ?_ ?_
      · intro key' res w hne hw
        simp only [WaitsFor, declare_get? _ _ _ _ _ _ hne, Table.get?_delete] at hw
        simpa [hne, WaitsFor] using hw
      · intro res w hw
        rcases declare_waits hw with hold | ⟨hticket, hdue, hfree⟩
        · simp [Table.get?_delete] at hold
        · refine ⟨{ row with bindingRevision := revision }, ?_, hticket, hdue, hfree⟩
          rw [Table.get?_modify_self, okOr_eq_ok.mp hrow]
          rfl

theorem wake_tickets {db db' : Db} {clock clock' : Clock} {session : Option Uuid} {key : Key}
    {keys : Option (List (Option String))} (hi : TicketsCurrent ⟨db, clock.now⟩)
    (h : wake db clock session key keys = .ok (db', clock')) :
    TicketsCurrent ⟨db', clock'.now⟩ := by
  unfold wake at h
  obtain ⟨_, -, h⟩ := bind_eq_ok.mp h
  split at h
  · cases h
  · obtain ⟨ticket, -, h⟩ := bind_eq_ok.mp h
    obtain ⟨version, -, h⟩ := bind_eq_ok.mp h
    have hnow : clock.now ≤ clock.tick.tick.now := clock.le_tick.trans clock.tick.le_tick
    refine bindResources_tickets ?_ h
    refine @TicketsCurrent.update _ _ key hi hnow ?_ (fun _ _ _ _ hw => hw) ?_
    · intro key' hne
      simp [Table.get?_upsert, hne]
    · intro res w hw
      obtain ⟨row, hrow, hticket, -, hfree⟩ := (hi key res w hw).exists_row
      refine ⟨row.woken version clock.tick.tick.now ticket, ?_, ?_, ⟨_, rfl, le_rfl⟩,
        expired_mono hfree hnow⟩
      · simp only at hrow
        simp [Table.get?_upsert, hrow]
      · simp [Target.woken, hticket]

/-! ### A candidate -/

/-- What a candidate finds when nothing stops it before its resources are looked at. -/
structure Eligible (db : Db) (clock : Clock) (key : Key) (ticket : ℤ) (row : Target) : Prop where
  get : db.targets.get? key = some row
  queueTicket : row.queueTicket = some ticket
  due : ∃ n, row.nextRun = some n ∧ n ≤ clock.tick.now
  free : expired row.leaseUntil clock.tick.now

/-- The three ways a candidate can end: passed over, left waiting, or granted. -/
theorem claimCandidate_cases {db db' : Db} {clock clock' : Clock} {session : Option Uuid}
    {key : Key} {ticket ttl : ℤ} {locked : Bool} {token : Uuid} {claimed : Option Target}
    (h : claimCandidate db clock session key ticket locked token ttl =
      .ok (db', clock', claimed)) :
    (claimed = none ∧ db' = db ∧
      (locked = true ∨ ¬ ∃ row, Eligible db clock key ticket row)) ∨
    (∃ row, locked = false ∧ Eligible db clock key ticket row ∧ claimed = none ∧
      db' = db.setWaiting key (some ticket) ∧ clock.tick.now ≤ clock'.now ∧
      (blocked (db.setWaiting key (some ticket)) key.tenant (some ticket)
        ((db.setWaiting key (some ticket)).declared key).mergeSort clock.tick).1 = true) ∨
    (∃ row clock₁, locked = false ∧ Eligible db clock key ticket row ∧
      claimed = some (row.claimed token (row.epoch + 1) (clock'.now + milliseconds ttl)) ∧
      blocked (db.setWaiting key (some ticket)) key.tenant (some ticket)
        ((db.setWaiting key (some ticket)).declared key).mergeSort clock.tick = (false, clock₁) ∧
      clock' = clock₁.tick ∧
      db'.targetResources = ((db.setWaiting key (some ticket)).setWaiting key none).targetResources) := by
  unfold claimCandidate at h
  split at h
  · cases h
    exact .inl ⟨rfl, rfl, .inl ‹_›⟩
  rename_i hlocked
  have hlocked : locked = false := by simpa using hlocked
  split at h
  · rename_i hnone
    cases h
    refine .inl ⟨rfl, rfl, .inr ?_⟩
    rintro ⟨row, hrow⟩
    rw [hrow.get] at hnone
    cases hnone
  rename_i row hrow
  split at h
  · rename_i hskip
    cases h
    refine .inl ⟨rfl, rfl, .inr ?_⟩
    rintro ⟨row', hrow'⟩
    obtain rfl := Option.some.inj (hrow.symm.trans hrow'.get)
    obtain ⟨n, hn, hdue⟩ := hrow'.due
    rcases hskip with hne | hnone | ⟨m, hm, hlt⟩ | hlive
    · exact hne hrow'.queueTicket
    · rw [hn] at hnone
      cases hnone
    · obtain rfl := Option.some.inj (hn.symm.trans hm)
      omega
    · exact hlive hrow'.free
  rename_i hdue
  simp only [not_or, ne_eq, not_not, not_exists, not_and, not_lt] at hdue
  obtain ⟨hticket, hnext, hdue, hfree⟩ := hdue
  obtain ⟨n, hn⟩ := Option.ne_none_iff_exists'.mp hnext
  have helig : Eligible db clock key ticket row :=
    ⟨hrow, hticket, ⟨n, hn, hdue n hn⟩, hfree⟩
  obtain ⟨_, -, h⟩ := bind_eq_ok.mp h
  rw [hticket] at h
  dsimp only at h
  generalize hblocked : blocked (db.setWaiting key (some ticket)) key.tenant (some ticket)
    ((db.setWaiting key (some ticket)).declared key).mergeSort clock.tick = b at h
  obtain ⟨isBlocked, clock₁⟩ := b
  dsimp only at h
  split at h
  · rename_i hb
    cases h
    have hle := blocked_now_le (db.setWaiting key (some ticket)) key.tenant (some ticket)
      ((db.setWaiting key (some ticket)).declared key).mergeSort clock.tick
    rw [hblocked] at hle
    exact .inr (.inl ⟨row, hlocked, helig, rfl, rfl, hle, by simpa [hblocked] using hb⟩)
  · rename_i hb
    obtain ⟨epoch, hepoch, h⟩ := bind_eq_ok.mp h
    obtain rfl := succ_eq_some (okOr_eq_ok.mp hepoch)
    cases h
    have hb : isBlocked = false := by simpa using hb
    exact .inr (.inr ⟨row, clock₁, hlocked, helig, rfl, by rw [hb], rfl, rfl⟩)

theorem claimCandidate_tickets {db db' : Db} {clock clock' : Clock} {session : Option Uuid}
    {key : Key} {ticket ttl : ℤ} {locked : Bool} {token : Uuid} {claimed : Option Target}
    (hi : TicketsCurrent ⟨db, clock.now⟩)
    (h : claimCandidate db clock session key ticket locked token ttl =
      .ok (db', clock', claimed)) : TicketsCurrent ⟨db', clock'.now⟩ := by
  have hdo := claimCandidate_does h
  rcases claimCandidate_cases h with ⟨rfl, rfl, -⟩ | ⟨row, -, helig, rfl, rfl, htick, -⟩ |
    ⟨row, clock₁, -, helig, rfl, -, -, htable⟩
  · exact hi.later hdo.now_le rfl rfl
  · refine @TicketsCurrent.update _ _ key hi hdo.now_le hdo.others ?_ ?_
    · intro key' res w hne hw
      simpa [hne] using waitsFor_setWaiting.mp hw
    · intro res w hw
      obtain ⟨n, hn, hdue⟩ := helig.due
      have hw : ticket = w ∧ Declares db key res := by simpa using waitsFor_setWaiting.mp hw
      rw [← hw.1]
      exact ⟨row, helig.get, helig.queueTicket, ⟨n, hn, hdue.trans htick⟩,
        expired_mono helig.free htick⟩
  · refine hi.update hdo.now_le hdo.others ?_ ?_
    · intro key' res w hne hw
      rw [WaitsFor, htable] at hw
      have hw := waitsFor_setWaiting.mp hw
      rw [if_neg hne] at hw
      simpa [hne] using waitsFor_setWaiting.mp hw
    · intro res w hw
      rw [WaitsFor, htable] at hw
      simpa using waitsFor_setWaiting.mp hw

/-! ### Examined candidates -/

/-- The candidates a claiming loop examines, each with what the loop has done before it. -/
def examinedLoop (session : Option Uuid) (t : Uuid) (r : String) (n ttl : ℤ)
    (around : Surroundings) : List (String × ℤ) → ClaimLoop → List (String × ClaimLoop)
  | [], _ => []
  | (entity, ticket) :: rest, st =>
      (if around.locked entity then [] else [(entity, st)]) ++
      match claimCandidate st.db st.clock session ⟨t, r, entity⟩ ticket (around.locked entity)
          (around.uuids st.claims.length) ttl with
      | .error _ => []
      | .ok (db, clock, claimed) =>
          let claims := st.claims ++ claimed.toList.map (fun row => (⟨t, r, entity⟩, row))
          if claims.length = n then []
          else examinedLoop session t r n ttl around rest ⟨db, clock, ticket, claims⟩

/-- The candidates that a claiming call examines without a lock conflict. -/
def examined (db : Db) (clock : Clock) (session : Option Uuid) (t : Uuid) (r : String)
    (n ttl : ℤ) (around : Surroundings) : List (String × ClaimLoop) :=
  match (if around.scanLocked then none else db.scans.get? (t, r)) with
  | none => []
  | some scan =>
      examinedLoop session t r n ttl around (candidates db t r (restartScan db t r scan))
        ⟨db, clock, (restartScan db t r scan).cursorTicket, []⟩

/-! ### The head of a resource -/

/-- The tickets that wait for a resource of a tenant. -/
def waitingOn (db : Db) (t : Uuid) (res : String) : Set ℤ :=
  {w | ∃ key, key.tenant = t ∧ WaitsFor db key res w}

theorem mem_waiting {db : Db} {t : Uuid} {res : String} {w : ℤ} :
    w ∈ db.targetResources.rows.filterMap (fun row =>
      if row.1.1.tenant = t ∧ row.1.2 = res then row.2 else none) ↔ w ∈ waitingOn db t res := by
  simp only [List.mem_filterMap, Prod.exists, waitingOn, WaitsFor, Set.mem_ofPred_eq]
  constructor
  · rintro ⟨key, res', waiting, hrow, hw⟩
    split at hw
    · rename_i hkey
      obtain ⟨ht, rfl⟩ := hkey
      exact ⟨key, ht, by rw [← Table.mem_rows, ← hw]; exact hrow⟩
    · cases hw
  · rintro ⟨key, rfl, hw⟩
    exact ⟨key, res, some w, Table.mem_rows.mpr hw, by simp⟩

theorem waitingHead_eq_some {db : Db} {t : Uuid} {res : String} {ticket : ℤ} :
    waitingHead db t res = some ticket ↔ IsLeast (waitingOn db t res) ticket := by
  rw [waitingHead, List.min?_eq_some_iff]
  simp only [mem_waiting]
  exact Iff.rfl

theorem exists_waitingHead {db : Db} {t : Uuid} {res : String} {w : ℤ}
    (h : w ∈ waitingOn db t res) : ∃ head, waitingHead db t res = some head := by
  cases hhead : waitingHead db t res with
  | some head => exact ⟨head, rfl⟩
  | none =>
      have hnil := List.min?_eq_none_iff.mp hhead
      rw [← mem_waiting, hnil] at h
      cases h

/-- Among the waiting tickets of an unblocked candidate its own is the smallest. -/
theorem head_of_unblocked {db : Db} {t : Uuid} {ticket : ℤ} {resources : List String}
    {clock clock' : Clock}
    (h : blocked db t (some ticket) resources clock = (false, clock')) :
    ∀ res ∈ resources, ∀ head ∈ waitingHead db t res, head = ticket := by
  induction resources generalizing clock with
  | nil => simp
  | cons res rest ih =>
      unfold blocked at h
      split at h
      · cases h
      · rename_i hfree
        intro r hr head hhead
        rcases List.mem_cons.mp hr with rfl | hr
        · by_contra hne
          exact hfree (.inl ⟨head, hhead, by simpa using hne⟩)
        · exact ih h r hr head hhead

theorem unblocked_of_free {db : Db} {t : Uuid} {ticket : ℤ} {resources : List String}
    {clock : Clock} (hhead : ∀ res ∈ resources, waitingHead db t res = some ticket)
    (hfree : ∀ res ∈ resources, ¬ Held db t res clock.now) :
    (blocked db t (some ticket) resources clock).1 = false := by
  induction resources generalizing clock with
  | nil => rfl
  | cons res rest ih =>
      unfold blocked
      rw [if_neg]
      · exact ih (fun r hr => hhead r (List.mem_cons_of_mem _ hr))
          (fun r hr hheld => hfree r (List.mem_cons_of_mem _ hr) (hheld.mono clock.le_tick))
      · rintro (⟨head, hmem, hne⟩ | hheld)
        · rw [hhead res List.mem_cons_self] at hmem
          exact hne hmem.symm
        · exact hfree res List.mem_cons_self (hheld.mono clock.le_tick)

/-- A waiting target that is entered on all of its resources. -/
theorem waitsFor_self {db : Db} {key : Key} {ticket : ℤ} {res : String}
    (h : Declares db key res) : WaitsFor (db.setWaiting key (some ticket)) key res ticket := by
  rw [waitsFor_setWaiting, if_pos rfl]
  exact ⟨rfl, h⟩

theorem mem_declared_setWaiting {db : Db} {key : Key} {ticket : Option ℤ} {res : String} :
    res ∈ ((db.setWaiting key ticket).declared key).mergeSort ↔ Declares db key res := by
  rw [List.mem_mergeSort, mem_declared, declares_setWaiting]

/-! ### The claiming loop -/

/-- A granted target is first in line for each of its resources, and nobody holds one. -/
structure FirstInLine (m : ClaimLoop) (key : Key) (claimed : Target) (ttl : ℤ) : Prop where
  exists_ticket : ∃ ticket now, claimed.queueTicket = some ticket ∧
    claimed.leaseUntil = some (now + milliseconds ttl) ∧ ∀ res, Declares m.db key res →
      IsLeast (waitingOn (m.db.setWaiting key (some ticket)) key.tenant res) ticket ∧
      ¬ Held m.db key.tenant res now

theorem claimCandidate_first {st : ClaimLoop} {db' : Db} {clock' : Clock}
    {session : Option Uuid} {key : Key} {ticket ttl : ℤ} {locked : Bool} {token : Uuid}
    {claimed : Target}
    (h : claimCandidate st.db st.clock session key ticket locked token ttl =
      .ok (db', clock', some claimed)) : locked = false ∧ FirstInLine st key claimed ttl := by
  rcases claimCandidate_cases h with ⟨hnone, -⟩ | ⟨row, -, -, hnone, -⟩ |
    ⟨row, clock₁, hlocked, helig, hclaimed, hblocked, rfl, -⟩
  · cases hnone
  · cases hnone
  · obtain rfl := Option.some.inj hclaimed
    refine ⟨hlocked, ticket, _, helig.queueTicket, rfl, ?_⟩
    intro res hd
    have hmem : res ∈ ((st.db.setWaiting key (some ticket)).declared key).mergeSort :=
      mem_declared_setWaiting.mpr hd
    constructor
    · have hself : ticket ∈ waitingOn (st.db.setWaiting key (some ticket)) key.tenant res :=
        ⟨key, rfl, waitsFor_self hd⟩
      obtain ⟨head, hhead⟩ := exists_waitingHead hself
      rw [head_of_unblocked hblocked res hmem head hhead] at hhead
      exact waitingHead_eq_some.mp hhead
    · intro hheld
      have hfree := not_held_of_unblocked (congrArg Prod.fst hblocked) res hmem
      rw [hblocked] at hfree
      exact hfree (hheld.mono (Clock.le_tick _))

/-- The oldest waiter of its tenant. -/
structure OldestWaiter (db : Db) (key : Key) (ticket : ℤ) : Prop where
  waits : ∃ res, WaitsFor db key res ticket
  least : ∀ key' res w, key'.tenant = key.tenant → WaitsFor db key' res w → ticket ≤ w

/-- Nothing keeps the oldest waiter from resources that nobody holds. -/
theorem claimCandidate_oldest {db db' : Db} {clock clock' : Clock} {session : Option Uuid}
    {key : Key} {ticket ttl : ℤ} {token : Uuid} {claimed : Option Target}
    (h : claimCandidate db clock session key ticket false token ttl =
      .ok (db', clock', claimed)) (hi : TicketsCurrent ⟨db, clock.now⟩)
    (hold : OldestWaiter db key ticket)
    (hfree : ∀ res, Declares db key res → ¬ Held db key.tenant res clock.now) :
    ∃ row, claimed = some row := by
  obtain ⟨res₀, hw₀⟩ := hold.waits
  obtain ⟨row, hrow, hticket, ⟨n, hn, hdue⟩, hexpired⟩ := (hi key res₀ ticket hw₀).exists_row
  have helig : Eligible db clock key ticket row :=
    ⟨hrow, hticket, ⟨n, hn, hdue.trans clock.le_tick⟩, expired_mono hexpired clock.le_tick⟩
  rcases claimCandidate_cases h with ⟨-, -, hlocked | hnot⟩ | ⟨row', -, -, -, -, -, hblocked⟩ |
    ⟨row', clock₁, -, -, hclaimed, -⟩
  · cases hlocked
  · exact absurd ⟨row, helig⟩ hnot
  · have hunblocked : (blocked (db.setWaiting key (some ticket)) key.tenant (some ticket)
        ((db.setWaiting key (some ticket)).declared key).mergeSort clock.tick).1 = false := by
      refine unblocked_of_free ?_ ?_
      · intro res hres
        have hd := mem_declared_setWaiting.mp hres
        refine waitingHead_eq_some.mpr ⟨⟨key, rfl, waitsFor_self hd⟩, ?_⟩
        rintro w ⟨key', ht, hw⟩
        rw [waitsFor_setWaiting] at hw
        split at hw
        · exact (Option.some.inj hw.1).le
        · exact hold.least key' res w ht hw
      · intro res hres hheld
        exact hfree res (mem_declared_setWaiting.mp hres)
          (@Held.mono db _ _ _ _ clock.le_tick hheld)
    rw [hunblocked] at hblocked
    cases hblocked
  · exact ⟨_, hclaimed⟩

/-- The queue tickets of the candidates still to be examined. -/
def Listed (db : Db) (t : Uuid) (r : String) (cs : List (String × ℤ)) : Prop :=
  ∀ c ∈ cs, ∃ row, db.targets.get? ⟨t, r, c.1⟩ = some row ∧ row.queueTicket = some c.2

theorem Listed.does {s s' : State} {t : Uuid} {r : String} {cs : List (String × ℤ)} {key : Key}
    {claimed : Option Target} (h : Listed s.db t r cs)
    (hdo : ((claimed.map Effect.grant).getD .touch).Does s key s') : Listed s'.db t r cs := by
  intro c hc
  obtain ⟨row, hrow, hticket⟩ := h c hc
  by_cases hne : (⟨t, r, c.1⟩ : Key) = key
  · have hchange := hdo.row
    rw [← hne, hrow] at hchange
    rw [← hne] at hdo
    generalize hnew : s'.db.targets.get? ⟨t, r, c.1⟩ = new at hchange
    cases claimed with
    | none =>
        simp only [Option.map_none, Option.getD_none] at hchange
        cases hchange
        exact ⟨row, rfl, hticket⟩
    | some claimed =>
        simp only [Option.map_some, Option.getD_some] at hchange
        cases hchange
        exact ⟨_, rfl, hticket⟩
  · exact ⟨row, (hdo.others _ hne).trans hrow, hticket⟩

/-- What holds of every candidate that a loop examines and every claim it grants. -/
theorem claimLoop_waiting {session : Option Uuid} {t : Uuid} {r : String} {n ttl : ℤ}
    {around : Surroundings} {cs : List (String × ℤ)} {st st' : ClaimLoop}
    (h : claimLoop session t r n ttl around cs st = .ok st')
    (hi : TicketsCurrent ⟨st.db, st.clock.now⟩) (hl : Listed st.db t r cs) :
    TicketsCurrent ⟨st'.db, st'.clock.now⟩ ∧ st.claims ⊆ st'.claims ∧
    (∀ claim ∈ st'.claims, claim ∈ st.claims ∨ ∃ entity m, claim.1 = ⟨t, r, entity⟩ ∧
      (entity, m) ∈ examinedLoop session t r n ttl around cs st ∧
      FirstInLine m claim.1 claim.2 ttl) ∧
    ∀ entity m ticket, (entity, m) ∈ examinedLoop session t r n ttl around cs st →
      OldestWaiter m.db ⟨t, r, entity⟩ ticket →
      (∀ res, Declares m.db ⟨t, r, entity⟩ res → ¬ Held m.db t res m.clock.now) →
      ∃ claimed, (⟨t, r, entity⟩, claimed) ∈ st'.claims := by
  induction cs generalizing st with
  | nil =>
      cases h
      exact ⟨hi, fun _ hc => hc, fun _ hc => .inl hc, by simp [examinedLoop]⟩
  | cons c cs ih =>
      obtain ⟨entity, ticket⟩ := c
      obtain ⟨⟨db, clock, claimed⟩, hcand, h⟩ := bind_eq_ok.mp h
      have hi' := claimCandidate_tickets hi hcand
      have hl' : Listed db t r cs := @Listed.does ⟨st.db, st.clock.now⟩ ⟨db, clock.now⟩ _ _ _ _ _
        (fun c hc => hl c (List.mem_cons_of_mem _ hc)) (claimCandidate_does hcand)
      -- the loop either stops here or continues from the extended list of claims
      have hrest : TicketsCurrent ⟨st'.db, st'.clock.now⟩ ∧
          st.claims ++ claimed.toList.map (fun row => (Key.mk t r entity, row)) ⊆ st'.claims ∧
          ∃ later, examinedLoop session t r n ttl around ((entity, ticket) :: cs) st =
            (if around.locked entity then [] else [(entity, st)]) ++ later ∧
          (∀ claim ∈ st'.claims,
            claim ∈ st.claims ++ claimed.toList.map (fun row => (Key.mk t r entity, row)) ∨
            ∃ entity m, claim.1 = ⟨t, r, entity⟩ ∧ (entity, m) ∈ later ∧
              FirstInLine m claim.1 claim.2 ttl) ∧
          ∀ entity m ticket, (entity, m) ∈ later → OldestWaiter m.db ⟨t, r, entity⟩ ticket →
            (∀ res, Declares m.db ⟨t, r, entity⟩ res → ¬ Held m.db t res m.clock.now) →
            ∃ claimed, (⟨t, r, entity⟩, claimed) ∈ st'.claims := by
        dsimp only at h
        rw [examinedLoop, hcand]
        dsimp only
        split at h
        · rename_i hfull
          cases h
          rw [if_pos hfull]
          exact ⟨hi', fun _ hc => hc, [], rfl, fun _ hc => .inl hc, by simp⟩
        · rename_i hmore
          rw [if_neg hmore]
          obtain ⟨hi'', hsub, hclaims, hold⟩ := ih h hi' hl'
          exact ⟨hi'', hsub, _, rfl, hclaims, hold⟩
      obtain ⟨hi'', hsub, later, hexamined, hclaims, hold⟩ := hrest
      rw [hexamined]
      refine ⟨hi'', fun _ hc => hsub (List.mem_append_left _ hc), ?_, ?_⟩
      · intro claim hc
        rcases hclaims claim hc with hc | ⟨e, m, hkey, hm, hfirst⟩
        · rcases List.mem_append.mp hc with hc | hc
          · exact .inl hc
          · obtain ⟨row, hrow, rfl⟩ := List.mem_map.mp hc
            obtain rfl : claimed = some row := by simpa using hrow
            obtain ⟨hlocked, hfirst⟩ := claimCandidate_first hcand
            exact .inr ⟨entity, st, rfl, by simp [hlocked], hfirst⟩
        · exact .inr ⟨e, m, hkey, List.mem_append_right _ hm, hfirst⟩
      · intro e m w hm holdest hfree
        rcases List.mem_append.mp hm with hm | hm
        · split at hm
          · cases hm
          · rename_i hlocked
            obtain ⟨rfl, rfl⟩ := Prod.mk.inj (List.mem_singleton.mp hm)
            obtain ⟨row, hrow, hticket⟩ := hl _ List.mem_cons_self
            obtain ⟨res₀, hw₀⟩ := holdest.waits
            obtain ⟨row', hrow', hticket', -⟩ := (hi _ res₀ w hw₀).exists_row
            obtain rfl := Option.some.inj (hrow.symm.trans hrow')
            obtain rfl := Option.some.inj (hticket.symm.trans hticket')
            rw [Bool.eq_false_iff.mpr hlocked] at hcand
            obtain ⟨row', rfl⟩ := claimCandidate_oldest hcand hi holdest hfree
            exact ⟨row', hsub (by simp)⟩
        · exact hold e m w hm holdest hfree

theorem listed_candidates (db : Db) (t : Uuid) (r : String) (scan : Scan) :
    Listed db t r (candidates db t r scan) := by
  intro c hc
  have hc : c ∈ queued db t r := by
    have hc := List.mem_mergeSort.mp (List.mem_of_mem_take hc)
    exact (List.mem_filter.mp hc).1
  obtain ⟨⟨key, row⟩, hrow, hc⟩ := List.mem_filterMap.mp hc
  dsimp only at hc
  split at hc
  · rename_i hkey
    obtain ⟨ticket, hticket, rfl⟩ := Option.map_eq_some_iff.mp hc
    obtain ⟨rfl, rfl, -⟩ := hkey
    exact ⟨row, Table.mem_rows.mp hrow, hticket⟩
  · cases hc

theorem claimDue_waiting {db db' : Db} {clock clock' : Clock} {session : Option Uuid} {t : Uuid}
    {r : String} {n ttl : ℤ} {around : Surroundings} {claims : List (Key × Target)} {more : Bool}
    (h : claimDue db clock session t r (some n) (some ttl) around = .ok (db', clock', claims, more))
    (hi : TicketsCurrent ⟨db, clock.now⟩) :
    TicketsCurrent ⟨db', clock'.now⟩ ∧
    (∀ claim ∈ claims, ∃ entity m, claim.1 = ⟨t, r, entity⟩ ∧
      (entity, m) ∈ examined db clock session t r n ttl around ∧
      FirstInLine m claim.1 claim.2 ttl) ∧
    ∀ entity m ticket, (entity, m) ∈ examined db clock session t r n ttl around →
      OldestWaiter m.db ⟨t, r, entity⟩ ticket →
      (∀ res, Declares m.db ⟨t, r, entity⟩ res → ¬ Held m.db t res m.clock.now) →
      ∃ claimed, (⟨t, r, entity⟩, claimed) ∈ claims := by
  unfold claimDue at h
  obtain ⟨_, -, h⟩ := bind_eq_ok.mp h
  split at h
  · rename_i n' ttl' hn httl
    obtain ⟨hn, -⟩ := Option.filter_eq_some_iff.mp hn
    obtain ⟨httl, -⟩ := Option.filter_eq_some_iff.mp httl
    obtain rfl := Option.some.inj hn
    obtain rfl := Option.some.inj httl
    split at h
    · cases h
    · unfold examined
      cases hscan : (if around.scanLocked then none else db.scans.get? (t, r)) with
      | none =>
        rw [hscan] at h
        cases h
        exact ⟨hi, by simp, by simp⟩
      | some scan =>
        rw [hscan] at h
        obtain ⟨st, hloop, h⟩ := bind_eq_ok.mp h
        cases h
        obtain ⟨hi', -, hclaims, hold⟩ :=
          claimLoop_waiting hloop hi (listed_candidates db t r (restartScan db t r scan))
        refine ⟨hi'.later le_rfl rfl rfl, ?_, hold⟩
        intro claim hc
        exact (hclaims claim hc).resolve_left (by simp)
  · cases h

theorem claimDue_limits {db : Db} {clock : Clock} {session : Option Uuid} {t : Uuid}
    {r : String} {n ttl : Option ℤ} {around : Surroundings}
    {result : Db × Clock × List (Key × Target) × Bool}
    (h : claimDue db clock session t r n ttl around = .ok result) :
    ∃ n' ttl', n = some n' ∧ ttl = some ttl' := by
  unfold claimDue at h
  obtain ⟨_, -, h⟩ := bind_eq_ok.mp h
  split at h
  · rename_i n' ttl' hn httl
    exact ⟨n', ttl', (Option.filter_eq_some_iff.mp hn).1, (Option.filter_eq_some_iff.mp httl).1⟩
  · cases h

/-! ### Runs -/

theorem Step.tickets {s s' : State} {a : Action} (h : Step s a s') (hi : TicketsCurrent s) :
    TicketsCurrent s' := by
  cases h with
  | idle elapsed tickets =>
      exact hi.later (Int.le_add_of_nonneg_right (Int.natCast_nonneg _)) rfl rfl
  | @commit session steps call db clock claims h =>
      cases call with
      | wake key keys =>
          obtain ⟨⟨db, clock⟩, hop, h⟩ := bind_eq_ok.mp h
          cases h
          exact wake_tickets hi hop
      | bindResources key keys =>
          obtain ⟨⟨db, clock⟩, hop, h⟩ := bind_eq_ok.mp h
          cases h
          exact bindResources_tickets hi hop
      | claimDue t r n ttl around =>
          obtain ⟨⟨db, clock, claims, more⟩, hop, h⟩ := bind_eq_ok.mp h
          cases h
          obtain ⟨n, ttl, rfl, rfl⟩ := claimDue_limits hop
          exact (claimDue_waiting hop hi).1
      | renew key k g b ttl =>
          obtain ⟨⟨db, clock⟩, hop, h⟩ := bind_eq_ok.mp h
          cases h
          exact renew_tickets hi hop
      | markApplied key k g b =>
          obtain ⟨⟨db, clock⟩, hop, h⟩ := bind_eq_ok.mp h
          cases h
          exact markApplied_tickets hi hop
      | finish key k g b w outcome delay f =>
          obtain ⟨⟨db, clock⟩, hop, h⟩ := bind_eq_ok.mp h
          cases h
          exact finish_tickets hi hop
      | release key k g =>
          obtain ⟨⟨db, clock⟩, hop, h⟩ := bind_eq_ok.mp h
          cases h
          exact release_tickets hi hop

theorem tickets_of_run {s₀ s : State} (h₀ : s₀.Installed) (h : Run s₀ s) : TicketsCurrent s := by
  induction h with
  | refl =>
      intro key res ticket hw
      rw [WaitsFor, h₀.targetResources] at hw
      cases hw
  | tail _ hstep ih =>
      obtain ⟨_, hstep⟩ := hstep
      exact hstep.tickets ih

/-- Tickets wait in order: each is the current ticket of a target that is ready to run, a
claim goes to the first in line for every resource it needs, and the oldest waiter of a
tenant, once examined, is claimed unless one of its resources is held. -/
theorem waiting_order {s₀ : State} (h₀ : s₀.Installed) :
    (∀ s, Run s₀ s → TicketsCurrent s) ∧
    ∀ s s' session steps t r n ttl around claims, Run s₀ s →
      Step s (.commit session steps (.claimDue t r (some n) (some ttl) around) claims) s' →
      (∀ claim ∈ claims, ∃ entity m, claim.1 = ⟨t, r, entity⟩ ∧
        (entity, m) ∈ examined s.db ⟨s.now, steps⟩ session t r n ttl around ∧
        FirstInLine m claim.1 claim.2 ttl) ∧
      ∀ entity m ticket,
        (entity, m) ∈ examined s.db ⟨s.now, steps⟩ session t r n ttl around →
        OldestWaiter m.db ⟨t, r, entity⟩ ticket →
        (∀ res, Declares m.db ⟨t, r, entity⟩ res → ¬ Held m.db t res m.clock.now) →
        ∃ claimed, (⟨t, r, entity⟩, claimed) ∈ claims := by
  refine ⟨fun s hrun => tickets_of_run h₀ hrun, ?_⟩
  intro s s' session steps t r n ttl around claims hrun hstep
  cases hstep with
  | commit h =>
      obtain ⟨⟨db, clock, claims, more⟩, hop, h⟩ := bind_eq_ok.mp h
      cases h
      exact (claimDue_waiting hop (tickets_of_run h₀ hrun)).2

/-! ### Two orders for one disk -/

def secondKey : Key := ⟨1, "shop", "order-2"⟩

/-- The calls after which the second order waits for a disk that the first one has given
back. -/
def handover : List Call :=
  [orderWake, orderClaim, .wake secondKey (some [some "disk"]), orderClaim,
    .release orderKey (some 7) (some 1)]

/-- Execute calls one after the other, each reading the clock from where the last ended. -/
def executeAll : List Call → State → Except Failure State
  | [], s => .ok s
  | call :: calls, s => do
      let (db, clock, _) ← execute s.db ⟨s.now, fun _ => 1⟩ (some 1) call
      executeAll calls ⟨db, clock.now⟩

theorem run_of_executeAll {calls : List Call} {s s' : State} (h : executeAll calls s = .ok s') :
    Run s s' := by
  induction calls generalizing s with
  | nil =>
      cases h
      exact .refl
  | cons call calls ih =>
      obtain ⟨⟨db, clock, claims⟩, hcall, h⟩ := bind_eq_ok.mp h
      exact .head ⟨_, .commit hcall⟩ (ih h)

/-- No lock conflict anywhere. -/
def calm : Surroundings := ⟨false, fun _ => false, fun n => n + 8⟩

/-- A call that may claim both orders. -/
def claimBoth : Call := .claimDue 1 "shop" (some 64) (some 1000) calm

/-- Insertion of every candidate in turn, in a form that evaluates. -/
def inserted (le : String × ℤ → String × ℤ → Bool) (cs : List (String × ℤ)) : List (String × ℤ) :=
  cs.foldr (fun c sorted => sorted.takeWhile (fun d => !le c d) ++
    c :: sorted.dropWhile (fun d => !le c d)) []

theorem mergeSort_eq_inserted {le : String × ℤ → String × ℤ → Bool}
    (htrans : ∀ a b c, le a b → le b c → le a c) (htotal : ∀ a b, le a b || le b a)
    (cs : List (String × ℤ)) : cs.mergeSort le = inserted le cs := by
  induction cs with
  | nil => simp [inserted]
  | cons c cs ih =>
      obtain ⟨l₁, l₂, hcons, htail, hbefore⟩ := List.mergeSort_cons htrans htotal c cs
      have hsorted := List.pairwise_mergeSort htrans htotal (c :: cs)
      rw [hcons, List.pairwise_append, List.pairwise_cons] at hsorted
      obtain ⟨-, ⟨hafter, -⟩, -⟩ := hsorted
      have hdrop : ∀ l : List (String × ℤ), (∀ d ∈ l, le c d) →
          l.takeWhile (fun d => !le c d) = [] ∧ l.dropWhile (fun d => !le c d) = l := by
        intro l hl
        cases l with
        | nil => simp
        | cons d l => simp [hl d List.mem_cons_self]
      have htake : ∀ d ∈ l₁, (!le c d) = true := hbefore
      simp only [inserted, List.foldr_cons] at ih ⊢
      rw [hcons, ← ih, htail, List.takeWhile_append_of_pos htake, List.dropWhile_append_of_pos htake,
        (hdrop l₂ hafter).1, (hdrop l₂ hafter).2]
      simp

theorem candidates_eq (db : Db) (t : Uuid) (r : String) (scan : Scan) :
    candidates db t r scan = (inserted (fun a b => a.2 ≤ b.2) ((queued db t r).filter
      (fun c => scan.cursorTicket < c.2 ∧ c.2 ≤ scan.highWatermark))).take 64 := by
  rw [candidates, mergeSort_eq_inserted]
  · intro a b c hab hbc
    simp only [decide_eq_true_eq] at *
    exact hab.trans hbc
  · intro a b
    simpa using le_total a.2 b.2

theorem handover_tables :
    (do
      let s ← executeAll handover vacant
      .ok (s.db.targetResources.rows, s.db.resources.rows.map Prod.snd) : Except Failure _) =
      .ok ([((orderKey, "disk"), none), ((secondKey, "disk"), some 2)], [none]) := by
  simp only [executeAll, handover, orderWake, orderClaim, execute, claimDue, candidates_eq]
  decide +kernel

theorem handover_claims :
    (do
      let s ← executeAll handover vacant
      let (_, _, claims) ← execute s.db ⟨s.now, fun _ => 1⟩ (some 1) claimBoth
      .ok (claims.map Prod.fst,
        (examined s.db ⟨s.now, fun _ => 1⟩ (some 1) 1 "shop" 64 1000 calm).map Prod.fst) :
          Except Failure _) = .ok ([orderKey], ["order-1", "order-2"]) := by
  simp only [executeAll, handover, orderWake, orderClaim, claimBoth, execute, claimDue, examined,
    candidates_eq]
  decide +kernel

theorem handover_steps : ∃ s s' claims m, Run vacant s ∧
    Step s (.commit (some 1) (fun _ => 1) claimBoth claims) s' ∧
    s.db.targetResources.rows = [((orderKey, "disk"), none), ((secondKey, "disk"), some 2)] ∧
    s.db.resources.rows.map Prod.snd = [none] ∧ claims.map Prod.fst = [orderKey] ∧
    ("order-2", m) ∈ examined s.db ⟨s.now, fun _ => 1⟩ (some 1) 1 "shop" 64 1000 calm := by
  obtain ⟨s, hs, htables⟩ := bind_eq_ok.mp handover_tables
  obtain ⟨hwaiting, howners⟩ := Prod.mk.inj (Except.ok.inj htables)
  obtain ⟨s₁, hs₁, h⟩ := bind_eq_ok.mp handover_claims
  obtain rfl := Except.ok.inj (hs.symm.trans hs₁)
  obtain ⟨⟨db, clock, claims⟩, hcall, h⟩ := bind_eq_ok.mp h
  obtain ⟨hclaims, hexamined⟩ := Prod.mk.inj (Except.ok.inj h)
  have hmem : "order-2" ∈ ["order-1", "order-2"] := by simp
  rw [← hexamined] at hmem
  obtain ⟨⟨_, m⟩, hm, rfl⟩ := List.mem_map.mp hmem
  exact ⟨s, _, claims, m, run_of_executeAll hs, .commit hcall, hwaiting, howners, hclaims, hm⟩

theorem waiting_order_handover :
    ∃ s, Run vacant s ∧ WaitsFor s.db secondKey "disk" 2 ∧ Ready s secondKey 2 := by
  obtain ⟨s, _, _, _, hrun, -, hwaiting, -⟩ := handover_steps
  have hw : WaitsFor s.db secondKey "disk" 2 := by
    rw [WaitsFor, ← Table.mem_rows, hwaiting]
    simp
  exact ⟨s, hrun, hw, (waiting_order vacant_installed).1 s hrun secondKey "disk" 2 hw⟩

/-- Before the call starts the second order is the only waiter and the disk is free, yet
the call examines the released first order, whose ticket is older, and grants it the disk
before it reaches the second. -/
theorem oldest_waiter_overtaken :
    ¬ ∀ s₀ s s' session steps t r n ttl around claims entity m ticket, State.Installed s₀ →
      Run s₀ s →
      Step s (.commit session steps (.claimDue t r (some n) (some ttl) around) claims) s' →
      (entity, m) ∈ examined s.db ⟨s.now, steps⟩ session t r n ttl around →
      OldestWaiter s.db ⟨t, r, entity⟩ ticket →
      (∀ res, Declares s.db ⟨t, r, entity⟩ res → ¬ Held s.db t res s.now) →
      ∃ claimed, (⟨t, r, entity⟩, claimed) ∈ claims := by
  intro h
  obtain ⟨s, s', claims, m, hrun, hstep, hwaiting, howners, hclaims, hm⟩ := handover_steps
  have hold : OldestWaiter s.db secondKey 2 := by
    refine ⟨⟨"disk", ?_⟩, ?_⟩
    · rw [WaitsFor, ← Table.mem_rows, hwaiting]
      simp
    · intro key res w _ hw
      rw [WaitsFor, ← Table.mem_rows, hwaiting] at hw
      simp only [List.mem_cons, Prod.mk.injEq, reduceCtorEq, and_false, Option.some.injEq,
        List.not_mem_nil, or_false, false_or] at hw
      omega
  have hfree : ∀ res, Declares s.db secondKey res → ¬ Held s.db 1 res s.now := by
    rintro res - ⟨o, ho, w, hw, -⟩
    have ho : o ∈ s.db.resources.rows.map Prod.snd :=
      List.mem_map_of_mem (f := Prod.snd) (Table.mem_rows.mpr ho)
    rw [howners, List.mem_singleton] at ho
    rw [ho] at hw
    cases hw
  obtain ⟨claimed, hclaimed⟩ := h _ _ _ _ _ _ _ _ _ _ _ _ _ _ vacant_installed hrun hstep hm
    hold hfree
  have : secondKey ∈ claims.map Prod.fst := List.mem_map_of_mem hclaimed
  rw [hclaims] at this
  exact absurd this (by decide)

end Rss.Reconcile
