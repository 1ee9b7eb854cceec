import Rss.Model.Reconcile.Store
import Mathlib.Logic.Relation
import Mathlib.Tactic

/-! # What a reconcile call does

Each committed call is a sequence of effects on single targets. `Effect.Does` says what
one effect can change; later proofs about leases, owners and wakes use nothing else. -/

namespace Rss.Reconcile

open Rss.Sql

/-! ### Declarations and leases -/

/-- The target declares the resource. -/
def Declares (db : Db) (key : Key) (res : String) : Prop :=
  (db.targetResources.get? (key, res)).isSome

theorem mem_declared {db : Db} {key : Key} {res : String} :
    res ∈ db.declared key ↔ Declares db key res := by
  simp only [Db.declared, List.mem_map, List.mem_filter, decide_eq_true_eq, Prod.exists,
    Declares, Option.isSome_iff_exists, ← Table.mem_rows]
  constructor
  · rintro ⟨k, w, v, ⟨hmem, rfl⟩, rfl⟩
    exact ⟨v, hmem⟩
  · rintro ⟨v, hmem⟩
    exact ⟨key, res, v, ⟨hmem, rfl⟩, rfl⟩

/-- The claim is the current one of its target and its lease has not run out. -/
def Live (s : State) (key : Key) (k : Uuid) (g : ℤ) : Prop :=
  ∃ row, s.db.targets.get? key = some row ∧ row.token = some k ∧ row.epoch = g ∧
    ∃ u, row.leaseUntil = some u ∧ s.now < u

theorem not_expired {leaseUntil : Option ℤ} {now : ℤ} (h : ¬ expired leaseUntil now) :
    ∃ u, leaseUntil = some u ∧ now < u := by
  simpa [expired] using h

/-! ### The effects -/

/-- One kind of change to a target; `touch` moves waiting tickets and scans only. -/
inductive Effect where
  | touch
  | wake
  | bind
  | grant (claimed : Target)
  | renew
  | apply
  | finish (version : ℤ) (outcome : Outcome)
  | release
  deriving DecidableEq

/-- Effects that take owned resources away from their target. -/
def Effect.disowns : Effect → Bool
  | .grant _ | .finish _ _ | .release => true
  | _ => false

def Effect.grants : Effect → Bool
  | .grant _ => true
  | _ => false

/-- How the row of the target changes between two times. -/
inductive RowChange (now now' : ℤ) : Effect → Option Target → Option Target → Prop where
  | same (row : Option Target) : RowChange now now' .touch row row
  | inserted {time : ℤ} (ticket : ℤ) : RowChange now now' .wake none (some (newTarget time ticket))
  | woken {row : Target} {time : ℤ} (ticket : ℤ) :
      RowChange now now' .wake (some row)
        (some (row.woken (row.wakeVersion + 1) time ticket))
  | bound {row : Target} :
      RowChange now now' .bind (some row)
        (some { row with bindingRevision := row.bindingRevision + 1 })
  | granted {row : Target} {k : Uuid} {u : ℤ} (hrun : row.nextRun.isSome) :
      RowChange now now' (.grant (row.claimed k (row.epoch + 1) u)) (some row)
        (some (row.claimed k (row.epoch + 1) u))
  | renewed {row : Target} {u v : ℤ} (hu : row.leaseUntil = some u) (hlive : now < u) :
      RowChange now now' .renew (some row) (some { row with leaseUntil := some v })
  | applied {row : Target} {time : ℤ} (htoken : row.token.isSome) :
      RowChange now now' .apply (some row)
        (some { row with nextRun := some (least row.nextRun time), result := .applied })
  | finished {row : Target} {outcome : Outcome} {version time delay f ticket : ℤ}
      (htoken : row.token.isSome) (hversion : version ≤ row.wakeVersion) (htime : time ≤ now') :
      RowChange now now' (.finish version outcome) (some row)
        (some (row.finished outcome version time delay f ticket))
  | released {row : Target} :
      RowChange now now' .release (some row)
        (some { row with token := none, leaseUntil := none })

/-- What an effect on one target does to the whole store. -/
structure Effect.Does (s : State) (key : Key) (e : Effect) (s' : State) : Prop where
  now_le : s.now ≤ s'.now
  others : ∀ key', key' ≠ key → s'.db.targets.get? key' = s.db.targets.get? key'
  row : RowChange s.now s'.now e (s.db.targets.get? key) (s'.db.targets.get? key)
  owners : ∀ t res o, s.db.resources.get? (t, res) = some (some o) →
    s'.db.resources.get? (t, res) = some (some o) ∨
    (t = key.tenant ∧ e.disowns ∧ o.reconciler = key.reconciler ∧ o.entity = key.entity) ∨
    (t = key.tenant ∧ e.grants ∧ Declares s.db key res)
  declares : ∀ key' res, e ≠ .bind ∨ key' ≠ key →
    (Declares s'.db key' res ↔ Declares s.db key' res)
  granted : ∀ claimed, e = .grant claimed → ∀ res, Declares s.db key res →
    ¬ Held s.db key.tenant res s'.now ∧ ∃ k, claimed.token = some k ∧
      s'.db.resources.get? (key.tenant, res) =
        some (some ⟨key.reconciler, key.entity, k, claimed.epoch⟩)

/-- An effect that leaves the tables of owners and declarations alone. -/
theorem Effect.Does.of_row {s s' : State} {key : Key} {e : Effect} (hnow : s.now ≤ s'.now)
    (hothers : ∀ key', key' ≠ key → s'.db.targets.get? key' = s.db.targets.get? key')
    (hrow : RowChange s.now s'.now e (s.db.targets.get? key) (s'.db.targets.get? key))
    (hres : s'.db.resources = s.db.resources)
    (hdecl : ∀ key' res, Declares s'.db key' res ↔ Declares s.db key' res)
    (hgrant : e.grants = false) : e.Does s key s' where
  now_le := hnow
  others := hothers
  row := hrow
  owners t res o h := .inl (hres ▸ h)
  declares key' res _ := hdecl key' res
  granted claimed h := by simp [h, Effect.grants] at hgrant

/-! ### Authority -/

/-- The caller holds the live claim of the target. -/
structure Authority (db : Db) (now : ℤ) (key : Key) (k : Option Uuid) (g : Option ℤ)
    (row : Target) : Prop where
  get : db.targets.get? key = some row
  token : ∃ token, k = some token ∧ row.token = some token
  epoch : g = some row.epoch
  lease : ∃ u, row.leaseUntil = some u ∧ now < u

theorem lockAuthority_ok {db : Db} {clock clock' : Clock} {session : Option Uuid} {key : Key}
    {k : Option Uuid} {g : Option ℤ} {row : Target}
    (h : lockAuthority db clock session key k g = .ok (row, clock')) :
    Authority db clock.now key k g row ∧ clock.now ≤ clock'.now := by
  unfold lockAuthority at h
  obtain ⟨_, -, h⟩ := bind_eq_ok.mp h
  split at h
  · cases h
  · rename_i row' hrow
    split at h
    · cases h
    · rename_i hguard
      obtain ⟨_, -, h⟩ := bind_eq_ok.mp h
      split at h
      · cases h
      · cases h
        simp only [not_or, ne_eq, not_not] at hguard
        obtain ⟨hk, htoken, hepoch, hlive⟩ := hguard
        obtain ⟨token, rfl⟩ := Option.ne_none_iff_exists'.mp hk
        obtain ⟨u, hu, hlt⟩ := not_expired hlive
        exact ⟨⟨hrow, ⟨token, rfl, htoken⟩, hepoch.symm, u, hu, clock.le_tick.trans_lt hlt⟩,
          clock.le_tick.trans clock.tick.le_tick⟩

theorem Authority.live {s : State} {key : Key} {k : Option Uuid} {g : Option ℤ} {row : Target}
    (h : Authority s.db s.now key k g row) :
    ∃ token epoch, k = some token ∧ g = some epoch ∧ Live s key token epoch := by
  obtain ⟨token, hk, htoken⟩ := h.token
  exact ⟨token, row.epoch, hk, h.epoch, row, h.get, htoken, rfl, h.lease⟩

theorem lockExecution_ok {db : Db} {clock clock' : Clock} {session : Option Uuid} {key : Key}
    {k : Option Uuid} {g b : Option ℤ} {same : Bool}
    (h : lockExecution db clock session key k g b = .ok (same, clock')) :
    (∃ row, Authority db clock.now key k g row) ∧ clock.now ≤ clock'.now := by
  unfold lockExecution at h
  obtain ⟨⟨row, clock₁⟩, hauth, h⟩ := bind_eq_ok.mp h
  obtain ⟨ha, hle⟩ := lockAuthority_ok hauth
  have hclock : clock' = clock₁ := by
    dsimp only at h
    split at h
    · cases h
      rfl
    · split at h
      · cases h
      · cases h
        rfl
  exact ⟨⟨row, ha⟩, hclock ▸ hle⟩

theorem underBinding_ok {db : Db} {clock clock' : Clock} {session : Option Uuid} {key : Key}
    {k : Option Uuid} {g b : Option ℤ}
    (h : underBinding db clock session key k g b = .ok clock') :
    (∃ row, Authority db clock.now key k g row) ∧ clock.now ≤ clock'.now := by
  unfold underBinding at h
  obtain ⟨⟨same, clock₁⟩, hexec, h⟩ := bind_eq_ok.mp h
  dsimp only at h
  split at h
  · cases h
    exact lockExecution_ok hexec
  · cases h

/-! ### Operations of a lease holder -/

theorem get?_modify_others {db : Db} {key : Key} (f : Target → Target) :
    ∀ key', key' ≠ key → (db.targets.modify key f).get? key' = db.targets.get? key' :=
  fun _ h => Table.get?_modify_of_ne _ h f

theorem renew_does {db db' : Db} {clock clock' : Clock} {session : Option Uuid} {key : Key}
    {k : Option Uuid} {g b ttl : Option ℤ}
    (h : renew db clock session key k g b ttl = .ok (db', clock')) :
    Effect.renew.Does ⟨db, clock.now⟩ key ⟨db', clock'.now⟩ := by
  unfold renew at h
  obtain ⟨clock₁, hbind, h⟩ := bind_eq_ok.mp h
  obtain ⟨ttl, -, h⟩ := bind_eq_ok.mp h
  obtain ⟨⟨row, ha⟩, hle⟩ := underBinding_ok hbind
  obtain ⟨u, hu, hlive⟩ := ha.lease
  cases h
  refine .of_row (hle.trans clock₁.le_tick) (get?_modify_others _) ?_ rfl
    (fun _ _ => Iff.rfl) rfl
  rw [Table.get?_modify_self, ha.get]
  exact .renewed hu hlive

theorem markApplied_does {db db' : Db} {clock clock' : Clock} {session : Option Uuid}
    {key : Key} {k : Option Uuid} {g b : Option ℤ}
    (h : markApplied db clock session key k g b = .ok (db', clock')) :
    Effect.apply.Does ⟨db, clock.now⟩ key ⟨db', clock'.now⟩ := by
  unfold markApplied at h
  obtain ⟨clock₁, hbind, h⟩ := bind_eq_ok.mp h
  obtain ⟨⟨row, ha⟩, hle⟩ := underBinding_ok hbind
  cases h
  refine .of_row (hle.trans clock₁.le_tick) (get?_modify_others _) ?_ rfl
    (fun _ _ => Iff.rfl) rfl
  rw [Table.get?_modify_self, ha.get]
  obtain ⟨token, -, htoken⟩ := ha.token
  exact .applied (by simp [htoken])

/-- Disowning one claim keeps every owner that names another target. -/
theorem get?_disown {resources : Table (Uuid × String) (Option Owner)} {key : Key}
    {token : Option Uuid} {epoch : Option ℤ} {t : Uuid} {res : String} {o : Owner}
    (h : resources.get? (t, res) = some (some o)) :
    (disown resources key token epoch).get? (t, res) = some (some o) ∨
      t = key.tenant ∧ o.reconciler = key.reconciler ∧ o.entity = key.entity := by
  simp only [disown, Table.get?_update, h, Option.map_some]
  split
  · rename_i hown
    obtain ⟨ht, w, hw, hr, he, -⟩ := hown
    obtain rfl : o = w := Option.some.inj hw
    exact .inr ⟨ht, hr, he⟩
  · exact .inl rfl

theorem release_does {db db' : Db} {clock clock' : Clock} {session : Option Uuid} {key : Key}
    {k : Option Uuid} {g : Option ℤ}
    (h : release db clock session key k g = .ok (db', clock')) :
    Effect.release.Does ⟨db, clock.now⟩ key ⟨db', clock'.now⟩ := by
  unfold release at h
  obtain ⟨⟨row, clock₁⟩, hauth, h⟩ := bind_eq_ok.mp h
  obtain ⟨ha, hle⟩ := lockAuthority_ok hauth
  cases h
  refine ⟨hle, get?_modify_others _, ?_, ?_, fun _ _ _ => Iff.rfl, by simp⟩
  · rw [Table.get?_modify_self, ha.get]
    exact .released
  · intro t res o ho
    rcases get?_disown ho with hkept | ⟨ht, hr, he⟩
    · exact .inl hkept
    · exact .inr (.inl ⟨ht, rfl, hr, he⟩)

theorem declares_setWaiting {db : Db} (key : Key) (ticket : Option ℤ) (key' : Key)
    (res : String) : Declares (db.setWaiting key ticket) key' res ↔ Declares db key' res := by
  simp [Declares, Db.setWaiting]

theorem finish_does {db db' : Db} {clock clock' : Clock} {session : Option Uuid} {key : Key}
    {k : Option Uuid} {g b w delay f : Option ℤ} {outcome : Option Outcome}
    (h : finish db clock session key k g b w outcome delay f = .ok (db', clock')) :
    ∃ version result, w = some version ∧ outcome = some result ∧
      (Effect.finish version result).Does ⟨db, clock.now⟩ key ⟨db', clock'.now⟩ := by
  unfold finish at h
  obtain ⟨⟨row, clock₁⟩, hauth, h⟩ := bind_eq_ok.mp h
  obtain ⟨clock₂, hbind, h⟩ := bind_eq_ok.mp h
  obtain ⟨result, hout, h⟩ := bind_eq_ok.mp h
  obtain ⟨failures, -, h⟩ := bind_eq_ok.mp h
  obtain ⟨delay, -, h⟩ := bind_eq_ok.mp h
  obtain ⟨version, hw, h⟩ := bind_eq_ok.mp h
  obtain ⟨ticket, -, h⟩ := bind_eq_ok.mp h
  obtain ⟨ha, hle⟩ := lockAuthority_ok hauth
  have hle₂ : clock₁.now ≤ clock₂.now := by
    split at hbind
    · exact (underBinding_ok hbind).2
    · cases hbind
      exact le_rfl
  obtain ⟨hw, hversion⟩ := Option.filter_eq_some_iff.mp (okOr_eq_ok.mp hw)
  obtain ⟨token, -, htoken⟩ := ha.token
  refine ⟨version, result, hw, okOr_eq_ok.mp hout, ?_⟩
  cases h
  refine ⟨hle.trans (hle₂.trans clock₂.le_tick), get?_modify_others _, ?_, ?_, ?_, by simp⟩
  · rw [Table.get?_modify_self, ha.get]
    exact .finished (by simp [htoken]) (by simpa using hversion) le_rfl
  · intro t res o ho
    rcases get?_disown ho with hkept | ⟨ht, hr, he⟩
    · exact .inl hkept
    · exact .inr (.inl ⟨ht, rfl, hr, he⟩)
  · intro key' res _
    exact declares_setWaiting key none key' res

/-! ### Waking and binding -/

theorem declare_get? (key : Key) (row : Target) (wasWaiting : Bool) (resources : List String)
    (table : Table (Key × String) (Option ℤ)) (clock : Clock) {key' : Key} (h : key' ≠ key)
    (res : String) :
    (declare key row wasWaiting resources table clock).1.get? (key', res) =
      table.get? (key', res) := by
  induction resources generalizing table clock with
  | nil => rfl
  | cons r rest ih =>
      rw [declare, ih, Table.get?_insertNew, if_neg]
      simp [h]

theorem declare_now_le (key : Key) (row : Target) (wasWaiting : Bool) (resources : List String)
    (table : Table (Key × String) (Option ℤ)) (clock : Clock) :
    clock.now ≤ (declare key row wasWaiting resources table clock).2.now := by
  induction resources generalizing table clock with
  | nil => exact le_rfl
  | cons r rest ih =>
      exact (clock.le_tick.trans clock.tick.le_tick).trans (ih _ _)

theorem bindResources_does {db db' : Db} {clock clock' : Clock} {session : Option Uuid}
    {key : Key} {keys : Option (List (Option String))}
    (h : bindResources db clock session key keys = .ok (db', clock')) :
    (db' = db ∧ clock' = clock) ∨
      Effect.bind.Does ⟨db, clock.now⟩ key ⟨db', clock'.now⟩ := by
  unfold bindResources at h
  obtain ⟨_, -, h⟩ := bind_eq_ok.mp h
  obtain ⟨ks, -, h⟩ := bind_eq_ok.mp h
  obtain ⟨row, hrow, h⟩ := bind_eq_ok.mp h
  split at h
  · cases h
    exact .inl ⟨rfl, rfl⟩
  · right
    obtain ⟨_, -, h⟩ := bind_eq_ok.mp h
    obtain ⟨revision, hrev, h⟩ := bind_eq_ok.mp h
    cases h
    refine ⟨declare_now_le _ _ _ _ _ _, get?_modify_others _, ?_, ?_, ?_, by simp⟩
    · rw [Table.get?_modify_self, okOr_eq_ok.mp hrow, succ_eq_some (okOr_eq_ok.mp hrev)]
      exact .bound
    · intro t res o ho
      left
      simp only [Table.get?_insertAll, ho, Option.getD_some, ite_self]
    · intro key' res hne
      have hne : key' ≠ key := hne.resolve_left (fun h => h rfl)
      simp only [Declares, declare_get? _ _ _ _ _ _ hne, Table.get?_delete]
      simp [hne]

theorem wake_does {db db' : Db} {clock clock' : Clock} {session : Option Uuid} {key : Key}
    {keys : Option (List (Option String))}
    (h : wake db clock session key keys = .ok (db', clock')) :
    ∃ db₁ clock₁, Effect.wake.Does ⟨db, clock.now⟩ key ⟨db₁, clock₁.now⟩ ∧
      bindResources db₁ clock₁ session key keys = .ok (db', clock') := by
  unfold wake at h
  obtain ⟨_, -, h⟩ := bind_eq_ok.mp h
  split at h
  · cases h
  · obtain ⟨ticket, -, h⟩ := bind_eq_ok.mp h
    obtain ⟨version, hversion, h⟩ := bind_eq_ok.mp h
    refine ⟨_, _, ?_, h⟩
    refine .of_row (clock.le_tick.trans clock.tick.le_tick) ?_ ?_ rfl (fun _ _ => Iff.rfl) rfl
    · intro key' hne
      simp [Table.get?_upsert, hne]
    · simp only [Table.get?_upsert, if_true]
      have hversion := succ_eq_some (okOr_eq_ok.mp hversion)
      cases hrow : db.targets.get? key with
      | none => exact .inserted ticket
      | some row =>
          obtain rfl : version = row.wakeVersion + 1 := by simpa [hrow] using hversion
          exact .woken ticket

/-! ### Claiming -/

theorem Held.mono {db : Db} {t : Uuid} {res : String} {now now' : ℤ} (h : now' ≤ now)
    (hheld : Held db t res now) : Held db t res now' := by
  obtain ⟨o, ho, w, hw, holder, hh, htoken, hepoch, u, hu, hlt⟩ := hheld
  exact ⟨o, ho, w, hw, holder, hh, htoken, hepoch, u, hu, lt_of_le_of_lt h hlt⟩

theorem blocked_now_le (db : Db) (t : Uuid) (ticket : Option ℤ) (resources : List String)
    (clock : Clock) : clock.now ≤ (blocked db t ticket resources clock).2.now := by
  induction resources generalizing clock with
  | nil => exact le_rfl
  | cons res rest ih =>
      unfold blocked
      split
      · exact clock.le_tick
      · exact clock.le_tick.trans (ih clock.tick)

/-- An unblocked candidate found no live holder of any of its resources. -/
theorem not_held_of_unblocked {db : Db} {t : Uuid} {ticket : Option ℤ}
    {resources : List String} {clock : Clock}
    (h : (blocked db t ticket resources clock).1 = false) :
    ∀ res ∈ resources, ¬ Held db t res (blocked db t ticket resources clock).2.now := by
  induction resources generalizing clock with
  | nil => simp
  | cons res rest ih =>
      unfold blocked at h ⊢
      split at h
      · cases h
      · rename_i hfree
        rw [if_neg hfree]
        intro r hr hheld
        rcases List.mem_cons.mp hr with rfl | hr
        · exact hfree (.inr (hheld.mono (blocked_now_le db t ticket rest clock.tick)))
        · exact ih h r hr hheld

theorem lockResources_ok {db : Db} {session : Option Uuid} {key : Key} {extra : List String}
    (h : lockResources db session key extra = .ok ()) {res : String}
    (hd : Declares db key res) : (db.resources.get? (key.tenant, res)).isSome := by
  unfold lockResources at h
  obtain ⟨_, -, h⟩ := bind_eq_ok.mp h
  split at h
  · rename_i hall
    exact hall res (by simp [mem_declared.mpr hd])
  · cases h

/-- Clearing the old claim and taking the declared resources. -/
theorem get?_grant {db : Db} {key : Key} {claimed : Target} {k : Uuid} {res : String}
    (hk : claimed.token = some k) (hd : Declares db key res)
    (hr : (db.resources.get? (key.tenant, res)).isSome) :
    (grant db key claimed).resources.get? (key.tenant, res) =
      some (some ⟨key.reconciler, key.entity, k, claimed.epoch⟩) := by
  obtain ⟨o, ho⟩ := Option.isSome_iff_exists.mp hr
  simp [grant, ho, mem_declared.mpr hd, hk]

theorem get?_grant_of_not_declares {db : Db} {key : Key} {claimed : Target} {t : Uuid}
    {res : String} (h : ¬ (t = key.tenant ∧ Declares db key res)) :
    (grant db key claimed).resources.get? (t, res) = db.resources.get? (t, res) := by
  have h' : ¬ (t = key.tenant ∧ res ∈ db.declared key) := by rwa [mem_declared]
  simp only [grant, Table.get?_update, if_neg h', Option.map_id']

theorem grant_does {db : Db} {clock clock' : Clock} {key : Key} {row : Target} {k : Uuid}
    {u : ℤ} (ticket : Option ℤ) (hnow : clock.now ≤ clock'.now)
    (hrow : db.targets.get? key = some row) (hrun : row.nextRun.isSome)
    (hexist : ∀ res, Declares db key res → (db.resources.get? (key.tenant, res)).isSome)
    (hfree : ∀ res, Declares db key res → ¬ Held db key.tenant res clock'.now) :
    (Effect.grant (row.claimed k (row.epoch + 1) u)).Does ⟨db, clock.now⟩ key
      ⟨grant { db.setWaiting key ticket with
        resources := disown db.resources key row.token (some row.epoch) } key
          (row.claimed k (row.epoch + 1) u), clock'.now⟩ := by
  refine ⟨hnow, get?_modify_others _, ?_, ?_, ?_, ?_⟩
  · simp only [grant, Db.setWaiting, Table.get?_modify_self, hrow, Option.map_some]
    exact .granted hrun
  · intro t res o ho
    by_cases hd : t = key.tenant ∧ Declares db key res
    · exact .inr (.inr ⟨hd.1, rfl, hd.2⟩)
    · rw [get?_grant_of_not_declares (by simpa [Declares, Db.setWaiting] using hd)]
      rcases get?_disown ho with hkept | ⟨ht, hr, he⟩
      · exact .inl hkept
      · exact .inr (.inl ⟨ht, rfl, hr, he⟩)
  · intro key' res _
    simp [Declares, grant, Db.setWaiting]
  · rintro claimed h res hd
    obtain rfl := Effect.grant.inj h
    refine ⟨hfree res hd, k, rfl, get?_grant rfl (by simpa [Declares, Db.setWaiting] using hd) ?_⟩
    simpa [disown] using hexist res hd

theorem claimCandidate_does {db db' : Db} {clock clock' : Clock} {session : Option Uuid}
    {key : Key} {ticket ttl : ℤ} {locked : Bool} {token : Uuid} {claimed : Option Target}
    (h : claimCandidate db clock session key ticket locked token ttl =
      .ok (db', clock', claimed)) :
    ((claimed.map Effect.grant).getD .touch).Does ⟨db, clock.now⟩ key ⟨db', clock'.now⟩ := by
  have hskip : ∀ clock' : Clock, clock.now ≤ clock'.now →
      Effect.touch.Does ⟨db, clock.now⟩ key ⟨db, clock'.now⟩ :=
    fun _ hle => .of_row hle (fun _ _ => rfl) (.same _) rfl (fun _ _ => Iff.rfl) rfl
  unfold claimCandidate at h
  split at h
  · cases h
    exact hskip clock le_rfl
  split at h
  · cases h
    exact hskip clock le_rfl
  rename_i row hrow
  split at h
  · cases h
    exact hskip clock.tick clock.le_tick
  rename_i hdue
  obtain ⟨_, hlock, h⟩ := bind_eq_ok.mp h
  dsimp only at h
  have hle := blocked_now_le (db.setWaiting key row.queueTicket) key.tenant row.queueTicket
    ((db.setWaiting key row.queueTicket).declared key).mergeSort clock.tick
  split at h
  · cases h
    exact .of_row (clock.le_tick.trans hle) (fun _ _ => rfl) (.same _) rfl
      (declares_setWaiting key _) rfl
  · rename_i hfree
    obtain ⟨epoch, hepoch, h⟩ := bind_eq_ok.mp h
    obtain rfl := succ_eq_some (okOr_eq_ok.mp hepoch)
    cases h
    have hrun : row.nextRun.isSome := by
      simp only [not_or] at hdue
      exact Option.isSome_iff_ne_none.mpr hdue.2.1
    refine grant_does row.queueTicket (clock.le_tick.trans (hle.trans (Clock.le_tick _))) hrow
      hrun (fun res hd => lockResources_ok hlock hd) ?_
    intro res hd hheld
    have hmem : res ∈ ((db.setWaiting key row.queueTicket).declared key).mergeSort := by
      rw [List.mem_mergeSort, mem_declared]
      exact (declares_setWaiting key _ key res).mpr hd
    exact not_held_of_unblocked (Bool.eq_false_iff.mpr hfree) res hmem
      (hheld.mono (Clock.le_tick _))

/-! ### From calls to effects -/

/-- A sequence of effects of an admitted kind. -/
def EffectRun (P : Key → Effect → Prop) : State → State → Prop :=
  Relation.ReflTransGen (fun s s' => ∃ key e, P key e ∧ Effect.Does s key e s')

theorem EffectRun.single {P : Key → Effect → Prop} {s s' : State} {key : Key} {e : Effect}
    (hp : P key e) (h : e.Does s key s') : EffectRun P s s' :=
  Relation.ReflTransGen.single ⟨key, e, hp, h⟩

theorem EffectRun.mono {P Q : Key → Effect → Prop} {s s' : State}
    (hpq : ∀ key e, P key e → Q key e) (h : EffectRun P s s') : EffectRun Q s s' :=
  Relation.ReflTransGen.mono (fun _ _ ⟨key, e, hp, hdo⟩ => ⟨key, e, hpq key e hp, hdo⟩) _ _ h

/-- What every admitted effect keeps holds along a run of them. -/
theorem EffectRun.invariant {P : Key → Effect → Prop} {s s' : State} {I : State → Prop}
    (h : EffectRun P s s')
    (hstep : ∀ m m' key e, P key e → Effect.Does m key e m' → I m → I m') (hi : I s) : I s' := by
  induction h with
  | refl => exact hi
  | tail _ hdo ih =>
      obtain ⟨key, e, hp, hdo⟩ := hdo
      exact hstep _ _ key e hp hdo ih

/-- Effects of a claiming call; the grants among them are the claims it returns. -/
def Claims (claims : List (Key × Target)) (key : Key) (e : Effect) : Prop :=
  e = .touch ∨ ∃ claimed, e = .grant claimed ∧ (key, claimed) ∈ claims

theorem Claims.mono {cs cs' : List (Key × Target)} (h : cs ⊆ cs') {key : Key} {e : Effect}
    (hc : Claims cs key e) : Claims cs' key e := by
  rcases hc with rfl | ⟨claimed, rfl, hmem⟩
  · exact .inl rfl
  · exact .inr ⟨claimed, rfl, h hmem⟩

/-- The claim of a target was granted somewhere along the way. -/
def GrantedWithin (claims : List (Key × Target)) (s s' : State) (key : Key)
    (claimed : Target) : Prop :=
  ∃ m m', EffectRun (Claims claims) s m ∧ (Effect.grant claimed).Does m key m' ∧
    EffectRun (Claims claims) m' s'

theorem claimLoop_effects {session : Option Uuid} {t : Uuid} {r : String} {n ttl : ℤ}
    {around : Surroundings} {cs : List (String × ℤ)} {st st' : ClaimLoop}
    (h : claimLoop session t r n ttl around cs st = .ok st') :
    st.claims ⊆ st'.claims ∧
      EffectRun (Claims st'.claims) ⟨st.db, st.clock.now⟩ ⟨st'.db, st'.clock.now⟩ ∧
      ∀ claim ∈ st'.claims, claim ∈ st.claims ∨
        GrantedWithin st'.claims ⟨st.db, st.clock.now⟩ ⟨st'.db, st'.clock.now⟩
          claim.1 claim.2 := by
  induction cs generalizing st with
  | nil =>
      cases h
      exact ⟨fun _ hc => hc, .refl, fun _ hc => .inl hc⟩
  | cons c cs ih =>
      obtain ⟨entity, ticket⟩ := c
      obtain ⟨⟨db, clock, claimed⟩, hcand, h⟩ := bind_eq_ok.mp h
      have hdo := claimCandidate_does hcand
      -- the loop either stops here or continues from the extended list of claims
      obtain ⟨hsub, hrest, hclaims⟩ :
          st.claims ++ claimed.toList.map (fun row => (Key.mk t r entity, row)) ⊆ st'.claims ∧
          EffectRun (Claims st'.claims) ⟨db, clock.now⟩ ⟨st'.db, st'.clock.now⟩ ∧
          ∀ claim ∈ st'.claims,
            claim ∈ st.claims ++ claimed.toList.map (fun row => (Key.mk t r entity, row)) ∨
            GrantedWithin st'.claims ⟨db, clock.now⟩ ⟨st'.db, st'.clock.now⟩
              claim.1 claim.2 := by
        dsimp only at h
        split at h
        · cases h
          exact ⟨fun _ hc => hc, .refl, fun _ hc => .inl hc⟩
        · exact ih h
      have hkind : Claims st'.claims ⟨t, r, entity⟩ ((claimed.map Effect.grant).getD .touch) := by
        cases claimed with
        | none => exact .inl rfl
        | some row => exact .inr ⟨row, rfl, hsub (by simp)⟩
      refine ⟨fun _ hc => hsub (List.mem_append_left _ hc),
        (EffectRun.single hkind hdo).trans hrest, ?_⟩
      intro claim hc
      rcases hclaims claim hc with hc | ⟨m, m', hpre, hgrant, hpost⟩
      · rcases List.mem_append.mp hc with hc | hc
        · exact .inl hc
        · obtain ⟨row, hrow, rfl⟩ := List.mem_map.mp hc
          obtain rfl : claimed = some row := by simpa using hrow
          exact .inr ⟨_, _, .refl, hdo, hrest⟩
      · exact .inr ⟨m, m', (EffectRun.single hkind hdo).trans hpre, hgrant, hpost⟩

theorem claimDue_effects {db db' : Db} {clock clock' : Clock} {session : Option Uuid} {t : Uuid}
    {r : String} {n ttl : Option ℤ} {around : Surroundings} {claims : List (Key × Target)}
    {more : Bool}
    (h : claimDue db clock session t r n ttl around = .ok (db', clock', claims, more)) :
    EffectRun (Claims claims) ⟨db, clock.now⟩ ⟨db', clock'.now⟩ ∧
      ∀ claim ∈ claims,
        GrantedWithin claims ⟨db, clock.now⟩ ⟨db', clock'.now⟩ claim.1 claim.2 := by
  unfold claimDue at h
  obtain ⟨_, -, h⟩ := bind_eq_ok.mp h
  split at h
  · split at h
    · cases h
    · split at h
      · cases h
        exact ⟨.refl, by simp⟩
      · obtain ⟨st, hloop, h⟩ := bind_eq_ok.mp h
        cases h
        obtain ⟨-, hrun, hclaims⟩ := claimLoop_effects hloop
        -- recording the scan position touches no target
        have hscan : ∀ scans, EffectRun (Claims st.claims) ⟨st.db, st.clock.now⟩
            ⟨{ st.db with scans }, st.clock.now⟩ :=
          fun _ => @EffectRun.single _ _ _ ⟨t, r, ""⟩ _ (.inl rfl)
            (.of_row le_rfl (fun _ _ => rfl) (.same _) rfl (fun _ _ => Iff.rfl) rfl)
        refine ⟨hrun.trans (hscan _), ?_⟩
        intro claim hc
        rcases hclaims claim hc with hc | ⟨m, m', hpre, hgrant, hpost⟩
        · simp at hc
        · exact ⟨m, m', hpre, hgrant, hpost.trans (hscan _)⟩
  · cases h

/-- The action is a completion of the target with these arguments. -/
def Action.Finishes (a : Action) (key : Key) (version : ℤ) (outcome : Outcome) : Prop :=
  ∃ session steps k g b delay f claims,
    a = .commit session steps (.finish key k g b (some version) (some outcome) delay f) claims

/-- Completions come from completing calls, and grants are returned as claims. -/
structure Action.Admits (a : Action) (key : Key) (e : Effect) : Prop where
  finish : ∀ version outcome, e = .finish version outcome → a.Finishes key version outcome
  grant : ∀ claimed, e = .grant claimed → (key, claimed) ∈ a.claims

theorem Action.admits_claims {a : Action} {key : Key} {e : Effect} (h : Claims a.claims key e) :
    a.Admits key e := by
  rcases h with rfl | ⟨claimed, rfl, hmem⟩
  · exact ⟨by simp, by simp⟩
  · refine ⟨by simp, ?_⟩
    intro claimed' h
    obtain rfl := Effect.grant.inj h
    exact hmem

theorem bindResources_effects {a : Action} {db db' : Db} {clock clock' : Clock}
    {session : Option Uuid} {key : Key} {keys : Option (List (Option String))}
    (h : bindResources db clock session key keys = .ok (db', clock')) :
    EffectRun a.Admits ⟨db, clock.now⟩ ⟨db', clock'.now⟩ := by
  rcases bindResources_does h with ⟨rfl, rfl⟩ | hdo
  · exact .refl
  · exact .single ⟨by simp, by simp⟩ hdo

/-- Every step of the store is a run of effects, and the claims it returns were granted
within it. -/
theorem Step.effects {s s' : State} {a : Action} (h : Step s a s') :
    EffectRun a.Admits s s' ∧ ∀ claim ∈ a.claims, GrantedWithin a.claims s s' claim.1 claim.2 := by
  cases h with
  | idle elapsed tickets =>
      refine ⟨@EffectRun.single _ _ _ ⟨0, "", ""⟩ .touch ⟨by simp, by simp⟩ ?_,
        by simp [Action.claims]⟩
      exact .of_row (Int.le_add_of_nonneg_right (Int.natCast_nonneg _)) (fun _ _ => rfl)
        (.same _) rfl (fun _ _ => Iff.rfl) rfl
  | @commit session steps call db clock claims h =>
      cases call with
      | wake key keys =>
          obtain ⟨⟨db, clock⟩, hop, h⟩ := bind_eq_ok.mp h
          cases h
          obtain ⟨db₁, clock₁, hdo, hbind⟩ := wake_does hop
          refine ⟨?_, by simp [Action.claims]⟩
          exact (EffectRun.single ⟨by simp, by simp⟩ hdo).trans
            (bindResources_effects hbind)
      | bindResources key keys =>
          obtain ⟨⟨db, clock⟩, hop, h⟩ := bind_eq_ok.mp h
          cases h
          exact ⟨bindResources_effects hop, by simp [Action.claims]⟩
      | claimDue t r n ttl around =>
          obtain ⟨⟨db, clock, claims, more⟩, hop, h⟩ := bind_eq_ok.mp h
          cases h
          obtain ⟨hrun, hclaims⟩ := claimDue_effects hop
          exact ⟨hrun.mono (fun _ _ => Action.admits_claims), hclaims⟩
      | renew key k g b ttl =>
          obtain ⟨⟨db, clock⟩, hop, h⟩ := bind_eq_ok.mp h
          cases h
          exact ⟨.single ⟨by simp, by simp⟩ (renew_does hop), by simp [Action.claims]⟩
      | markApplied key k g b =>
          obtain ⟨⟨db, clock⟩, hop, h⟩ := bind_eq_ok.mp h
          cases h
          exact ⟨.single ⟨by simp, by simp⟩ (markApplied_does hop), by simp [Action.claims]⟩
      | finish key k g b w outcome delay f =>
          obtain ⟨⟨db, clock⟩, hop, h⟩ := bind_eq_ok.mp h
          cases h
          obtain ⟨version, result, rfl, rfl, hdo⟩ := finish_does hop
          refine ⟨.single ⟨?_, by simp⟩ hdo, by simp [Action.claims]⟩
          intro _ _ h
          cases h
          exact ⟨_, _, _, _, _, _, _, _, rfl⟩
      | release key k g =>
          obtain ⟨⟨db, clock⟩, hop, h⟩ := bind_eq_ok.mp h
          cases h
          exact ⟨.single ⟨by simp, by simp⟩ (release_does hop), by simp [Action.claims]⟩

end Rss.Reconcile
