import Rss.Verification.Reconcile.Effects

/-! # Mutual exclusion of resources

A resource granted to a claim stays with it for as long as the claim is live, so two live
claims never share one. -/

namespace Rss.Reconcile

open Rss.Sql

/-- A run of the store. -/
def Run : State → State → Prop := Relation.ReflTransGen (fun s s' => ∃ a, Step s a s')

/-! ### Rows along an effect -/

/-- Targets are never removed, and neither epochs nor binding revisions go back. -/
theorem Effect.Does.row_mono {s s' : State} {key : Key} {e : Effect} (h : e.Does s key s')
    {key' : Key} {row : Target} (hrow : s.db.targets.get? key' = some row) :
    ∃ row', s'.db.targets.get? key' = some row' ∧ row.epoch ≤ row'.epoch ∧
      row.bindingRevision ≤ row'.bindingRevision ∧
      (row'.bindingRevision = row.bindingRevision → e ≠ .bind ∨ key' ≠ key) := by
  by_cases hne : key' = key
  · subst hne
    have hchange := h.row
    rw [hrow] at hchange
    generalize s'.db.targets.get? key' = new at hchange
    cases hchange with
    | bound =>
        refine ⟨_, rfl, le_rfl, Int.le_add_one le_rfl, ?_⟩
        intro heq
        simp only at heq
        omega
    | granted hrun => exact ⟨_, rfl, Int.le_add_one le_rfl, le_rfl, fun _ => .inl (by simp)⟩
    | _ => exact ⟨_, rfl, le_rfl, le_rfl, fun _ => .inl (by simp)⟩
  · exact ⟨row, (h.others key' hne).trans hrow, le_rfl, le_rfl, fun _ => .inr hne⟩

/-- A claim that is live after an effect was live before it, unless the effect granted it. -/
theorem Effect.Does.live_before {s s' : State} {key : Key} {e : Effect} (h : e.Does s key s')
    {key' : Key} {k : Uuid} {g : ℤ} (hlive : Live s' key' k g) :
    Live s key' k g ∨ key' = key ∧ ∃ claimed, e = .grant claimed ∧ claimed.token = some k ∧
      claimed.epoch = g ∧ ∃ row, s.db.targets.get? key = some row ∧ g = row.epoch + 1 := by
  obtain ⟨row', hrow', htoken, hepoch, u, hu, hlt⟩ := hlive
  have hlt₀ : s.now < u := h.now_le.trans_lt hlt
  by_cases hne : key' = key
  · subst hne
    have hchange := h.row
    rw [hrow'] at hchange
    generalize hold : s.db.targets.get? key' = old at hchange
    cases hchange with
    | same => exact .inl ⟨row', hold, htoken, hepoch, u, hu, hlt₀⟩
    | inserted ticket => cases htoken
    | woken ticket => exact .inl ⟨_, hold, htoken, hepoch, u, hu, hlt₀⟩
    | bound => exact .inl ⟨_, hold, htoken, hepoch, u, hu, hlt₀⟩
    | granted hrun =>
        exact .inr ⟨rfl, _, rfl, htoken, hepoch, _, rfl, hepoch.symm⟩
    | renewed hu' hlive => exact .inl ⟨_, hold, htoken, hepoch, _, hu', hlive⟩
    | applied _ => exact .inl ⟨_, hold, htoken, hepoch, u, hu, hlt₀⟩
    | finished _ _ _ => cases htoken
    | released => cases htoken
  · exact .inl ⟨row', (h.others key' hne).symm.trans hrow', htoken, hepoch, u, hu, hlt₀⟩

/-! ### The grant as an invariant -/

/-- The resource carries the claim. -/
def Owns (s : State) (key : Key) (k : Uuid) (g : ℤ) (res : String) : Prop :=
  s.db.resources.get? (key.tenant, res) = some (some ⟨key.reconciler, key.entity, k, g⟩)

/-- What a grant of resources leaves behind: the target keeps at least the granted epoch
and binding revision, it declares the granted resources until it is bound again, and it
owns all of them while the claim is live. -/
structure Granted (s : State) (key : Key) (k : Uuid) (g b : ℤ) (R : Set String) : Prop where
  row : ∃ row, s.db.targets.get? key = some row ∧ g ≤ row.epoch ∧ b ≤ row.bindingRevision ∧
    (row.bindingRevision = b → ∀ res, Declares s.db key res ↔ res ∈ R)
  owns : Live s key k g → ∀ res ∈ R, Owns s key k g res

theorem Effect.Does.granted_of_grant {s s' : State} {key : Key} {claimed : Target} {k : Uuid}
    (h : (Effect.grant claimed).Does s key s') (hk : claimed.token = some k) :
    Granted s' key k claimed.epoch claimed.bindingRevision {res | Declares s.db key res} := by
  have hdecl : ∀ res, Declares s'.db key res ↔ res ∈ {res | Declares s.db key res} :=
    fun res => h.declares key res (.inl (by simp))
  constructor
  · have hchange := h.row
    generalize s.db.targets.get? key = old at hchange
    generalize hnew : s'.db.targets.get? key = new at hchange
    cases hchange with
    | granted hrun => exact ⟨_, rfl, le_rfl, le_rfl, fun _ => hdecl⟩
  · intro _ res hres
    obtain ⟨-, k', hk', hown⟩ := h.granted claimed rfl res hres
    obtain rfl : k = k' := Option.some.inj (hk.symm.trans hk')
    exact hown

/-- A live claim keeps its resources through an effect on another target. -/
theorem Effect.Does.owns_of_ne {s s' : State} {key key' : Key} {e : Effect} {k : Uuid} {g : ℤ}
    {res : String} (h : e.Does s key s') (hne : key' ≠ key) (hlive : Live s' key' k g)
    (hown : Owns s key' k g res) : Owns s' key' k g res := by
  rcases h.owners _ _ _ hown with hkept | ⟨ht, -, hr, he⟩ | ⟨ht, hg, hd⟩
  · exact hkept
  · exact absurd (by cases key; cases key'; simp_all) hne
  · cases e with
    | grant claimed =>
        -- the granted target found no live holder, but the claim is one
        obtain ⟨row', hrow', htoken, hepoch, u, hu, hlt⟩ := hlive
        refine absurd ?_ (h.granted claimed rfl res hd).1
        rw [← ht]
        exact ⟨_, hown, _, rfl, row', (h.others key' hne).symm.trans hrow', htoken, hepoch, u,
          hu, hlt⟩
    | _ => cases hg

theorem Effect.disowns_of_grants {e : Effect} (h : e.grants = true) : e.disowns = true := by
  cases e <;> simp_all [Effect.grants, Effect.disowns]

/-- An effect that ends a claim leaves no token, and a new grant has a higher epoch: a claim
that is still live was not disowned. -/
theorem Effect.Does.not_disowns {s s' : State} {key : Key} {e : Effect} {k : Uuid} {g : ℤ}
    {row : Target} (h : e.Does s key s') (hlive : Live s' key k g)
    (hrow : s.db.targets.get? key = some row) (hge : g ≤ row.epoch) : e.disowns = false := by
  obtain ⟨row', hrow', htoken, hepoch, -⟩ := hlive
  have hchange := h.row
  rw [hrow, hrow'] at hchange
  cases hchange with
  | granted hrun =>
      simp only [Target.claimed] at hepoch
      omega
  | finished _ _ _ => cases htoken
  | released => cases htoken
  | _ => rfl

/-- No effect takes a resource from a live claim. -/
theorem Effect.Does.granted_step {s s' : State} {key key' : Key} {e : Effect} {k : Uuid}
    {g b : ℤ} {R : Set String} (h : e.Does s key s') (hg : Granted s key' k g b R) :
    Granted s' key' k g b R := by
  obtain ⟨row, hrow, hge, hbe, hdecl⟩ := hg.row
  obtain ⟨row', hrow', hle, hble, hsame⟩ := h.row_mono hrow
  constructor
  · refine ⟨row', hrow', hge.trans hle, hbe.trans hble, ?_⟩
    intro hb res
    have hrev : row.bindingRevision = b := by omega
    rw [h.declares key' res (hsame (by omega))]
    exact hdecl hrev res
  · intro hlive res hres
    rcases h.live_before hlive with hbefore | ⟨rfl, _, -, -, -, old, hold, hnew⟩
    · have hown := hg.owns hbefore res hres
      by_cases hne : key' = key
      · subst hne
        have hkeep := h.not_disowns hlive hrow hge
        rcases h.owners _ _ _ hown with hkept | ⟨-, hd, -⟩ | ⟨-, hgr, -⟩
        · exact hkept
        · simp [hkeep] at hd
        · simp [Effect.disowns_of_grants hgr] at hkeep
      · exact h.owns_of_ne hne hlive hown
    · obtain rfl := Option.some.inj (hrow.symm.trans hold)
      omega

/-! ### Runs -/

theorem EffectRun.granted {P : Key → Effect → Prop} {s s' : State} {key : Key} {k : Uuid}
    {g b : ℤ} {R : Set String} (h : EffectRun P s s') (hg : Granted s key k g b R) :
    Granted s' key k g b R :=
  h.invariant (fun _ _ _ _ _ hdo hg => hdo.granted_step hg) hg

/-- What every effect keeps holds along a run of the store. -/
theorem Run.invariant {s s' : State} {I : State → Prop} (h : Run s s')
    (hstep : ∀ m m' key e, Effect.Does m key e m' → I m → I m') (hi : I s) : I s' := by
  induction h with
  | refl => exact hi
  | tail _ hs ih =>
      obtain ⟨_, hs⟩ := hs
      exact hs.effects.1.invariant (fun m m' key e _ hdo => hstep m m' key e hdo) ih

theorem Run.granted {s s' : State} {key : Key} {k : Uuid} {g b : ℤ} {R : Set String}
    (h : Run s s') (hg : Granted s key k g b R) : Granted s' key k g b R :=
  h.invariant (fun _ _ _ _ hdo hg => hdo.granted_step hg) hg

theorem EffectRun.declares {claims : List (Key × Target)} {s s' : State}
    (h : EffectRun (Claims claims) s s') (key : Key) (res : String) :
    Declares s'.db key res ↔ Declares s.db key res := by
  refine h.invariant (I := fun m => Declares m.db key res ↔ Declares s.db key res) ?_ Iff.rfl
  intro m m' key' e hclaim hdo ih
  have hne : e ≠ .bind := by rcases hclaim with rfl | ⟨_, rfl, -⟩ <;> simp
  exact (hdo.declares key res (.inl hne)).trans ih

/-- The claim with this token and epoch was returned by a call that acquired the given
resources, and the run went on to `t`. -/
structure ClaimedIn (s₀ t : State) (key : Key) (claimed : Target) (R : List String) : Prop where
  exists_step : ∃ s a s', Run s₀ s ∧ Step s a s' ∧ Run s' t ∧ (key, claimed) ∈ a.claims ∧
    R = s'.db.declared key

theorem ClaimedIn.granted {s₀ t : State} {key : Key} {claimed : Target} {R : List String}
    {k : Uuid} (h : ClaimedIn s₀ t key claimed R) (hk : claimed.token = some k) :
    Granted t key k claimed.epoch claimed.bindingRevision {res | res ∈ R} := by
  obtain ⟨s, a, s', -, hstep, hrun, hmem, rfl⟩ := h.exists_step
  obtain ⟨m, m', -, hdo, hpost⟩ := hstep.effects.2 _ hmem
  have hset : {res | res ∈ s'.db.declared key} = {res | Declares m.db key res} := by
    ext res
    rw [Set.mem_ofPred_eq, Set.mem_ofPred_eq, mem_declared, hpost.declares,
      hdo.declares key res (.inl (by simp))]
  rw [hset]
  exact hrun.granted (hpost.granted (hdo.granted_of_grant hk))

theorem EffectRun.live_before {a : Action} {s s' : State} {key : Key} {k : Uuid} {g : ℤ}
    (h : EffectRun a.Admits s s') (hlive : Live s' key k g) :
    Live s key k g ∨ ∃ claimed, (key, claimed) ∈ a.claims ∧ claimed.token = some k ∧
      claimed.epoch = g := by
  induction h with
  | refl => exact .inl hlive
  | tail _ hstep ih =>
      obtain ⟨key', e, hadm, hdo⟩ := hstep
      rcases hdo.live_before hlive with hbefore | ⟨rfl, claimed, he, htoken, hepoch, -⟩
      · exact ih hbefore
      · exact .inr ⟨claimed, hadm.grant claimed he, htoken, hepoch⟩

/-- Every live lease of an installed store was handed out as a claim. -/
theorem claimedIn_of_live {s₀ t : State} {key : Key} {k : Uuid} {g : ℤ} (h₀ : s₀.Installed)
    (hrun : Run s₀ t) (hlive : Live t key k g) :
    ∃ claimed R, ClaimedIn s₀ t key claimed R ∧ claimed.token = some k ∧ claimed.epoch = g := by
  induction hrun with
  | refl =>
      obtain ⟨row, hrow, -, -, u, hu, hlt⟩ := hlive
      exact absurd hlt (not_lt.mpr (h₀.drained key row hrow u hu))
  | @tail s t hrun hstep ih =>
      obtain ⟨a, hstep⟩ := hstep
      rcases hstep.effects.1.live_before hlive with hbefore | ⟨claimed, hmem, htoken, hepoch⟩
      · obtain ⟨claimed, R, ⟨s₁, a₁, s₁', hpre, hs, hpost, hmem, hR⟩, htoken, hepoch⟩ :=
          ih hbefore
        exact ⟨claimed, R, ⟨s₁, a₁, s₁', hpre, hs, hpost.tail ⟨a, hstep⟩, hmem, hR⟩, htoken,
          hepoch⟩
      · exact ⟨claimed, _, ⟨s, a, t, hrun, hstep, .refl, hmem, rfl⟩, htoken, hepoch⟩

theorem EffectRun.row_mono {P : Key → Effect → Prop} {s s' : State} {key : Key} {row : Target}
    (h : EffectRun P s s') (hrow : s.db.targets.get? key = some row) :
    ∃ row', s'.db.targets.get? key = some row' ∧ row.epoch ≤ row'.epoch := by
  refine h.invariant (I := fun m => ∃ row', m.db.targets.get? key = some row' ∧
    row.epoch ≤ row'.epoch) ?_ ⟨row, hrow, le_rfl⟩
  rintro m m' _ _ - hdo ⟨mid, hmid, hle⟩
  obtain ⟨row', hrow', hle', -⟩ := hdo.row_mono hmid
  exact ⟨row', hrow', hle.trans hle'⟩

theorem EffectRun.row_before {claims : List (Key × Target)} {s s' : State} {key : Key}
    {row' : Target} (h : EffectRun (Claims claims) s s')
    (hrow : s'.db.targets.get? key = some row') :
    ∃ row, s.db.targets.get? key = some row := by
  induction h generalizing row' with
  | refl => exact ⟨row', hrow⟩
  | tail _ hstep ih =>
      obtain ⟨key', e, hclaim, hdo⟩ := hstep
      by_cases hne : key = key'
      · subst hne
        have hchange := hdo.row
        rw [hrow] at hchange
        rcases hclaim with rfl | ⟨claimed, rfl, -⟩
        · generalize hold : Table.get? _ key = old at hchange
          cases hchange
          exact ih hold
        · generalize hold : Table.get? _ key = old at hchange
          cases hchange
          exact ih hold
      · exact ih ((hdo.others key hne).symm.trans hrow)

/-- A claim raises the epoch of its target. -/
theorem GrantedWithin.epoch_lt {claims : List (Key × Target)} {s s' : State} {key : Key}
    {claimed : Target} (h : GrantedWithin claims s s' key claimed) :
    ∃ row row', s.db.targets.get? key = some row ∧ s'.db.targets.get? key = some row' ∧
      row.epoch < claimed.epoch ∧ claimed.epoch ≤ row'.epoch ∧ claimed.token.isSome := by
  obtain ⟨m, m', hpre, hdo, hpost⟩ := h
  have hchange := hdo.row
  generalize hold : m.db.targets.get? key = old at hchange
  generalize hnew : m'.db.targets.get? key = new at hchange
  cases hchange with
  | @granted mid k u hrun =>
      obtain ⟨row, hrow⟩ := hpre.row_before hold
      obtain ⟨mid', hmid', hle⟩ := hpre.row_mono hrow
      obtain rfl := Option.some.inj (hold.symm.trans hmid')
      obtain ⟨row', hrow', hle'⟩ := hpost.row_mono hnew
      refine ⟨row, row', hrow, hrow', ?_, hle', rfl⟩
      simp only [Target.claimed]
      omega

/-! ### Authority is fenced -/

theorem execute_authority {db db' : Db} {clock clock' : Clock} {session : Option Uuid}
    {call : Call} {claims : List (Key × Target)} {key : Key} {k : Option Uuid} {g : Option ℤ}
    (ha : call.authority = some (key, k, g))
    (h : execute db clock session call = .ok (db', clock', claims)) :
    ∃ row, Authority db clock.now key k g row := by
  cases call with
  | wake _ _ => cases ha
  | bindResources _ _ => cases ha
  | claimDue _ _ _ _ _ => cases ha
  | renew _ _ _ _ _ =>
      cases ha
      obtain ⟨_, hop, -⟩ := bind_eq_ok.mp h
      obtain ⟨_, hbind, -⟩ := bind_eq_ok.mp hop
      exact (underBinding_ok hbind).1
  | markApplied _ _ _ _ =>
      cases ha
      obtain ⟨_, hop, -⟩ := bind_eq_ok.mp h
      obtain ⟨_, hbind, -⟩ := bind_eq_ok.mp hop
      exact (underBinding_ok hbind).1
  | finish _ _ _ _ _ _ _ _ =>
      cases ha
      obtain ⟨_, hop, -⟩ := bind_eq_ok.mp h
      obtain ⟨⟨row, _⟩, hauth, -⟩ := bind_eq_ok.mp hop
      exact ⟨row, (lockAuthority_ok hauth).1⟩
  | release _ _ _ =>
      cases ha
      obtain ⟨_, hop, -⟩ := bind_eq_ok.mp h
      obtain ⟨⟨row, _⟩, hauth, -⟩ := bind_eq_ok.mp hop
      exact ⟨row, (lockAuthority_ok hauth).1⟩

theorem tablesAfter_of_stale {s : State} {session : Option Uuid} {steps : ℕ → ℕ} {call : Call}
    {key : Key} {k : Option Uuid} {g : Option ℤ} (ha : call.authority = some (key, k, g))
    (hstale : ¬ ∃ token epoch, k = some token ∧ g = some epoch ∧ Live s key token epoch) :
    s.tablesAfter session steps call = s.db := by
  unfold State.tablesAfter
  split
  · rename_i h
    obtain ⟨row, hauth⟩ := execute_authority ha h
    exact absurd hauth.live hstale
  · rfl

/-- Under an unchanged binding the holder of a live claim owns what it declares. -/
theorem Granted.owns_declared {s : State} {key : Key} {k : Uuid} {g b : ℤ} {R : Set String}
    {row : Target} (h : Granted s key k g b R) (hlive : Live s key k g)
    (hrow : s.db.targets.get? key = some row) (hb : row.bindingRevision = b) :
    ∀ res, Declares s.db key res → Owns s key k g res := by
  intro res hd
  obtain ⟨row', hrow', -, -, hdecl⟩ := h.row
  obtain rfl := Option.some.inj (hrow.symm.trans hrow')
  exact h.owns hlive res ((hdecl hb res).mp hd)

theorem lockResources_ne_resourceLost (db : Db) (session : Option Uuid) (key : Key)
    (extra : List String) : lockResources db session key extra ≠ .error .resourceLost := by
  unfold lockResources assertTenant
  split_ifs <;> simp

theorem lockAuthority_ne_resourceLost (db : Db) (clock : Clock) (session : Option Uuid)
    (key : Key) (k : Option Uuid) (g : Option ℤ) :
    lockAuthority db clock session key k g ≠ .error .resourceLost := by
  intro h
  rcases bind_eq_error.mp h with htenant | ⟨_, -, h⟩
  · unfold assertTenant at htenant
    split at htenant <;> cases htenant
  · split at h
    · cases h
    · split at h
      · cases h
      · rcases bind_eq_error.mp h with hlock | ⟨_, -, h⟩
        · exact lockResources_ne_resourceLost _ _ _ _ hlock
        · split at h <;> cases h

theorem lockExecution_ne_resourceLost {s : State} {key : Key} {k : Uuid} {g b : ℤ}
    {R : Set String} (h : Granted s key k g b R) (session : Option Uuid) (steps : ℕ → ℕ) :
    lockExecution s.db ⟨s.now, steps⟩ session key (some k) (some g) (some b) ≠
      .error .resourceLost := by
  intro hlost
  rcases bind_eq_error.mp hlost with hauth | ⟨⟨row, clock⟩, hauth, hlost⟩
  · exact lockAuthority_ne_resourceLost _ _ _ _ _ _ hauth
  · obtain ⟨hauth, -⟩ := lockAuthority_ok hauth
    obtain ⟨token, epoch, hk, hg, hlive⟩ := hauth.live
    cases hk
    cases hg
    dsimp only at hlost
    split at hlost
    · cases hlost
    · rename_i hb
      simp only [not_or, ne_eq, not_not, Option.some.injEq] at hb
      have howns := h.owns_declared hlive hauth.get hb.2.2
      split at hlost
      · rename_i hbad
        obtain ⟨res, hres, o, ho, hnot⟩ := hbad
        have hown := howns res (mem_declared.mp hres)
        obtain rfl : o = _ := Option.some.inj (ho.symm.trans hown)
        exact hnot ⟨_, rfl, rfl, rfl, rfl, rfl⟩
      · cases hlost

/-! ### The exclusion theorem -/

/-- Mutual exclusion over every run of an installed store: live leases come from claims,
a claim keeps the resources it acquired while it is live, two live claims of one tenant
share none, an unchanged binding is fully owned, epochs rise with every claim, and a call
without the live lease of its target changes nothing. -/
theorem resource_exclusion {s₀ : State} (h₀ : s₀.Installed) :
    (∀ t key k g, Run s₀ t → Live t key k g →
      ∃ claimed R, ClaimedIn s₀ t key claimed R ∧ claimed.token = some k ∧ claimed.epoch = g) ∧
    (∀ t key claimed R k, ClaimedIn s₀ t key claimed R → claimed.token = some k →
      Live t key k claimed.epoch → ∀ res ∈ R, Owns t key k claimed.epoch res) ∧
    (∀ t key₁ claimed₁ R₁ k₁ key₂ claimed₂ R₂ k₂, ClaimedIn s₀ t key₁ claimed₁ R₁ →
      claimed₁.token = some k₁ → Live t key₁ k₁ claimed₁.epoch →
      ClaimedIn s₀ t key₂ claimed₂ R₂ → claimed₂.token = some k₂ →
      Live t key₂ k₂ claimed₂.epoch → key₁.tenant = key₂.tenant → key₁ ≠ key₂ →
      ∀ res ∈ R₁, res ∉ R₂) ∧
    (∀ t key claimed R k, ClaimedIn s₀ t key claimed R → claimed.token = some k →
      (∀ row, t.db.targets.get? key = some row →
        row.bindingRevision = claimed.bindingRevision → Live t key k claimed.epoch →
        ∀ res ∈ t.db.declared key, Owns t key k claimed.epoch res) ∧
      ∀ session steps, lockExecution t.db ⟨t.now, steps⟩ session key (some k)
        (some claimed.epoch) (some claimed.bindingRevision) ≠ .error .resourceLost) ∧
    (∀ s a s', Run s₀ s → Step s a s' →
      (∀ key row, s.db.targets.get? key = some row →
        ∃ row', s'.db.targets.get? key = some row' ∧ row.epoch ≤ row'.epoch) ∧
      ∀ key claimed, (key, claimed) ∈ a.claims → ∃ row row',
        s.db.targets.get? key = some row ∧ s'.db.targets.get? key = some row' ∧
        row.epoch < claimed.epoch ∧ claimed.epoch ≤ row'.epoch) ∧
    (∀ s session steps call key k g, Run s₀ s → call.authority = some (key, k, g) →
      (¬ ∃ token epoch, k = some token ∧ g = some epoch ∧ Live s key token epoch) →
      s.tablesAfter session steps call = s.db) := by
  refine ⟨fun t key k g hrun hlive => claimedIn_of_live h₀ hrun hlive, ?_, ?_, ?_, ?_, ?_⟩
  · intro t key claimed R k hc hk hlive
    exact (hc.granted hk).owns hlive
  · intro t key₁ claimed₁ R₁ k₁ key₂ claimed₂ R₂ k₂ hc₁ hk₁ hl₁ hc₂ hk₂ hl₂ ht hne res hr₁ hr₂
    have hown₁ := (hc₁.granted hk₁).owns hl₁ res hr₁
    have hown₂ := (hc₂.granted hk₂).owns hl₂ res hr₂
    rw [Owns, ht] at hown₁
    -- the one owner of the resource would be both targets
    have howner := Option.some.inj (Option.some.inj (hown₁.symm.trans hown₂))
    injection howner with hr he
    exact hne (by cases key₁; cases key₂; simp_all)
  · intro t key claimed R k hc hk
    refine ⟨?_, fun session steps =>
      lockExecution_ne_resourceLost (hc.granted hk) session steps⟩
    intro row hrow hb hlive res hres
    exact (hc.granted hk).owns_declared hlive hrow hb res (mem_declared.mp hres)
  · intro s a s' _ hstep
    refine ⟨fun key row hrow => hstep.effects.1.row_mono hrow, ?_⟩
    intro key claimed hmem
    obtain ⟨row, row', hrow, hrow', hlt, hle, -⟩ := (hstep.effects.2 _ hmem).epoch_lt
    exact ⟨row, row', hrow, hrow', hlt, hle⟩
  · intro s session steps call key k g _ ha hstale
    exact tablesAfter_of_stale ha hstale

/-! ### An order that claims its disk -/

def vacant : State := ⟨⟨.empty, .empty, .empty, .empty, 0⟩, 0⟩

theorem vacant_installed : vacant.Installed where
  drained _ _ h := by cases h
  queue _ _ h := by cases h
  resources := rfl
  targetResources := rfl

def orderKey : Key := ⟨1, "shop", "order-1"⟩

/-- The order is woken with one resource and then claimed for a second. -/
def orderWake : Call := .wake orderKey (some [some "disk"])

def orderClaim : Call :=
  .claimDue 1 "shop" (some 1) (some 1000) ⟨false, fun _ => false, fun _ => 7⟩

def orderClaimed : Target := ⟨1, 1, some 7, some 1000007, some 1, 0, .running, 1, some 1⟩

theorem execute_order :
    (do
      let (db, clock, _) ← execute vacant.db ⟨0, fun _ => 1⟩ (some 1) orderWake
      let (db, clock, claims) ← execute db ⟨clock.now, fun _ => 1⟩ (some 1) orderClaim
      .ok (claims, db.targets.get? orderKey, db.declared orderKey, clock.now) :
        Except Failure _) =
      .ok ([(orderKey, orderClaimed)], some orderClaimed, ["disk"], 7) := by
  decide +kernel

theorem order_steps :
    ∃ s t claims, Step vacant (.commit (some 1) (fun _ => 1) orderWake claims) s ∧
      Step s (.commit (some 1) (fun _ => 1) orderClaim [(orderKey, orderClaimed)]) t ∧
      t.db.targets.get? orderKey = some orderClaimed ∧ t.db.declared orderKey = ["disk"] ∧
      t.now = 7 := by
  obtain ⟨⟨db₁, clock₁, claims₁⟩, h₁, h⟩ := bind_eq_ok.mp execute_order
  obtain ⟨⟨db₂, clock₂, claims₂⟩, h₂, h⟩ := bind_eq_ok.mp h
  simp only [Except.ok.injEq, Prod.mk.injEq] at h
  obtain ⟨rfl, hrow, hdecl, hnow⟩ := h
  exact ⟨⟨db₁, clock₁.now⟩, ⟨db₂, clock₂.now⟩, claims₁, .commit h₁, .commit h₂, hrow, hdecl,
    hnow⟩

theorem resource_exclusion_order :
    ∃ t, Run vacant t ∧ Live t orderKey 7 1 ∧ Owns t orderKey 7 1 "disk" := by
  obtain ⟨s, t, _, hwake, hclaim, hrow, hdecl, hnow⟩ := order_steps
  have hlive : Live t orderKey 7 1 :=
    ⟨orderClaimed, hrow, rfl, rfl, 1000007, rfl, by rw [hnow]; decide⟩
  refine ⟨t, .tail (.single ⟨_, hwake⟩) ⟨_, hclaim⟩, hlive, ?_⟩
  refine (resource_exclusion vacant_installed).2.1 t orderKey orderClaimed ["disk"] 7 ?_ rfl
    hlive "disk" (by simp)
  exact ⟨s, _, t, .single ⟨_, hwake⟩, hclaim, .refl, by simp [Action.claims], hdecl.symm⟩

end Rss.Reconcile
