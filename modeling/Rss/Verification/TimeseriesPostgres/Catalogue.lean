import Rss.Verification.Timeseries.Evolution
import Rss.Verification.TimeseriesPostgres.Admission

/-! # Versions of a definition

Only registrations and retirements write the definitions of a store. Over every run the versions of
a key are a chain of extensions, in the order of their registration. -/

namespace Rss.TimeseriesPostgres

open Rss.Timeseries

variable {D : Digests} {s s' : Store} {limits : Limits}

/-! ### Calls that leave the definitions -/

/-- The tables of the definitions. -/
def Store.catalogue (s : Store) :
    Table (Scope × String) (Option ℕ) × Table DefinitionId DefinitionRow :=
  (s.heads, s.definitions)

theorem invalidate_catalogue {scope : Scope} {sel : Selection} {lo hi : ℕ}
    (h : s.invalidate scope sel lo hi = .ok s') : s'.catalogue = s.catalogue := by
  unfold Store.invalidate at h
  simp only at h
  split at h
  · cases h
    rfl
  · cases h

theorem putFence_catalogue {scope : Scope} {id : String} {f : Fence}
    (h : s.putFence scope id f = .ok s') : s'.catalogue = s.catalogue := by
  unfold Store.putFence at h
  simp only at h
  split at h
  · cases h
  · split at h
    · cases h
      rfl
    · cases h
      rfl
    · exact (invalidate_catalogue h).trans rfl

theorem restoreFence_catalogue {scope : Scope} {id : String} {sel : Selection} {window : Interval}
    {now : ℕ} (h : s.restoreFence scope id sel window now = .ok s') :
    s'.catalogue = s.catalogue := by
  unfold Store.restoreFence at h
  simp only at h
  split at h
  · split at h
    · exact (invalidate_catalogue h).trans rfl
    · cases h
  · cases h

theorem putPlan_catalogue {r : MaintenanceRequest} {state : PlanState} {done : Bool}
    (h : s.putPlan r state done = .ok s') : s'.catalogue = s.catalogue := by
  unfold Store.putPlan at h
  simp only at h
  split at h
  · split at h
    · cases h
      rfl
    · cases h
  · cases h
    rfl

theorem recompute_catalogue {r : MaintenanceRequest} {spec : SummarySpec} {window : Interval}
    {state state' : PlanState} {revision : ℕ} {result : Work}
    (h : s.recompute r spec window state revision limits = .ok (result, state', s')) :
    s'.catalogue = s.catalogue := by
  have henroll : (s.enroll spec window state.fold).catalogue = s.catalogue := by
    unfold Store.enroll
    split <;> rfl
  unfold Store.recompute at h
  split at h
  · cases h
  · obtain ⟨pruned, -, h⟩ := bind_eq_ok.mp h
    split at h
    · cases h
    · unfold Store.advanceFold at h
      obtain ⟨builder, -, h⟩ := bind_eq_ok.mp h
      obtain ⟨gapWindow, -, h⟩ := bind_eq_ok.mp h
      obtain ⟨gaps, -, h⟩ := bind_eq_ok.mp h
      obtain ⟨builder, -, h⟩ := bind_eq_ok.mp h
      split at h
      · cases h
        exact henroll
      · unfold Store.closeBucket at h
        obtain ⟨builder, -, h⟩ := bind_eq_ok.mp h
        obtain ⟨summary, -, h⟩ := bind_eq_ok.mp h
        simp only at h
        split at h <;> (cases h; exact henroll)

theorem prune_catalogue {r : MaintenanceRequest} {selection : Selection}
    {rawBefore summariesBefore now clock : ℕ} {state state' : PlanState} {result : Work}
    (h : s.prune D r selection rawBefore summariesBefore state now clock limits =
      .ok (result, state', s')) : s'.catalogue = s.catalogue := by
  unfold Store.prune at h
  obtain ⟨safe, -, h⟩ := bind_eq_ok.mp h
  cases safe with
  | error reason =>
      cases h
      rfl
  | ok limit =>
      obtain ⟨⟨placed, s₁⟩, hplace, h⟩ := bind_eq_ok.mp h
      have hplaced : s₁.catalogue = s.catalogue := by
        unfold Store.placeFence at hplace
        split at hplace
        · cases hplace
          rfl
        · obtain ⟨s₂, hput, heq⟩ := map_eq_ok.mp hplace
          cases heq
          exact putFence_catalogue hput
      simp only at h
      split at h <;> (cases h; exact hplaced)

theorem expire_catalogue (s : Store) (r : MaintenanceRequest) (stream : Stream)
    (before now clock : ℕ) : (s.expire r stream before now clock).2.catalogue = s.catalogue := by
  unfold Store.expire
  split <;> rfl

theorem reclaim_catalogue {r : MaintenanceRequest} {stream : Stream} {now : ℕ} {result : Work}
    (h : s.reclaim r stream now = .ok (result, s')) : s'.catalogue = s.catalogue := by
  unfold Store.reclaim at h
  split at h
  · cases h
    rfl
  · split at h
    · cases h
      rfl
    · split at h
      · cases h
        rfl
      · obtain ⟨⟨count, s₁⟩, hrows, h⟩ := bind_eq_ok.mp h
        cases h
        unfold Store.reclaimRows at hrows
        simp only at hrows
        split at hrows
        · cases hrows
          rfl
        · cases hrows

theorem simple_catalogue {r : MaintenanceRequest} {now clock : ℕ} {result : Work}
    (h : s.simple r now clock limits = .ok (result, s')) : s'.catalogue = s.catalogue := by
  unfold Store.simple at h
  split at h
  · obtain ⟨found, -, h⟩ := bind_eq_ok.mp h
    split at h
    · cases h
    · obtain ⟨s₁, hput, h⟩ := bind_eq_ok.mp h
      cases h
      exact putFence_catalogue hput
  · split at h
    · cases h
    · obtain ⟨s₁, hput, h⟩ := bind_eq_ok.mp h
      cases h
      exact putFence_catalogue hput
  · obtain ⟨s₁, hrestore, h⟩ := bind_eq_ok.mp h
    cases h
    exact restoreFence_catalogue hrestore
  · cases h
    rfl
  · cases h

theorem work_catalogue {r : MaintenanceRequest} {state state' : PlanState}
    {revision now clock : ℕ} {result : Work}
    (h : s.work D r state revision now clock limits = .ok (result, state', s')) :
    s'.catalogue = s.catalogue := by
  unfold Store.work at h
  split at h
  · exact recompute_catalogue h
  · exact prune_catalogue h
  · cases h
    exact expire_catalogue s r _ _ now clock
  · obtain ⟨⟨done, s₁⟩, hreclaim, heq⟩ := map_eq_ok.mp h
    cases heq
    exact reclaim_catalogue hreclaim
  · obtain ⟨⟨done, s₁⟩, hsimple, heq⟩ := map_eq_ok.mp h
    cases heq
    exact simple_catalogue hsimple

theorem maintain_catalogue {r : MaintenanceRequest} {after : Option ℕ} {now clock : ℕ}
    {outcome : Outcome Store.MaintenanceProgress}
    (h : s.maintain D r after now clock limits = .ok (outcome, s')) :
    s'.catalogue = s.catalogue := by
  unfold Store.maintain at h
  split at h
  · cases h
  · unfold Store.resumePlan at h
    obtain ⟨⟨state, done⟩, -, h⟩ := bind_eq_ok.mp h
    simp only at h
    split at h
    · cases h
    · split at h
      · cases h
      · split at h
        · cases h
          rfl
        · split at h
          · cases h
            rfl
          · obtain ⟨⟨result, state', s₁⟩, hwork, h⟩ := bind_eq_ok.mp h
            obtain ⟨ordinal, -, h⟩ := bind_eq_ok.mp h
            obtain ⟨s₂, hput, h⟩ := bind_eq_ok.mp h
            cases h
            exact ((putPlan_catalogue hput).trans (work_catalogue hwork)).trans rfl

theorem putSample_catalogue {x : Sample} {digest : Digest} {received : ℕ} {inserted : Bool}
    (h : s.putSample x digest received = .ok (inserted, s')) : s'.catalogue = s.catalogue := by
  rcases putSample_eq_ok h with ⟨-, rfl, -⟩ | ⟨-, -, -, hinvalidate⟩
  · rfl
  · exact (invalidate_catalogue hinvalidate).trans rfl

theorem putSamples_catalogue {now added : ℕ} {xs : List Sample}
    (h : Store.putSamples D now s xs = .ok (added, s')) : s'.catalogue = s.catalogue := by
  induction xs generalizing s added with
  | nil =>
      cases h
      rfl
  | cons x xs ih =>
      obtain ⟨⟨inserted, s₁⟩, hput, h⟩ := bind_eq_ok.mp h
      obtain ⟨⟨rest, s₂⟩, hrest, h⟩ := bind_eq_ok.mp h
      cases h
      exact (ih hrest).trans (putSample_catalogue hput)

theorem admitBatch_catalogue {batch : Batch} {horizon now : ℕ} {outcome : Outcome Receipt}
    (h : s.admitBatch D batch horizon now = .ok (outcome, s')) : s'.catalogue = s.catalogue := by
  unfold Store.admitBatch at h
  obtain ⟨found, -, h⟩ := bind_eq_ok.mp h
  cases found with
  | found old =>
      cases h
      rfl
  | expired => cases h
  | notVisible =>
      simp only [Store.admitNew] at h
      split at h
      · cases h
      · obtain ⟨⟨⟩, -, h⟩ := bind_eq_ok.mp h
        split at h
        · cases h
        · obtain ⟨⟨added, s₁⟩, hput, h⟩ := bind_eq_ok.mp h
          obtain ⟨s₂, hbatch, h⟩ := bind_eq_ok.mp h
          obtain ⟨again, -, h⟩ := bind_eq_ok.mp h
          obtain ⟨-, -, rfl⟩ := putBatch_eq_ok hbatch
          have hkept := (putSamples_catalogue hput).trans rfl
          cases again with
          | expired => cases h
          | notVisible => cases h
          | found result =>
              simp only at h
              split at h
              · cases h
              · cases h
                exact hkept

/-! ### What a call writes -/

/-- The document of a version and its digest; retirement is not part of it. -/
def Store.content (s : Store) (id : DefinitionId) : Option (Definition × Digest) :=
  (s.definitions.get? id).map (fun row => (row.raw, row.digest))

/-- The version at the head of a key. -/
def Store.headVersion (s : Store) (scope : Scope) (key : String) : Option ℕ :=
  (s.heads.get? (scope, key)).join

theorem exact_eq_ok {id : DefinitionId} {found : Option DefinitionRecord}
    (h : s.exact D id = .ok found) :
    found.map (fun r => (r.definition, D.definition r.definition)) = s.content id := by
  unfold Store.exact at h
  unfold Store.content
  split at h
  · rename_i row hrow
    obtain ⟨record, hrecord, rfl⟩ := map_eq_ok.mp h
    unfold DefinitionRow.record at hrecord
    split at hrecord
    · cases hrecord
    · rename_i hdigest
      cases hrecord
      rw [hrow, Option.map_some, Option.map_some, not_not.mp hdigest]
  · rename_i hrow
    cases h
    rw [hrow]
    rfl

theorem head_eq_ok {scope : Scope} {key : String} {found : Option DefinitionRecord}
    (h : s.head D scope key = .ok found) :
    found.map (fun r => (r.definition, D.definition r.definition)) =
      (s.headVersion scope key).bind (fun v => s.content ⟨scope, key, v⟩) := by
  unfold Store.head at h
  unfold Store.headVersion
  split at h
  · rename_i version hhead
    rw [hhead]
    exact exact_eq_ok h
  · rename_i hnone
    cases h
    cases hhead : s.heads.get? (scope, key) with
    | none => rfl
    | some version =>
        cases version with
        | none => rfl
        | some version => exact absurd hhead (hnone version)

/-- The versions and the heads are the same; a key may have been entered without a version. -/
structure SameVersions (s s' : Store) : Prop where
  definitions : s'.definitions = s.definitions
  heads : ∀ scope key, s'.headVersion scope key = s.headVersion scope key

theorem headVersion_insertNew (s : Store) (k : Scope × String) (scope : Scope) (key : String) :
    { s with heads := s.heads.insertNew k none }.headVersion scope key =
      s.headVersion scope key := by
  unfold Store.headVersion
  rw [Table.get?_insertNew]
  split
  · rename_i heq
    rw [heq]
    cases s.heads.get? k with
    | none => rfl
    | some version => rfl
  · rfl

theorem sameVersions_insertNew (s : Store) (k : Scope × String) :
    SameVersions s { s with heads := s.heads.insertNew k none } :=
  ⟨rfl, headVersion_insertNew s k⟩

/-- A registration answers with the stored version, or enters a version that is not stored and
follows the head. -/
theorem register_eq_ok {d : Definition} {expected : Option Digest}
    {outcome : Outcome DefinitionRecord} (h : s.register D d expected = .ok (outcome, s')) :
    (∃ record change, outcome = .replay record ∧ d.compare record.definition = .ok change ∧
      s.content d.identity = some (record.definition, D.definition record.definition) ∧
      SameVersions s s') ∨
    (∃ head t, outcome = .accepted ⟨d, .active⟩ ∧ s.definitions.get? d.identity = none ∧
      Store.checkHead D d head expected = .ok () ∧
      head.map (fun r => (r.definition, D.definition r.definition)) =
        (s.headVersion d.scope d.key).bind (fun v => s.content ⟨d.scope, d.key, v⟩) ∧
      SameVersions s t ∧ t.putDefinition d (D.definition d) false = .ok s') := by
  unfold Store.register at h
  obtain ⟨found, hexact, h⟩ := bind_eq_ok.mp h
  have hcontent := exact_eq_ok hexact
  cases found with
  | some old =>
      obtain ⟨change, hcompare, h⟩ := bind_eq_ok.mp h
      cases h
      exact .inl ⟨old, change, rfl, hcompare, hcontent.symm, sameVersions_insertNew s _⟩
  | none =>
      obtain ⟨head, hhead, h⟩ := bind_eq_ok.mp h
      obtain ⟨⟨⟩, hcheck, h⟩ := bind_eq_ok.mp h
      obtain ⟨s₁, hput, h⟩ := bind_eq_ok.mp h
      cases h
      refine .inr ⟨head, _, rfl, ?_, hcheck, ?_, sameVersions_insertNew s _, hput⟩
      · exact Option.map_eq_none_iff.mp hcontent.symm
      · rw [head_eq_ok hhead, headVersion_insertNew]
        rfl

/-- The tables after a version is entered. -/
theorem putDefinition_new {d : Definition} {digest : Digest}
    (hnone : s.definitions.get? d.identity = none)
    (h : s.putDefinition d digest false = .ok s') :
    (∀ id, s'.definitions.get? id =
      if id = d.identity then some ⟨d, digest, false⟩ else s.definitions.get? id) ∧
    ∀ scope key, s'.headVersion scope key =
      if scope = d.scope ∧ key = d.key then some d.version else s.headVersion scope key := by
  unfold Store.putDefinition at h
  simp only [hnone] at h
  cases h
  constructor
  · intro id
    show (s.definitions.insertNew d.identity ⟨d, digest, false⟩).get? id = _
    rw [Table.get?_insertNew, hnone]
    rfl
  · intro scope key
    have hentered := headVersion_insertNew s (d.scope, d.key) scope key
    unfold Store.headVersion at hentered ⊢
    simp only [Table.get?_modify, Prod.mk.injEq] at hentered ⊢
    split
    · rename_i heq
      obtain ⟨rfl, rfl⟩ := heq
      rw [Table.get?_insertNew_self]
      rfl
    · exact hentered

/-- A retirement leaves every document as it was. -/
theorem retire_keeps {id : DefinitionId} {expected : Digest} {outcome : Outcome DefinitionRecord}
    (h : s.retire D id expected = .ok (outcome, s')) :
    (∀ id' row, s.definitions.get? id' = some row →
      ∃ row', s'.definitions.get? id' = some row' ∧ row'.raw = row.raw ∧
        row'.digest = row.digest ∧ (row.retired = true → row'.retired = true)) ∧
    (∀ id', s'.content id' = s.content id') ∧
    ∀ scope key, s'.headVersion scope key = s.headVersion scope key := by
  have hself : ∀ s' : Store, s'.definitions = s.definitions →
      (∀ id' row, s.definitions.get? id' = some row →
        ∃ row', s'.definitions.get? id' = some row' ∧ row'.raw = row.raw ∧
          row'.digest = row.digest ∧ (row.retired = true → row'.retired = true)) ∧
      ∀ id', s'.content id' = s.content id' := by
    intro s' hsame
    refine ⟨fun id' row hrow => ⟨row, by rw [hsame]; exact hrow, rfl, rfl, fun h => h⟩, ?_⟩
    intro id'
    unfold Store.content
    rw [hsame]
  unfold Store.retire at h
  obtain ⟨found, -, h⟩ := bind_eq_ok.mp h
  cases found with
  | none => cases h
  | some old =>
      simp only at h
      split at h
      · cases h
      · split at h
        · cases h
          obtain ⟨hrows, hcontent⟩ := hself _ rfl
          exact ⟨hrows, hcontent, headVersion_insertNew s _⟩
        · obtain ⟨s₁, hput, h⟩ := bind_eq_ok.mp h
          cases h
          unfold Store.putDefinition at hput
          simp only at hput
          split at hput
          · split at hput
            · cases hput
            · rw [if_pos trivial] at hput
              cases hput
              refine ⟨?_, ?_, ?_⟩
              · intro id' row hrow
                show ∃ row', (s.definitions.modify _ _).get? id' = some row' ∧ _
                rw [Table.get?_modify, hrow]
                split
                · exact ⟨_, rfl, rfl, rfl, fun _ => rfl⟩
                · exact ⟨row, rfl, rfl, rfl, fun h => h⟩
              · intro id'
                show ((s.definitions.modify _ _).get? id').map _ = _
                rw [Table.get?_modify]
                unfold Store.content
                split
                · rw [Option.map_map]
                  rfl
                · rfl
              · intro scope key
                exact (headVersion_insertNew _ _ scope key).trans
                  (headVersion_insertNew s _ scope key)
          · rw [if_pos trivial] at hput
            cases hput

/-! ### The chain of a key -/

/-- The definitions of the key registered so far, the earliest first. -/
structure Versions (D : Digests) (s : Store) (scope : Scope) (key : String)
    (ds : List Definition) : Prop where
  keyed : ∀ d ∈ ds, d.scope = scope ∧ d.key = key
  stored : ∀ d ∈ ds, s.content d.identity = some (d, D.definition d)
  only : ∀ version x, s.content ⟨scope, key, version⟩ = some x →
    x.1 ∈ ds ∧ x.1.version = version
  head : s.headVersion scope key = ds.getLast?.map (fun d => d.version)
  chain : ds.Pairwise (fun old new => new.Follows old)

variable {scope : Scope} {key : String} {ds : List Definition} {d : Definition}

theorem versions_empty (D : Digests) (scope : Scope) (key : String) :
    Versions D .empty scope key [] where
  keyed := List.forall_mem_nil _
  stored := List.forall_mem_nil _
  only := by
    intro version x hx
    cases hx
  head := rfl
  chain := .nil

/-- The chain only depends on the documents and the head of its key. -/
theorem Versions.congr (h : Versions D s scope key ds)
    (hcontent : ∀ version, s'.content ⟨scope, key, version⟩ = s.content ⟨scope, key, version⟩)
    (hhead : s'.headVersion scope key = s.headVersion scope key) :
    Versions D s' scope key ds where
  keyed := h.keyed
  stored := by
    intro d hd
    obtain ⟨rfl, rfl⟩ := h.keyed d hd
    exact (hcontent d.version).trans (h.stored d hd)
  only := by
    intro version x hx
    exact h.only version x ((hcontent version).symm.trans hx)
  head := hhead.trans h.head
  chain := h.chain

theorem Versions.same (h : Versions D s scope key ds) (hsame : SameVersions s s') :
    Versions D s' scope key ds := by
  refine h.congr (fun version => ?_) (hsame.heads scope key)
  unfold Store.content
  rw [hsame.definitions]

/-- A version that is not stored and passes the check of the head follows the whole chain. -/
theorem Versions.follows {head : Option DefinitionRecord} {expected : Option Digest}
    (h : Versions D s d.scope d.key ds) (hnone : s.definitions.get? d.identity = none)
    (hcheck : Store.checkHead D d head expected = .ok ())
    (hhead : head.map (fun r => (r.definition, D.definition r.definition)) =
      (s.headVersion d.scope d.key).bind (fun v => s.content ⟨d.scope, d.key, v⟩)) :
    ∀ old ∈ ds, d.Follows old := by
  rcases List.eq_nil_or_concat ds with rfl | ⟨before, last, hconcat⟩
  · simp
  · rw [List.concat_eq_append] at hconcat
    subst hconcat
    have hlast := h.stored last (List.mem_append_right _ (List.mem_singleton_self last))
    obtain ⟨hscope, hkey⟩ := h.keyed last (List.mem_append_right _ (List.mem_singleton_self last))
    have hid : last.identity = ⟨d.scope, d.key, last.version⟩ := by
      rw [← hscope, ← hkey]
      rfl
    rw [h.head, List.getLast?_append_cons, List.getLast?_singleton, Option.map_some,
      Option.bind_some, ← hid, hlast, Option.map_eq_some_iff] at hhead
    obtain ⟨record, rfl, hrecord⟩ := hhead
    obtain ⟨hdefinition, -⟩ := Prod.mk.inj hrecord
    unfold Store.checkHead at hcheck
    split at hcheck
    · cases hcheck
    · obtain ⟨change, hcompare, -⟩ := map_eq_ok.mp hcheck
      rw [hdefinition] at hcompare
      have hfollows : d.Follows last := by
        cases change with
        | compatibleVersion => exact Definition.compare_compatible.mp hcompare
        | replay =>
            rw [Definition.compare_replay.mp hcompare] at hnone
            unfold Store.content at hlast
            rw [hnone] at hlast
            cases hlast
      intro old hold
      rcases List.mem_append.mp hold with hold | hold
      · have hearlier := (List.pairwise_append.mp h.chain).2.2 old hold last
          (List.mem_singleton_self last)
        exact hfollows.trans hearlier
      · exact List.mem_singleton.mp hold ▸ hfollows

/-- A version that follows the chain is its next member. -/
theorem Versions.snoc (h : Versions D s d.scope d.key ds)
    (hnone : s.definitions.get? d.identity = none) (hfollows : ∀ old ∈ ds, d.Follows old)
    (hput : s.putDefinition d (D.definition d) false = .ok s') :
    Versions D s' d.scope d.key (ds ++ [d]) := by
  obtain ⟨hrows, hheads⟩ := putDefinition_new hnone hput
  have hself : s'.content d.identity = some (d, D.definition d) := by
    unfold Store.content
    rw [hrows, if_pos rfl]
    rfl
  have hother : ∀ id, id ≠ d.identity → s'.content id = s.content id := by
    intro id hne
    unfold Store.content
    rw [hrows, if_neg hne]
  exact {
    keyed := by
      intro old hold
      rcases List.mem_append.mp hold with hold | hold
      · exact h.keyed old hold
      · rw [List.mem_singleton.mp hold]
        exact ⟨rfl, rfl⟩
    stored := by
      intro old hold
      rcases List.mem_append.mp hold with hold | hold
      · rw [hother]
        · exact h.stored old hold
        · intro hsame
          have hversion : old.version = d.version := congrArg DefinitionId.version hsame
          have hlt := (hfollows old hold).version
          omega
      · rw [List.mem_singleton.mp hold]
        exact hself
    only := by
      intro version x hx
      by_cases hversion : version = d.version
      · subst hversion
        rw [show (⟨d.scope, d.key, d.version⟩ : DefinitionId) = d.identity from rfl, hself] at hx
        cases hx
        exact ⟨List.mem_append_right _ (List.mem_singleton_self d), rfl⟩
      · rw [hother] at hx
        · obtain ⟨hmem, heq⟩ := h.only version x hx
          exact ⟨List.mem_append_left _ hmem, heq⟩
        · intro hsame
          exact hversion (congrArg DefinitionId.version hsame)
    head := by
      rw [hheads, if_pos ⟨rfl, rfl⟩, List.getLast?_append_cons, List.getLast?_singleton]
      rfl
    chain := by
      rw [List.pairwise_append]
      refine ⟨h.chain, List.pairwise_singleton _ d, ?_⟩
      intro old hold new hnew
      rw [List.mem_singleton.mp hnew]
      exact hfollows old hold }

/-! ### Runs -/

/-- The version a call registered; a replay registers nothing. -/
def Event.registration (e : Event) : Option Definition :=
  match e.call, e.ending with
  | .register d _, .committed (.definition (.accepted _)) => some d
  | _, _ => none

/-- The versions of a key that were registered, in the order of their registration. -/
def registrations (labels : List Event) (scope : Scope) (key : String) : List Definition :=
  (labels.filterMap Event.registration).filter (fun d => d.scope = scope ∧ d.key = key)

/-- Every definition of the history is one that `Definition::new` accepts. -/
def Checked (labels : List Event) : Prop :=
  ∀ e ∈ labels, ∀ d expected, e.call = .register d expected → d.check = .ok ()

variable {labels : List Event} {e : Event}

theorem checked_nil : Checked [] := fun _ he => by cases he

theorem Checked.snoc (h : Checked labels)
    (hd : ∀ d expected, e.call = .register d expected → d.check = .ok ()) :
    Checked (labels ++ [e]) := by
  intro e' he'
  rcases List.mem_append.mp he' with he' | he'
  · exact h e' he'
  · rw [List.mem_singleton.mp he']
    exact hd

theorem registrations_snoc (labels : List Event) (e : Event) (scope : Scope) (key : String) :
    registrations (labels ++ [e]) scope key =
      registrations labels scope key ++ registrations [e] scope key := by
  simp [registrations]

theorem registrations_none (h : e.registration = none) : registrations [e] scope key = [] := by
  simp [registrations, h]

theorem registrations_some (h : e.registration = some d) :
    registrations [e] scope key = if d.scope = scope ∧ d.key = key then [d] else [] := by
  simp only [registrations, List.filterMap_cons, h, List.filterMap_nil, List.filter_cons,
    decide_eq_true_eq, List.filter_nil]

theorem checked_registrations (h : Checked labels) (hd : d ∈ registrations labels scope key) :
    d.check = .ok () := by
  obtain ⟨hd, -⟩ := List.mem_filter.mp hd
  obtain ⟨e, he, hregistration⟩ := List.mem_filterMap.mp hd
  unfold Event.registration at hregistration
  split at hregistration
  · rename_i d' expected record hcall hending
    cases hregistration
    exact h e he d expected hcall
  · cases hregistration

theorem Versions.append_nil (h : Versions D s scope key ds) (hnone : registrations [e] scope key = []) :
    Versions D s scope key (ds ++ registrations [e] scope key) := by
  rw [hnone, List.append_nil]
  exact h

/-- A call extends the chain by what it registered. -/
theorem Versions.step (h : ∀ scope key, Versions D s scope key (registrations labels scope key))
    (hstep : Step D s e s') (scope : Scope) (key : String) :
    Versions D s' scope key (registrations (labels ++ [e]) scope key) := by
  rw [registrations_snoc]
  have hcatalogue : ∀ {s' : Store}, s'.catalogue = s.catalogue → ∀ {e : Event},
      e.registration = none →
      Versions D s' scope key (registrations labels scope key ++ registrations [e] scope key) := by
    intro s' hsame e hnone
    obtain ⟨hheads, hdefinitions⟩ := Prod.mk.inj hsame
    refine Versions.append_nil ((h scope key).congr ?_ ?_) (registrations_none hnone)
    · intro version
      unfold Store.content
      rw [hdefinitions]
    · unfold Store.headVersion
      rw [hheads]
  cases hstep with
  | @refuse call _ limits body => exact hcatalogue rfl (by cases call <;> rfl)
  | abort call => exact hcatalogue rfl (by cases call <;> rfl)
  | @commit _ call answer limits body =>
      cases call with
      | write batch now =>
          obtain ⟨⟨outcome, s₁⟩, hadmit, heq⟩ := map_eq_ok.mp body
          cases heq
          exact hcatalogue (admitBatch_catalogue hadmit) rfl
      | maintain r after now clock =>
          obtain ⟨⟨outcome, s₁⟩, hmaintain, heq⟩ := map_eq_ok.mp body
          cases heq
          exact hcatalogue (maintain_catalogue hmaintain) rfl
      | retire id expected =>
          obtain ⟨⟨outcome, s₁⟩, hretire, heq⟩ := map_eq_ok.mp body
          cases heq
          obtain ⟨-, hcontent, hhead⟩ := retire_keeps hretire
          refine Versions.append_nil ((h scope key).congr ?_ (hhead scope key))
            (registrations_none rfl)
          exact fun version => hcontent ⟨scope, key, version⟩
      | register d expected =>
          obtain ⟨⟨outcome, s₁⟩, hregister, heq⟩ := map_eq_ok.mp body
          cases heq
          rcases register_eq_ok hregister with ⟨record, change, rfl, -, -, hsame⟩ |
            ⟨head, t, rfl, hnone, hcheck, hhead, hsame, hput⟩
          · exact Versions.append_nil ((h scope key).same hsame) (registrations_none rfl)
          · rw [← hsame.definitions] at hnone
            rw [registrations_some rfl]
            split
            · rename_i hkey
              obtain ⟨rfl, rfl⟩ := hkey
              have hchain := h d.scope d.key
              have hfollows := hchain.follows (hsame.definitions ▸ hnone) hcheck hhead
              exact (hchain.same hsame).snoc hnone hfollows hput
            · rename_i hkey
              rw [List.append_nil]
              obtain ⟨hrows, hheads⟩ := putDefinition_new hnone hput
              refine ((h scope key).same hsame).congr ?_ ?_
              · intro version
                unfold Store.content
                rw [hrows, if_neg]
                intro hid
                have hscope : scope = d.scope := congrArg DefinitionId.scope hid
                have hname : key = d.key := congrArg DefinitionId.key hid
                exact hkey ⟨hscope.symm, hname.symm⟩
              · rw [hheads, if_neg (fun hid => hkey ⟨hid.1.symm, hid.2.symm⟩)]

theorem versions_of_runs (h : Runs (Step D) .empty labels s) (scope : Scope) (key : String) :
    Versions D s scope key (registrations labels scope key) := by
  refine (h.invariant (I := fun labels s => ∀ scope key,
    Versions D s scope key (registrations labels scope key)) ?_ ?_) scope key
  · exact fun scope key => versions_empty D scope key
  · exact fun _ _ _ _ _ hversions hstep => Versions.step hversions hstep

/-- A stored version keeps its document and its digest, and stays retired once it is. -/
theorem Step.document_kept (h : Step D s e s') {id : DefinitionId} {row : DefinitionRow}
    (hrow : s.definitions.get? id = some row) :
    ∃ row', s'.definitions.get? id = some row' ∧ row'.raw = row.raw ∧ row'.digest = row.digest ∧
      (row.retired = true → row'.retired = true) ∧
      (∀ d expected, e.call = .register d expected → row' = row) := by
  have hsame : ∀ {s' : Store}, s'.definitions = s.definitions → ∀ {e : Event},
      ∃ row', s'.definitions.get? id = some row' ∧ row'.raw = row.raw ∧ row'.digest = row.digest ∧
        (row.retired = true → row'.retired = true) ∧
        (∀ d expected, e.call = .register d expected → row' = row) := by
    intro s' hdefinitions e
    exact ⟨row, by rw [hdefinitions]; exact hrow, rfl, rfl, fun h => h, fun _ _ _ => rfl⟩
  cases h with
  | refuse limits body => exact hsame rfl
  | abort call => exact hsame rfl
  | @commit _ call answer limits body =>
      cases call with
      | write batch now =>
          obtain ⟨⟨outcome, s₁⟩, hadmit, heq⟩ := map_eq_ok.mp body
          cases heq
          exact hsame (Prod.mk.inj (admitBatch_catalogue hadmit)).2
      | maintain r after now clock =>
          obtain ⟨⟨outcome, s₁⟩, hmaintain, heq⟩ := map_eq_ok.mp body
          cases heq
          exact hsame (Prod.mk.inj (maintain_catalogue hmaintain)).2
      | retire id' expected =>
          obtain ⟨⟨outcome, s₁⟩, hretire, heq⟩ := map_eq_ok.mp body
          cases heq
          obtain ⟨row', hrow', hraw, hdigest, hretired⟩ := (retire_keeps hretire).1 id row hrow
          exact ⟨row', hrow', hraw, hdigest, hretired, fun _ _ hcall => by cases hcall⟩
      | register d expected =>
          obtain ⟨⟨outcome, s₁⟩, hregister, heq⟩ := map_eq_ok.mp body
          cases heq
          rcases register_eq_ok hregister with ⟨record, change, rfl, -, -, hversions⟩ |
            ⟨head, t, rfl, hnone, -, -, hversions, hput⟩
          · exact hsame hversions.definitions
          · refine ⟨row, ?_, rfl, rfl, fun h => h, fun _ _ _ => rfl⟩
            rw [← hversions.definitions] at hnone hrow
            rw [(putDefinition_new hnone hput).1, if_neg]
            · exact hrow
            · rintro rfl
              rw [hnone] at hrow
              cases hrow

/-- A registration answered as a replay names a version that is stored as it is. -/
theorem Versions.replayed {expected : Option Digest} {record : DefinitionRecord}
    (h : Versions D s d.scope d.key ds)
    (hregister : s.register D d expected = .ok (.replay record, s')) :
    record.definition = d ∧ d ∈ ds := by
  rcases register_eq_ok hregister with ⟨record', change, heq, hcompare, hcontent, -⟩ |
    ⟨head, t, heq, -⟩
  · cases heq
    obtain ⟨hmem, hversion⟩ := h.only d.version _ hcontent
    cases change with
    | replay =>
        have hsame := Definition.compare_replay.mp hcompare
        exact ⟨hsame.symm, hsame ▸ hmem⟩
    | compatibleVersion =>
        have hlt := (Definition.compare_compatible.mp hcompare).version
        exact absurd hversion hlt.ne
  · cases heq

/-- The versions of one key after a history. -/
structure Evolved (labels : List Event) (s : Store) (scope : Scope) (key : String) : Prop where
  /-- Each version extends every earlier one. -/
  chain : (registrations labels scope key).Pairwise Extension
  stored : ∀ d, d.scope = scope → d.key = key →
    (d ∈ registrations labels scope key ↔
      ∃ row, s.definitions.get? d.identity = some row ∧ row.raw = d)
  head : s.headVersion scope key =
    (registrations labels scope key).getLast?.map (fun d => d.version)
  /-- A registration leaves the stored versions as they are. -/
  unaltered : ∀ (before : List Event) (e : Event) (after : List Event),
    labels = before ++ e :: after →
      ∀ version row, e.before.definitions.get? ⟨scope, key, version⟩ = some row →
      ∃ row', e.after.definitions.get? ⟨scope, key, version⟩ = some row' ∧
        row'.raw = row.raw ∧ row'.digest = row.digest ∧
        (row.retired = true → row'.retired = true) ∧
        (∀ d expected, e.call = .register d expected → row' = row)
  replayed : ∀ (before : List Event) (e : Event) (after : List Event),
    labels = before ++ e :: after →
      ∀ d expected record, d.scope = scope → d.key = key → e.call = .register d expected →
      e.ending = .committed (.definition (.replay record)) →
      record.definition = d ∧ d ∈ registrations before scope key

theorem Versions.mem_iff (h : Versions D s d.scope d.key ds) :
    d ∈ ds ↔ ∃ row, s.definitions.get? d.identity = some row ∧ row.raw = d := by
  constructor
  · intro hd
    obtain ⟨row, hrow, heq⟩ := Option.map_eq_some_iff.mp (h.stored d hd)
    exact ⟨row, hrow, congrArg Prod.fst heq⟩
  · rintro ⟨row, hrow, hraw⟩
    have hcontent : s.content ⟨d.scope, d.key, d.version⟩ = some (d, row.digest) := by
      rw [← hraw]
      rw [← hraw] at hrow
      exact congrArg (Option.map fun row : DefinitionRow => (row.raw, row.digest)) hrow
    exact (h.only d.version _ hcontent).1

/-- Over every run the versions of every key are a chain of compatible extensions; the check of a
version against the head composes along it, and only an equal definition is a replay. -/
theorem definitions_evolve (hchecked : Checked labels) (h : Runs (Step D) .empty labels s) :
    (∀ scope key, Evolved labels s scope key) ∧
    (∀ newer new old : Definition, newer.compare new = .ok .compatibleVersion →
      new.compare old = .ok .compatibleVersion → newer.compare old = .ok .compatibleVersion) ∧
    ∀ new old : Definition, new.compare old = .ok .replay ↔ new = old := by
  refine ⟨fun scope key => ?_, ?_, fun new old => Definition.compare_replay⟩
  · have hversions := versions_of_runs h
    exact {
      chain := by
        refine (hversions scope key).chain.imp_of_mem fun {old new} _ hnew hfollows => ?_
        exact hfollows.extension (checked_registrations hchecked hnew)
      stored := by
        rintro d rfl rfl
        exact (hversions d.scope d.key).mem_iff
      head := (hversions scope key).head
      unaltered := by
        rintro before e after rfl version row hrow
        obtain ⟨t, t', -, hstep, -⟩ := h.split
        obtain ⟨rfl, rfl⟩ := hstep.ends
        exact hstep.document_kept hrow
      replayed := by
        rintro before e after rfl d expected record rfl rfl hcall hending
        obtain ⟨t, t', hbefore, hstep, -⟩ := h.split
        cases hstep with
        | refuse limits body => cases hending
        | abort call => cases hending
        | commit limits body =>
            cases hcall
            cases hending
            obtain ⟨⟨outcome, s₁⟩, hregister, heq⟩ := map_eq_ok.mp body
            cases heq
            exact (versions_of_runs hbefore d.scope d.key).replayed hregister }
  · intro newer new old hnewer hnew
    have hfollows := Definition.compare_compatible.mp hnewer
    exact Definition.compare_compatible.mpr
      (hfollows.trans (Definition.compare_compatible.mp hnew))

/-- The next version of the definition, with a dimension. -/
def sitedDefinition : Definition :=
  ⟨meterScope, "power", 2, "W", .gauge .u64, ⟨{"site"}, ∅, 1, 8, 64⟩⟩

def sited : Store :=
  { meterDefined with
    heads := meterDefined.heads.modify (meterScope, "power") (fun _ => some 2)
    definitions := meterDefined.definitions.insertNew ⟨meterScope, "power", 2⟩
      ⟨sitedDefinition, 3, false⟩ }

/-- Two versions are registered, the first is answered again, and a change of it is refused. -/
theorem definitions_evolve_sited :
    ∃ labels, Runs (Step meterDigests) .empty labels sited ∧ labels.length = 4 ∧
      registrations labels meterScope "power" = [meterDefinition, sitedDefinition] ∧
      Extension meterDefinition sitedDefinition := by
  have hfirst : Store.empty.execute meterDigests meterLimits (.register meterDefinition none) =
      .ok (.definition (.accepted ⟨meterDefinition, .active⟩), meterDefined) := rfl
  have hsecond : meterDefined.execute meterDigests meterLimits (.register sitedDefinition (some 3)) =
      .ok (.definition (.accepted ⟨sitedDefinition, .active⟩), sited) := rfl
  have hreplay : sited.execute meterDigests meterLimits (.register meterDefinition none) =
      .ok (.definition (.replay ⟨meterDefinition, .active⟩), sited) := rfl
  have hchange : sited.execute meterDigests meterLimits
      (.register { meterDefinition with unit := "kW" } (some 3)) = .error .conflict := rfl
  have hrun := ((((@Runs.nil _ _ (Step meterDigests) .empty).snoc
    (.commit meterLimits hfirst)).snoc (.commit meterLimits hsecond)).snoc
    (.commit meterLimits hreplay)).snoc (.refuse meterLimits hchange)
  have hchecked : ∀ {labels : List Event} {d : Definition} {expected : Option Digest}
      {ending : Ending} {s s' : Store}, d.check = .ok () → Checked labels →
      Checked (labels ++ [⟨.register d expected, ending, s, s'⟩]) := by
    intro labels d expected ending s s' hd h
    refine h.snoc fun d' expected' hcall => ?_
    cases hcall
    exact hd
  have hchain := ((definitions_evolve (hchecked rfl (hchecked rfl (hchecked rfl
    (hchecked rfl checked_nil)))) hrun).1 meterScope "power").chain
  exact ⟨_, hrun, rfl, rfl, List.rel_of_pairwise_cons hchain (List.mem_singleton_self _)⟩

end Rss.TimeseriesPostgres
