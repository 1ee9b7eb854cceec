import Rss.Verification.TimeseriesPostgres.Ledger

/-! # What maintenance does to the admission tables

A step of a plan never enters a receipt, an identity or a raw row. It may end receipts, delete raw
rows, and forget the receipts and identities of a closed stream that has no raw rows left. -/

namespace Rss.TimeseriesPostgres

open Rss.Timeseries

variable {D : Digests} {s s' s'' : Store}

/-- Nothing is entered, and what is gone is gone for a reason. -/
structure Cleaned (s s' : Store) : Prop where
  streams : ∀ stream, (s.streams.get? stream).isSome → (s'.streams.get? stream).isSome
  closed : ∀ stream, s.closed stream = true → s'.closed stream = true
  reclaimed : ∀ stream, s.reclaimed stream = true → s'.reclaimed stream = true
  namespaces : ∀ scope, (s.namespaces.get? scope).isSome → (s'.namespaces.get? scope).isSome
  batches : ∀ k row, s.batches.get? k = some row → s'.batches.get? k = some row ∨
    s'.batches.get? k = some { row with expired := true } ∨
    (s'.batches.get? k = none ∧ s'.reclaimed k.1 = true)
  noBatch : ∀ k, s.batches.get? k = none → s'.batches.get? k = none
  identities : ∀ k row, s.identities.get? k = some row → s'.identities.get? k = some row ∨
    (s'.identities.get? k = none ∧ s'.closed k.1 = true ∧ ∀ t, s'.samples.get? (k, t) = none)
  noIdentity : ∀ k, s.identities.get? k = none → s'.identities.get? k = none
  samples : ∀ k row, s'.samples.get? k = some row → s.samples.get? k = some row

theorem Frame.cleaned (h : Frame s s') : Cleaned s s' where
  streams := by
    intro stream hs
    obtain ⟨row, hrow⟩ := Option.isSome_iff_exists.mp hs
    rw [h.streams stream row hrow]
    rfl
  closed := fun stream hc => by rw [h.closed]; exact hc
  reclaimed := fun stream hr => by rw [h.reclaimed]; exact hr
  namespaces := h.namespaces
  batches := fun k row hrow => .inl (by rw [h.batches]; exact hrow)
  noBatch := fun k hk => by rw [h.batches]; exact hk
  identities := fun k row hrow => .inl (by rw [h.identities]; exact hrow)
  noIdentity := fun k hk => by rw [h.identities]; exact hk
  samples := fun k row hrow => by rw [← h.samples]; exact hrow

theorem Cleaned.trans (h : Cleaned s s') (h' : Cleaned s' s'') : Cleaned s s'' where
  streams := fun stream hs => h'.streams stream (h.streams stream hs)
  closed := fun stream hc => h'.closed stream (h.closed stream hc)
  reclaimed := fun stream hr => h'.reclaimed stream (h.reclaimed stream hr)
  namespaces := fun scope hs => h'.namespaces scope (h.namespaces scope hs)
  batches := by
    intro k row hrow
    rcases h.batches k row hrow with hsame | hexpired | ⟨hnone, hreclaimed⟩
    · exact h'.batches k row hsame
    · rcases h'.batches k _ hexpired with hsame | hexpired | hgone
      · exact .inr (.inl hsame)
      · exact .inr (.inl hexpired)
      · exact .inr (.inr hgone)
    · exact .inr (.inr ⟨h'.noBatch k hnone, h'.reclaimed k.1 hreclaimed⟩)
  noBatch := fun k hk => h'.noBatch k (h.noBatch k hk)
  identities := by
    intro k row hrow
    rcases h.identities k row hrow with hsame | ⟨hnone, hclosed, hrows⟩
    · exact h'.identities k row hsame
    · refine .inr ⟨h'.noIdentity k hnone, h'.closed k.1 hclosed, fun t => ?_⟩
      cases hrow'' : s''.samples.get? (k, t) with
      | none => rfl
      | some row'' =>
          have hrow' := h'.samples _ _ hrow''
          rw [hrows t] at hrow'
          cases hrow'
  noIdentity := fun k hk => h'.noIdentity k (h.noIdentity k hk)
  samples := fun k row hrow => h.samples k row (h'.samples k row hrow)

/-! ### The functions -/

theorem closeStream_cleaned (s : Store) (stream : Stream) : Cleaned s (s.closeStream stream) := by
  apply (lockStream_frame s stream).cleaned.trans
  exact {
    streams := by
      intro stream' hs
      show ((Table.modify _ _ _).get? stream').isSome
      rw [Table.get?_modify]
      split
      · rw [Option.isSome_map]
        exact hs
      · exact hs
    closed := by
      intro stream' hc
      unfold Store.closed at hc ⊢
      show ((Table.modify _ _ _).get? stream').any _ = true
      rw [Table.get?_modify]
      split
      · obtain ⟨row, hrow, -⟩ := (Option.any_eq_true _ _).mp hc
        rw [hrow]
        rfl
      · exact hc
    reclaimed := by
      intro stream' hr
      unfold Store.reclaimed at hr ⊢
      show ((Table.modify _ _ _).get? stream').any _ = true
      rw [Table.get?_modify]
      split
      · rw [Option.any_map]
        exact hr
      · exact hr
    namespaces := fun _ h => h
    batches := fun _ _ h => .inl h
    noBatch := fun _ h => h
    identities := fun _ _ h => .inl h
    noIdentity := fun _ h => h
    samples := fun _ _ h => h }

theorem pruneRows_cleaned (D : Digests) (s : Store) (scope : Scope) (sel : Selection)
    (raw summaries cap clock : ℕ) :
    Cleaned s (Store.pruneRows D s scope sel raw summaries cap clock).2 := by
  apply (lockNamespace_frame s scope).cleaned.trans
  exact {
    streams := fun _ h => h
    closed := fun _ h => h
    reclaimed := fun _ h => h
    namespaces := fun _ h => h
    batches := fun _ _ h => .inl h
    noBatch := fun _ h => h
    identities := fun _ _ h => .inl h
    noIdentity := fun _ h => h
    samples := by
      intro k row hrow
      change (Table.delete _ _).get? k = some row at hrow
      rw [Table.get?_delete] at hrow
      split at hrow
      · cases hrow
      · exact hrow }

theorem expireReceipts_cleaned (s : Store) (stream : Stream) (before cap clock : ℕ) :
    Cleaned s (s.expireReceipts stream before cap clock).2 := by
  apply (lockStream_frame s stream).cleaned.trans
  exact {
    streams := fun _ h => h
    closed := fun _ h => h
    reclaimed := fun _ h => h
    namespaces := fun _ h => h
    batches := by
      intro k row hrow
      show (Table.update _ _).get? k = _ ∨ (Table.update _ _).get? k = _ ∨ _
      rw [Table.get?_update, hrow, Option.map_some]
      split
      · exact .inr (.inl rfl)
      · exact .inl rfl
    noBatch := by
      intro k hk
      show (Table.update _ _).get? k = none
      rw [Table.get?_update, hk]
      rfl
    identities := fun _ _ h => .inl h
    noIdentity := fun _ h => h
    samples := fun _ _ h => h }

/-- The identities of a stream go only when it is closed; its raw rows are the caller's matter. -/
theorem reclaimRows_cleaned {stream : Stream} {cap count : ℕ}
    (h : s.reclaimRows stream cap = .ok (count, s'))
    (hrows : ∀ id t, s.samples.get? ((stream, id), t) = none) : Cleaned s s' := by
  unfold Store.reclaimRows at h
  simp only at h
  split at h
  · rename_i hclosed
    cases h
    apply (lockStream_frame s stream).cleaned.trans
    have hsome : ∀ stream', ((s.lockStream stream).streams.get? stream').isSome →
        (((s.lockStream stream).streams.modify stream
          (fun row => { row with reclaimed := true })).get? stream').isSome := by
      intro stream' hs
      rw [Table.get?_modify]
      split
      · rw [Option.isSome_map]
        exact hs
      · exact hs
    have hclosed' : ∀ stream', (s.lockStream stream).closed stream' = true →
        (((s.lockStream stream).streams.modify stream
          (fun row => { row with reclaimed := true })).get? stream').any (fun row => row.closed) =
            true := by
      intro stream' hc
      rw [Table.get?_modify]
      split
      · rw [Option.any_map]
        exact hc
      · exact hc
    have hreclaimed : (((s.lockStream stream).streams.modify stream
        (fun row => { row with reclaimed := true })).get? stream).any (fun row => row.reclaimed) =
          true := by
      rw [Table.get?_modify_self]
      obtain ⟨row, hrow, -⟩ := (Option.any_eq_true _ _).mp hclosed
      rw [hrow]
      rfl
    exact {
      streams := hsome
      closed := hclosed'
      reclaimed := by
        intro stream' hr
        by_cases heq : stream' = stream
        · rw [heq]
          exact hreclaimed
        · unfold Store.reclaimed at hr ⊢
          show ((Table.modify _ _ _).get? stream').any _ = true
          rw [Table.get?_modify_of_ne _ heq]
          exact hr
      namespaces := fun _ h => h
      batches := by
        intro k row hrow
        show (Table.delete _ _).get? k = _ ∨ _ ∨ ((Table.delete _ _).get? k = none ∧ _)
        rw [Table.get?_delete]
        split
        · rename_i hk
          obtain ⟨row', -, hstream⟩ := Table.exists_of_mem_select (of_decide_eq_true hk)
          refine .inr (.inr ⟨rfl, ?_⟩)
          rw [of_decide_eq_true hstream]
          exact hreclaimed
        · exact .inl hrow
      noBatch := by
        intro k hk
        show (Table.delete _ _).get? k = none
        rw [Table.get?_delete]
        split
        · rfl
        · exact hk
      identities := by
        intro k row hrow
        show (Table.delete _ _).get? k = _ ∨ ((Table.delete _ _).get? k = none ∧ _)
        rw [Table.get?_delete]
        split
        · rename_i hk
          obtain ⟨row', -, hstream⟩ := Table.exists_of_mem_select (of_decide_eq_true hk)
          obtain ⟨stream', id⟩ := k
          obtain rfl : stream' = stream := of_decide_eq_true hstream
          exact .inr ⟨rfl, hclosed' _ hclosed, fun t => hrows id t⟩
        · exact .inl hrow
      noIdentity := by
        intro k hk
        show (Table.delete _ _).get? k = none
        rw [Table.get?_delete]
        split
        · rfl
        · exact hk
      samples := fun _ _ h => h }
  · cases h

/-! ### Fences -/

theorem mem_fencesOf {scope : Scope} {f : Fence} :
    f ∈ s.fencesOf scope ↔ ∃ id, s.fences.get? (scope, id) = some f := by
  unfold Store.fencesOf
  simp only [List.mem_map, List.mem_filter, decide_eq_true_eq, Prod.exists, exists_eq_right]
  constructor
  · rintro ⟨scope', id, hrow, rfl⟩
    exact ⟨id, Table.mem_rows.mp hrow⟩
  · rintro ⟨id, hrow⟩
    exact ⟨scope, id, Table.mem_rows.mpr hrow, rfl⟩

/-- Some fence of the second store reaches at least as far; a pruned one stays pruned. -/
def Covers (f f' : Fence) : Prop :=
  f'.selection = f.selection ∧ f'.lo ≤ f.lo ∧ f.hi ≤ f'.hi ∧ (f.kind = .pruned → f'.kind = .pruned)

theorem Covers.refl (f : Fence) : Covers f f := ⟨rfl, le_rfl, le_rfl, fun h => h⟩

theorem Covers.trans {f f' f'' : Fence} (h : Covers f f') (h' : Covers f' f'') : Covers f f'' :=
  ⟨h'.1.trans h.1, h'.2.1.trans h.2.1, h.2.2.1.trans h'.2.2.1, fun hk => h'.2.2.2 (h.2.2.2 hk)⟩

theorem Covers.encloses {f f' : Fence} (h : Covers f f') {stream : Stream} {series : Series} {t : ℕ}
    (hf : f.encloses stream series t = true) : f'.encloses stream series t = true := by
  simp only [Fence.encloses, Bool.and_eq_true, decide_eq_true_eq] at hf ⊢
  obtain ⟨⟨hlo, hhi⟩, hsel⟩ := hf
  rw [h.1]
  exact ⟨⟨h.2.1.trans hlo, hhi.trans_le h.2.2.1⟩, hsel⟩

/-- No fence of a namespace is lost. -/
def Fences (s s' : Store) : Prop :=
  ∀ scope, ∀ f ∈ s.fencesOf scope, ∃ f' ∈ s'.fencesOf scope, Covers f f'

theorem Fences.of_eq (h : s'.fences = s.fences) : Fences s s' := by
  intro scope f hf
  refine ⟨f, ?_, .refl f⟩
  unfold Store.fencesOf at hf ⊢
  rw [h]
  exact hf

theorem Fences.trans (h : Fences s s') (h' : Fences s' s'') : Fences s s'' := by
  intro scope f hf
  obtain ⟨f', hf', hcovers⟩ := h scope f hf
  obtain ⟨f'', hf'', hcovers'⟩ := h' scope f' hf'
  exact ⟨f'', hf'', hcovers.trans hcovers'⟩

/-- The selection is pruned up to the time. -/
def PrunedTo (s : Store) (scope : Scope) (sel : Selection) (limit : ℕ) : Prop :=
  ∃ f ∈ s.fencesOf scope, f.kind = .pruned ∧ f.selection = sel ∧ f.lo = 0 ∧ limit ≤ f.hi

theorem PrunedTo.mono {scope : Scope} {sel : Selection} {limit : ℕ} (h : PrunedTo s scope sel limit)
    (hfences : Fences s s') : PrunedTo s' scope sel limit := by
  obtain ⟨f, hf, hkind, hsel, hlo, hhi⟩ := h
  obtain ⟨f', hf', hsel', hlo', hhi', hkind'⟩ := hfences scope f hf
  exact ⟨f', hf', hkind' hkind, hsel'.trans hsel, Nat.le_zero.mp (hlo ▸ hlo'), hhi.trans hhi'⟩

theorem le_foldl_max (xs : List ℕ) (n : ℕ) :
    n ≤ xs.foldl max n ∧ ∀ x ∈ xs, x ≤ xs.foldl max n := by
  induction xs generalizing n with
  | nil => exact ⟨le_rfl, fun _ h => absurd h List.not_mem_nil⟩
  | cons y ys ih =>
      obtain ⟨hn, hys⟩ := ih (max n y)
      refine ⟨(le_max_left n y).trans hn, fun x hx => ?_⟩
      rcases List.mem_cons.mp hx with rfl | hx
      · exact (le_max_right n x).trans hn
      · exact hys x hx

/-- A fence covers those it takes the place of. -/
theorem replaceFences_covers {scope : Scope} {id : String} {f : Fence}
    (habsent : s.fences.get? (scope, id) = none) (hlo : f.lo = 0)
    (hs' : s'.fences = s.replaceFences scope id f) :
    Fences s s' ∧ ∃ f' ∈ s'.fencesOf scope, Covers f f' ∧ f'.kind = f.kind ∧ f'.lo = f.lo := by
  unfold Store.replaceFences at hs'
  simp only at hs'
  obtain ⟨hself, hrows⟩ :=
    le_foldl_max ((s.earlierFences scope f).map (fun row => row.2.hi)) f.hi
  generalize ((s.earlierFences scope f).map (fun row => row.2.hi)).foldl max f.hi = hi
    at hs' hself hrows
  have hdeleted : ∀ k,
      (s.fences.delete (fun k => k ∈ (s.earlierFences scope f).map Prod.fst)).get? k =
        if k ∈ (s.earlierFences scope f).map Prod.fst then none else s.fences.get? k := by
    intro k
    rw [Table.get?_delete]
    simp only [decide_eq_true_eq]
  have hnew : { f with hi := hi } ∈ s'.fencesOf scope := by
    apply mem_fencesOf.mpr
    refine ⟨id, ?_⟩
    rw [hs', Table.get?_insertNew_self, hdeleted, habsent]
    split <;> rfl
  refine ⟨?_, _, hnew, ⟨rfl, le_rfl, hself, fun h => h⟩, rfl, rfl⟩
  intro scope' g hg
  obtain ⟨id', hrow⟩ := mem_fencesOf.mp hg
  by_cases hmem : (scope', id') ∈ (s.earlierFences scope f).map Prod.fst
  · obtain ⟨⟨k, g'⟩, hin, hk⟩ := List.mem_map.mp hmem
    obtain ⟨hrows', hsame⟩ := List.mem_filter.mp hin
    have hget := Table.mem_rows.mp hrows'
    simp only at hk
    rw [hk, hrow, Option.some.injEq] at hget
    subst hget
    simp only [Bool.and_eq_true, decide_eq_true_eq, hk] at hsame
    obtain ⟨⟨rfl, hkind⟩, hsel⟩ := hsame
    refine ⟨_, hnew, hsel.symm, ?_, ?_, fun h => ?_⟩
    · show f.lo ≤ g.lo
      rw [hlo]
      exact Nat.zero_le _
    · exact hrows g.hi (List.mem_map.mpr ⟨_, hin, rfl⟩)
    · exact hkind ▸ h
  · refine ⟨g, ?_, .refl g⟩
    apply mem_fencesOf.mpr
    refine ⟨id', ?_⟩
    rw [hs', Table.get?_insertNew]
    split
    · rename_i heq
      rw [heq, habsent] at hrow
      cases hrow
    · rw [hdeleted, if_neg hmem]
      exact hrow

/-- A new fence is there, and no fence is lost for it. -/
theorem putFence_fences {scope : Scope} {id : String} {f : Fence}
    (h : s.putFence scope id f = .ok s') (hlo : f.kind ≠ .delete → f.lo = 0) :
    Fences s s' ∧ ∃ f' ∈ s'.fencesOf scope, Covers f f' ∧ f'.kind = f.kind ∧ f'.lo = f.lo := by
  unfold Store.putFence at h
  simp only at h
  split at h
  · cases h
  · rename_i habsent
    have hnone : s.fences.get? (scope, id) = none := Option.not_isSome_iff_eq_none.mp habsent
    split at h
    · rename_i hkind
      cases h
      exact replaceFences_covers hnone (hlo (by rw [hkind]; decide)) rfl
    · rename_i hkind
      cases h
      exact replaceFences_covers hnone (hlo (by rw [hkind]; decide)) rfl
    · obtain ⟨hfences, -, -⟩ := invalidate_fences h
      have hget : ∀ k, s'.fences.get? k = if k = (scope, id) then some f else s.fences.get? k := by
        intro k
        rw [hfences]
        show (s.fences.insertNew (scope, id) f).get? k = _
        rw [Table.get?_insertNew, hnone]
        rfl
      refine ⟨?_, f, mem_fencesOf.mpr ⟨id, ?_⟩, .refl f, rfl, rfl⟩
      · intro scope' g hg
        obtain ⟨id', hrow⟩ := mem_fencesOf.mp hg
        refine ⟨g, mem_fencesOf.mpr ⟨id', ?_⟩, .refl g⟩
        rw [hget]
        split
        · rename_i heq
          rw [heq, hnone] at hrow
          cases hrow
        · exact hrow
      · rw [hget, if_pos rfl]

theorem putFence_plans {scope : Scope} {id : String} {f : Fence}
    (h : s.putFence scope id f = .ok s') : s'.plans = s.plans := by
  unfold Store.putFence at h
  simp only at h
  split at h
  · cases h
  · split at h
    · cases h
      rfl
    · cases h
      rfl
    · exact (invalidate_fences h).2.2

theorem restoreFence_plans {scope : Scope} {id : String} {sel : Selection} {window : Interval}
    {now : ℕ} (h : s.restoreFence scope id sel window now = .ok s') : s'.plans = s.plans := by
  unfold Store.restoreFence at h
  simp only at h
  split at h
  · split at h
    · exact (invalidate_fences h).2.2
    · cases h
  · cases h

theorem restoreFence_fences {scope : Scope} {id : String} {sel : Selection} {window : Interval}
    {now : ℕ} (h : s.restoreFence scope id sel window now = .ok s') : Fences s s' := by
  unfold Store.restoreFence at h
  simp only at h
  split at h
  · split at h
    · obtain ⟨hfences, -, -⟩ := invalidate_fences h
      intro scope' g hg
      obtain ⟨id', hrow⟩ := mem_fencesOf.mp hg
      have hget : s'.fences.get? (scope', id') =
          if (scope', id') = (scope, id) then some { g with restored := true } else some g := by
        rw [hfences]
        show (s.fences.modify (scope, id) _).get? (scope', id') = _
        rw [Table.get?_modify, hrow]
        rfl
      by_cases hid : (scope', id') = (scope, id)
      · rw [if_pos hid] at hget
        exact ⟨_, mem_fencesOf.mpr ⟨id', hget⟩, rfl, le_rfl, le_rfl, fun h => h⟩
      · rw [if_neg hid] at hget
        exact ⟨g, mem_fencesOf.mpr ⟨id', hget⟩, .refl g⟩
    · cases h
  · cases h

/-- Settled deletions go only where the selection is pruned. -/
theorem pruneRows_fences {scope : Scope} {sel : Selection} {raw summaries cap clock : ℕ}
    (hpruned : PrunedTo s scope sel raw) :
    Fences s (Store.pruneRows D s scope sel raw summaries cap clock).2 := by
  have hafter : ∀ k g, s.fences.get? k = some g →
      (Store.pruneRows D s scope sel raw summaries cap clock).2.fences.get? k = some g ∨
      (k.1 = scope ∧ g.kind = .delete ∧ g.selection = sel ∧ g.hi ≤ raw) := by
    intro k g hrow
    show (Table.delete _ _).get? k = some g ∨ _
    rw [Table.get?_delete]
    split
    · rename_i hk
      obtain ⟨g', hrow', hsettled⟩ := Table.exists_of_mem_select (of_decide_eq_true hk)
      change s.fences.get? k = some g' at hrow'
      rw [hrow, Option.some.injEq] at hrow'
      subst hrow'
      simp only [Bool.and_eq_true, decide_eq_true_eq] at hsettled
      obtain ⟨⟨⟨⟨hscope, hkind⟩, hsel⟩, hhi⟩, -⟩ := hsettled
      exact .inr ⟨hscope, hkind, hsel, hhi⟩
    · exact .inl hrow
  intro scope' g hg
  obtain ⟨id, hrow⟩ := mem_fencesOf.mp hg
  rcases hafter _ _ hrow with hkept | ⟨hscope, hkind, hsel, hhi⟩
  · exact ⟨g, mem_fencesOf.mpr ⟨id, hkept⟩, .refl g⟩
  · obtain ⟨f, hf, hfkind, hfsel, hflo, hfhi⟩ := hpruned
    obtain ⟨id', hrow'⟩ := mem_fencesOf.mp hf
    obtain rfl : scope' = scope := hscope
    rcases hafter _ _ hrow' with hkept | ⟨-, hdelete, -, -⟩
    · refine ⟨f, mem_fencesOf.mpr ⟨id', hkept⟩, hfsel.trans hsel.symm, ?_, hhi.trans hfhi, ?_⟩
      · rw [hflo]
        exact Nat.zero_le _
      · intro _
        exact hfkind
    · rw [hfkind] at hdelete
      cases hdelete

/-! ### Steps of a plan -/

/-- The rows a plan may prune lie behind a fence it left. -/
def PlansGuarded (s : Store) : Prop :=
  ∀ k row, s.plans.get? k = some row → ∀ sel raw summaries limit,
    row.binding.action = .prune sel raw summaries → row.state.rawLimit = some limit →
    PrunedTo s row.binding.scope sel limit

theorem closeBucket_frame {spec : SummarySpec} {window : Interval} {state state' : PlanState}
    {fold : Fold} {gaps : List (ℕ × ℕ)} {builder : SummaryBuilder} {processed : ℕ}
    {limits : Limits} {result : Work}
    (h : s.closeBucket spec window state fold gaps builder processed limits =
      .ok (result, state', s')) :
    Frame s s' ∧ s'.fences = s.fences ∧ s'.plans = s.plans ∧ state'.rawLimit = state.rawLimit := by
  unfold Store.closeBucket at h
  obtain ⟨builder, -, h⟩ := bind_eq_ok.mp h
  obtain ⟨summary, -, h⟩ := bind_eq_ok.mp h
  have hput := putSummary_frame s spec summary
  simp only at h
  split at h
  · cases h
    exact ⟨hput, rfl, rfl, rfl⟩
  · cases h
    exact ⟨hput, rfl, rfl, rfl⟩

theorem advanceFold_frame {r : MaintenanceRequest} {spec : SummarySpec} {window : Interval}
    {state state' : PlanState} {fold : Fold} {limits : Limits} {result : Work}
    (h : s.advanceFold r spec window state fold limits = .ok (result, state', s')) :
    Frame s s' ∧ s'.fences = s.fences ∧ s'.plans = s.plans ∧ state'.rawLimit = state.rawLimit := by
  unfold Store.advanceFold at h
  obtain ⟨builder, -, h⟩ := bind_eq_ok.mp h
  obtain ⟨gapWindow, -, h⟩ := bind_eq_ok.mp h
  obtain ⟨gaps, -, h⟩ := bind_eq_ok.mp h
  obtain ⟨builder, -, h⟩ := bind_eq_ok.mp h
  split at h
  · cases h
    exact ⟨.refl _, rfl, rfl, rfl⟩
  · exact closeBucket_frame h

theorem enroll_frame (s : Store) (spec : SummarySpec) (window : Interval) (fold : Option Fold) :
    Frame s (s.enroll spec window fold) ∧ (s.enroll spec window fold).fences = s.fences ∧
      (s.enroll spec window fold).plans = s.plans := by
  cases fold with
  | none => exact ⟨registerSummary_frame s spec window, rfl, rfl⟩
  | some _ => exact ⟨.refl s, rfl, rfl⟩

theorem recompute_frame {r : MaintenanceRequest} {spec : SummarySpec} {window : Interval}
    {state state' : PlanState} {revision : ℕ} {limits : Limits} {result : Work}
    (h : s.recompute r spec window state revision limits = .ok (result, state', s')) :
    Frame s s' ∧ s'.fences = s.fences ∧ s'.plans = s.plans := by
  obtain ⟨henroll, hfences, hplans⟩ := enroll_frame s spec window state.fold
  unfold Store.recompute at h
  split at h
  · cases h
  · obtain ⟨pruned, -, h⟩ := bind_eq_ok.mp h
    split at h
    · cases h
    · obtain ⟨hframe, hfences', hplans', -⟩ := advanceFold_frame h
      exact ⟨henroll.trans hframe, hfences'.trans hfences, hplans'.trans hplans⟩

theorem placeFence_worked {r : MaintenanceRequest} {selection : Selection} {rawLimit : Option ℕ}
    {limit placed : ℕ} (h : s.placeFence r selection rawLimit limit = .ok (placed, s'))
    (hguarded : ∀ v, rawLimit = some v → PrunedTo s r.scope selection v) :
    Frame s s' ∧ Fences s s' ∧ s'.plans = s.plans ∧ PrunedTo s' r.scope selection placed := by
  unfold Store.placeFence at h
  split at h
  · cases h
    exact ⟨.refl _, .of_eq rfl, rfl, hguarded _ rfl⟩
  · obtain ⟨s₁, hput, heq⟩ := map_eq_ok.mp h
    cases heq
    obtain ⟨hfences, f, hf, hcovers, hkind, hlo⟩ := putFence_fences hput (fun _ => rfl)
    refine ⟨putFence_frame hput, hfences, ?_, f, hf, hkind, hcovers.1, hlo, hcovers.2.2.1⟩
    exact putFence_plans hput

theorem prune_worked {r : MaintenanceRequest} {selection : Selection}
    {rawBefore summariesBefore now clock : ℕ} {state state' : PlanState} {limits : Limits}
    {result : Work}
    (h : s.prune D r selection rawBefore summariesBefore state now clock limits =
      .ok (result, state', s'))
    (hguarded : ∀ v, state.rawLimit = some v → PrunedTo s r.scope selection v) :
    Cleaned s s' ∧ Fences s s' ∧ s'.plans = s.plans ∧
      ∀ v, state'.rawLimit = some v → PrunedTo s' r.scope selection v := by
  unfold Store.prune at h
  obtain ⟨safe, -, h⟩ := bind_eq_ok.mp h
  cases safe with
  | error reason =>
      cases h
      exact ⟨(Frame.refl _).cleaned, .of_eq rfl, rfl, hguarded⟩
  | ok limit =>
      obtain ⟨⟨placed, s₁⟩, hplace, h⟩ := bind_eq_ok.mp h
      obtain ⟨hframe, hfences, hplans, hpruned⟩ := placeFence_worked hplace hguarded
      simp only at h
      split at h
      · cases h
        refine ⟨hframe.cleaned, hfences, hplans, fun v hv => ?_⟩
        cases hv
        exact hpruned
      · cases h
        refine ⟨hframe.cleaned.trans (pruneRows_cleaned D _ _ _ _ _ _ _),
          hfences.trans (pruneRows_fences hpruned), hplans, fun v hv => ?_⟩
        cases hv
        exact hpruned.mono (pruneRows_fences hpruned)

theorem expire_worked {r : MaintenanceRequest} {stream : Stream} {before now clock : ℕ} :
    Cleaned s (s.expire r stream before now clock).2 ∧
      Fences s (s.expire r stream before now clock).2 ∧
      (s.expire r stream before now clock).2.plans = s.plans := by
  unfold Store.expire
  split
  · exact ⟨(Frame.refl s).cleaned, .of_eq rfl, rfl⟩
  · exact ⟨expireReceipts_cleaned s stream before r.rows clock, .of_eq rfl, rfl⟩

theorem reclaim_worked {r : MaintenanceRequest} {stream : Stream} {now : ℕ} {result : Work}
    (h : s.reclaim r stream now = .ok (result, s')) :
    Cleaned s s' ∧ Fences s s' ∧ s'.plans = s.plans := by
  unfold Store.reclaim at h
  have hself : Cleaned s s ∧ Fences s s ∧ s.plans = s.plans :=
    ⟨(Frame.refl s).cleaned, .of_eq rfl, rfl⟩
  split at h
  · cases h
    exact hself
  · split at h
    · cases h
      exact hself
    · split at h
      · cases h
        exact hself
      · rename_i hretained
        obtain ⟨⟨count, s₁⟩, hrows, h⟩ := bind_eq_ok.mp h
        cases h
        have hnone : ∀ id t, s.samples.get? ((stream, id), t) = none := by
          intro id t
          cases hrow : s.samples.get? ((stream, id), t) with
          | none => rfl
          | some row =>
              refine absurd ?_ hretained
              unfold Store.retained
              rw [Bool.or_eq_true]
              apply Or.inl
              exact List.any_eq_true.mpr ⟨_, Table.mem_rows.mpr hrow, decide_eq_true rfl⟩
        refine ⟨reclaimRows_cleaned hrows hnone, ?_⟩
        unfold Store.reclaimRows at hrows
        simp only at hrows
        split at hrows
        · cases hrows
          exact ⟨.of_eq rfl, rfl⟩
        · cases hrows

theorem simple_worked {r : MaintenanceRequest} {now clock : ℕ} {limits : Limits} {result : Work}
    (h : s.simple r now clock limits = .ok (result, s')) :
    Cleaned s s' ∧ Fences s s' ∧ s'.plans = s.plans := by
  unfold Store.simple at h
  split at h
  · obtain ⟨found, -, h⟩ := bind_eq_ok.mp h
    split at h
    · cases h
    · obtain ⟨s₁, hput, h⟩ := bind_eq_ok.mp h
      cases h
      exact ⟨(putFence_frame hput).cleaned, (putFence_fences hput (fun _ => rfl)).1,
        putFence_plans hput⟩
  · split at h
    · cases h
    · obtain ⟨s₁, hput, h⟩ := bind_eq_ok.mp h
      cases h
      exact ⟨(putFence_frame hput).cleaned, (putFence_fences hput (fun hk => absurd rfl hk)).1,
        putFence_plans hput⟩
  · obtain ⟨s₁, hrestore, h⟩ := bind_eq_ok.mp h
    cases h
    exact ⟨(restoreFence_frame hrestore).cleaned, restoreFence_fences hrestore,
      restoreFence_plans hrestore⟩
  · cases h
    exact ⟨closeStream_cleaned s _, .of_eq rfl, rfl⟩
  · cases h

/-- The work of any request. -/
theorem work_worked {r : MaintenanceRequest} {state state' : PlanState}
    {revision now clock : ℕ} {limits : Limits} {result : Work}
    (h : s.work D r state revision now clock limits = .ok (result, state', s'))
    (hguarded : ∀ sel raw summaries v, r.action = .prune sel raw summaries →
      state.rawLimit = some v → PrunedTo s r.scope sel v) :
    Cleaned s s' ∧ Fences s s' ∧ s'.plans = s.plans ∧
      ∀ sel raw summaries v, r.action = .prune sel raw summaries →
        state'.rawLimit = some v → PrunedTo s' r.scope sel v := by
  unfold Store.work at h
  split at h
  · rename_i spec window haction
    obtain ⟨hframe, hfences, hplans⟩ := recompute_frame h
    refine ⟨hframe.cleaned, .of_eq hfences, hplans, ?_⟩
    intro sel raw summaries v hprune
    rw [haction] at hprune
    cases hprune
  · rename_i selection rawBefore summariesBefore haction
    obtain ⟨hcleaned, hfences, hplans, hpruned⟩ :=
      prune_worked h (fun v hv => hguarded _ _ _ v haction hv)
    refine ⟨hcleaned, hfences, hplans, ?_⟩
    intro sel raw summaries v hprune hv
    rw [haction] at hprune
    cases hprune
    exact hpruned v hv
  · rename_i stream before haction
    cases h
    obtain ⟨hcleaned, hfences, hplans⟩ := @expire_worked s r stream before now clock
    refine ⟨hcleaned, hfences, hplans, ?_⟩
    intro sel raw summaries v hprune
    rw [haction] at hprune
    cases hprune
  · rename_i stream haction
    obtain ⟨⟨done, s₁⟩, hreclaim, heq⟩ := map_eq_ok.mp h
    cases heq
    obtain ⟨hcleaned, hfences, hplans⟩ := reclaim_worked hreclaim
    refine ⟨hcleaned, hfences, hplans, ?_⟩
    intro sel raw summaries v hprune
    rw [haction] at hprune
    cases hprune
  · rename_i hprune _ _
    obtain ⟨⟨done, s₁⟩, hsimple, heq⟩ := map_eq_ok.mp h
    cases heq
    obtain ⟨hcleaned, hfences, hplans⟩ := simple_worked hsimple
    refine ⟨hcleaned, hfences, hplans, ?_⟩
    intro sel raw summaries v haction
    exact absurd haction (hprune sel raw summaries)

theorem putPlan_plans {r : MaintenanceRequest} {state : PlanState} {done : Bool}
    (h : s.putPlan r state done = .ok s') :
    s'.fences = s.fences ∧ ∀ k row, s'.plans.get? k = some row →
      s.plans.get? k = some row ∨ row = ⟨r, state, done⟩ := by
  unfold Store.putPlan at h
  simp only at h
  split at h
  · split at h
    · cases h
      refine ⟨rfl, fun k row hrow => ?_⟩
      change (Table.modify _ _ _).get? k = some row at hrow
      rw [Table.get?_modify] at hrow
      split at hrow
      · obtain ⟨old, -, rfl⟩ := Option.map_eq_some_iff.mp hrow
        exact .inr rfl
      · exact .inl hrow
    · cases h
  · rename_i hnone
    cases h
    refine ⟨rfl, fun k row hrow => ?_⟩
    change (Table.insertNew _ _ _).get? k = some row at hrow
    rw [Table.get?_insertNew] at hrow
    split at hrow
    · rw [hnone, Option.getD_none, Option.some.injEq] at hrow
      exact .inr hrow.symm
    · exact .inl hrow

theorem PlansGuarded.mono (h : PlansGuarded s) (hfences : Fences s s')
    (hplans : s'.plans = s.plans) : PlansGuarded s' := by
  intro k row hrow sel raw summaries limit haction hlimit
  rw [hplans] at hrow
  exact (h k row hrow sel raw summaries limit haction hlimit).mono hfences

/-- The plan is written after its work. -/
theorem putPlan_guarded {r : MaintenanceRequest} {state : PlanState} {done : Bool}
    (h : s.putPlan r state done = .ok s') (hguarded : PlansGuarded s)
    (hstate : ∀ sel raw summaries v, r.action = .prune sel raw summaries →
      state.rawLimit = some v → PrunedTo s r.scope sel v) :
    Fences s s' ∧ PlansGuarded s' := by
  obtain ⟨hfences, hplans⟩ := putPlan_plans h
  have hkept : Fences s s' := .of_eq hfences
  refine ⟨hkept, ?_⟩
  intro k row hrow sel raw summaries limit haction hlimit
  rcases hplans k row hrow with hold | rfl
  · exact (hguarded k row hold sel raw summaries limit haction hlimit).mono hkept
  · exact (hstate sel raw summaries limit haction hlimit).mono hkept

theorem load_guarded {r : MaintenanceRequest} {state : PlanState} {done : Bool}
    (h : s.load r = .ok (state, done)) (hguarded : PlansGuarded s) :
    ∀ sel raw summaries v, r.action = .prune sel raw summaries →
      state.rawLimit = some v → PrunedTo s r.scope sel v := by
  intro sel raw summaries v haction hv
  unfold Store.load at h
  split at h
  · cases h
    cases hv
  · rename_i row hrow
    split at h
    · rename_i hbinding
      cases h
      rw [← hbinding] at haction ⊢
      exact hguarded _ row hrow sel raw summaries v haction hv
    · cases h

theorem advancePlan_cleaned {r : MaintenanceRequest} {state : PlanState}
    {revision now clock : ℕ} {limits : Limits} {outcome : Outcome Store.MaintenanceProgress}
    (h : s.advancePlan D r state revision now clock limits = .ok (outcome, s'))
    (hguarded : PlansGuarded s)
    (hstate : ∀ sel raw summaries v, r.action = .prune sel raw summaries →
      state.rawLimit = some v → PrunedTo s r.scope sel v) :
    Cleaned s s' ∧ Fences s s' ∧ PlansGuarded s' := by
  obtain ⟨⟨result, state', s₁⟩, hwork, h⟩ := bind_eq_ok.mp h
  obtain ⟨ordinal, -, h⟩ := bind_eq_ok.mp h
  obtain ⟨s₂, hput, h⟩ := bind_eq_ok.mp h
  cases h
  obtain ⟨hcleaned, hfences, hplans, hstate'⟩ := work_worked hwork hstate
  obtain ⟨hkept, hguarded'⟩ := putPlan_guarded hput (hguarded.mono hfences hplans) hstate'
  exact ⟨hcleaned.trans (putPlan_frame hput).cleaned, hfences.trans hkept, hguarded'⟩

/-- A step of a plan. -/
theorem maintain_cleaned {r : MaintenanceRequest} {after : Option ℕ} {now clock : ℕ}
    {limits : Limits} {outcome : Outcome Store.MaintenanceProgress}
    (h : s.maintain D r after now clock limits = .ok (outcome, s')) (hguarded : PlansGuarded s) :
    Cleaned s s' ∧ Fences s s' ∧ PlansGuarded s' := by
  have hlock := (lockNamespace_frame s r.scope).cleaned
  have hlocked : Fences s (s.lockNamespace r.scope).2 := .of_eq rfl
  have hguarded₁ : PlansGuarded (s.lockNamespace r.scope).2 := hguarded.mono hlocked rfl
  unfold Store.maintain at h
  split at h
  · cases h
  · unfold Store.resumePlan at h
    obtain ⟨⟨state, done⟩, hload, h⟩ := bind_eq_ok.mp h
    simp only at h
    split at h
    · cases h
    · split at h
      · cases h
      · split at h
        · cases h
          exact ⟨hlock, hlocked, hguarded₁⟩
        · split at h
          · cases h
            exact ⟨hlock, hlocked, hguarded₁⟩
          · obtain ⟨hcleaned, hfences, hguarded₂⟩ :=
              advancePlan_cleaned h hguarded₁ (load_guarded hload hguarded₁)
            exact ⟨hlock.trans hcleaned, hlocked.trans hfences, hguarded₂⟩

end Rss.TimeseriesPostgres
