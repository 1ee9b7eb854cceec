import Rss.Verification.Observation.Coherence

/-! # The journal over every run

What a transaction has read stays true under its locks, so every store that any interleaving
reaches is coherent. Positions once given stay given, receipts are immutable, and a superseded
stream records nothing more. -/

namespace Rss.Observation

namespace Store

variable {c : Codec}

/-! ### What a transaction relies on -/

/-- What the stored functions returned to a transaction is what they would return now. -/
def Known (s : Store) : Txn c → Prop
  | .activating _ _ none | .opened _ => True
  | .activating scope revision (some write) =>
      ∃ expected policy, s.activate scope expected policy = .ok (revision, some write)
  | .shared input => s.lockObject input.scope = .ok ()
  | .locked input row => s.lockStream input.scope = .ok row
  | .decided input row receivedAt decision =>
      s.lockStream input.scope = .ok row ∧
        row.state.advance input.batch receivedAt row.policy = .ok decision
  | .staged input row write journal =>
      ∃ receivedAt decision, s.lockStream input.scope = .ok row ∧
        row.state.advance input.batch receivedAt row.policy = .ok decision ∧
        s.commitBatch input.scope input.batch.id input.batch.sequence input.batch
          input.fingerprint receivedAt row.policy decision row.state.revision
          decision.outcome.isApplicable = .ok (.batch input.scope input.batch.id write journal)

/-- Nothing that `receive` reads for the stream has changed. -/
structure Frames (s s' : Store) (scope : Scope) : Prop where
  version : s'.version = s.version
  object : s'.objects.get? scope.object = s.objects.get? scope.object
  stream : s'.streams.get? scope = s.streams.get? scope
  dataset : ∀ other, Scope.sameDataset other scope = true →
    (s'.streams.get? other).map StreamRow.activationRevision =
      (s.streams.get? other).map StreamRow.activationRevision
  batches : ∀ id, s'.batches.get? (scope, id) = s.batches.get? (scope, id)

namespace Frames

variable {s s' : Store} {scope : Scope}

theorem lockObject (h : Frames s s' scope) : s'.lockObject scope = s.lockObject scope := by
  rw [Store.lockObject, h.object]
  rfl

theorem lockStream {row : StreamRow} (h : Frames s s' scope)
    (hrow : s.lockStream scope = .ok row) : s'.lockStream scope = .ok row := by
  obtain ⟨hobject, hselect⟩ := lockStream_eq_ok.mp hrow
  obtain ⟨hget, hnewest⟩ := selectStream_eq_ok.mp hselect
  refine lockStream_eq_ok.mpr ⟨h.lockObject.trans hobject, selectStream_eq_ok.mpr
    ⟨h.stream.trans hget, fun other r hr hsame => ?_⟩⟩
  have hmap := h.dataset other hsame
  rw [hr] at hmap
  obtain ⟨r₀, hr₀, heq⟩ := Option.map_eq_some_iff.mp hmap.symm
  rw [← heq]
  exact hnewest other r₀ hr₀ hsame

theorem commitBatch {id : Id} {sequence : ℕ} {raw : Batch} {fingerprint : List UInt8}
    {receivedAt : ℕ} {policy : Policy} {decision : Decision} {expected : ℕ} {applicable : Bool}
    {write : Write} (h : Frames s s' scope)
    (hnext : s'.nextPosition applicable = s.nextPosition applicable)
    (hwrite : s.commitBatch scope id sequence raw fingerprint receivedAt policy decision expected
      applicable = .ok write) :
    s'.commitBatch scope id sequence raw fingerprint receivedAt policy decision expected
      applicable = .ok write := by
  obtain ⟨⟨current, hcurrent, hcas⟩, hfresh, logPosition, journal, hpos, rfl⟩ :=
    commitBatch_eq_ok.mp hwrite
  refine commitBatch_eq_ok.mpr ⟨⟨current, h.lockStream hcurrent, hcas⟩, fun id' row hrow => ?_,
    logPosition, journal, hnext.trans hpos, rfl⟩
  exact hfresh id' row (h.batches id' ▸ hrow)

end Frames

/-- An activation elsewhere is not seen. -/
theorem frames_activation {s : Store} {scope : Scope} (hnone : s.streams.get? scope = none)
    (expected : Option ℕ) (policy : Policy) (revision : ℕ) {other : Scope}
    (hne : other.object ≠ scope.object) :
    Frames s (s.apply (.activation scope expected policy revision)) other where
  version := rfl
  object := by rw [get?_objects_activation, if_neg hne]
  stream := by
      rw [get?_streams_activation hnone, if_neg]
      rintro rfl
      exact hne rfl
  dataset := fun another hsame => by
      rw [get?_streams_activation hnone, if_neg]
      rintro rfl
      simp only [Scope.sameDataset, Bool.and_eq_true, decide_eq_true_eq] at hsame
      exact hne hsame.1.1.1.symm
  batches := fun _ => rfl

/-- A report of another stream is not seen. -/
theorem frames_batch {s : Store} {scope : Scope} {id : Id}
    (hnone : s.batches.get? (scope, id) = none) (row : BatchRow) (journal : Option ℕ)
    {other : Scope} (hne : other ≠ scope) :
    Frames s (s.apply (.batch scope id row journal)) other where
  version := rfl
  object := rfl
  stream := by rw [get?_streams_batch, if_neg hne]
  dataset := fun another _ => by
      rw [get?_streams_batch]
      by_cases heq : another = scope
      · rw [if_pos heq, Option.map_map]
        rfl
      · rw [if_neg heq]
  batches := fun id' => by
      rw [get?_batches_batch hnone, if_neg]
      intro heq
      exact hne (congrArg Prod.fst heq)

/-- An activation relies on the streams of its object only. -/
theorem activate_stable {s s' : Store} {scope : Scope} {expected : Option ℕ} {policy : Policy}
    {revision : ℕ} {write : Write}
    (hobject : s'.objects.get? scope.object = s.objects.get? scope.object)
    (hstreams : ∀ other, other.object = scope.object → s'.streams.get? other = s.streams.get? other)
    (h : s.activate scope expected policy = .ok (revision, some write)) :
    s'.activate scope expected policy = .ok (revision, some write) := by
  obtain ⟨hnone, hcas, hfree, hrest⟩ := activate_eq_some.mp h
  rw [activate_eq_some, hobject]
  refine ⟨(hstreams scope rfl).trans hnone, hcas, fun hne other r hr ho => ?_, hrest⟩
  exact hfree hne other r (hstreams other ho ▸ hr) ho

/-- What stands behind a staged write. -/
theorem Known.staged {s : Store} {input : VerifiedBatch c} {row : StreamRow} {write : BatchRow}
    {journal : Option ℕ} (h : s.Known (.staged input row write journal)) :
    s.streams.get? input.scope = some row ∧
      ∃ receivedAt decision logPosition,
        write = rowFor input row receivedAt decision logPosition ∧
        row.state.advance input.batch receivedAt row.policy = .ok decision ∧
        (∀ id r, s.batches.get? (input.scope, id) = some r →
          id ≠ input.batch.id ∧ r.sequence ≠ input.batch.sequence) ∧
        s.nextPosition decision.outcome.isApplicable = .ok (logPosition, journal) := by
  obtain ⟨receivedAt, decision, hlock, hdecided, hwrite⟩ := h
  obtain ⟨-, hfresh, logPosition, journal', hnext, heq⟩ := commitBatch_eq_ok.mp hwrite
  cases heq
  exact ⟨(selectStream_eq_ok.mp (lockStream_eq_ok.mp hlock).2).1, receivedAt, decision,
    logPosition, rfl, hdecided, hfresh, hnext⟩

theorem Known.fresh {s : Store} {input : VerifiedBatch c} {row : StreamRow} {write : BatchRow}
    {journal : Option ℕ} (h : s.Known (.staged input row write journal)) :
    s.batches.get? (input.scope, input.batch.id) = none := by
  obtain ⟨-, -, -, -, -, -, hfresh, -⟩ := h.staged
  cases hget : s.batches.get? (input.scope, input.batch.id) with
  | none => rfl
  | some r => exact absurd rfl (hfresh _ r hget).1

/-- The journal row is locked exactly where there is one. -/
theorem Known.journal {s : Store} {input : VerifiedBatch c} {row : StreamRow} {write : BatchRow}
    {journal : Option ℕ} (h : s.Known (.staged input row write journal)) :
    s.version = .v1 ∨ journal.isSome = true := by
  obtain ⟨hrow, receivedAt, decision, logPosition, hwrite, hdecided, hfresh, hnext⟩ := h.staged
  rcases nextPosition_eq_ok hnext with ⟨hv, -⟩ | ⟨-, ⟨-, -, rfl⟩ | ⟨-, -, rfl⟩⟩
  · exact .inl hv
  · exact .inr rfl
  · exact .inr rfl

/-- A transaction that may hold its locks beside an activation does not see it. -/
theorem Known.beside_activation {s : Store} {scope : Scope} {expected : Option ℕ}
    {policy : Policy} {revision : ℕ} {write : Write} {u : Txn c}
    (hw : s.activate scope expected policy = .ok (revision, some write)) (hu : s.Known u)
    (hcompatible : (transactions c).Compatible (.activating scope revision (some write)) u) :
    (s.apply write).Known u := by
  obtain ⟨hnone, -, -, -, -, rfl⟩ := activate_eq_some.mp hw
  have hne : ∀ o, .objectShare o ∈ u.locks ∨ .objectUpdate o ∈ u.locks → o ≠ scope.object := by
    intro o ho heq
    rcases ho with ho | ho
    · exact (hcompatible _ (List.mem_singleton_self _) _ ho).1 heq.symm
    · exact (hcompatible _ (List.mem_singleton_self _) _ ho).1 heq.symm
  cases u with
  | activating other r w =>
      cases w with
      | none => trivial
      | some w =>
          obtain ⟨expected', policy', hu⟩ := hu
          have hother := hne other.object (.inr (List.mem_singleton_self _))
          refine ⟨expected', policy', activate_stable ?_ (fun another ho => ?_) hu⟩
          · rw [get?_objects_activation, if_neg hother]
          · rw [get?_streams_activation hnone, if_neg]
            rintro rfl
            exact hother ho.symm
  | opened input => trivial
  | shared input =>
      have hframes := frames_activation hnone expected policy revision
        (hne input.scope.object (.inl (List.mem_cons_self ..)))
      exact hframes.lockObject.trans hu
  | locked input row =>
      have hframes := frames_activation hnone expected policy revision
        (hne input.scope.object (.inl (List.mem_cons_self ..)))
      exact hframes.lockStream hu
  | decided input row receivedAt decision =>
      have hframes := frames_activation hnone expected policy revision
        (hne input.scope.object (.inl (List.mem_cons_self ..)))
      exact ⟨hframes.lockStream hu.1, hu.2⟩
  | staged input row w journal =>
      have hframes := frames_activation hnone expected policy revision
        (hne input.scope.object (.inl (List.mem_cons_self ..)))
      obtain ⟨receivedAt, decision, hlock, hdecided, hwrite⟩ := hu
      exact ⟨receivedAt, decision, hframes.lockStream hlock, hdecided,
        hframes.commitBatch rfl hwrite⟩

/-- A transaction that may hold its locks beside a report does not see it. -/
theorem Known.beside_batch {s : Store} {input : VerifiedBatch c} {row : StreamRow}
    {write : BatchRow} {journal : Option ℕ} {u : Txn c}
    (h : s.Known (.staged input row write journal)) (hu : s.Known u)
    (hcompatible : (transactions c).Compatible (.staged input row write journal) u) :
    (s.apply (.batch input.scope input.batch.id write journal)).Known u := by
  have hobject : ∀ o, .objectUpdate o ∈ u.locks → o ≠ input.scope.object := by
    intro o ho heq
    exact (hcompatible (.objectShare input.scope.object)
      (List.mem_append_left _ (List.mem_cons_self ..)) _ ho).1 heq.symm
  have hstream : ∀ other, .stream other ∈ u.locks → other ≠ input.scope := by
    intro other ho heq
    exact (hcompatible (.stream input.scope)
      (List.mem_append_left _ (List.mem_cons_of_mem _ (List.mem_cons_self ..))) _ ho).1 heq.symm
  have hframes : ∀ other, .stream other ∈ u.locks →
      Frames s (s.apply (.batch input.scope input.batch.id write journal)) other :=
    fun other ho => frames_batch h.fresh write journal (hstream other ho)
  cases u with
  | activating other r w =>
      cases w with
      | none => trivial
      | some w =>
          obtain ⟨expected', policy', hu⟩ := hu
          have hother := hobject other.object (List.mem_singleton_self _)
          refine ⟨expected', policy', activate_stable (s := s) rfl (fun another ho => ?_) hu⟩
          rw [get?_streams_batch, if_neg]
          rintro rfl
          exact hother ho.symm
  | opened input' => trivial
  | shared input' => exact hu
  | locked input' row' =>
      exact (hframes _ (List.mem_cons_of_mem _ (List.mem_cons_self ..))).lockStream hu
  | decided input' row' receivedAt decision =>
      exact ⟨(hframes _ (List.mem_cons_of_mem _ (List.mem_cons_self ..))).lockStream hu.1, hu.2⟩
  | staged input' row' w journal' =>
      have hf := hframes input'.scope
        (List.mem_append_left _ (List.mem_cons_of_mem _ (List.mem_cons_self ..)))
      -- both hold the journal row unless there is none
      have hv1 : s.version = .v1 := by
        rcases h.journal with hv | hj
        · exact hv
        · rcases hu.journal with hv | hj'
          · exact hv
          · exact absurd trivial (hcompatible .journal
              (List.mem_append_right _ (by rw [if_pos hj]; exact List.mem_cons_self ..)) .journal
              (List.mem_append_right _ (by rw [if_pos hj']; exact List.mem_cons_self ..))).1
      obtain ⟨receivedAt, decision, hlock, hdecided, hwrite⟩ := hu
      refine ⟨receivedAt, decision, hf.lockStream hlock, hdecided, hf.commitBatch ?_ hwrite⟩
      rw [nextPosition, nextPosition, hf.version, hv1]

end Store

/-! ### Every run -/

theorem keeps (c : Codec) : (transactions c).Keeps (Store.Coherent c) Store.Known where
  begin := fun _ hb => by
      cases hb with
      | @activate scope expected policy revision write activated =>
          cases write with
          | none => trivial
          | some write => exact ⟨expected, policy, activated⟩
      | receive missing => trivial
  advance := fun _ hV ha => by
      cases ha with
      | share active => exact active
      | lock selected => exact Store.lockStream_eq_ok.mpr ⟨hV, selected⟩
      | decide missing valid decided => exact ⟨hV, decided⟩
      | stage committed => exact ⟨_, _, hV.1, hV.2, committed⟩
  commit := fun hI hV hc => by
      cases hc with
      | activated =>
          obtain ⟨expected, policy, hw⟩ := hV
          exact hI.activation hw
      | retried => exact hI
      | overtaken found => exact hI
      | accepted =>
          obtain ⟨hrow, receivedAt, decision, logPosition, rfl, hdecided, hfresh, hnext⟩ :=
            hV.staged
          exact hI.batch hrow hdecided hfresh hnext
      | unacknowledged =>
          obtain ⟨hrow, receivedAt, decision, logPosition, rfl, hdecided, hfresh, hnext⟩ :=
            hV.staged
          exact hI.batch hrow hdecided hfresh hnext
  stable := fun _ hV hu hcompatible hc => by
      cases hc with
      | activated =>
          obtain ⟨expected, policy, hw⟩ := hV
          exact hu.beside_activation hw hcompatible
      | retried => exact hu
      | overtaken found => exact hu
      | accepted => exact Store.Known.beside_batch hV hu hcompatible
      | unacknowledged => exact Store.Known.beside_batch hV hu hcompatible
  maintain := fun hI hm => by
      cases hm with
      | upgrade old => exact hI.upgrade

theorem coherent_of_runs {c : Codec} {y : Sessions Store (Txn c)} {labels : List (Event c)}
    (h : Runs (transactions c).Step (installed c) labels y) :
    (transactions c).Inv (Store.Coherent c) Store.Known y :=
  Locking.inv_of_runs (keeps c) Store.coherent_empty h

/-! ### Receipts -/

namespace Store

variable {c : Codec}

/-- What is recorded reads back as it was accepted. -/
theorem Coherent.read_recorded {s : Store} (h : s.Coherent c) {scope : Scope} {id : Id}
    {row : BatchRow} (hrow : s.batches.get? (scope, id) = some row) :
    s.read c scope id = .ok (some (row.receipt scope)) := by
  have hstored := h.stored _ row hrow
  obtain ⟨r, hr⟩ := hstored.stream
  obtain ⟨-, hversion, hbefore, hafter, hdecided⟩ :=
    (h.chained scope r hr).decided (mem_rowsOf.mpr ⟨id, hrow⟩)
  have hrestore : row.decision.restore row.raw row.receivedAt row.policy = .ok row.decision := by
    simp [Decision.restore, parsed_of_validate hbefore, parsed_of_validate hafter, hversion,
      hdecided]
  have hplaced : ¬ (s.version = .v2 ∧
      (row.decision.outcome.isApplicable ≠ row.logPosition.isSome ∨
        row.logPosition.any (fun p => p ≤ 0) = true)) := by
    rintro ⟨hv, hbad | hbad⟩
    · rw [(h.positions hv).applicable _ row hrow, hstored.applicable] at hbad
      exact hbad rfl
    · obtain ⟨p, hp, hle⟩ := (Option.any_eq_true _ _).mp hbad
      have hone := (((h.positions hv).range p).mp ⟨_, row, hrow, hp⟩).1
      exact absurd (of_decide_eq_true hle) (Nat.not_le.mpr hone)
  have hchecks : ¬ (row.raw.id ≠ id ∨ row.raw ≠ row.raw ∨
      c.fingerprint scope row.raw ≠ row.fingerprint ∨ row.raw.sequence ≠ row.sequence) := by
    simp [hstored.id, hstored.fingerprint, hstored.sequence]
  have hrow' : row.restore c s.version scope id = .ok (row.receipt scope) := by
    rw [BatchRow.restore, mapError_eq_ok, bind_eq_ok]
    refine ⟨row.raw, hstored.valid, ?_⟩
    rw [if_neg hchecks, bind_eq_ok]
    refine ⟨row.decision, hrestore, ?_⟩
    rw [if_neg (not_not.mpr hstored.applicable.symm), if_neg hplaced, Record.fromDurable, hdecided]
    simp [BatchRow.receipt]
  rw [read, hrow]
  simp [hrow']

/-! ### Later stores -/

/-- A newer epoch of the dataset or another registration of the object has taken over. -/
def Superseded (s : Store) (scope : Scope) : Prop :=
  ∃ r, s.streams.get? scope = some r ∧
    ((∃ o, s.objects.get? scope.object = some o ∧ o.registration ≠ some scope.registration) ∨
      ∃ other r', s.streams.get? other = some r' ∧ Scope.sameDataset other scope = true ∧
        r.activationRevision < r'.activationRevision)

/-- What no transaction takes back. -/
structure Later (s s' : Store) : Prop where
  version : s.version = .v2 → s'.version = .v2
  kept : ∀ key row, s.batches.get? key = some row →
    ∃ row', s'.batches.get? key = some row' ∧
      row' = { row with logPosition := row'.logPosition } ∧ (s.version = .v2 → row' = row)
  activated : ∀ scope r, s.streams.get? scope = some r →
    ∃ r', s'.streams.get? scope = some r' ∧ r' = { r with state := r'.state }
  increasing : ∀ scope r, s.streams.get? scope = none → s'.streams.get? scope = some r →
    ∀ other r', s.streams.get? other = some r' → other.object = scope.object →
      r'.activationRevision < r.activationRevision
  fenced : ∀ scope, s.Superseded scope → s'.Superseded scope ∧
    s'.streams.get? scope = s.streams.get? scope ∧
    ∀ id, (s'.batches.get? (scope, id)).isSome = (s.batches.get? (scope, id)).isSome

theorem Later.refl (s : Store) : Later s s where
  version := fun h => h
  kept := fun _ row h => ⟨row, h, rfl, fun _ => rfl⟩
  activated := fun _ r h => ⟨r, h, rfl⟩
  increasing := fun _ _ hnone h => nomatch hnone.symm.trans h
  fenced := fun _ h => ⟨h, rfl, fun _ => rfl⟩

theorem Later.trans {s s' s'' : Store} (h : Later s s') (h' : Later s' s'') : Later s s'' where
  version := fun hv => h'.version (h.version hv)
  kept := fun key row hrow => by
      obtain ⟨row', hrow', heq, hsame⟩ := h.kept key row hrow
      obtain ⟨row'', hrow'', heq', hsame'⟩ := h'.kept key row' hrow'
      refine ⟨row'', hrow'', ?_, fun hv => ?_⟩
      · rw [heq', heq]
      · rw [hsame' (h.version hv), hsame hv]
  activated := fun scope r hr => by
      obtain ⟨r', hr', heq⟩ := h.activated scope r hr
      obtain ⟨r'', hr'', heq'⟩ := h'.activated scope r' hr'
      exact ⟨r'', hr'', by rw [heq', heq]⟩
  increasing := fun scope r hnone hr other r₀ hother ho => by
      cases hmid : s'.streams.get? scope with
      | some r' =>
          obtain ⟨r'', hr'', heq⟩ := h'.activated scope r' hmid
          cases hr''.symm.trans hr
          rw [heq]
          exact h.increasing scope r' hnone hmid other r₀ hother ho
      | none =>
          obtain ⟨r', hr', heq⟩ := h.activated other r₀ hother
          have hlt := h'.increasing scope r hmid hr other r' hr' ho
          rwa [heq] at hlt
  fenced := fun scope hs => by
      obtain ⟨hs', hstream, hrows⟩ := h.fenced scope hs
      obtain ⟨hs'', hstream', hrows'⟩ := h'.fenced scope hs'
      exact ⟨hs'', hstream'.trans hstream, fun id => (hrows' id).trans (hrows id)⟩

theorem Coherent.later_activation {s : Store} {scope : Scope} {expected : Option ℕ}
    {policy : Policy} {revision : ℕ} {write : Write} (h : s.Coherent c)
    (hw : s.activate scope expected policy = .ok (revision, some write)) :
    Later s (s.apply write) := by
  obtain ⟨hnone, -, hfree, hrevision, -, rfl⟩ := activate_eq_some.mp hw
  have hstreams := get?_streams_activation hnone expected policy revision
  have hkept : ∀ other r, s.streams.get? other = some r →
      (s.apply (.activation scope expected policy revision)).streams.get? other = some r := by
    intro other r hr
    rw [hstreams, if_neg, hr]
    rintro rfl
    cases hnone.symm.trans hr
  refine ⟨fun hv => hv, fun _ row hrow => ⟨row, hrow, rfl, fun _ => rfl⟩,
    fun other r hr => ⟨r, hkept other r hr, rfl⟩, ?_, ?_⟩
  · intro another r hno hr other r' hr' ho
    rw [hstreams] at hr
    by_cases heq : another = scope
    · subst heq
      rw [if_pos rfl] at hr
      cases hr
      rw [hrevision]
      exact h.revision_lt hr' ho
    · rw [if_neg heq, hno] at hr
      cases hr
  · rintro another ⟨r, hr, hover⟩
    refine ⟨⟨r, hkept another r hr, ?_⟩, (hkept another r hr).trans hr.symm, fun _ => rfl⟩
    rcases hover with ⟨o, ho, hne⟩ | ⟨other, r', hr', hsame, hlt⟩
    · refine .inl ?_
      rw [get?_objects_activation]
      by_cases heq : another.object = scope.object
      · refine ⟨_, if_pos heq, fun hreg => ?_⟩
        -- the registration of an old stream cannot become current again
        have hreg : scope.registration = another.registration := Option.some.inj hreg
        refine hfree ?_ another r hr heq hreg.symm
        rw [← heq, ho, hreg]
        exact hne
      · exact ⟨o, by rw [if_neg heq, ho], hne⟩
    · exact .inr ⟨other, r', hkept other r' hr', hsame, hlt⟩

/-- A stream whose row can be locked is not superseded. -/
theorem not_superseded_of_lockStream {s : Store} {scope : Scope} {row : StreamRow}
    (h : s.lockStream scope = .ok row) : ¬ s.Superseded scope := by
  obtain ⟨hobject, hselect⟩ := lockStream_eq_ok.mp h
  obtain ⟨o, ho, hreg⟩ := lockObject_eq_ok.mp hobject
  obtain ⟨hrow, hnewest⟩ := selectStream_eq_ok.mp hselect
  rintro ⟨r, hr, ⟨o', ho', hne⟩ | ⟨other, r', hr', hsame, hlt⟩⟩
  · cases ho.symm.trans ho'
    exact hne hreg
  · cases hrow.symm.trans hr
    exact absurd (hnewest other r' hr' hsame) (Nat.not_le.mpr hlt)

theorem Known.later_batch {s : Store} {input : VerifiedBatch c} {row : StreamRow}
    {write : BatchRow} {journal : Option ℕ} (h : s.Known (.staged input row write journal)) :
    Later s (s.apply (.batch input.scope input.batch.id write journal)) := by
  have hbatches := get?_batches_batch h.fresh write journal
  have hstreams := get?_streams_batch s input.scope input.batch.id write journal
  have hkept : ∀ other r, s.streams.get? other = some r → ∃ r',
      (s.apply (.batch input.scope input.batch.id write journal)).streams.get? other = some r' ∧
        r' = { r with state := r'.state } := by
    intro other r hr
    rw [hstreams, hr]
    by_cases heq : other = input.scope
    · exact ⟨_, if_pos heq, rfl⟩
    · exact ⟨r, if_neg heq, rfl⟩
  refine ⟨fun hv => hv, ?_, hkept, ?_, ?_⟩
  · intro key r hr
    refine ⟨r, ?_, rfl, fun _ => rfl⟩
    rw [hbatches, if_neg, hr]
    rintro rfl
    cases h.fresh.symm.trans hr
  · intro scope r hnone hr
    rw [hstreams, hnone] at hr
    by_cases heq : scope = input.scope
    · rw [if_pos heq] at hr
      cases hr
    · rw [if_neg heq] at hr
      cases hr
  · intro scope hs
    obtain ⟨-, -, hlock, -⟩ := id h
    have hne : scope ≠ input.scope := by
      rintro rfl
      exact not_superseded_of_lockStream hlock hs
    have hframes := frames_batch h.fresh write journal hne
    refine ⟨?_, hframes.stream, fun id => by rw [hframes.batches]⟩
    obtain ⟨r, hr, hover⟩ := hs
    refine ⟨r, hframes.stream.trans hr, ?_⟩
    rcases hover with hobject | ⟨other, r', hr', hsame, hlt⟩
    · exact .inl hobject
    · obtain ⟨r'', hr'', heq⟩ := hkept other r' hr'
      exact .inr ⟨other, r'', hr'', hsame, by rw [heq]; exact hlt⟩

theorem later_upgrade {s : Store} (hv1 : s.version = .v1) : Later s (s.upgrade c) where
  version := fun _ => rfl
  kept := fun key row hrow => by
      refine ⟨_, get?_upgrade_eq_some.mpr ⟨row, hrow, rfl⟩, rfl, fun hv => ?_⟩
      cases hv1.symm.trans hv
  activated := fun _ r hr => ⟨r, hr, rfl⟩
  increasing := fun scope r hnone hr => by
      cases hnone.symm.trans hr
  fenced := fun scope hs => by
      refine ⟨hs, rfl, fun id => ?_⟩
      rw [get?_batches_upgrade, Option.isSome_map]

/-- Positions that were given stay given, to the same reports. -/
theorem Later.settled {s s' : Store} (h : Later s s') (hc : s.Coherent c) (hc' : s'.Coherent c)
    (hv : s.version = .v2) {key : Scope × Id} {row : BatchRow} {p : ℕ}
    (hrow : s'.batches.get? key = some row) (hp : row.logPosition = some p)
    (hle : p ≤ s.lastPosition) : s.batches.get? key = some row := by
  have hpositions := hc'.positions (h.version hv)
  have hone := ((hpositions.range p).mp ⟨key, row, hrow, hp⟩).1
  obtain ⟨key₀, row₀, hrow₀, hp₀⟩ := ((hc.positions hv).range p).mpr ⟨hone, hle⟩
  obtain ⟨row₁, hrow₁, -, hsame⟩ := h.kept key₀ row₀ hrow₀
  obtain rfl := hsame hv
  obtain rfl := hpositions.injective key₀ key row₁ row p hrow₁ hrow hp₀ hp
  cases hrow₁.symm.trans hrow
  exact hrow₀

end Store

theorem later_of_step {c : Codec} {y y' : Sessions Store (Txn c)} {e : Event c}
    (h : (transactions c).Inv (Store.Coherent c) Store.Known y)
    (hstep : (transactions c).Step y e y') : Store.Later y.store y'.store := by
  rcases hstep.store_cases with heq | ⟨i, t, hlive, hcommit⟩ | hmaintain
  · rw [heq]
    exact .refl _
  · have hknown := h.known i t hlive
    generalize y'.store = s' at hcommit
    cases hcommit with
    | activated =>
        obtain ⟨expected, policy, hw⟩ := hknown
        exact h.store.later_activation hw
    | retried => exact .refl _
    | overtaken found => exact .refl _
    | accepted => exact hknown.later_batch
    | unacknowledged => exact hknown.later_batch
  · generalize y'.store = s' at hmaintain
    cases hmaintain with
    | upgrade old => exact Store.later_upgrade old

theorem later_of_runs {c : Codec} {y y' : Sessions Store (Txn c)} {labels : List (Event c)}
    (h : (transactions c).Inv (Store.Coherent c) Store.Known y)
    (hruns : Runs (transactions c).Step y labels y') :
    (transactions c).Inv (Store.Coherent c) Store.Known y' ∧ Store.Later y.store y'.store := by
  induction hruns with
  | nil => exact ⟨h, .refl _⟩
  | snoc _ hstep ih => exact ⟨ih.1.step (keeps c) hstep, ih.2.trans (later_of_step ih.1 hstep)⟩

/-- A receipt that a caller is handed is the one that is stored. -/
theorem receipt_of_step {c : Codec} {y y' : Sessions Store (Txn c)} {input : VerifiedBatch c}
    {outcome : ReceiveOutcome} (h : (transactions c).Inv (Store.Coherent c) Store.Known y)
    (hstep : (transactions c).Step y (.told input (.ok outcome)) y') :
    ∃ row, y'.store.batches.get? (input.scope, input.batch.id) = some row ∧
      outcome.record = row.receipt input.scope ∧ row.raw = input.batch := by
  have hreplay : ∀ {record : Record}, y.store.read c input.scope input.batch.id =
      .ok (some record) → replay record input.batch = .ok outcome →
      ∃ row, y.store.batches.get? (input.scope, input.batch.id) = some row ∧
        outcome.record = row.receipt input.scope ∧ row.raw = input.batch := by
    intro record hread hreplay
    cases hrow : y.store.batches.get? (input.scope, input.batch.id) with
    | none =>
        rw [Store.read, hrow] at hread
        cases hread
    | some row =>
        rw [h.store.read_recorded hrow] at hread
        cases hread
        unfold replay at hreplay
        by_cases hbatch : (row.receipt input.scope).batch = input.batch
        · rw [if_neg (not_not.mpr hbatch)] at hreplay
          cases hreplay
          exact ⟨row, rfl, rfl, hbatch⟩
        · rw [if_pos hbatch] at hreplay
          cases hreplay
  generalize hlabel : Event.told input (.ok outcome) = label at hstep
  cases hstep with
  | begin fresh free begins => subst hlabel; cases begins
  | advance live free advances => subst hlabel; cases advances
  | rollback live => cases hlabel
  | maintain idle maintains => subst hlabel; cases maintains
  | observe observes =>
      cases observes with
      | found found =>
          obtain ⟨rfl, hresult⟩ := Event.told.inj hlabel
          exact hreplay found hresult.symm
  | @commit i t store label live commits =>
      cases commits with
      | activated => cases hlabel
      | retried => cases hlabel
      | unacknowledged => cases hlabel
      | overtaken found =>
          obtain ⟨rfl, hresult⟩ := Event.told.inj hlabel
          exact hreplay found hresult.symm
      | @accepted _ row write journal =>
          obtain ⟨rfl, hresult⟩ := Event.told.inj hlabel
          cases hresult
          have hknown := h.known _ _ live
          refine ⟨write, ?_, rfl, ?_⟩
          · exact (Store.get?_batches_batch hknown.fresh write journal _).trans (if_pos rfl)
          · obtain ⟨-, -, -, -, rfl, -⟩ := hknown.staged
            rfl

/-! ### The journal -/

/-- The store as its readers may rely on it. -/
structure Store.Journaled (s : Store) : Prop where
  positions : s.version = .v2 → s.Positions
  folded : ∀ scope r, s.streams.get? scope = some r →
    (∀ row ∈ s.rowsOf scope, row.policy = r.policy) ∧
    (s.rowsOf scope).map (fun row => row.decision.before.revision) =
      List.range (s.rowsOf scope).length ∧
    State.fold .initial ((s.rowsOf scope).map BatchRow.report) =
      (r.state, (s.rowsOf scope).map BatchRow.entry)
  sequences : ∀ scope id id' row row', s.batches.get? (scope, id) = some row →
    s.batches.get? (scope, id') = some row' → row.sequence = row'.sequence → id = id'
  activations : ∀ a b ra rb, s.streams.get? a = some ra → s.streams.get? b = some rb →
    a.object = b.object → ra.activationRevision = rb.activationRevision → a = b

theorem Store.Coherent.journaled {c : Codec} {s : Store} (h : s.Coherent c) : s.Journaled where
  positions := h.positions
  folded := fun scope r hr =>
    ⟨fun _ hrow => ((h.chained scope r hr).decided hrow).1, (h.chained scope r hr).revisions,
      (h.chained scope r hr).fold_eq⟩
  sequences := h.sequences
  activations := h.distinct

/-- Whatever transactions of one tenant interleave, before and after the upgrade: the applicable
reports have exactly the positions up to the last, in the order of each stream; every stream is
the fold of its reports; a report that is submitted again gets the receipt that is stored, and
every receipt that was ever handed out is stored; and later stores keep every report, position
and activation, activate only above, and record nothing in a superseded stream. -/
theorem journal_gap_free {c : Codec} {y : Sessions Store (Txn c)} {labels : List (Event c)}
    (hruns : Runs (transactions c).Step (installed c) labels y) :
    y.store.Journaled ∧
      (∀ (input : VerifiedBatch c) row,
        y.store.batches.get? (input.scope, input.batch.id) = some row → row.raw = input.batch →
        y.store.read c input.scope input.batch.id = .ok (some (row.receipt input.scope)) ∧
          replay (row.receipt input.scope) input.batch =
            .ok (.replay (row.receipt input.scope))) ∧
      (∀ input outcome, Event.told input (.ok outcome) ∈ labels →
        ∃ row, y.store.batches.get? (input.scope, input.batch.id) = some row ∧
          outcome.record = row.receipt input.scope ∧ row.raw = input.batch) ∧
      ∀ labels' y', Runs (transactions c).Step y labels' y' →
        Store.Later y.store y'.store ∧
          (y.store.version = .v2 → ∀ key row p, y'.store.batches.get? key = some row →
            row.logPosition = some p → p ≤ y.store.lastPosition →
            y.store.batches.get? key = some row) := by
  have hinv := coherent_of_runs hruns
  refine ⟨hinv.store.journaled, ?_, ?_, ?_⟩
  · intro input row hrow hraw
    refine ⟨hinv.store.read_recorded hrow, ?_⟩
    exact if_neg (not_not.mpr hraw)
  · intro input outcome hmem
    obtain ⟨before, after, rfl⟩ := List.append_of_mem hmem
    obtain ⟨m, m', hbefore, hstep, hafter⟩ := hruns.split
    have hm := coherent_of_runs hbefore
    obtain ⟨row, hrow, hrecord, hraw⟩ := receipt_of_step hm hstep
    have hlater := (later_of_runs (hm.step (keeps c) hstep) hafter).2
    obtain ⟨row', hrow', heq, -⟩ := hlater.kept _ row hrow
    refine ⟨row', hrow', ?_, ?_⟩
    · rw [hrecord, heq]
      rfl
    · rw [heq]
      exact hraw
  · intro labels' y' hruns'
    obtain ⟨hinv', hlater⟩ := later_of_runs hinv hruns'
    exact ⟨hlater, fun hv key row p hrow hp hle =>
      hlater.settled hinv.store hinv'.store hv hrow hp hle⟩

/-! ### A first report -/

def pump : Id := ⟨"pump", by decide, by decide, by simp [isControl]⟩

def pumpCodec : Codec := ⟨fun s => s.object.value, fun _ => 200, fun _ _ => List.replicate 32 0⟩

def pumpPolicy : Policy := ⟨60, 60, 3600, by decide, by decide, by decide, by decide, by decide⟩

def pumpSnapshot : VerifiedBatch pumpCodec where
  scope := ⟨pump, pump, pump, pump, pump⟩
  batch := ⟨pump, 7, 100, ⟨pump, pump, pump, pump⟩, .snapshot []⟩
  valid := by simp [Batch.validated, Body.normalize, normalizeChanges, pumpCodec, maxBatch]

/-- The store is upgraded, a stream is activated, and the first snapshot takes position one. -/
theorem journal_gap_free_pump :
    ∃ y : Sessions Store (Txn pumpCodec), y.store.version = .v2 ∧ y.store.lastPosition = 1 ∧
      y.store.Journaled := by
  have hupgraded : Store.empty.upgrade pumpCodec = { Store.empty with version := .v2 } := by
    simp [Store.upgrade, Store.numbered, ranking, Store.empty, Table.empty, Table.update]
  have hstart : Runs (transactions pumpCodec).Step (installed pumpCodec) [.upgraded]
      (Sessions.alone { Store.empty with version := .v2 } none) := by
    rw [installed, ← Sessions.alone_none, ← hupgraded]
    exact .single (.maintain_alone (.upgrade rfl))
  refine ⟨_, ?_, ?_, (journal_gap_free ((((((((hstart.snoc
    (.begin_alone (@Begin.activate _ _ pumpSnapshot.scope none pumpPolicy _ _ rfl))).snoc
    (.commit_alone .activated)).snoc
    (.begin_alone (@Begin.receive _ _ pumpSnapshot rfl))).snoc
    (.advance_alone (.share rfl))).snoc
    (.advance_alone (.lock rfl))).snoc
    (.advance_alone (@Advance.decide _ _ _ _ 1000 _ rfl rfl rfl))).snoc
    (.advance_alone (.stage rfl))).snoc
    (.commit_alone .accepted))).1⟩
  · rfl
  · rfl

end Rss.Observation
