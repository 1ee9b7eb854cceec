import Rss.Verification.TimeseriesPostgres.Upkeep

/-! # Admission over every run

A sample of a stream is entered once, under one digest; a batch is answered with one receipt. -/

namespace Rss.TimeseriesPostgres

open Rss.Timeseries

variable {D : Digests} {s s' : Store} {e : Event} {labels : List Event}

/-! ### The calls -/

theorem register_tables {d : Definition} {expected : Option Digest}
    {outcome : Outcome DefinitionRecord} (h : s.register D d expected = .ok (outcome, s')) :
    ∃ heads definitions, s' = { s with heads := heads, definitions := definitions } := by
  unfold Store.register at h
  obtain ⟨found, -, h⟩ := bind_eq_ok.mp h
  cases found with
  | some old =>
      obtain ⟨change, -, h⟩ := bind_eq_ok.mp h
      cases h
      exact ⟨_, _, rfl⟩
  | none =>
      obtain ⟨old, -, h⟩ := bind_eq_ok.mp h
      obtain ⟨⟨⟩, -, h⟩ := bind_eq_ok.mp h
      obtain ⟨s₁, hput, h⟩ := bind_eq_ok.mp h
      cases h
      obtain ⟨heads, definitions, rfl⟩ := putDefinition_tables hput
      exact ⟨heads, definitions, rfl⟩

theorem retire_tables {id : DefinitionId} {expected : Digest} {outcome : Outcome DefinitionRecord}
    (h : s.retire D id expected = .ok (outcome, s')) :
    ∃ heads definitions, s' = { s with heads := heads, definitions := definitions } := by
  unfold Store.retire at h
  obtain ⟨found, -, h⟩ := bind_eq_ok.mp h
  cases found with
  | none => cases h
  | some old =>
      simp only at h
      split at h
      · cases h
      · split at h
        · cases h
          exact ⟨_, _, rfl⟩
        · obtain ⟨s₁, hput, h⟩ := bind_eq_ok.mp h
          cases h
          obtain ⟨heads, definitions, rfl⟩ := putDefinition_tables hput
          exact ⟨heads, definitions, rfl⟩

theorem register_frame {d : Definition} {expected : Option Digest}
    {outcome : Outcome DefinitionRecord} (h : s.register D d expected = .ok (outcome, s')) :
    Frame s s' ∧ s'.fences = s.fences ∧ s'.plans = s.plans := by
  obtain ⟨heads, definitions, rfl⟩ := register_tables h
  exact ⟨.of_eq rfl (fun _ h => h) rfl rfl rfl, rfl, rfl⟩

theorem retire_frame {id : DefinitionId} {expected : Digest} {outcome : Outcome DefinitionRecord}
    (h : s.retire D id expected = .ok (outcome, s')) :
    Frame s s' ∧ s'.fences = s.fences ∧ s'.plans = s.plans := by
  obtain ⟨heads, definitions, rfl⟩ := retire_tables h
  exact ⟨.of_eq rfl (fun _ h => h) rfl rfl rfl, rfl, rfl⟩

/-- What a committed call did to the admission tables. -/
inductive Moved (D : Digests) (s : Store) : Call → Answer → Store → Prop where
  | cleaned {call : Call} {answer : Answer} {s' : Store} (cleaned : Cleaned s s')
      (other : ∀ batch now, call ≠ .write batch now) : Moved D s call answer s'
  | replayed {batch : Batch} {now : ℕ} {receipt : Receipt}
      (found : s.lookup (receiptQuery D batch) = .ok (.found receipt)) :
      Moved D s (.write batch now) (.receipt (.replay receipt)) (s.lockStream batch.stream)
  | admitted {batch : Batch} {now : ℕ} {receipt : Receipt} {s' : Store}
      (admitted : Admitted D s batch now receipt s') :
      Moved D s (.write batch now) (.receipt (.accepted receipt)) s'

theorem execute_moved {limits : Limits} {call : Call} {answer : Answer}
    (h : s.execute D limits call = .ok (answer, s')) (hguarded : PlansGuarded s) :
    Moved D s call answer s' ∧ Fences s s' ∧ PlansGuarded s' := by
  cases call with
  | write batch now =>
      obtain ⟨⟨outcome, s₁⟩, hadmit, heq⟩ := map_eq_ok.mp h
      cases heq
      rcases admitBatch_eq_ok hadmit with ⟨receipt, rfl, hfound, rfl⟩ | ⟨receipt, rfl, hadmitted⟩
      · exact ⟨.replayed hfound, .of_eq rfl, hguarded.mono (.of_eq rfl) rfl⟩
      · have hfences : Fences s s' := .of_eq hadmitted.entered.fences
        exact ⟨.admitted hadmitted, hfences, hguarded.mono hfences hadmitted.entered.plans⟩
  | register d expected =>
      obtain ⟨⟨outcome, s₁⟩, hregister, heq⟩ := map_eq_ok.mp h
      cases heq
      obtain ⟨hframe, hfences, hplans⟩ := register_frame hregister
      exact ⟨.cleaned hframe.cleaned (fun _ _ => Call.noConfusion), .of_eq hfences,
        hguarded.mono (.of_eq hfences) hplans⟩
  | retire id expected =>
      obtain ⟨⟨outcome, s₁⟩, hretire, heq⟩ := map_eq_ok.mp h
      cases heq
      obtain ⟨hframe, hfences, hplans⟩ := retire_frame hretire
      exact ⟨.cleaned hframe.cleaned (fun _ _ => Call.noConfusion), .of_eq hfences,
        hguarded.mono (.of_eq hfences) hplans⟩
  | maintain r after now clock =>
      obtain ⟨⟨outcome, s₁⟩, hmaintain, heq⟩ := map_eq_ok.mp h
      cases heq
      obtain ⟨hcleaned, hfences, hguarded'⟩ := maintain_cleaned hmaintain hguarded
      exact ⟨.cleaned hcleaned (fun _ _ => Call.noConfusion), hfences, hguarded'⟩

/-! ### Histories -/

/-- The transaction entered a raw row of the identity. -/
def Event.Inserts (e : Event) (k : Identity) : Prop :=
  ∃ t, e.before.samples.get? (k, t) = none ∧ (e.after.samples.get? (k, t)).isSome

/-- Some transaction of the history entered the identity. -/
def Seen (labels : List Event) (k : Identity) : Prop := ∃ e ∈ labels, e.Inserts k

/-- The answer of an accepted batch. -/
def Event.Accepts (e : Event) (batch : Batch) (receipt : Receipt) : Prop :=
  (∃ now, e.call = .write batch now) ∧ e.ending = .committed (.receipt (.accepted receipt))

/-- The receipt of a batch is stored as it was given, or the stream is reclaimed. -/
structure Kept (D : Digests) (s : Store) (batch : Batch) (receipt : Receipt) : Prop where
  row : (∃ row, s.batches.get? (batch.stream, batch.id) = some row ∧
      { row with expired := false } = receipt.row) ∨
    (s.batches.get? (batch.stream, batch.id) = none ∧ s.reclaimed batch.stream = true)
  checked : receipt.row.Checked
  identity : receipt.identity = receiptQuery D batch
  stream : (s.streams.get? batch.stream).isSome
  scope : (s.namespaces.get? batch.stream.scope).isSome

/-- What holds between a history and the tables it leads to. -/
structure Inv (D : Digests) (labels : List Event) (s : Store) : Prop where
  guarded : PlansGuarded s
  linked : ∀ k t row, s.samples.get? (k, t) = some row → Store.identityOf row.raw = k ∧
    row.raw.observedAt = t ∧
    ∃ ident, s.identities.get? k = some ident ∧ ident.observedAt = t ∧
      ident.digest = D.sample row.raw
  known : ∀ k, Seen labels k → s.closed k.1 = false → (s.identities.get? k).isSome
  entered : ∀ k, (s.identities.get? k).isSome → Seen labels k
  kept : ∀ e ∈ labels, ∀ batch receipt, e.Accepts batch receipt → Kept D s batch receipt
  fences : ∀ e ∈ labels, Fences e.after s

theorem inv_empty (D : Digests) : Inv D [] .empty where
  guarded := by
    intro k row hrow
    cases hrow
  linked := by
    intro k t row hrow
    cases hrow
  known := by
    rintro k ⟨e, he, -⟩
    cases he
  entered := by
    intro k hk
    cases hk
  kept := fun e he => absurd he List.not_mem_nil
  fences := fun e he => absurd he List.not_mem_nil

theorem Kept.of_cleaned {batch : Batch} {receipt : Receipt} (h : Kept D s batch receipt)
    (hcleaned : Cleaned s s') : Kept D s' batch receipt where
  row := by
    rcases h.row with ⟨row, hrow, heq⟩ | ⟨hnone, hreclaimed⟩
    · rcases hcleaned.batches _ row hrow with hsame | hexpired | hgone
      · exact .inl ⟨row, hsame, heq⟩
      · exact .inl ⟨_, hexpired, heq⟩
      · exact .inr hgone
    · exact .inr ⟨hcleaned.noBatch _ hnone, hcleaned.reclaimed _ hreclaimed⟩
  checked := h.checked
  identity := h.identity
  stream := hcleaned.streams _ h.stream
  scope := hcleaned.namespaces _ h.scope

theorem Kept.of_admitted {batch batch' : Batch} {now : ℕ} {receipt receipt' : Receipt}
    (h : Kept D s batch receipt) (hadmitted : Admitted D s batch' now receipt' s') :
    Kept D s' batch receipt where
  row := by
    have hframe := hadmitted.entered.others
    rcases h.row with ⟨row, hrow, heq⟩ | ⟨hnone, hreclaimed⟩
    · refine .inl ⟨row, ?_, heq⟩
      rw [hadmitted.batches, Table.get?_insertNew]
      split
      · rename_i hkey
        rw [hkey, hadmitted.unknown] at hrow
        cases hrow
      · exact hrow
    · -- A reclaimed stream takes no new batch.
      have hne : batch.stream ≠ batch'.stream := by
        intro heq
        rw [heq, hadmitted.unreclaimed] at hreclaimed
        cases hreclaimed
      refine .inr ⟨?_, ?_⟩
      · rw [hadmitted.batches, Table.get?_insertNew, if_neg]
        · exact hnone
        · exact fun hkey => hne (Prod.ext_iff.mp hkey).1
      · exact (hframe.reclaimed batch.stream).trans hreclaimed
  checked := h.checked
  identity := h.identity
  stream := by
    obtain ⟨row, hrow⟩ := Option.isSome_iff_exists.mp h.stream
    have hkept : s'.streams.get? batch.stream = some row :=
      hadmitted.entered.others.streams _ _ hrow
    rw [hkept]
    rfl
  scope := hadmitted.entered.others.namespaces _ h.scope

/-- A transaction that enters a raw row is an accepted batch of an open stream. -/
theorem Moved.of_inserts {call : Call} {answer : Answer} {k : Identity} {t : ℕ}
    (h : Moved D s call answer s') (hnone : s.samples.get? (k, t) = none)
    (hsome : (s'.samples.get? (k, t)).isSome) :
    ∃ batch now receipt, call = .write batch now ∧ Admitted D s batch now receipt s' ∧
      ∃ x ∈ batch.samples, Store.identityOf x = k ∧ x.observedAt = t ∧
        s.identities.get? k = none := by
  cases h with
  | cleaned cleaned other =>
      obtain ⟨row, hrow⟩ := Option.isSome_iff_exists.mp hsome
      rw [cleaned.samples _ row hrow] at hnone
      cases hnone
  | replayed found =>
      rw [show (s.lockStream _).samples = s.samples from rfl, hnone] at hsome
      cases hsome
  | @admitted batch now receipt _ admitted =>
      refine ⟨batch, now, receipt, rfl, admitted, ?_⟩
      obtain ⟨x, hx, hkey, hident⟩ := admitted.entered.onlyRows (k, t) hnone hsome
      obtain ⟨rfl, rfl⟩ := Prod.ext_iff.mp hkey
      exact ⟨x, hx, rfl, rfl, hident⟩

/-- The samples of a new batch are of its stream. -/
theorem Admitted.stream_of_mem {batch : Batch} {x : Sample} (hx : x ∈ batch.samples) :
    (Store.identityOf x).1 = batch.stream :=
  batch.of_stream x hx

theorem Admitted.closed {batch : Batch} {now : ℕ} {receipt : Receipt}
    (h : Admitted D s batch now receipt s') (stream : Stream) :
    s'.closed stream = s.closed stream :=
  h.entered.others.closed stream

theorem Admitted.linked {batch : Batch} {now : ℕ} {receipt : Receipt}
    (h : Admitted D s batch now receipt s')
    (hlinked : ∀ k t row, s.samples.get? (k, t) = some row → Store.identityOf row.raw = k ∧
      row.raw.observedAt = t ∧ ∃ ident, s.identities.get? k = some ident ∧ ident.observedAt = t ∧
        ident.digest = D.sample row.raw) :
    ∀ k t row, s'.samples.get? (k, t) = some row → Store.identityOf row.raw = k ∧
      row.raw.observedAt = t ∧ ∃ ident, s'.identities.get? k = some ident ∧ ident.observedAt = t ∧
        ident.digest = D.sample row.raw := by
  intro k t row hrow
  cases hold : s.samples.get? (k, t) with
  | some row' =>
      have hrow' : s'.samples.get? (k, t) = some row' := h.entered.rows _ _ hold
      rw [hrow, Option.some.injEq] at hrow'
      subst hrow'
      obtain ⟨hkey, hat, ident, hident, hobserved, hdigest⟩ := hlinked k t row hold
      exact ⟨hkey, hat, ident, h.entered.kept _ _ hident, hobserved, hdigest⟩
  | none =>
      obtain ⟨x, hx, hkey, hnone⟩ := h.entered.onlyRows (k, t) hold (by
        show (s'.samples.get? (k, t)).isSome
        rw [hrow]
        rfl)
      obtain ⟨rfl, rfl⟩ := Prod.ext_iff.mp hkey
      obtain ⟨hident, hsample⟩ := h.entered.entered x hx hnone
      have hrow' : s'.samples.get? (Store.identityOf x, x.observedAt) = some ⟨x, now⟩ :=
        hsample hold
      rw [hrow, Option.some.injEq] at hrow'
      subst hrow'
      exact ⟨rfl, rfl, _, hident, rfl, rfl⟩

theorem Seen.mono {k : Identity} (h : Seen labels k) (e : Event) : Seen (labels ++ [e]) k := by
  obtain ⟨e', he', hins⟩ := h
  exact ⟨e', List.mem_append_left _ he', hins⟩

theorem seen_snoc {k : Identity} (h : Seen (labels ++ [e]) k) : Seen labels k ∨ e.Inserts k := by
  obtain ⟨e', he', hins⟩ := h
  rcases List.mem_append.mp he' with hold | hnew
  · exact .inl ⟨e', hold, hins⟩
  · rw [List.mem_singleton.mp hnew] at hins
    exact .inr hins

theorem not_inserts_of_cleaned {k : Identity} (h : Cleaned e.before e.after) : ¬ e.Inserts k := by
  rintro ⟨t, hnone, hsome⟩
  obtain ⟨row, hrow⟩ := Option.isSome_iff_exists.mp hsome
  rw [h.samples _ row hrow] at hnone
  cases hnone

/-- A transaction that enters nothing. -/
theorem Inv.cleaned (h : Inv D labels e.before) (hcleaned : Cleaned e.before e.after)
    (hfences : Fences e.before e.after) (hguarded : PlansGuarded e.after)
    (hother : ∀ batch receipt, ¬ e.Accepts batch receipt) : Inv D (labels ++ [e]) e.after where
  guarded := hguarded
  linked := by
    intro k t row hrow
    obtain ⟨hkey, hat, ident, hident, hobserved, hdigest⟩ :=
      h.linked k t row (hcleaned.samples _ row hrow)
    refine ⟨hkey, hat, ident, ?_, hobserved, hdigest⟩
    rcases hcleaned.identities k ident hident with hsame | ⟨-, -, hrows⟩
    · exact hsame
    · rw [hrows t] at hrow
      cases hrow
  known := by
    intro k hseen hopen
    rcases seen_snoc hseen with hold | hnew
    · have hopen' : e.before.closed k.1 = false := by
        by_contra hclosed
        rw [hcleaned.closed k.1 (by simpa using hclosed)] at hopen
        cases hopen
      obtain ⟨ident, hident⟩ := Option.isSome_iff_exists.mp (h.known k hold hopen')
      rcases hcleaned.identities k ident hident with hsame | ⟨-, hclosed, -⟩
      · rw [hsame]
        rfl
      · rw [hclosed] at hopen
        cases hopen
    · exact absurd hnew (not_inserts_of_cleaned hcleaned)
  entered := by
    intro k hk
    apply Seen.mono
    apply h.entered k
    by_contra hnone
    rw [hcleaned.noIdentity k (Option.not_isSome_iff_eq_none.mp hnone)] at hk
    cases hk
  kept := by
    intro e' he' batch receipt haccepts
    rcases List.mem_append.mp he' with hold | hnew
    · exact (h.kept e' hold batch receipt haccepts).of_cleaned hcleaned
    · rw [List.mem_singleton.mp hnew] at haccepts
      exact absurd haccepts (hother batch receipt)
  fences := by
    intro e' he'
    rcases List.mem_append.mp he' with hold | hnew
    · exact (h.fences e' hold).trans hfences
    · rw [List.mem_singleton.mp hnew]
      exact .of_eq rfl

/-- A new batch. -/
theorem Inv.admitted {batch : Batch} {now : ℕ} {receipt : Receipt} (h : Inv D labels e.before)
    (hadmitted : Admitted D e.before batch now receipt e.after)
    (hguarded : PlansGuarded e.after) (hcall : e.call = .write batch now)
    (hending : e.ending = .committed (.receipt (.accepted receipt))) :
    Inv D (labels ++ [e]) e.after where
  guarded := hguarded
  linked := hadmitted.linked h.linked
  known := by
    intro k hseen hopen
    rw [hadmitted.closed] at hopen
    rcases seen_snoc hseen with hold | ⟨t, hnone, hsome⟩
    · obtain ⟨ident, hident⟩ := Option.isSome_iff_exists.mp (h.known k hold hopen)
      have hkept : e.after.identities.get? k = some ident := hadmitted.entered.kept _ _ hident
      rw [hkept]
      rfl
    · obtain ⟨x, hx, hkey, hident⟩ := hadmitted.entered.onlyRows (k, t) hnone hsome
      obtain ⟨rfl, rfl⟩ := Prod.ext_iff.mp hkey
      have hnew : e.after.identities.get? (Store.identityOf x) = some _ :=
        (hadmitted.entered.entered x hx hident).1
      rw [hnew]
      rfl
  entered := by
    intro k hk
    cases hold : e.before.identities.get? k with
    | some ident => exact (h.entered k (by rw [hold]; rfl)).mono e
    | none =>
        obtain ⟨x, hx, rfl⟩ := hadmitted.entered.only k hold hk
        have hrow : e.before.samples.get? (Store.identityOf x, x.observedAt) = none := by
          by_contra hne
          obtain ⟨row, hrow⟩ := Option.ne_none_iff_exists'.mp hne
          obtain ⟨-, -, ident, hident, -⟩ := h.linked _ _ row hrow
          rw [hold] at hident
          cases hident
        have hnew : e.after.samples.get? (Store.identityOf x, x.observedAt) = some _ :=
          (hadmitted.entered.entered x hx hold).2 hrow
        exact ⟨e, by simp, x.observedAt, hrow, by rw [hnew]; rfl⟩
  kept := by
    intro e' he' batch' receipt' haccepts
    rcases List.mem_append.mp he' with hold | hnew
    · exact (h.kept e' hold batch' receipt' haccepts).of_admitted hadmitted
    · rw [List.mem_singleton.mp hnew] at haccepts
      obtain ⟨⟨now', hcall'⟩, hending'⟩ := haccepts
      rw [hcall] at hcall'
      rw [hending] at hending'
      cases hcall'
      cases hending'
      refine ⟨.inl ⟨receipt.row, ?_, rfl⟩, hadmitted.checked, hadmitted.identity,
        hadmitted.stream, hadmitted.scope⟩
      rw [hadmitted.batches, Table.get?_insertNew_self, hadmitted.unknown]
      rfl
  fences := by
    have hfences : Fences e.before e.after := .of_eq hadmitted.entered.fences
    intro e' he'
    rcases List.mem_append.mp he' with hold | hnew
    · exact (h.fences e' hold).trans hfences
    · rw [List.mem_singleton.mp hnew]
      exact .of_eq rfl

theorem Step.ends (h : Step D s e s') : e.before = s ∧ e.after = s' := by
  cases h <;> exact ⟨rfl, rfl⟩

/-- A transaction was committed with what it did, or it left the tables as they were. -/
theorem Step.moved (h : Step D s e s') (hguarded : PlansGuarded s) :
    (∃ answer, e.ending = .committed answer ∧ Moved D s e.call answer s' ∧ Fences s s' ∧
      PlansGuarded s') ∨
    ((∀ answer, e.ending ≠ .committed answer) ∧ s' = s) := by
  cases h with
  | commit limits body => exact .inl ⟨_, rfl, execute_moved body hguarded⟩
  | refuse limits body => exact .inr ⟨fun _ => Ending.noConfusion, rfl⟩
  | abort call => exact .inr ⟨fun _ => Ending.noConfusion, rfl⟩

theorem Inv.step (h : Inv D labels s) (hstep : Step D s e s') : Inv D (labels ++ [e]) s' := by
  have hmoved := hstep.moved h.guarded
  obtain ⟨rfl, rfl⟩ := hstep.ends
  rcases hmoved with ⟨answer, hending, hmoved, hfences, hguarded⟩ | ⟨hending, hsame⟩
  · generalize hcall : e.call = call at hmoved
    generalize hafter : e.after = after at hmoved hguarded hfences
    cases hmoved with
    | cleaned cleaned other =>
        subst hafter
        apply h.cleaned cleaned hfences hguarded
        rintro batch receipt ⟨⟨now, hwrite⟩, -⟩
        exact other batch now (hcall.symm.trans hwrite)
    | @replayed batch now receipt found =>
        have hcleaned := (lockStream_frame e.before batch.stream).cleaned
        rw [← hafter] at hcleaned hfences hguarded
        rw [← hafter]
        apply h.cleaned hcleaned hfences hguarded
        rintro batch receipt ⟨-, haccepted⟩
        rw [hending] at haccepted
        cases haccepted
    | admitted admitted =>
        subst hafter
        exact h.admitted admitted hguarded hcall hending
  · have hcleaned : Cleaned e.before e.after := hsame ▸ (Frame.refl e.before).cleaned
    apply h.cleaned hcleaned (.of_eq (by rw [hsame])) (hsame ▸ h.guarded)
    rintro batch receipt ⟨-, haccepted⟩
    exact hending _ haccepted

theorem inv_of_runs (h : Runs (Step D) .empty labels s) : Inv D labels s :=
  h.invariant (inv_empty D) (fun _ _ _ _ _ hinv hstep => hinv.step hstep)

/-! ### Answers -/

theorem insertNew_eq_self {κ ρ : Type} [DecidableEq κ] {t : Table κ ρ} {k : κ} (v : ρ)
    (h : (t.get? k).isSome) : t.insertNew k v = t := by
  rw [Table.insertNew, dif_pos (Table.mem_keys.mpr h)]

theorem lockStream_eq_self {stream : Stream} (hstream : (s.streams.get? stream).isSome)
    (hscope : (s.namespaces.get? stream.scope).isSome) : s.lockStream stream = s := by
  show { s with
    namespaces := s.namespaces.insertNew stream.scope 0
    streams := s.streams.insertNew stream ⟨false, false⟩ } = s
  rw [insertNew_eq_self _ hstream, insertNew_eq_self _ hscope]

/-- The batch is looked up before anything else. -/
theorem admitBatch_of_lookup {batch : Batch} {horizon now : ℕ} {found : Lookup Receipt}
    (h : s.lookup (receiptQuery D batch) = .ok found) (hfound : found ≠ .notVisible) :
    s.admitBatch D batch horizon now = match found with
      | .found receipt => .ok (.replay receipt, s.lockStream batch.stream)
      | _ => .error .historyExpired := by
  rw [← lookup_lockStream s batch.stream] at h
  show ((s.lockStream batch.stream).lookup (receiptQuery D batch) >>= _) = _
  rw [h, ok_bind]
  cases found with
  | found receipt => rfl
  | expired => rfl
  | notVisible => exact absurd rfl hfound

/-- What the batch of a kept receipt is looked up as. -/
theorem Kept.lookup {batch : Batch} {receipt : Receipt} (h : Kept D s batch receipt) :
    s.lookup (receiptQuery D batch) = .ok (.found receipt) ∨
      s.lookup (receiptQuery D batch) = .ok .expired := by
  unfold Store.lookup
  rcases h.row with ⟨row, hrow, heq⟩ | ⟨hnone, hreclaimed⟩
  · have hrow' : s.batches.get? ((receiptQuery D batch).stream, (receiptQuery D batch).batchId) =
        some row := hrow
    have hdigest : row.digest = (receiptQuery D batch).digest := by
      have := congrArg BatchRow.digest heq
      rw [← h.identity]
      exact this
    have hreceipt : row.receipt (receiptQuery D batch) = receipt := by
      obtain ⟨identity, receivedAt, newSamples, replayedSamples, replayUntil⟩ := receipt
      obtain rfl : identity = receiptQuery D batch := h.identity
      simp only [Receipt.row, BatchRow.mk.injEq] at heq
      obtain ⟨-, rfl, rfl, rfl, rfl, -⟩ := heq
      rfl
    have hchecked : row.Checked := by
      have hstored := h.checked
      rw [← heq] at hstored
      exact ⟨hstored.promised, hstored.total_pos, hstored.total_le⟩
    rw [hrow']
    simp only [hdigest, ne_eq, not_true_eq_false, if_false]
    cases row.expired with
    | true => exact .inr rfl
    | false =>
        left
        simp only [Bool.false_eq_true, if_false]
        rw [hchecked.fromDurable, hreceipt]
        rfl
  · have hnone' : s.batches.get? ((receiptQuery D batch).stream, (receiptQuery D batch).batchId) =
        none := hnone
    have hreclaimed' : s.reclaimed (receiptQuery D batch).stream = true := hreclaimed
    rw [hnone']
    simp only [hreclaimed', if_true]
    exact .inr trivial

/-- A batch that was accepted is answered again, or its history is over. -/
theorem Kept.resubmitted {batch : Batch} {receipt : Receipt} {now : ℕ}
    (h : Kept D s batch receipt) (hstep : Step D s e s') (hcall : e.call = .write batch now) :
    s' = s ∧ (e.ending = .committed (.receipt (.replay receipt)) ∨
      e.ending = .refused .historyExpired ∨ e.ending = .aborted) := by
  have hself := lockStream_eq_self h.stream h.scope
  cases hstep with
  | @commit _ call answer limits body =>
      obtain rfl : call = .write batch now := hcall
      obtain ⟨⟨outcome, s₁⟩, hadmit, heq⟩ := map_eq_ok.mp body
      cases heq
      rcases h.lookup with hfound | hexpired
      · rw [admitBatch_of_lookup hfound (by simp), hself] at hadmit
        cases hadmit
        exact ⟨rfl, .inl rfl⟩
      · rw [admitBatch_of_lookup hexpired (by simp)] at hadmit
        cases hadmit
  | @refuse call err limits body =>
      obtain rfl : call = .write batch now := hcall
      refine ⟨rfl, .inr (.inl ?_)⟩
      change Except.map _ (s.admitBatch D batch limits.replayMicros now) = .error err at body
      rcases h.lookup with hfound | hexpired
      · rw [admitBatch_of_lookup hfound (by simp)] at body
        cases body
      · rw [admitBatch_of_lookup hexpired (by simp)] at body
        cases body
        rfl
  | abort call => exact ⟨rfl, .inr (.inr rfl)⟩

/-! ### Exactly once -/

open Classical in
/-- The samples of a batch that the history before it did not enter. -/
noncomputable def unseen (labels : List Event) (batch : Batch) : List Sample :=
  batch.samples.filter (fun x => ¬ Seen labels (Store.identityOf x))

/-- Admission over a history that leads to the tables. -/
structure ExactlyOnce (D : Digests) (labels : List Event) (s : Store) : Prop where
  bound : ∀ e ∈ labels, ∀ k ident, e.after.identities.get? k = some ident →
    s.closed k.1 = false → s.identities.get? k = some ident
  content : ∀ k t row, s.samples.get? (k, t) = some row → Store.identityOf row.raw = k ∧
    row.raw.observedAt = t ∧ ∃ ident, s.identities.get? k = some ident ∧
      ident.digest = D.sample row.raw
  once : ∀ (before : List Event) (e : Event) (after : List Event) k, labels = before ++ e :: after →
    e.Inserts k → ¬ Seen before k
  single : ∀ e ∈ labels, ∀ k t t', (e.after.samples.get? (k, t)).isSome →
    (e.after.samples.get? (k, t')).isSome → t = t'
  counted : ∀ (before : List Event) (e : Event) (after : List Event) batch receipt,
    labels = before ++ e :: after → e.Accepts batch receipt →
      receipt.newSamples = (unseen before batch).length ∧
        receipt.newSamples + receipt.replayedSamples = batch.samples.length
  resubmitted : ∀ (before : List Event) (e : Event) (after : List Event) batch receipt,
    labels = before ++ e :: after → e.Accepts batch receipt →
      ∀ e' ∈ after, ∀ now, e'.call = .write batch now →
      e'.after = e'.before ∧ (e'.ending = .committed (.receipt (.replay receipt)) ∨
        e'.ending = .refused .historyExpired ∨ e'.ending = .aborted)
  rejected : ∀ e ∈ labels, (∀ answer, e.ending ≠ .committed answer) → e.after = e.before
  admissible : ∀ e ∈ labels, ∀ batch receipt, e.Accepts batch receipt →
    e.before.closed batch.stream = false ∧ ∀ x ∈ batch.samples,
      (∃ ident, e.before.identities.get? (Store.identityOf x) = some ident ∧
        ident.digest = D.sample x) ∨ Admissible e.before x
  fenced : ∀ (before : List Event) (e : Event) (after : List Event),
    labels = before ++ e :: after → ∀ k t row,
    e.before.samples.get? (k, t) = none → e.after.samples.get? (k, t) = some row →
    ∀ e' ∈ before, ∀ f ∈ e'.after.fencesOf k.1.scope,
      f.encloses row.raw.stream row.raw.series t = false

/-- A transaction of a run, with the invariant of the history before it. -/
theorem inv_before {before after : List Event} (h : Runs (Step D) .empty (before ++ e :: after) s) :
    Inv D before e.before ∧ Step D e.before e e.after ∧ Runs (Step D) e.after after s := by
  obtain ⟨m, m', hbefore, hstep, hafter⟩ := h.split
  obtain ⟨rfl, rfl⟩ := hstep.ends
  exact ⟨inv_of_runs hbefore, hstep, hafter⟩

/-- An identity stays as it is while its stream is open. -/
theorem identities_of_runs {k : Identity} {ident : IdentityRow}
    (h : Runs (Step D) s labels s') (hguarded : PlansGuarded s)
    (hident : s.identities.get? k = some ident) :
    PlansGuarded s' ∧ (s'.closed k.1 = false → s'.identities.get? k = some ident) ∧
      (s.closed k.1 = true → s'.closed k.1 = true) := by
  induction h with
  | nil => exact ⟨hguarded, fun _ => hident, fun h => h⟩
  | @snoc labels m m' e hrun hstep ih =>
      obtain ⟨hguarded', hkept, hclosed⟩ := ih
      rcases hstep.moved hguarded' with ⟨answer, -, hmoved, -, hguarded''⟩ | ⟨-, rfl⟩
      · refine ⟨hguarded'', ?_⟩
        generalize e.call = call at hmoved
        cases hmoved with
        | cleaned cleaned other =>
            refine ⟨fun hopen => ?_, fun hc => cleaned.closed _ (hclosed hc)⟩
            have hopen' : m.closed k.1 = false := by
              by_contra hc
              rw [cleaned.closed k.1 (by simpa using hc)] at hopen
              cases hopen
            rcases cleaned.identities k ident (hkept hopen') with hsame | ⟨-, hc, -⟩
            · exact hsame
            · rw [hc] at hopen
              cases hopen
        | @replayed batch now receipt found =>
            have hframe := lockStream_frame m batch.stream
            refine ⟨fun hopen => ?_, fun hc => ?_⟩
            · rw [hframe.closed] at hopen
              exact hkept hopen
            · rw [hframe.closed]
              exact hclosed hc
        | admitted admitted =>
            refine ⟨fun hopen => ?_, fun hc => ?_⟩
            · rw [admitted.closed] at hopen
              exact admitted.entered.kept _ _ (hkept hopen)
            · rw [admitted.closed]
              exact hclosed hc
      · exact ⟨hguarded', hkept, hclosed⟩

/-- A raw row is entered by an accepted batch, under an identity its open stream did not know. -/
theorem inserts_admitted {k : Identity} {t : ℕ} {before : List Event}
    (hinv : Inv D before e.before) (hstep : Step D e.before e e.after)
    (hnone : e.before.samples.get? (k, t) = none) (hsome : (e.after.samples.get? (k, t)).isSome) :
    ∃ batch now receipt, e.call = .write batch now ∧
      Admitted D e.before batch now receipt e.after ∧
      ∃ x ∈ batch.samples, Store.identityOf x = k ∧ x.observedAt = t ∧
        e.before.identities.get? k = none := by
  rcases hstep.moved hinv.guarded with ⟨answer, -, hmoved, -⟩ | ⟨-, hsame⟩
  · exact hmoved.of_inserts hnone hsome
  · rw [hsame, hnone] at hsome
    cases hsome

/-- An accepted batch was admitted. -/
theorem accepts_admitted {batch : Batch} {receipt : Receipt} {before : List Event}
    (hinv : Inv D before e.before) (hstep : Step D e.before e e.after)
    (haccepts : e.Accepts batch receipt) :
    ∃ now, Admitted D e.before batch now receipt e.after := by
  obtain ⟨⟨now, hcall⟩, hending⟩ := haccepts
  rcases hstep.moved hinv.guarded with ⟨answer, hanswer, hmoved, -⟩ | ⟨hnone, -⟩
  · rw [hending] at hanswer
    cases hanswer
    rw [hcall] at hmoved
    cases hmoved with
    | cleaned cleaned other => exact absurd rfl (other batch now)
    | admitted admitted => exact ⟨now, admitted⟩
  · exact absurd hending (hnone _)

/-- A transaction of a run splits its history. -/
theorem exists_split (h : e ∈ labels) : ∃ before after, labels = before ++ e :: after :=
  List.append_of_mem h

/-- Every run of the store admits samples and batches exactly once. -/
theorem admission_exactly_once (h : Runs (Step D) .empty labels s) : ExactlyOnce D labels s where
  bound := by
    intro e he k ident hident hopen
    obtain ⟨before, after, rfl⟩ := exists_split he
    obtain ⟨hinv, hstep, hafter⟩ := inv_before h
    exact (identities_of_runs hafter (hinv.step hstep).guarded hident).2.1 hopen
  content := by
    intro k t row hrow
    obtain ⟨hkey, hat, ident, hident, -, hdigest⟩ := (inv_of_runs h).linked k t row hrow
    exact ⟨hkey, hat, ident, hident, hdigest⟩
  once := by
    rintro before e after k rfl ⟨t, hnone, hsome⟩ hseen
    obtain ⟨hinv, hstep, -⟩ := inv_before h
    obtain ⟨batch, now, receipt, -, hadmitted, x, hx, rfl, -, hident⟩ :=
      inserts_admitted hinv hstep hnone hsome
    have hopen := hadmitted.opened
    rw [← Admitted.stream_of_mem hx] at hopen
    have hknown := hinv.known _ hseen hopen
    rw [hident] at hknown
    cases hknown
  single := by
    intro e he k t t' hrow hrow'
    obtain ⟨before, after, rfl⟩ := exists_split he
    obtain ⟨hinv, hstep, -⟩ := inv_before h
    obtain ⟨row, hrow⟩ := Option.isSome_iff_exists.mp hrow
    obtain ⟨row', hrow'⟩ := Option.isSome_iff_exists.mp hrow'
    obtain ⟨-, -, ident, hident, hat, -⟩ := (hinv.step hstep).linked k t row hrow
    obtain ⟨-, -, ident', hident', hat', -⟩ := (hinv.step hstep).linked k t' row' hrow'
    rw [hident, Option.some.injEq] at hident'
    rw [← hat, ← hat', hident']
  counted := by
    classical
    rintro before e after batch receipt rfl haccepts
    obtain ⟨hinv, hstep, -⟩ := inv_before h
    obtain ⟨now, hadmitted⟩ := accepts_admitted hinv hstep haccepts
    refine ⟨?_, hadmitted.total⟩
    rw [hadmitted.counted]
    unfold Store.fresh unseen
    congr 1
    apply List.filter_congr
    intro x hx
    have hopen := hadmitted.opened
    rw [← Admitted.stream_of_mem hx] at hopen
    rw [Bool.eq_iff_iff, decide_eq_true_eq, Option.isNone_iff_eq_none]
    constructor
    · intro hnone hseen
      have hknown := hinv.known _ hseen hopen
      rw [hnone] at hknown
      cases hknown
    · intro hnot
      by_contra hne
      exact hnot (hinv.entered _ (Option.isSome_iff_ne_none.mpr hne))
  resubmitted := by
    rintro before e after batch receipt rfl haccepts e' he' now hcall
    obtain ⟨mid, rest, rfl⟩ := exists_split he'
    rw [← List.cons_append, ← List.append_assoc] at h
    obtain ⟨hinv, hstep, -⟩ := inv_before h
    exact (hinv.kept e (by simp) batch receipt haccepts).resubmitted hstep hcall
  rejected := by
    intro e he hending
    obtain ⟨before, after, rfl⟩ := exists_split he
    obtain ⟨hinv, hstep, -⟩ := inv_before h
    rcases hstep.moved hinv.guarded with ⟨answer, hanswer, -⟩ | ⟨-, hsame⟩
    · exact absurd hanswer (hending answer)
    · exact hsame
  admissible := by
    intro e he batch receipt haccepts
    obtain ⟨before, after, rfl⟩ := exists_split he
    obtain ⟨hinv, hstep, -⟩ := inv_before h
    obtain ⟨now, hadmitted⟩ := accepts_admitted hinv hstep haccepts
    refine ⟨hadmitted.opened, fun x hx => ?_⟩
    cases hident : e.before.identities.get? (Store.identityOf x) with
    | some ident => exact .inl ⟨ident, rfl, hadmitted.entered.replayed x hx ident hident⟩
    | none => exact .inr (hadmitted.entered.admissible x hx hident)
  fenced := by
    rintro before e after rfl k t row hnone hrow e' he' f hf
    obtain ⟨hinv, hstep, -⟩ := inv_before h
    obtain ⟨batch, now, receipt, -, hadmitted, x, hx, rfl, rfl, hident⟩ :=
      inserts_admitted hinv hstep hnone (by rw [hrow]; rfl)
    have hraw : row = ⟨x, now⟩ := by
      have hnew : e.after.samples.get? (Store.identityOf x, x.observedAt) = some ⟨x, now⟩ :=
        (hadmitted.entered.entered x hx hident).2 hnone
      rw [hrow, Option.some.injEq] at hnew
      exact hnew
    rw [hraw]
    obtain ⟨f', hf', hcovers⟩ := hinv.fences e' he' _ f hf
    by_contra hencloses
    have hinside := hcovers.encloses (by simpa using hencloses)
    rw [(hadmitted.entered.admissible x hx hident).unfenced f' hf'] at hinside
    cases hinside

/-! ### A batch of one sample -/

def meterScope : Scope := ⟨7, "plant"⟩

def meterDefinition : Definition :=
  ⟨meterScope, "power", 1, "W", .gauge .u64, ⟨∅, ∅, 0, 1, 1⟩⟩

def meterStream : Stream := ⟨meterScope, "meter", "1"⟩

def meterSample : Sample where
  stream := meterStream
  series := ⟨meterDefinition, "line", "meter", []⟩
  id := "a"
  sequence := 1
  observedAt := 100
  interval := none
  reading := .valid (.number (.u64 5))
  valid := {
    observed_lt := by decide
    scope := rfl
    accepts := by
      intro v hv
      cases hv
      rfl
    interval_stop := fun _ h => nomatch h
    counter_interval := fun _ _ h => nomatch h }

def meterBatch : Batch where
  stream := meterStream
  id := "b"
  samples := [meterSample]
  nonempty := by decide
  length_le := by decide
  of_stream := by simp [meterSample]
  distinct := by simp

def meterDigests : Digests := ⟨fun _ => 1, fun _ => 2, fun _ => 3, fun _ => 4⟩

def meterLimits : Limits := ⟨90, 950, 950, by decide, by decide⟩

def meterReceipt : Receipt := ⟨⟨meterStream, "b", 2⟩, 500, 1, 0, 1450⟩

def meterDefined : Store :=
  { Store.empty with
    heads := Table.empty.insertNew (meterScope, "power") (some 1)
    definitions := Table.empty.insertNew ⟨meterScope, "power", 1⟩ ⟨meterDefinition, 3, false⟩ }

def metered : Store :=
  { meterDefined with
    streams := Table.empty.insertNew meterStream ⟨false, false⟩
    namespaces := (Table.empty.insertNew meterScope 0).modify meterScope (fun _ => 1)
    identities := Table.empty.insertNew (meterStream, "a") ⟨1, 100, 500⟩
    samples := Table.empty.insertNew ((meterStream, "a"), 100) ⟨meterSample, 500⟩
    batches := Table.empty.insertNew (meterStream, "b") ⟨2, 500, 1, 0, 1450, false⟩ }

/-- The definition is registered, the batch is accepted, and the same batch is a replay. -/
theorem admission_exactly_once_meter :
    ∃ labels, Runs (Step meterDigests) .empty labels metered ∧ labels.length = 3 ∧
      (∃ e ∈ labels, e.Accepts meterBatch meterReceipt) ∧
      ExactlyOnce meterDigests labels metered := by
  have hdefinitions : Store.batchDefinitions [meterSample] = [meterDefinition] := by
    simp [Store.batchDefinitions, meterSample]
  have hregister : Store.empty.execute meterDigests meterLimits (.register meterDefinition none) =
      .ok (.definition (.accepted ⟨meterDefinition, .active⟩), meterDefined) := rfl
  have hadmit : meterDefined.admitBatch meterDigests meterBatch 950 500 =
      .ok (.accepted meterReceipt, metered) := by
    unfold Store.admitBatch Store.admitNew
    simp only [show meterBatch.samples = [meterSample] from rfl, hdefinitions]
    rfl
  have hwrite : meterDefined.execute meterDigests meterLimits (.write meterBatch 500) =
      .ok (.receipt (.accepted meterReceipt), metered) :=
    map_eq_ok.mpr ⟨_, hadmit, rfl⟩
  have hreplay : metered.execute meterDigests meterLimits (.write meterBatch 700) =
      .ok (.receipt (.replay meterReceipt), metered) := rfl
  have hrun := (((@Runs.nil _ _ (Step meterDigests) .empty).snoc (.commit meterLimits hregister)).snoc
    (.commit meterLimits hwrite)).snoc (.commit meterLimits hreplay)
  exact ⟨_, hrun, rfl, ⟨_, .tail _ (.head _), ⟨500, rfl⟩, rfl⟩, admission_exactly_once hrun⟩

end Rss.TimeseriesPostgres
