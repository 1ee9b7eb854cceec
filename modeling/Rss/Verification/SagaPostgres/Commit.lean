import Rss.Verification.SagaPostgres.Refinement

/-! # Commits of the reducer's events

The checks of `commit_event` accept an encoded event exactly when the reducer prepares it. -/

namespace Rss.SagaPostgres

open Rss.Sql Rss.Saga

/-! ### Checks on encoded heads -/

theorem add_nat_eq_ok {a b : ℕ} {x : Option ℤ} :
    add (some (a : ℤ)) (some (b : ℤ)) = .ok x ↔ x = some ((a + b : ℕ) : ℤ) ∧ a + b < 2 ^ 63 := by
  constructor
  · intro h
    obtain ⟨n, hn, hx⟩ := bind_eq_ok.mp h
    obtain ⟨rfl, -, hlt⟩ := ranged_eq_ok.mp hn
    refine ⟨?_, ?_⟩
    · rw [← Except.ok.inj hx]
      push_cast
      rfl
    · norm_num at hlt ⊢
      omega
  · rintro ⟨rfl, hlt⟩
    exact arith_nat (by push_cast; rfl) hlt

theorem checkSeq_encode {q : ℕ} {e : Event} (hq : q < 2 ^ 63) :
    checkSeq (some (q : ℤ)) e.encode = .ok () ↔ e.seq = q := by
  have hmem : member (some e.encode) "seq" = some (encodeNat e.seq) := rfl
  by_cases hlt : e.seq < 2 ^ 63
  · rw [checkSeq, bigint_num hmem hlt, ok_bind]
    by_cases heq : e.seq = q
    · simp [heq]
    · have hne : (some (e.seq : ℤ)) ≠ some (q : ℤ) := by simpa using heq
      simp [heq, raise]
  · have hne : e.seq ≠ q := by omega
    simp only [hne, iff_false]
    intro h
    obtain ⟨m, hm, -⟩ := bind_eq_ok.mp h
    exact hlt (lt_of_bigint_num hmem hm).2

/-- The event charge of both sides, with the range the SQL puts on coordinates. -/
theorem charge_encode {e : Event} {x : Option ℤ} :
    historyCharge (member (some e.encode) "receipt") = .ok x ↔
      ∃ n, e.encodedBytes = .ok n ∧ (∀ r ∈ e.receipt, CoordinatesOk r) ∧ x = some (n : ℤ) := by
  have hmem : member (some e.encode) "receipt" =
      some (encodeOption ProtectedReceipt.encode e.receipt) := rfl
  rw [hmem]
  cases hr : e.receipt with
  | none =>
      have hcharge : historyCharge (some (encodeOption ProtectedReceipt.encode none)) =
        .ok (some 256) := rfl
      rw [hcharge, Event.encodedBytes_none hr]
      simp [eventBytes, eq_comm]
  | some r =>
      simp only [encodeOption, historyCharge_eq_ok, Option.mem_def, Option.some.injEq,
        forall_eq', Event.encodedBytes, hr]
      constructor
      · rintro ⟨n, hn, hc, rfl⟩
        exact ⟨256 + n, by simp [hn, eventBytes], hc, rfl⟩
      · rintro ⟨n, hn, hc, rfl⟩
        obtain ⟨m, hm, hn⟩ := bind_eq_ok.mp hn
        exact ⟨m, hm, hc, by rw [← Except.ok.inj hn]; rfl⟩

/-- The reserve as the SQL returns it. -/
def reserveObject (p : Progress) : Json :=
  .obj [("entries", encodeNat p.owedEntries), ("bytes", encodeNat p.owedBytes)]

theorem owedBytes_lt {p : Progress} (hp : Ranged p) : p.owedBytes < 2 ^ 63 := by
  have hle := owedEntries_le hp
  have hreceipt : p.owedReceipt ≤ receiptBytes := by
    unfold Progress.owedReceipt
    split <;> omega
  simp only [Progress.owedBytes, eventBytes, receiptBytes] at *
  omega

/-- One comparison of the capacity check: a sum out of range exceeds every capacity. -/
theorem excess_nat {a b m : ℕ} {t : Truth} (hm : m < 2 ^ 63) :
    (do let total ← add (some (a : ℤ)) (some (b : ℤ))
        return less (some (m : ℤ)) total : Outcome Truth) = .ok t ∧ t ≠ some true ↔
      t = some false ∧ a + b ≤ m := by
  have hless : ∀ c : ℕ, less (some (m : ℤ)) (some (c : ℤ)) = some (decide (m < c)) := by
    intro c
    simp [less, comparing]
  constructor
  · rintro ⟨h, ht⟩
    obtain ⟨total, htotal, h⟩ := bind_eq_ok.mp h
    obtain ⟨rfl, -⟩ := add_nat_eq_ok.mp htotal
    have h := (Except.ok.inj h).symm
    rw [hless] at h
    subst h
    simp only [ne_eq, Option.some.injEq, decide_eq_true_eq, not_lt] at ht
    exact ⟨by simp [ht], ht⟩
  · rintro ⟨rfl, hle⟩
    have hnot : ¬ m < a + b := by omega
    rw [add_nat_eq_ok.mpr ⟨rfl, by omega⟩, ok_bind, hless, decide_eq_false hnot]
    exact ⟨rfl, by decide⟩

theorem checkCapacity_encode {h : HistoryHead} {q : Progress} {n : ℕ} {x : Json}
    (hq : Ranged q) :
    checkCapacity h.encode (some (h.revision : ℤ)) (some (n : ℤ)) q.encode = .ok x ↔
      x = reserveObject q ∧ h.capacity.Contains (h.revision + 1 + q.owedEntries)
        (n + q.owedBytes) := by
  have he := h.capacity.entries_le
  have hb := h.capacity.bytes_le
  have hle := owedEntries_le hq
  have hlt := owedBytes_lt hq
  simp only [i64Max] at he hb
  have hcap : member (some h.encode) "capacity" = some h.capacity.encode := rfl
  have hentries : bigint (some (reserveObject q)) "entries" = .ok (some (q.owedEntries : ℤ)) :=
    bigint_num rfl (by omega)
  have hbytes : bigint (some (reserveObject q)) "bytes" = .ok (some (q.owedBytes : ℤ)) :=
    bigint_num rfl hlt
  have hmaxEntries : bigint (some h.capacity.encode) "maxEntries" =
      .ok (some (h.capacity.maxEntries : ℤ)) := bigint_num rfl (by omega)
  have hmaxBytes : bigint (some h.capacity.encode) "maxEncodedBytes" =
      .ok (some (h.capacity.maxEncodedBytes : ℤ)) := bigint_num rfl (by omega)
  have hreserve : historyReserve (some q.encode) = .ok (reserveObject q) := historyReserve_encode hq
  simp only [checkCapacity, hreserve, hcap, hentries, hbytes, hmaxEntries, hmaxBytes, ok_bind]
  constructor
  · intro hx
    obtain ⟨t, hany, hx⟩ := bind_eq_ok.mp hx
    split at hx
    · cases hx
    · rename_i ht
      obtain ⟨⟨u, hu, hu'⟩, ⟨w, hw, hw'⟩, -⟩ := by
        simpa only [List.forall_mem_cons] using anyOf_ne_true hany ht
      obtain ⟨next, hnext, hu⟩ := bind_eq_ok.mp hu
      obtain ⟨rfl, -⟩ := (add_nat_eq_ok (b := 1)).mp hnext
      exact ⟨(Except.ok.inj hx).symm, ((excess_nat (by omega)).mp ⟨hu, hu'⟩).2,
        ((excess_nat (by omega)).mp ⟨hw, hw'⟩).2⟩
  · rintro ⟨rfl, hfe, hfb⟩
    obtain ⟨hu, -⟩ := (excess_nat (t := some false) (by omega)).mpr ⟨rfl, hfe⟩
    obtain ⟨hw, -⟩ := (excess_nat (t := some false) (by omega)).mpr ⟨rfl, hfb⟩
    rw [add_one_nat (by omega), ok_bind, hu, hw]
    rfl

/-! ### Heads an instance can have -/

theorem Ranged.step {d : Definition} {p q : Progress} {e : Event} (hd : d.Valid)
    (hp : Ranged p) (hi : p.Inv d) (h : Progress.Step d p e q) : Ranged q := by
  have hlen := hd.length_le
  have hi' := h.inv hd hi
  have hforward := hi'.forward_le
  have hcomp : ∀ c ∈ q.compensation, c < 1024 := by
    intro c hc
    have := hi'.compensation_lt hc
    omega
  obtain ⟨-, hfa, hff, -, hca⟩ := hp
  cases h with
  | forwardIntent _ _ _ _ _ _ _ hb _ => exact ⟨by omega, hb, hff, hcomp, hca⟩
  | forwardApplied _ _ _ _ _ _ _ _ _ =>
      exact ⟨by omega, Nat.two_pow_pos 32, Nat.two_pow_pos 32, hcomp, hca⟩
  | forwardNotApplied _ _ _ _ _ _ hb => exact ⟨by omega, hfa, hb, hcomp, hca⟩
  | forwardProbeNotApplied _ _ _ _ _ _ => exact ⟨by omega, hfa, hff, hcomp, hca⟩
  | abort _ _ _ _ _ _ _ _ _ _ => exact ⟨by omega, hfa, hff, hcomp, Nat.two_pow_pos 32⟩
  | compensationIntent _ _ _ _ _ _ _ hb => exact ⟨by omega, hfa, hff, hcomp, hb⟩
  | compensationApplied _ _ _ _ _ _ => exact ⟨by omega, hfa, hff, hcomp, Nat.two_pow_pos 32⟩
  | compensationNotApplied _ _ _ _ _ _ => exact ⟨by omega, hfa, hff, hcomp, hca⟩
  | compensationFailed _ _ _ _ _ _ => exact ⟨by omega, hfa, hff, hcomp, hca⟩
  | resume _ _ _ _ _ _ _ _ => exact ⟨by omega, hfa, hff, hcomp, hca⟩

/-- One change of a stored instance: some worker admits an event or grows the capacity, each
under a read budget of its own. -/
def Lives (s s' : Snapshot) : Prop :=
  ∃ read : ReadBudget, Snapshot.Evolves { s with read } s'

/-- What the head of every stored instance satisfies. -/
structure Stored (s : Snapshot) : Prop where
  valid : s.definition.Valid
  progress : s.progress.Inv s.definition
  ranged : Ranged s.progress
  revision_lt : s.revision < 2 ^ 63
  encodedBytes_lt : s.head.encodedBytes < 2 ^ 63

theorem stored_of_empty {H : Hashing} {d : Definition} {capacity : HistoryCapacity}
    {read : ReadBudget} {s : Snapshot} (h : Snapshot.empty H d capacity read = .ok s) :
    Stored s := by
  obtain ⟨hv, rfl⟩ := Snapshot.empty_eq_ok h
  have hd := Definition.valid_of_validate hv
  exact ⟨hd, Progress.inv_empty hd,
    ⟨Nat.zero_le _, Nat.two_pow_pos 32, Nat.two_pow_pos 32,
      by simp [Snapshot.progress, Progress.empty], Nat.two_pow_pos 32⟩,
    Nat.two_pow_pos 63, Nat.two_pow_pos 63⟩

theorem Lives.stored {s s' : Snapshot} (h : Lives s s') (hs : Stored s) : Stored s' := by
  obtain ⟨read, h⟩ := h
  replace hs : Stored { s with read } := ⟨hs.1, hs.2, hs.3, hs.4, hs.5⟩
  generalize { s with read } = s at h hs
  cases h with
  | apply e h =>
      obtain ⟨_, hprep, rfl⟩ := Snapshot.apply_eq_ok.mp h
      obtain ⟨-, q, n, hq, hn, rfl, hadm⟩ :=
        (Snapshot.prepare_admission_iff hs.valid hs.progress).mp hprep
      have he := s.head.capacity.entries_le
      have hb := s.head.capacity.bytes_le
      obtain ⟨hfe, hfb⟩ := hadm.durable
      simp only [Snapshot.headAfter, i64Max] at hfe hfb he hb
      refine ⟨hs.valid, hq.inv hs.valid hs.progress, hs.ranged.step hs.valid hs.progress hq,
        ?_, ?_⟩
      · simp only [Snapshot.accept, Snapshot.revision, Snapshot.headAfter] at hfe ⊢
        omega
      · simp only [Snapshot.accept, Snapshot.headAfter] at hfb ⊢
        omega
  | extendCapacity expected next h =>
      unfold Snapshot.extendCapacity at h
      split at h
      · cases h
      · cases h
        exact ⟨hs.1, hs.2, hs.3, hs.4, hs.5⟩

theorem stored_of_lives {s s' : Snapshot} (h : Relation.ReflTransGen Lives s s')
    (hs : Stored s) : Stored s' := by
  induction h with
  | refl => exact hs
  | tail _ hstep ih => exact hstep.stored ih

/-! ### Agreement -/

theorem Stored.denotes {s : Snapshot} {e : Event} {q : Progress} (hs : Stored s)
    (hseq : e.seq = s.revision) (hq : Progress.Step s.definition s.progress e q) :
    Denotes e.encode e ∧ ∀ r ∈ e.receipt, CoordinatesOk r := by
  have hlen := hs.valid.length_le
  have hrev := hs.revision_lt
  obtain ⟨-, hn, -, -⟩ := Progress.transition_guard hq.execution
  obtain ⟨ha, hb⟩ := step_attempt hs.ranged hs.progress hq
  have hcoord : ∀ r ∈ e.receipt, r.attempt = e.attempt ∧ r.seq = e.seq := by
    intro r hr
    cases hq with
    | forwardApplied r' _ hr' _ _ _ _ hra hrs =>
        obtain rfl := Option.some.inj (hr'.symm.trans hr)
        exact ⟨hra, hrs⟩
    | _ => simp_all
  constructor
  · refine denotes_encode (by omega) (by omega) (by omega) ?_
    intro r hr
    obtain ⟨h₁, h₂⟩ := hcoord r hr
    omega
  · intro r hr
    obtain ⟨h₁, h₂⟩ := hcoord r hr
    exact ⟨by omega, by omega, by omega⟩

theorem Stored.denotes_of_nextProgress {s : Snapshot} {e : Event} {r : Json} (hs : Stored s)
    (hseq : e.seq = s.revision) (hcoord : ∀ r ∈ e.receipt, CoordinatesOk r)
    (h : nextProgress (some s.progress.encode) (some s.definition.encode) (some e.encode) = .ok r) :
    Denotes e.encode e := by
  have hrev := hs.revision_lt
  rw [nextProgress, read_encode hs.ranged, ok_bind] at h
  obtain ⟨step, hstep, h⟩ := bind_eq_ok.mp h
  obtain ⟨attempt, hattempt, -⟩ := bind_eq_ok.mp h
  refine denotes_encode (lt_of_bigint_num rfl hstep).2 (lt_of_bigint_num rfl hattempt).2
    (by omega) ?_
  intro r hr
  obtain ⟨-, ha, hq⟩ := hcoord r hr
  omega

/-- The checks on the head, in the reducer's terms. -/
theorem Stored.commitChecks_eq_ok {s : Snapshot} {e : Event} {r : Json × Option ℤ × Json}
    (hs : Stored s) :
    commitChecks s.head.encode s.definition.encode e.encode = .ok r ↔
      e.seq = s.revision ∧ ∃ q n, Progress.Step s.definition s.progress e q ∧
        e.encodedBytes = .ok n ∧ (s.headAfter q n).FitsIn s.head.capacity ∧
        r = (q.encode, some ((s.head.encodedBytes + n : ℕ) : ℤ), reserveObject q) := by
  have hrev : bigint (some s.head.encode) "revision" = .ok (some (s.revision : ℤ)) :=
    bigint_num rfl hs.revision_lt
  have hbytes : bigint (some s.head.encode) "encodedBytes" =
      .ok (some (s.head.encodedBytes : ℤ)) := bigint_num rfl hs.encodedBytes_lt
  have hprogress : member (some s.head.encode) "progress" = some s.progress.encode := rfl
  simp only [commitChecks, hrev, ok_bind, project, hbytes, hprogress]
  constructor
  · intro h
    obtain ⟨u, hseq, h⟩ := bind_eq_ok.mp h
    obtain ⟨⟨m, p⟩, hproject, h⟩ := bind_eq_ok.mp h
    obtain ⟨charge, hcharge, hproject⟩ := bind_eq_ok.mp hproject
    obtain ⟨m', hadd, hproject⟩ := bind_eq_ok.mp hproject
    obtain ⟨p', hnext, hproject⟩ := bind_eq_ok.mp hproject
    obtain ⟨reserve, hcap, h⟩ := bind_eq_ok.mp h
    obtain ⟨rfl, rfl⟩ := Prod.mk.inj (Except.ok.inj hproject)
    have hseq := (checkSeq_encode hs.revision_lt).mp hseq
    obtain ⟨n, hn, hcoord, rfl⟩ := charge_encode.mp hcharge
    obtain ⟨rfl, -⟩ := add_nat_eq_ok.mp hadd
    obtain ⟨q, hq, rfl⟩ := (nextProgress_eq_ok hs.valid hs.ranged hs.progress
      (hs.denotes_of_nextProgress hseq hcoord hnext)).mp hnext
    have hranged := hs.ranged.step hs.valid hs.progress hq
    obtain ⟨rfl, hfit⟩ := (checkCapacity_encode hranged).mp hcap
    exact ⟨hseq, q, n, hq, hn, hfit, (Except.ok.inj h).symm⟩
  · rintro ⟨hseq, q, n, hq, hn, hfit, rfl⟩
    have hranged := hs.ranged.step hs.valid hs.progress hq
    obtain ⟨hdenotes, hcoord⟩ := hs.denotes hseq hq
    have hb := s.head.capacity.bytes_le
    have hfb := hfit.2
    simp only [Snapshot.headAfter, i64Max] at hfb hb
    rw [(checkSeq_encode hs.revision_lt).mpr hseq, ok_bind,
      charge_encode.mpr ⟨n, hn, hcoord, rfl⟩, ok_bind,
      add_nat_eq_ok.mpr ⟨rfl, by omega⟩, ok_bind,
      (nextProgress_eq_ok hs.valid hs.ranged hs.progress hdenotes).mpr ⟨q, hq, rfl⟩, ok_bind,
      ok_bind]
    have hcap : checkCapacity s.head.encode (some (s.revision : ℤ))
        (some ((s.head.encodedBytes + n : ℕ) : ℤ)) q.encode = .ok (reserveObject q) :=
      (checkCapacity_encode hranged).mpr ⟨rfl, hfit⟩
    dsimp only
    rw [hcap, ok_bind]

/-- No string of the receipt holds the character that `jsonb` cannot store. -/
def Storable (e : Event) : Prop :=
  ∀ r ∈ e.receipt, '\x00' ∉ r.ciphertext.keyRef.toList ∧ '\x00' ∉ r.keyId.toList

theorem storableItems_nums (ns : List ℕ) : Json.storableItems (ns.map encodeNat) = true := by
  induction ns with
  | nil => rfl
  | cons n ns ih => simp [Json.storableItems, encodeNat, Json.storable, ih]

theorem storable_encodeBytes (bytes : List UInt8) : (encodeBytes bytes).storable = true := by
  have := storableItems_nums (bytes.map UInt8.toNat)
  rw [List.map_map] at this
  exact this

theorem storable_encode (e : Event) : e.encode.storable = true ↔ Storable e := by
  have hkind : '\x00' ∉ e.kind.text.toList := by cases e.kind <;> decide
  cases hr : e.receipt with
  | none =>
      simp [Storable, hr, Event.encode, Json.storable, Json.storableFields, encodeNat, encodeOption,
        hkind]
  | some r =>
      simp [Storable, hr, Event.encode, Json.storable, Json.storableFields, encodeNat, encodeOption,
        hkind, ProtectedReceipt.encode, Ciphertext.encode, storable_encodeBytes]

/-- The SQL checks and the reducer accept the same events of every reachable instance and
compute the same projection, charge and reserve. -/
theorem commit_agrees {H : Hashing} {d : Definition} {capacity : HistoryCapacity}
    {read₀ : ReadBudget} {s₀ s : Snapshot} (h₀ : Snapshot.empty H d capacity read₀ = .ok s₀)
    (hr : Relation.ReflTransGen Lives s₀ s) (e : Event) (read : ReadBudget)
    (hread : ∀ after, s.transition e = .ok after → after.FitsIn after.capacity →
      after.FitsIn read.history ∧
        after.admittedReceipts * plaintextBytes ≤ read.authenticationBytes)
    (p : Json) (n : Option ℤ) (reserve : Json) :
    (do
      let j ← jsonbIn e.encode
      commitChecks s.head.encode s.definition.encode j) = .ok (p, n, reserve) ↔
    Storable e ∧ ∃ after entries bytes, ({ s with read }).prepare e true = .ok after ∧
      after.reserve = .ok (entries, bytes) ∧ p = after.progress.encode ∧
      n = some (after.encodedBytes : ℤ) ∧
      reserve = .obj [("entries", encodeNat entries), ("bytes", encodeNat bytes)] := by
  have hs := stored_of_lives hr (stored_of_empty h₀)
  have hprepare : ∀ after, ({ s with read }).prepare e true = .ok after ↔
      e.seq = s.revision ∧ ∃ q n, Progress.Step s.definition s.progress e q ∧
        e.encodedBytes = .ok n ∧ after = s.headAfter q n ∧ after.Admitted read := fun after =>
    Snapshot.prepare_admission_iff (s := { s with read }) hs.valid hs.progress
  have hjson : (do
      let j ← jsonbIn e.encode
      commitChecks s.head.encode s.definition.encode j) = .ok (p, n, reserve) ↔
      Storable e ∧ commitChecks s.head.encode s.definition.encode e.encode = .ok (p, n, reserve) := by
    rw [← storable_encode, jsonbIn]
    split <;> simp_all
  rw [hjson, hs.commitChecks_eq_ok]
  refine and_congr_right fun _ => ?_
  simp only [hprepare]
  constructor
  · rintro ⟨hseq, q, m, hq, hm, hfit, heq⟩
    obtain ⟨rfl, hn⟩ := Prod.mk.inj heq
    obtain ⟨rfl, rfl⟩ := Prod.mk.inj hn
    have he := s.head.capacity.entries_le
    have hb := s.head.capacity.bytes_le
    have hfe := hfit.1
    have hfb := hfit.2
    simp only [i64Max] at he hb
    simp only [Snapshot.headAfter] at hfe hfb
    have htransition : s.transition e = .ok (s.headAfter q m) :=
      Snapshot.transition_eq_ok.mpr ⟨q, m, hq, hm, by omega, by omega, rfl⟩
    obtain ⟨hreadable, hauth⟩ := hread _ htransition hfit
    exact ⟨s.headAfter q m, q.owedEntries, q.owedBytes,
      ⟨hseq, q, m, hq, hm, rfl, ⟨hfit, hreadable, hauth⟩⟩,
      Progress.reserve_eq hs.valid (hq.inv hs.valid hs.progress), rfl, rfl, rfl⟩
  · rintro ⟨_, entries, bytes, ⟨hseq, q, m, hq, hm, rfl, hadm⟩, hreserve, rfl, rfl, rfl⟩
    have howed : (s.headAfter q m).reserve = .ok (q.owedEntries, q.owedBytes) :=
      Progress.reserve_eq hs.valid (hq.inv hs.valid hs.progress)
    obtain ⟨rfl, rfl⟩ := Prod.mk.inj (Except.ok.inj (howed.symm.trans hreserve))
    exact ⟨hseq, q, m, hq, hm, hadm.durable, rfl⟩

/-! ### The order again -/

/-- The receipt of the order under a key reference that `jsonb` cannot store. -/
def nulReceipt : ProtectedReceipt := { orderReceipt with ciphertext := ⟨"\x00", [7]⟩ }

theorem lives_of_evolves {s s' : Snapshot} (h : s.Evolves s') : Lives s s' := ⟨s.read, h⟩

theorem orderPending_lives : ∃ s₀,
    Snapshot.empty orderHashing orderDefinition orderCapacity orderRead = .ok s₀ ∧
      Relation.ReflTransGen Lives s₀ orderPending := by
  obtain ⟨s₀, h₀, hr⟩ := orderSnapshot_reachable orderSnapshot_pending
  exact ⟨s₀, h₀, Relation.ReflTransGen.mono (fun _ _ => lives_of_evolves) _ _ hr⟩

/-- The events of the order, read under the budget of its first snapshot. -/
theorem orderRead_contains (e : Event) (after : HistoryHead)
    (h : orderPending.transition e = .ok after) (hfit : after.FitsIn after.capacity) :
    after.FitsIn orderRead.history ∧
      after.admittedReceipts * plaintextBytes ≤ orderRead.authenticationBytes := by
  obtain ⟨q, n, hq, -, -, -, rfl⟩ := Snapshot.transition_eq_ok.mp h
  have hle := Snapshot.admittedReceipts_headAfter_le (n := n) hq (by decide)
  have hhead : orderPending.head.admittedReceipts * plaintextBytes ≤
    orderRead.authenticationBytes := by decide
  exact ⟨hfit, (Nat.mul_le_mul_right _ hle).trans hhead⟩

theorem commit_agrees_order :
    (do
      let j ← jsonbIn (Event.encode ⟨1, 0, 1, .forwardApplied, some orderReceipt⟩)
      commitChecks orderPending.head.encode orderPending.definition.encode j) =
    .ok (Progress.encode ⟨.running, 1, 0, 0, none, 0, none, some .forwardApplied⟩, some 1803,
      .obj [("entries", .num 3), ("bytes", .num 768)]) := by
  obtain ⟨s₀, h₀, hr⟩ := orderPending_lives
  refine (commit_agrees h₀ hr _ orderRead (orderRead_contains _) _ _ _).mpr ⟨?_, ?_⟩
  · simp only [Storable, Option.mem_def, Option.some.injEq, forall_eq']
    decide
  · exact ⟨⟨2, 1803, orderCapacity, ⟨.running, 1, 0, 0, none, 0, none, some .forwardApplied⟩⟩,
      3, 768, by decide +kernel, by decide +kernel, rfl, rfl, rfl⟩

/-- The reducer takes a receipt whose key reference holds the zero character, and the type
of the SQL argument does not. -/
theorem commit_refuses_nul :
    ¬ ∀ (H : Hashing) (d : Definition) (capacity : HistoryCapacity) (read₀ read : ReadBudget)
        (s₀ s : Snapshot) (e : Event), Snapshot.empty H d capacity read₀ = .ok s₀ →
      Relation.ReflTransGen Lives s₀ s →
      (∀ after, s.transition e = .ok after → after.FitsIn after.capacity →
        after.FitsIn read.history ∧
          after.admittedReceipts * plaintextBytes ≤ read.authenticationBytes) →
      ((∃ r, (do
        let j ← jsonbIn e.encode
        commitChecks s.head.encode s.definition.encode j) = .ok r) ↔
      ∃ after, ({ s with read }).prepare e true = .ok after) := by
  intro h
  obtain ⟨s₀, h₀, hr⟩ := orderPending_lives
  obtain ⟨r, hr⟩ := (h _ _ _ _ orderRead _ _ ⟨1, 0, 1, .forwardApplied, some nulReceipt⟩ h₀ hr
    (orderRead_contains _)).mpr
      ⟨⟨2, 1779, orderCapacity, ⟨.running, 1, 0, 0, none, 0, none, some .forwardApplied⟩⟩,
        by decide +kernel⟩
  have hnul : jsonbIn (Event.encode ⟨1, 0, 1, .forwardApplied, some nulReceipt⟩) =
    .error .untranslatable := by decide +kernel
  rw [hnul] at hr
  cases hr

end Rss.SagaPostgres
