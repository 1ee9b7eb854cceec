import Rss.Model.SagaPostgres.Store
import Mathlib.Tactic

/-! # Journal integrity of the saga store

Whatever calls arrive, in whatever order and under whatever leases, the stored projection is
the fold of the stored journal. -/

namespace Rss.SagaPostgres

open Rss.Sql

/-! ### What a successful call does -/

theorem updateInstance_checks {db db' : Db} {key : Key} {row : Instance}
    (h : db.updateInstance key row = .ok db') : row.check = .ok () ∧
      db' = { db with instances := db.instances.modify key (fun _ => row) } := by
  obtain ⟨_, hc, h⟩ := bind_eq_ok.mp h
  exact ⟨hc, (Except.ok.inj h).symm⟩

theorem updateInstance_eq_ok {db db' : Db} {key : Key} {row : Instance}
    (h : db.updateInstance key row = .ok db') :
    db' = { db with instances := db.instances.modify key (fun _ => row) } :=
  (updateInstance_checks h).2

theorem insertJournal_eq_ok {db db' : Db} {key : Key} {q : ℤ} {row : JournalRow}
    (h : db.insertJournal key q row = .ok db') :
    db.journal.get? (key, q) = none ∧
      db' = { db with journal := db.journal.insertNew (key, q) row } := by
  obtain ⟨_, -, h⟩ := bind_eq_ok.mp h
  split at h
  · cases h
  · rename_i hfree
    simp only [not_or, Bool.not_eq_true, Option.isSome_eq_false_iff, Option.isNone_iff_eq_none]
      at hfree
    exact ⟨hfree.1, (Except.ok.inj h).symm⟩

theorem lockInstance_eq_ok {db : Db} {t id : Uuid} {token : Option Uuid} {epoch : Option ℤ}
    {clock : Clock} {row : Instance} (h : lockInstance db t id token epoch clock = .ok row) :
    db.instances.get? (t, id) = some row ∧ row.HeldBy token epoch clock.now := by
  unfold lockInstance at h
  split at h
  · rename_i row' hrow
    split at h
    · rename_i hheld
      obtain rfl := Except.ok.inj h
      exact ⟨hrow, hheld⟩
    · cases h
  · cases h

theorem register_eq_ok {db db' : Db} {t id : Uuid} {definition capacity : Json}
    (h : register db t id definition capacity = .ok db') :
    ∃ entries bytes, 0 < entries ∧ 0 < bytes ∧
      db' = { db with
        instances := db.instances.insertNew (t, id) (newInstance definition entries bytes) } := by
  obtain ⟨entries?, -, h⟩ := bind_eq_ok.mp h
  obtain ⟨bytes?, -, h⟩ := bind_eq_ok.mp h
  cases entries? with
  | none => cases h
  | some entries =>
      cases bytes? with
      | none => cases h
      | some bytes =>
          dsimp only at h
          split at h
          · cases h
          · rename_i hpos
            split at h
            · cases h
            · obtain ⟨_, -, h⟩ := bind_eq_ok.mp h
              obtain ⟨existing, -, h⟩ := bind_eq_ok.mp h
              split at h
              · cases h
              · exact ⟨entries, bytes, by omega, by omega, (Except.ok.inj h).symm⟩

theorem claim_eq_ok {db db' : Db} {clock : Clock} {t id : Uuid} {token : Option Uuid}
    {ttl : Option ℤ} {epoch : ℤ} (h : claim db clock t id token ttl = .ok (db', epoch)) :
    ∃ row holder span, db.instances.get? (t, id) = some row ∧ token = some holder ∧
      ttl = some span ∧ epoch = row.epoch + 1 ∧
      db' = { db with instances := db.instances.modify (t, id) (fun _ => { row with
        leaseToken := some holder
        epoch := row.epoch + 1
        expiresAt := some (clock.now + milliseconds span) }) } := by
  unfold claim at h
  split at h
  · rename_i holder span
    split at h
    · cases h
    · split at h
      · cases h
      · rename_i row hrow
        split at h
        · cases h
        · obtain ⟨_, hepoch, h⟩ := bind_eq_ok.mp h
          obtain ⟨_, hdb, h⟩ := bind_eq_ok.mp h
          obtain ⟨rfl, -⟩ := ranged_eq_ok.mp hepoch
          obtain ⟨rfl, rfl⟩ := Prod.mk.inj (Except.ok.inj h)
          exact ⟨row, holder, span, hrow, rfl, rfl, rfl, updateInstance_eq_ok hdb⟩
  · cases h

theorem lease_eq_ok {db db' : Db} {clock : Clock} {t id : Uuid} {token : Option Uuid}
    {epoch ttl : Option ℤ} (h : lease db clock t id token epoch ttl = .ok db') :
    ∃ row span, db.instances.get? (t, id) = some row ∧ row.HeldBy token epoch clock.now ∧
      ttl = some span ∧
      db' = { db with instances := db.instances.modify (t, id) (fun _ =>
        if span = 0 then { row with leaseToken := none, expiresAt := none }
        else { row with expiresAt := some (clock.tick.now + milliseconds span) }) } := by
  obtain ⟨row, hlock, h⟩ := bind_eq_ok.mp h
  obtain ⟨hrow, hheld⟩ := lockInstance_eq_ok hlock
  cases ttl with
  | none => cases h
  | some span =>
      refine ⟨row, span, hrow, hheld, rfl, ?_⟩
      dsimp only at h
      split at h
      · rename_i hz
        simpa [hz] using updateInstance_eq_ok h
      · rename_i hz
        split at h
        · simpa [hz] using updateInstance_eq_ok h
        · cases h

/-! ### Members of the locked head -/

@[simp] theorem member_head_progress (row : Instance) :
    member (some row.head) "progress" = some row.progress := rfl

@[simp] theorem member_head_capacity (row : Instance) :
    member (some row.head) "capacity" = some (.obj [("maxEntries", .num row.historyEntryLimit),
      ("maxEncodedBytes", .num row.historyByteLimit)]) := rfl

theorem bigint_eq_ok {j : Option Json} {key : String} {n : ℤ} {m : Option ℤ}
    (hj : member j key = some (.num n)) (h : bigint j key = .ok m) : m = some n := by
  rw [bigint, memberText, hj] at h
  exact castInteger_num_eq_ok h

/-- A stored bound is not above a value that passed the comparison with it. -/
theorem le_of_not_less {j : Option Json} {key : String} {n m : ℤ} {u : Truth}
    (hj : member j key = some (.num n))
    (h : (do return less (some m) (← bigint j key) : Outcome Truth) = .ok u)
    (hu : u ≠ some true) : n ≤ m := by
  obtain ⟨k, hk, h⟩ := bind_eq_ok.mp h
  obtain rfl := bigint_eq_ok hj hk
  obtain rfl := Except.ok.inj h
  simpa [less, comparing] using hu

theorem extendHistory_eq_ok {db db' : Db} {clock : Clock} {t id : Uuid} {token : Option Uuid}
    {epoch : Option ℤ} {revision : ℤ} {expected capacity : Json}
    (h : extendHistory db clock t id token epoch revision expected capacity = .ok db') :
    ∃ row entries bytes, db.instances.get? (t, id) = some row ∧
      row.HeldBy token epoch clock.now ∧ row.historyEntryLimit ≤ entries ∧
      row.historyByteLimit ≤ bytes ∧
      db' = { db with instances := db.instances.modify (t, id) (fun _ => { row with
        historyEntryLimit := entries, historyByteLimit := bytes }) } := by
  obtain ⟨entries?, -, h⟩ := bind_eq_ok.mp h
  obtain ⟨bytes?, -, h⟩ := bind_eq_ok.mp h
  obtain ⟨row, hlock, h⟩ := bind_eq_ok.mp h
  obtain ⟨hrow, hheld⟩ := lockInstance_eq_ok hlock
  obtain ⟨conflict, hconflict, h⟩ := bind_eq_ok.mp h
  split at h
  · cases h
  · rename_i hno
    obtain ⟨entries, hentries, h⟩ := bind_eq_ok.mp h
    obtain ⟨bytes, hbytes, h⟩ := bind_eq_ok.mp h
    obtain rfl := okOr_eq_ok.mp hentries
    obtain rfl := okOr_eq_ok.mp hbytes
    have hparts := anyOf_ne_true hconflict hno
    simp only [List.forall_mem_cons] at hparts
    obtain ⟨-, -, -, -, ⟨_, he, hne⟩, ⟨_, hb, hnb⟩, -⟩ := hparts
    exact ⟨row, entries, bytes, hrow, hheld, le_of_not_less rfl he hne, le_of_not_less rfl hb hnb,
      updateInstance_eq_ok h⟩

/-! ### Committing -/

/-- The history and what its projection reserves fit the stored limits. -/
def Instance.Reserved (row : Instance) : Prop :=
  ∃ entries bytes, historyReserve (some row.progress) =
      .ok (.obj [("entries", .num entries), ("bytes", .num bytes)]) ∧
    row.revision + entries ≤ row.historyEntryLimit ∧
    row.historyEncodedBytes + bytes ≤ row.historyByteLimit

/-- A row that satisfies its constraints has a forward count. -/
theorem forward_of_check {row : Instance} (h : row.check = .ok ()) :
    ∃ f, bigint (some row.progress) "forward" = .ok (some f) := by
  obtain ⟨_, -, h⟩ := bind_eq_ok.mp h
  obtain ⟨valid, hv, h⟩ := bind_eq_ok.mp h
  split at h
  · rename_i hg
    obtain ⟨-, -, -, -, -, -, -, rfl⟩ := hg
    obtain ⟨t, ht, hv⟩ := bind_eq_ok.mp hv
    have htrue : t = some true := by simpa using Except.ok.inj hv
    subst htrue
    have hparts := allOf_eq_true.mp ht
    simp only [List.forall_mem_cons] at hparts
    obtain ⟨-, -, -, -, -, -, -, -, -, -, hf, -⟩ := hparts
    obtain ⟨f, hf, hb⟩ := bind_eq_ok.mp hf
    cases f with
    | none => cases hb
    | some f => exact ⟨f, hf⟩
  · cases h

/-- With a forward count the reserve consists of two numbers. -/
theorem historyReserve_numbers {p : Option Json} {f : ℤ} {reserve : Json}
    (hf : bigint p "forward" = .ok (some f)) (h : historyReserve p = .ok reserve) :
    ∃ entries bytes, reserve = .obj [("entries", .num entries), ("bytes", .num bytes)] := by
  obtain ⟨⟨n, receipt⟩, hn, h⟩ := bind_eq_ok.mp h
  obtain ⟨bytes₁, hb₁, h⟩ := bind_eq_ok.mp h
  obtain ⟨bytes₂, hb₂, h⟩ := bind_eq_ok.mp h
  have hnum : ∃ entries, n = some entries := by
    unfold reserveEntries at hn
    dsimp only at hn
    split at hn
    · obtain ⟨_, hf', hn⟩ := bind_eq_ok.mp hn
      obtain rfl := Except.ok.inj (hf.symm.trans hf')
      obtain ⟨_, h₁, hn⟩ := bind_eq_ok.mp hn
      obtain rfl := arith_eq_ok h₁
      obtain ⟨_, h₂, hn⟩ := bind_eq_ok.mp hn
      obtain rfl := arith_eq_ok h₂
      obtain ⟨_, h₃, hn⟩ := bind_eq_ok.mp hn
      obtain rfl := arith_eq_ok h₃
      exact ⟨_, (Prod.mk.inj (Except.ok.inj hn)).1.symm⟩
    · split at hn
      · obtain ⟨c, -, hn⟩ := bind_eq_ok.mp hn
        obtain ⟨_, h₁, hn⟩ := bind_eq_ok.mp hn
        obtain rfl := arith_eq_ok h₁
        obtain ⟨current, -, hn⟩ := bind_eq_ok.mp hn
        obtain ⟨_, h₂, hn⟩ := bind_eq_ok.mp hn
        obtain rfl := arith_eq_ok h₂
        exact ⟨_, (Prod.mk.inj (Except.ok.inj hn)).1.symm⟩
      · split at hn
        · cases hn
        · exact ⟨0, (Prod.mk.inj (Except.ok.inj hn)).1.symm⟩
  obtain ⟨entries, rfl⟩ := hnum
  obtain rfl := arith_eq_ok hb₁
  obtain rfl := arith_eq_ok hb₂
  exact ⟨entries, _, (Except.ok.inj h).symm⟩

theorem checkCapacity_eq_ok {row : Instance} {n f : ℤ} {p reserve : Json}
    (h : checkCapacity row.head (some row.revision) (some n) p = .ok reserve)
    (hf : bigint (some p) "forward" = .ok (some f)) :
    ({ row with revision := row.revision + 1, progress := p, historyEncodedBytes := n } :
      Instance).Reserved := by
  obtain ⟨reserve', hr, h⟩ := bind_eq_ok.mp h
  obtain ⟨entries, bytes, rfl⟩ := historyReserve_numbers hf hr
  obtain ⟨excess, hover, h⟩ := bind_eq_ok.mp h
  split at h
  · cases h
  · rename_i hno
    have hparts := anyOf_ne_true hover hno
    simp only [List.forall_mem_cons] at hparts
    obtain ⟨⟨u, he, hu⟩, ⟨w, hb, hw⟩, -⟩ := hparts
    refine ⟨entries, bytes, hr, ?_, ?_⟩
    · obtain ⟨_, h₁, he⟩ := bind_eq_ok.mp he
      obtain rfl := arith_eq_ok h₁
      obtain ⟨_, h₂, he⟩ := bind_eq_ok.mp he
      obtain rfl := bigint_eq_ok rfl h₂
      obtain ⟨_, h₃, he⟩ := bind_eq_ok.mp he
      obtain rfl := arith_eq_ok h₃
      obtain ⟨_, h₄, he⟩ := bind_eq_ok.mp he
      obtain rfl := bigint_eq_ok rfl h₄
      obtain rfl := Except.ok.inj he
      simpa [less, comparing] using hu
    · obtain ⟨_, h₁, hb⟩ := bind_eq_ok.mp hb
      obtain rfl := bigint_eq_ok rfl h₁
      obtain ⟨_, h₂, hb⟩ := bind_eq_ok.mp hb
      obtain rfl := arith_eq_ok h₂
      obtain ⟨_, h₃, hb⟩ := bind_eq_ok.mp hb
      obtain rfl := bigint_eq_ok rfl h₃
      obtain rfl := Except.ok.inj hb
      simpa [less, comparing] using hw

/-- The projection depends on an event only through the members it reads. -/
theorem nextProgress_congr {p d e e' : Option Json}
    (hk : memberText e "kind" = memberText e' "kind")
    (hs : bigint e "step" = bigint e' "step") (ha : bigint e "attempt" = bigint e' "attempt")
    (hq : bigint e "seq" = bigint e' "seq") (hr : hasReceipt e = hasReceipt e')
    (hrs : bigint (member e "receipt") "seq" = bigint (member e' "receipt") "seq")
    (hra : bigint (member e "receipt") "attempt" = bigint (member e' "receipt") "attempt") :
    nextProgress p d e = nextProgress p d e' := by
  simp only [nextProgress, branch, hk, hs, ha, hq, hr, hrs, hra]

theorem bigint_of_castInteger {j : Option Json} {key : String} {n : ℤ} {t : Option String}
    (hj : member j key = some (.num n)) (h : castInteger 64 t = .ok (some n)) :
    bigint j key = .ok (some n) := by
  obtain ⟨_, -, -, hn⟩ := castInteger_eq_some.mp h
  rw [bigint, memberText, hj, Option.bind_some, castInteger_num, hn]
  rfl

/-- The event rebuilt from a row has the effect of the event the row was made from. -/
theorem nextProgress_event {p d : Option Json} {e : Json} {row : JournalRow} {q : ℤ}
    (hs : integer (some e) "step" = .ok (some row.step))
    (ha : bigint (some e) "attempt" = .ok (some row.attempt))
    (hk : memberText (some e) "kind" = some row.kind)
    (hq : bigint (some e) "seq" = .ok (some q))
    (hr : row.receipt =
      if member (some e) "receipt" = some .null then none else member (some e) "receipt") :
    nextProgress p d (some e) = nextProgress p d (some (row.event q)) := by
  have hstep : bigint (some e) "step" = .ok (some row.step) := castInteger_widen hs
  have hmem : member (some (row.event q)) "receipt" = some (ofJson row.receipt) := rfl
  refine nextProgress_congr (hk.trans rfl) (hstep.trans (bigint_of_castInteger rfl hstep).symm)
    (ha.trans (bigint_of_castInteger rfl ha).symm) (hq.trans (bigint_of_castInteger rfl hq).symm)
    ?_ ?_ ?_
  all_goals
    simp only [hasReceipt, hmem, hr]
    cases hj : member (some e) "receipt" with
    | none => rfl
    | some j => by_cases hnull : j = .null <;> simp [hnull, ofJson, member, Json.field?, bigint, memberText]

/-- The instance row after a round of replay over it. -/
def Instance.advanced (row : Instance) (state : Replay) (bytes : ℤ) : Instance :=
  { row with revision := state.q, progress := state.p, historyEncodedBytes := bytes }

theorem historyCharge_stored (r : Option Json) :
    historyCharge (if r = some .null then none else r) = historyCharge r := by
  by_cases h : r = some .null <;> simp [h, historyCharge]

/-- The checks of a commit are one round of replay over the row it stores. -/
theorem replayStep_of_project {row : Instance} {entry : JournalRow} {e p : Json}
    {n : Option ℤ} (hproj : project row.head row.definition e = .ok (n, p))
    (hseq : checkSeq (some row.revision) e = .ok ())
    (hnext : ranged 64 (row.revision + 1) = .ok (row.revision + 1))
    (hs : integer (some e) "step" = .ok (some entry.step))
    (ha : bigint (some e) "attempt" = .ok (some entry.attempt))
    (hk : memberText (some e) "kind" = some entry.kind)
    (hr : entry.receipt =
      if member (some e) "receipt" = some .null then none else member (some e) "receipt") :
    replayStep row.definition ⟨row.revision, row.progress, some row.historyEncodedBytes⟩ entry =
      .ok ⟨row.revision + 1, p, n⟩ := by
  obtain ⟨charge, hcharge, h⟩ := bind_eq_ok.mp hproj
  obtain ⟨bytes, hbytes, h⟩ := bind_eq_ok.mp h
  obtain ⟨sum, hsum, h⟩ := bind_eq_ok.mp h
  obtain ⟨q, hp, h⟩ := bind_eq_ok.mp h
  obtain ⟨rfl, rfl⟩ := Prod.mk.inj (Except.ok.inj h)
  obtain rfl := bigint_eq_ok rfl hbytes
  have hq : bigint (some e) "seq" = .ok (some row.revision) := by
    obtain ⟨seq, hq, h⟩ := bind_eq_ok.mp hseq
    split at h
    · cases h
    · rename_i heq
      rw [hq, not_not.mp heq]
  rw [member_head_progress, nextProgress_event hs ha hk hq hr] at hp
  simp only [replayStep, hr, historyCharge_stored, hcharge, ok_bind, hsum, hp, hnext]

/-- A successful commit appends one row, replays it, and leaves the reserve in place. -/
theorem commitEvent_eq_ok {db db' : Db} {clock : Clock} {t id : Uuid} {token : Option Uuid}
    {epoch : Option ℤ} {e before after : Json} {key : List UInt8}
    (h : commitEvent db clock t id token epoch e key before after = .ok db') :
    ∃ row entry state bytes, db.instances.get? (t, id) = some row ∧
      row.HeldBy token epoch clock.now ∧
      db.journal.get? ((t, id), row.revision) = none ∧
      replayStep row.definition ⟨row.revision, row.progress, some row.historyEncodedBytes⟩ entry =
        .ok state ∧
      state.q = row.revision + 1 ∧ state.bytes = some bytes ∧
      (row.advanced state bytes).Reserved ∧
      db' = { instances := db.instances.modify (t, id) (fun _ => row.advanced state bytes),
              journal := db.journal.insertNew ((t, id), row.revision) entry } := by
  obtain ⟨row, hlock, h⟩ := bind_eq_ok.mp h
  obtain ⟨hrow, hheld⟩ := lockInstance_eq_ok hlock
  obtain ⟨q, hq, h⟩ := bind_eq_ok.mp h
  obtain rfl := bigint_eq_ok rfl hq
  split at h
  · cases h
  · obtain ⟨_, hseq, h⟩ := bind_eq_ok.mp h
    split at h
    · cases h
    · split at h
      · cases h
      · obtain ⟨⟨n?, p⟩, hproj, h⟩ := bind_eq_ok.mp h
        obtain ⟨next, hnext, h⟩ := bind_eq_ok.mp h
        obtain rfl := arith_eq_ok hnext
        dsimp only at h
        split at h
        · cases h
        · obtain ⟨reserve, hcap, h⟩ := bind_eq_ok.mp h
          obtain ⟨step?, hstep, h⟩ := bind_eq_ok.mp h
          obtain ⟨step, hs, h⟩ := bind_eq_ok.mp h
          obtain ⟨attempt?, hattempt, h⟩ := bind_eq_ok.mp h
          obtain ⟨attempt, ha, h⟩ := bind_eq_ok.mp h
          obtain ⟨kind, hkind, h⟩ := bind_eq_ok.mp h
          obtain ⟨charge?, hcharge, h⟩ := bind_eq_ok.mp h
          obtain ⟨charge, hc, h⟩ := bind_eq_ok.mp h
          obtain ⟨db₁, hinsert, h⟩ := bind_eq_ok.mp h
          obtain ⟨revision, hrev, h⟩ := bind_eq_ok.mp h
          obtain ⟨bytes, hbytes, h⟩ := bind_eq_ok.mp h
          obtain rfl := Option.some.inj (okOr_eq_ok.mp hrev)
          obtain rfl := okOr_eq_ok.mp hbytes
          obtain ⟨hfree, rfl⟩ := insertJournal_eq_ok hinsert
          obtain ⟨hcheck, rfl⟩ := updateInstance_checks h
          obtain ⟨f, hf⟩ := forward_of_check hcheck
          refine ⟨row, _, ⟨row.revision + 1, p, some bytes⟩, bytes, hrow, hheld, hfree, ?_, rfl,
            rfl, checkCapacity_eq_ok hcap hf, rfl⟩
          rw [okOr_eq_ok.mp hs] at hstep
          rw [okOr_eq_ok.mp ha] at hattempt
          have hrange : ranged 64 (row.revision + 1) = .ok (row.revision + 1) := by
            obtain ⟨m, hm, -⟩ := bind_eq_ok.mp hnext
            obtain ⟨rfl, -⟩ := ranged_eq_ok.mp hm
            exact hm
          exact replayStep_of_project hproj hseq hrange hstep hattempt (okOr_eq_ok.mp hkind) rfl

/-! ### The stored history -/

/-- An instance row is the replay of its journal and keeps its reserve. -/
structure Consistent (journal : Table (Key × ℤ) JournalRow) (key : Key) (row : Instance) :
    Prop where
  revision_nonneg : 0 ≤ row.revision
  replayed : ∃ rows, history journal key row.revision.toNat = some rows ∧
    replay row.definition rows = .ok ⟨row.revision, row.progress, some row.historyEncodedBytes⟩
  reserved : 0 < row.revision → row.Reserved

structure Db.Inv (db : Db) : Prop where
  rows : ∀ key row, db.instances.get? key = some row → Consistent db.journal key row
  seqs : ∀ key q, (db.journal.get? (key, q)).isSome →
    ∃ row, db.instances.get? key = some row ∧ 0 ≤ q ∧ q < row.revision

theorem history_congr {journal journal' : Table (Key × ℤ) JournalRow} {key : Key} {n : ℕ}
    (h : ∀ q : ℕ, q < n → journal'.get? (key, (q : ℤ)) = journal.get? (key, (q : ℤ))) :
    history journal' key n = history journal key n := by
  induction n with
  | zero => rfl
  | succ n ih =>
      simp only [history, ih (fun q hq => h q (by omega)), h n (Nat.lt_succ_self n)]

theorem isSome_of_history {journal : Table (Key × ℤ) JournalRow} {key : Key} {n : ℕ}
    {rows : List JournalRow} (h : history journal key n = some rows) {q : ℕ} (hq : q < n) :
    (journal.get? (key, (q : ℤ))).isSome := by
  induction n generalizing rows with
  | zero => omega
  | succ n ih =>
      simp only [history, Option.bind_eq_bind, Option.bind_eq_some_iff] at h
      obtain ⟨rows', hrows, row, hrow, -⟩ := h
      rcases Nat.lt_succ_iff_lt_or_eq.mp hq with hlt | rfl
      · exact ih hrows hlt
      · simp [hrow]

/-- Lease and limit updates leave the history alone. -/
theorem Db.Inv.modify {db : Db} {key : Key} {row row' : Instance} (hi : db.Inv)
    (hrow : db.instances.get? key = some row) (hd : row'.definition = row.definition)
    (hq : row'.revision = row.revision) (hp : row'.progress = row.progress)
    (hb : row'.historyEncodedBytes = row.historyEncodedBytes)
    (hel : row.historyEntryLimit ≤ row'.historyEntryLimit)
    (hbl : row.historyByteLimit ≤ row'.historyByteLimit) :
    Db.Inv { db with instances := db.instances.modify key (fun _ => row') } := by
  have hold := hi.rows key row hrow
  constructor
  · intro k r hr
    by_cases hk : k = key
    · subst hk
      obtain rfl : row' = r := by simpa [hrow] using hr
      refine ⟨hq ▸ hold.revision_nonneg, ?_, ?_⟩
      · rw [hd, hq, hp, hb]
        exact hold.replayed
      · intro hpos
        obtain ⟨entries, bytes, hr, he, hbytes⟩ := hold.reserved (hq ▸ hpos)
        exact ⟨entries, bytes, hp ▸ hr, by omega, by omega⟩
    · rw [Table.get?_modify_of_ne _ hk] at hr
      exact hi.rows k r hr
  · intro k q hsome
    obtain ⟨r, hr, hq0, hlt⟩ := hi.seqs k q hsome
    by_cases hk : k = key
    · subst hk
      obtain rfl := Option.some.inj (hrow.symm.trans hr)
      exact ⟨row', by simp [hrow], hq0, by omega⟩
    · exact ⟨r, by simpa [Table.get?_modify_of_ne _ hk] using hr, hq0, hlt⟩

theorem Db.Inv.register {db : Db} {key : Key} (hi : db.Inv) (definition : Json)
    (entries bytes : ℤ) :
    Db.Inv { db with
      instances := db.instances.insertNew key (newInstance definition entries bytes) } := by
  constructor
  · intro k r hr
    simp only [Table.get?_insertNew] at hr
    split at hr
    · rename_i hk
      subst hk
      cases hold : db.instances.get? k with
      | some row =>
          obtain rfl : row = r := by simpa [hold] using hr
          exact hi.rows k row hold
      | none =>
          obtain rfl : newInstance definition entries bytes = r := by simpa [hold] using hr
          exact ⟨le_refl 0, ⟨[], rfl, rfl⟩, fun hpos => absurd hpos (lt_irrefl 0)⟩
    · exact hi.rows k r hr
  · intro k q hsome
    obtain ⟨r, hr, hq⟩ := hi.seqs k q hsome
    refine ⟨r, ?_, hq⟩
    simp only [Table.get?_insertNew]
    split
    · rename_i hk
      subst hk
      simp [hr]
    · exact hr

/-- Appending the row that was replayed keeps every instance consistent. -/
theorem Db.Inv.commit {db : Db} {key : Key} {row : Instance} {entry : JournalRow}
    {state : Replay} {bytes : ℤ} (hi : db.Inv) (hrow : db.instances.get? key = some row)
    (hfree : db.journal.get? (key, row.revision) = none)
    (hstep : replayStep row.definition
      ⟨row.revision, row.progress, some row.historyEncodedBytes⟩ entry = .ok state)
    (hq : state.q = row.revision + 1) (hb : state.bytes = some bytes)
    (hres : (row.advanced state bytes).Reserved) :
    Db.Inv { instances := db.instances.modify key (fun _ => row.advanced state bytes),
             journal := db.journal.insertNew (key, row.revision) entry } := by
  have hold := hi.rows key row hrow
  have hnonneg := hold.revision_nonneg
  obtain ⟨rows, hrows, hreplay⟩ := hold.replayed
  have hframe : ∀ k (q : ℤ), (k, q) ≠ (key, row.revision) →
      (db.journal.insertNew (key, row.revision) entry).get? (k, q) = db.journal.get? (k, q) := by
    intro k q hne
    simp [Table.get?_insertNew, hne]
  constructor
  · intro k r hr
    by_cases hk : k = key
    · subst hk
      obtain rfl : row.advanced state bytes = r := by simpa [hrow] using hr
      refine ⟨by simp only [Instance.advanced]; omega, ?_, fun _ => hres⟩
      refine ⟨rows ++ [entry], ?_, ?_⟩
      · have hn : (row.advanced state bytes).revision.toNat = row.revision.toNat + 1 := by
          simp only [Instance.advanced]
          omega
        have hcast : ((row.revision.toNat : ℕ) : ℤ) = row.revision := by omega
        have hbefore : history (db.journal.insertNew (k, row.revision) entry) k
            row.revision.toNat = some rows := by
          rw [← hrows]
          refine history_congr (fun q hlt => hframe k q ?_)
          intro heq
          have := (Prod.mk.inj heq).2
          omega
        rw [hn, history, hbefore]
        simp [hcast, hfree]
      · have hstate : state = ⟨row.revision + 1, state.p, some bytes⟩ := by
          rw [← hq, ← hb]
        simp only [replay] at hreplay
        simp only [replay, Instance.advanced, List.foldlM_append, hreplay, ok_bind,
          List.foldlM_cons, List.foldlM_nil, hstep]
        rw [hstate]
        rfl
    · rw [Table.get?_modify_of_ne _ hk] at hr
      obtain ⟨hpos, ⟨rs, hrs, hrep⟩, hreserved⟩ := hi.rows k r hr
      refine ⟨hpos, ⟨rs, ?_, hrep⟩, hreserved⟩
      rw [← hrs]
      exact history_congr (fun q _ => hframe k q (fun heq => hk (Prod.mk.inj heq).1))
  · intro k q hsome
    by_cases hkq : (k, q) = (key, row.revision)
    · obtain ⟨rfl, rfl⟩ := Prod.mk.inj hkq
      refine ⟨row.advanced state bytes, by simp [hrow], hnonneg, ?_⟩
      simp only [Instance.advanced]
      omega
    · rw [show (Table.get? _ (k, q)) = _ from hframe k q hkq] at hsome
      obtain ⟨r, hr, hq0, hlt⟩ := hi.seqs k q hsome
      by_cases hk : k = key
      · subst hk
        obtain rfl := Option.some.inj (hrow.symm.trans hr)
        refine ⟨row.advanced state bytes, by simp [hrow], hq0, ?_⟩
        simp only [Instance.advanced]
        omega
      · exact ⟨r, by simpa [Table.get?_modify_of_ne _ hk] using hr, hq0, hlt⟩

theorem jsonbIn_eq_ok {j j' : Json} (h : jsonbIn j = .ok j') : j' = j := by
  unfold jsonbIn at h
  split at h
  · exact (Except.ok.inj h).symm
  · cases h

/-- The changes a successful call can make, by the kind of call. -/
theorem execute_eq_ok {db db' : Db} {clock : Clock} {t id : Uuid} {call : Call} {out : Option ℤ}
    (h : execute db clock t id call = .ok (db', out)) :
    match call with
    | .register definition capacity => out = none ∧ register db t id definition capacity = .ok db'
    | .claim token ttl => ∃ epoch, out = some epoch ∧ claim db clock t id token ttl = .ok (db', epoch)
    | .lease token epoch ttl => out = none ∧ lease db clock t id token epoch ttl = .ok db'
    | .extendHistory token epoch revision expected capacity => out = none ∧
        extendHistory db clock t id token epoch revision expected capacity = .ok db'
    | .commitEvent token epoch event key before after => out = none ∧
        commitEvent db clock t id token epoch event key before after = .ok db' := by
  cases call with
  | register definition capacity =>
      obtain ⟨_, hd, h⟩ := bind_eq_ok.mp h
      obtain ⟨_, hc, h⟩ := bind_eq_ok.mp h
      obtain ⟨db₁, hdb, h⟩ := bind_eq_ok.mp h
      obtain ⟨rfl, rfl⟩ := Prod.mk.inj (Except.ok.inj h)
      obtain rfl := jsonbIn_eq_ok hd
      obtain rfl := jsonbIn_eq_ok hc
      exact ⟨rfl, hdb⟩
  | claim token ttl =>
      obtain ⟨⟨db₁, epoch⟩, hdb, h⟩ := bind_eq_ok.mp h
      obtain ⟨rfl, rfl⟩ := Prod.mk.inj (Except.ok.inj h)
      exact ⟨epoch, rfl, hdb⟩
  | lease token epoch ttl =>
      obtain ⟨db₁, hdb, h⟩ := bind_eq_ok.mp h
      obtain ⟨rfl, rfl⟩ := Prod.mk.inj (Except.ok.inj h)
      exact ⟨rfl, hdb⟩
  | extendHistory token epoch revision expected capacity =>
      obtain ⟨_, hd, h⟩ := bind_eq_ok.mp h
      obtain ⟨_, hc, h⟩ := bind_eq_ok.mp h
      obtain ⟨db₁, hdb, h⟩ := bind_eq_ok.mp h
      obtain ⟨rfl, rfl⟩ := Prod.mk.inj (Except.ok.inj h)
      obtain rfl := jsonbIn_eq_ok hd
      obtain rfl := jsonbIn_eq_ok hc
      exact ⟨rfl, hdb⟩
  | commitEvent token epoch event key before after =>
      obtain ⟨_, he, h⟩ := bind_eq_ok.mp h
      obtain ⟨_, hb, h⟩ := bind_eq_ok.mp h
      obtain ⟨_, ha, h⟩ := bind_eq_ok.mp h
      obtain ⟨db₁, hdb, h⟩ := bind_eq_ok.mp h
      obtain ⟨rfl, rfl⟩ := Prod.mk.inj (Except.ok.inj h)
      obtain rfl := jsonbIn_eq_ok he
      obtain rfl := jsonbIn_eq_ok hb
      obtain rfl := jsonbIn_eq_ok ha
      exact ⟨rfl, hdb⟩

theorem Db.Inv.execute {db db' : Db} {clock : Clock} {t id : Uuid} {call : Call}
    {out : Option ℤ} (hi : db.Inv) (h : execute db clock t id call = .ok (db', out)) :
    db'.Inv := by
  have hcall := execute_eq_ok h
  cases call with
  | register definition capacity =>
      obtain ⟨entries, bytes, -, -, rfl⟩ := register_eq_ok hcall.2
      exact hi.register definition entries bytes
  | claim token ttl =>
      obtain ⟨epoch, -, hclaim⟩ := hcall
      obtain ⟨row, holder, span, hrow, -, -, -, rfl⟩ := claim_eq_ok hclaim
      exact hi.modify hrow rfl rfl rfl rfl le_rfl le_rfl
  | lease token epoch ttl =>
      obtain ⟨row, span, hrow, -, -, rfl⟩ := lease_eq_ok hcall.2
      by_cases hz : span = 0
      · simp only [hz, if_true]
        exact hi.modify hrow rfl rfl rfl rfl le_rfl le_rfl
      · simp only [hz, if_false]
        exact hi.modify hrow rfl rfl rfl rfl le_rfl le_rfl
  | extendHistory token epoch revision expected capacity =>
      obtain ⟨row, entries, bytes, hrow, -, he, hb, rfl⟩ := extendHistory_eq_ok hcall.2
      exact hi.modify hrow rfl rfl rfl rfl he hb
  | commitEvent token epoch event key before after =>
      obtain ⟨row, entry, state, bytes, hrow, -, hfree, hstep, hq, hbytes, hres, rfl⟩ :=
        commitEvent_eq_ok hcall.2
      exact hi.commit hrow hfree hstep hq hbytes hres

/-! ### Leases along a run -/

/-- The latest claim of an instance while it has not been released. -/
structure Holding where
  token : Uuid
  epoch : ℤ
  expires : ℤ

/-- What an observer of one instance records of a run: the tables, the current holding and
the epochs that claims returned. -/
structure Log where
  db : Db
  held : Option Holding
  epochs : List ℤ

/-- Record a committed call on the observed instance. -/
def Log.record (log : Log) (clock : Clock) (call : Call) (out : Option ℤ) : Log :=
  match call, out with
  | .claim (some token) (some ttl), some epoch =>
      { log with
        held := some ⟨token, epoch, clock.now + milliseconds ttl⟩
        epochs := log.epochs ++ [epoch] }
  | .lease _ _ (some ttl), _ =>
      { log with
        held := if ttl = 0 then none
          else log.held.map (fun w => { w with expires := clock.tick.now + milliseconds ttl }) }
  | _, _ => log

def Log.step (key : Key) (log : Log) (a : Action) : Log :=
  match execute log.db a.clock a.tenant a.id a.call with
  | .error _ => log
  | .ok (db, out) =>
      if a.key = key then { log.record a.clock a.call out with db } else { log with db }

def Log.run (key : Key) (actions : List Action) : Log :=
  actions.foldl (Log.step key) ⟨.empty, none, []⟩

/-- The lease columns of the row are those of the recorded holding. -/
structure Log.Matches (log : Log) (row : Instance) : Prop where
  token : row.leaseToken = log.held.map Holding.token
  expires : row.expiresAt = log.held.map Holding.expires
  epoch : ∀ w ∈ log.held, w.epoch = row.epoch
  latest : log.epochs.getLast?.getD 0 = row.epoch
  bound : ∀ e ∈ log.epochs, e ≤ row.epoch

structure Log.Inv (key : Key) (log : Log) : Prop where
  db : log.db.Inv
  present : ∀ row, log.db.instances.get? key = some row → log.Matches row
  absent : log.db.instances.get? key = none → log.held = none ∧ log.epochs = []
  increasing : log.epochs.Pairwise (· < ·)
  latest : ∀ w ∈ log.held, log.epochs.getLast? = some w.epoch

/-- Calls on other instances leave the row alone. -/
theorem execute_frame {db db' : Db} {clock : Clock} {t id : Uuid} {call : Call}
    {out : Option ℤ} {key : Key} (h : execute db clock t id call = .ok (db', out))
    (hne : key ≠ (t, id)) : db'.instances.get? key = db.instances.get? key := by
  have hcall := execute_eq_ok h
  cases call with
  | register definition capacity =>
      obtain ⟨entries, bytes, -, -, rfl⟩ := register_eq_ok hcall.2
      simp [Table.get?_insertNew, hne]
  | claim token ttl =>
      obtain ⟨epoch, -, hclaim⟩ := hcall
      obtain ⟨row, holder, span, -, -, -, -, rfl⟩ := claim_eq_ok hclaim
      exact Table.get?_modify_of_ne _ hne _
  | lease token epoch ttl =>
      obtain ⟨row, span, -, -, -, rfl⟩ := lease_eq_ok hcall.2
      exact Table.get?_modify_of_ne _ hne _
  | extendHistory token epoch revision expected capacity =>
      obtain ⟨row, entries, bytes, -, -, -, -, rfl⟩ := extendHistory_eq_ok hcall.2
      exact Table.get?_modify_of_ne _ hne _
  | commitEvent token epoch event key' before after =>
      obtain ⟨row, entry, state, bytes, -, -, -, -, -, -, -, rfl⟩ := commitEvent_eq_ok hcall.2
      exact Table.get?_modify_of_ne _ hne _

/-- An update that keeps the lease columns keeps the record. -/
theorem Log.Inv.keep {key : Key} {log : Log} {db : Db} {row row' : Instance}
    (hi : log.Inv key) (hdb : db.Inv) (hrow : log.db.instances.get? key = some row)
    (hrow' : db.instances.get? key = some row') (ht : row'.leaseToken = row.leaseToken)
    (hx : row'.expiresAt = row.expiresAt) (he : row'.epoch = row.epoch) :
    Log.Inv key { log with db } := by
  obtain ⟨htoken, hexpires, hepoch, hlast, hbound⟩ := hi.present row hrow
  refine ⟨hdb, ?_, ?_, hi.increasing, hi.latest⟩
  · intro r hr
    obtain rfl := Option.some.inj (hrow'.symm.trans hr)
    exact ⟨ht.trans htoken, hx.trans hexpires, fun w hw => (hepoch w hw).trans he.symm,
      hlast.trans he.symm, fun e hmem => (hbound e hmem).trans_eq he.symm⟩
  · intro hr
    simp [hrow'] at hr

theorem Log.Inv.claim {key : Key} {log : Log} {db : Db} {row : Instance} {token : Uuid}
    {expires : ℤ} (hi : log.Inv key) (hdb : db.Inv)
    (hrow : log.db.instances.get? key = some row)
    (hrow' : db.instances.get? key = some { row with
      leaseToken := some token, epoch := row.epoch + 1, expiresAt := some expires }) :
    Log.Inv key ⟨db, some ⟨token, row.epoch + 1, expires⟩, log.epochs ++ [row.epoch + 1]⟩ := by
  have hbound := (hi.present row hrow).bound
  refine ⟨hdb, ?_, ?_, ?_, by simp⟩
  · intro r hr
    obtain rfl := Option.some.inj (hrow'.symm.trans hr)
    refine ⟨rfl, rfl, by simp, by simp, ?_⟩
    intro e he
    rcases List.mem_append.mp he with he | he
    · have := hbound e he
      simp only
      omega
    · exact (List.mem_singleton.mp he).le
  · intro hr
    simp [hrow'] at hr
  · refine List.pairwise_append.mpr ⟨hi.increasing, List.pairwise_singleton _ _, ?_⟩
    intro e he e' he'
    obtain rfl := List.mem_singleton.mp he'
    have := hbound e he
    omega

theorem Log.Inv.release {key : Key} {log : Log} {db : Db} {row : Instance} (hi : log.Inv key)
    (hdb : db.Inv) (hrow : log.db.instances.get? key = some row)
    (hrow' : db.instances.get? key = some { row with leaseToken := none, expiresAt := none }) :
    Log.Inv key ⟨db, none, log.epochs⟩ := by
  have hold := hi.present row hrow
  refine ⟨hdb, ?_, ?_, hi.increasing, by simp⟩
  · intro r hr
    obtain rfl := Option.some.inj (hrow'.symm.trans hr)
    exact ⟨rfl, rfl, by simp, hold.latest, hold.bound⟩
  · intro hr
    simp [hrow'] at hr

theorem Log.Inv.renew {key : Key} {log : Log} {db : Db} {row : Instance} {expires now : ℤ}
    {token : Option Uuid} {epoch : Option ℤ} (hi : log.Inv key) (hdb : db.Inv)
    (hrow : log.db.instances.get? key = some row)
    (hrow' : db.instances.get? key = some { row with expiresAt := some expires })
    (hheld : row.HeldBy token epoch now) :
    Log.Inv key ⟨db, log.held.map (fun w => { w with expires }), log.epochs⟩ := by
  have hold := hi.present row hrow
  obtain ⟨old, hexp, -⟩ := hheld.2.2.2.2
  obtain ⟨w, hw, -⟩ := Option.map_eq_some_iff.mp (hold.expires.symm.trans hexp)
  refine ⟨hdb, ?_, ?_, hi.increasing, ?_⟩
  · intro r hr
    obtain rfl := Option.some.inj (hrow'.symm.trans hr)
    refine ⟨?_, by simp [hw], ?_, hold.latest, hold.bound⟩
    · simpa [hw] using hold.token
    · simpa [hw] using hold.epoch w hw
  · intro hr
    simp [hrow'] at hr
  · simpa [hw] using hi.latest w hw

theorem Log.Inv.execute {key : Key} {log : Log} {db : Db} {clock : Clock} {call : Call}
    {out : Option ℤ} (hi : log.Inv key)
    (h : execute log.db clock key.1 key.2 call = .ok (db, out)) :
    Log.Inv key { log.record clock call out with db } := by
  have hdb := hi.db.execute h
  have hcall := execute_eq_ok h
  cases call with
  | register definition capacity =>
      obtain ⟨rfl, hreg⟩ := hcall
      obtain ⟨entries, bytes, -, -, rfl⟩ := register_eq_ok hreg
      cases hrow : log.db.instances.get? key with
      | some row =>
          exact hi.keep hdb hrow (by simp [hrow]) rfl rfl rfl
      | none =>
          obtain ⟨hheld, hepochs⟩ := hi.absent hrow
          refine ⟨hdb, ?_, ?_, hi.increasing, hi.latest⟩
          · intro r hr
            obtain rfl : newInstance definition entries bytes = r := by simpa [hrow] using hr
            constructor <;> simp [Log.record, hheld, hepochs, newInstance]
          · intro hr
            simp at hr
  | claim token ttl =>
      obtain ⟨epoch, rfl, hclaim⟩ := hcall
      obtain ⟨row, holder, span, hrow, rfl, rfl, rfl, rfl⟩ := claim_eq_ok hclaim
      exact hi.claim hdb hrow (Table.get?_modify_const hrow _)
  | lease token epoch ttl =>
      obtain ⟨rfl, hlease⟩ := hcall
      obtain ⟨row, span, hrow, hheld, rfl, rfl⟩ := lease_eq_ok hlease
      have hrow' := Table.get?_modify_const hrow
      by_cases hz : span = 0
      · simp only [hz, if_true] at hdb ⊢
        exact hi.release hdb hrow (hrow' _)
      · simp only [hz, if_false] at hdb ⊢
        simp only [Log.record, hz, if_false]
        exact hi.renew hdb hrow (hrow' _) hheld
  | extendHistory token epoch revision expected capacity =>
      obtain ⟨rfl, hext⟩ := hcall
      obtain ⟨row, entries, bytes, hrow, -, -, -, rfl⟩ := extendHistory_eq_ok hext
      exact hi.keep hdb hrow (Table.get?_modify_const hrow _) rfl rfl rfl
  | commitEvent token epoch event key' before after =>
      obtain ⟨rfl, hcommit⟩ := hcall
      obtain ⟨row, entry, state, bytes, hrow, -, -, -, -, -, -, rfl⟩ := commitEvent_eq_ok hcommit
      exact hi.keep hdb hrow (Table.get?_modify_const hrow _) rfl rfl rfl

theorem Log.Inv.step {key : Key} {log : Log} (hi : log.Inv key) (a : Action) :
    (log.step key a).Inv key := by
  unfold Log.step
  split
  · exact hi
  · rename_i db out h
    split
    · rename_i hkey
      subst hkey
      exact hi.execute h
    · rename_i hkey
      have hframe := execute_frame h (Ne.symm hkey)
      refine ⟨hi.db.execute h, ?_, ?_, hi.increasing, hi.latest⟩
      · intro row hrow
        obtain ⟨htoken, hexpires, hepoch, hlast, hbound⟩ := hi.present row (hframe ▸ hrow)
        exact ⟨htoken, hexpires, hepoch, hlast, hbound⟩
      · intro hrow
        exact hi.absent (hframe ▸ hrow)

theorem Log.inv_run (key : Key) (actions : List Action) : (Log.run key actions).Inv key := by
  have hempty : Log.Inv key ⟨.empty, none, []⟩ :=
    ⟨⟨by simp [Db.empty], by simp [Db.empty]⟩, by simp [Db.empty], by simp, List.Pairwise.nil,
      by simp⟩
  suffices h : ∀ log : Log, log.Inv key → (actions.foldl (Log.step key) log).Inv key from
    h _ hempty
  induction actions with
  | nil => exact fun _ hi => hi
  | cons a actions ih => exact fun log hi => ih _ (hi.step a)

theorem Log.run_db (key : Key) (actions : List Action) :
    (Log.run key actions).db = Db.run actions := by
  suffices h : ∀ log : Log, (actions.foldl (Log.step key) log).db = actions.foldl Db.step log.db
    from h _
  induction actions with
  | nil => exact fun _ => rfl
  | cons a actions ih =>
      intro log
      have hstep : (log.step key a).db = log.db.step a := by
        unfold Log.step Db.step Db.after
        cases execute log.db a.clock a.tenant a.id a.call with
        | error e => rfl
        | ok result =>
            dsimp only
            split <;> rfl
      rw [List.foldl_cons, List.foldl_cons, ih, hstep]

/-! ### Integrity -/

/-- A call under a token and epoch commits only while the row is held by them. -/
theorem heldBy_of_execute {db db' : Db} {clock : Clock} {t id : Uuid} {call : Call}
    {out : Option ℤ} {token : Option Uuid} {epoch : Option ℤ}
    (h : execute db clock t id call = .ok (db', out))
    (ha : call.authority = some (token, epoch)) :
    ∃ row, db.instances.get? (t, id) = some row ∧ row.HeldBy token epoch clock.now := by
  have hcall := execute_eq_ok h
  cases call with
  | register definition capacity => cases ha
  | claim token ttl => cases ha
  | lease token epoch ttl =>
      cases ha
      obtain ⟨row, _, hrow, hheld, -⟩ := lease_eq_ok hcall.2
      exact ⟨row, hrow, hheld⟩
  | extendHistory token epoch revision expected capacity =>
      cases ha
      obtain ⟨row, _, _, hrow, hheld, -⟩ := extendHistory_eq_ok hcall.2
      exact ⟨row, hrow, hheld⟩
  | commitEvent token epoch event key before after =>
      cases ha
      obtain ⟨row, _, _, _, hrow, hheld, -⟩ := commitEvent_eq_ok hcall.2
      exact ⟨row, hrow, hheld⟩

/-- The credential is the latest claim, neither released nor expired. -/
def Log.Live (log : Log) (token : Option Uuid) (epoch : Option ℤ) (now : ℤ) : Prop :=
  ∃ w ∈ log.held, token = some w.token ∧ epoch = some w.epoch ∧ now < w.expires

/-- What holds of one instance after any run. -/
structure Integrity (key : Key) (log : Log) : Prop where
  consecutive : ∀ q, (log.db.journal.get? (key, q)).isSome ↔
    ∃ row, log.db.instances.get? key = some row ∧ 0 ≤ q ∧ q < row.revision
  replayed : ∀ row, log.db.instances.get? key = some row →
    ∃ rows, history log.db.journal key row.revision.toNat = some rows ∧
      replay row.definition rows = .ok ⟨row.revision, row.progress, some row.historyEncodedBytes⟩
  reserved : ∀ row, log.db.instances.get? key = some row → 0 < row.revision → row.Reserved
  increasing : log.epochs.Pairwise (· < ·)
  stored : ∀ row, log.db.instances.get? key = some row → row.epoch = log.epochs.getLast?.getD 0
  latest : ∀ w ∈ log.held, log.epochs.getLast? = some w.epoch
  fenced : ∀ clock call token epoch, call.authority = some (token, epoch) →
    ¬ log.Live token epoch clock.now → log.db.after clock key.1 key.2 call = log.db

theorem Log.Inv.integrity {key : Key} {log : Log} (hi : log.Inv key) : Integrity key log := by
  refine ⟨?_, fun row hrow => (hi.db.rows key row hrow).replayed,
    fun row hrow => (hi.db.rows key row hrow).reserved, hi.increasing,
    fun row hrow => (hi.present row hrow).latest.symm, hi.latest, ?_⟩
  · intro q
    refine ⟨hi.db.seqs key q, ?_⟩
    rintro ⟨row, hrow, hq, hlt⟩
    obtain ⟨rows, hrows, -⟩ := (hi.db.rows key row hrow).replayed
    have hsome := isSome_of_history hrows (q := q.toNat) (by omega)
    rwa [Int.toNat_of_nonneg hq] at hsome
  · intro clock call token epoch hauth hlive
    unfold Db.after
    split
    · rename_i db out h
      obtain ⟨row, hrow, htoken, hrowToken, hepoch, -, expires, hexpires, hlt⟩ :=
        heldBy_of_execute h hauth
      have hold := hi.present row hrow
      obtain ⟨w, hw, rfl⟩ := Option.map_eq_some_iff.mp (hold.expires.symm.trans hexpires)
      refine absurd ⟨w, hw, ?_, ?_, hlt⟩ hlive
      · rw [← hrowToken, hold.token, hw, Option.map_some]
      · rw [hepoch, hold.epoch w hw]
    · rfl

/-- After any sequence of calls by any workers the journal of an instance is consecutive and
explains its projection, the reserve fits, epochs only grow, and credentials that are not
live change nothing. -/
theorem journal_integrity (key : Key) (actions : List Action) :
    (Log.run key actions).db = Db.run actions ∧ Integrity key (Log.run key actions) :=
  ⟨Log.run_db key actions, (Log.inv_run key actions).integrity⟩

end Rss.SagaPostgres
