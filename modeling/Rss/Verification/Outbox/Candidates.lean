import Rss.Verification.Outbox.Reachable

/-! # The candidate queries

What it means to be a candidate, and that the outer join and the union over materialised
members both find exactly that. -/

namespace Rss.Outbox

open Rss.Sql

namespace Db

variable (db : Db) (g : Generation)

/-- A member that still has to deliver a source in this generation. -/
def Unfinished (seq : ℤ) (k : MemberKey) (m : Member) : Prop :=
  db.members.get? k = some m ∧ m.outboxSeq = some seq ∧ m.status ≠ .completed ∧
    db.current g k = true

theorem mem_unfinishedMembers {seq : ℤ} {row : MemberKey × Member} :
    row ∈ db.unfinishedMembers g seq ↔ db.Unfinished g seq row.1 row.2 := by
  rw [unfinishedMembers, List.mem_filter, Unfinished, ← Table.mem_rows]
  simp only [Bool.and_eq_true, decide_eq_true_eq, and_assoc]

/-- Nothing before the source in its partition is still to be delivered. -/
def Head (src : Source) : Prop :=
  src.partition = none ∨ ∀ seq p, db.sources.get? seq = some p → p.precedes src = true →
    p.status.finished = true ∧ ∀ k m, ¬ db.Unfinished g seq k m

/-- A row of the candidate queries. -/
inductive IsCandidate (tenant : Uuid) (domain : String) : Candidate → Prop where
  | ordinary {seq : ℤ} {src : Source} (source : db.sources.get? seq = some src)
      (scope : src.tenant = tenant ∧ src.domain = domain) (pending : src.status.open' = true)
      (alone : ∀ k m, ¬ db.Unfinished g seq k m) (head : db.Head g src) :
      IsCandidate tenant domain ⟨seq, none, greatest src.retryAfter (src.leaseUntil g)⟩
  | recovery {seq : ℤ} {src : Source} {k : MemberKey} {m : Member}
      (source : db.sources.get? seq = some src)
      (scope : src.tenant = tenant ∧ src.domain = domain) (member : db.Unfinished g seq k m)
      (pending : m.status.open' = true) (head : db.Head g src) :
      IsCandidate tenant domain ⟨seq, some k.operation, greatest m.retryAfter m.leaseUntil⟩

theorem unfinishedMembers_eq_nil {seq : ℤ} :
    db.unfinishedMembers g seq = [] ↔ ∀ k m, ¬ db.Unfinished g seq k m := by
  rw [List.eq_nil_iff_forall_not_mem]
  constructor
  · intro h k m hm
    exact h (k, m) ((db.mem_unfinishedMembers g).mpr hm)
  · intro h row hrow
    exact h row.1 row.2 ((db.mem_unfinishedMembers g).mp hrow)

theorem head_iff {src : Source} : (src.partition.isNone ||
      !db.sources.rows.any fun predecessor => predecessor.2.precedes src &&
        (!predecessor.2.status.finished || !(db.unfinishedMembers g predecessor.1).isEmpty)) =
      true ↔ db.Head g src := by
  simp only [Head, Bool.or_eq_true, Option.isNone_iff_eq_none, Bool.not_eq_true',
    List.any_eq_false, Bool.and_eq_true, not_and, Prod.forall, Table.mem_rows, not_or,
    Bool.not_eq_false, List.isEmpty_iff, unfinishedMembers_eq_nil]

/-- The outer join finds the candidates. -/
theorem mem_outboxCandidatesPlain {tenant : Uuid} {domain : String} {c : Candidate} :
    c ∈ db.outboxCandidatesPlain g tenant domain ↔ db.IsCandidate g tenant domain c := by
  simp only [outboxCandidatesPlain, List.mem_map, List.mem_filter, List.mem_flatMap,
    Bool.and_eq_true, decide_eq_true_eq, head_iff]
  constructor
  · rintro ⟨⟨seq, src, d⟩, ⟨⟨row, hrow, hjoin⟩, ⟨hscope, hopen⟩, hhead⟩, rfl⟩
    have hsrc : db.sources.get? row.1 = some row.2 := Table.mem_rows.mp hrow
    cases hds : db.unfinishedMembers g row.1 with
    | nil =>
        rw [hds, List.mem_singleton] at hjoin
        cases hjoin
        exact .ordinary hsrc hscope hopen ((db.unfinishedMembers_eq_nil g).mp hds) hhead
    | cons d₀ ds =>
        rw [hds] at hjoin
        obtain ⟨⟨k, m⟩, hd, heq⟩ := List.mem_map.mp hjoin
        cases heq
        rw [← hds] at hd
        exact .recovery hsrc hscope ((db.mem_unfinishedMembers g).mp hd) hopen hhead
  · intro hc
    cases hc with
    | @ordinary seq src hsrc hscope hopen halone hhead =>
        refine ⟨(seq, src, none), ⟨⟨(seq, src), Table.mem_rows.mpr hsrc, ?_⟩, ⟨hscope, hopen⟩,
          hhead⟩, rfl⟩
        rw [(db.unfinishedMembers_eq_nil g).mpr halone]
        exact List.mem_singleton_self _
    | @recovery seq src k m hsrc hscope hmember hopen hhead =>
        refine ⟨(seq, src, some (k, m)), ⟨⟨(seq, src), Table.mem_rows.mpr hsrc, ?_⟩,
          ⟨hscope, hopen⟩, hhead⟩, rfl⟩
        have hd : (k, m) ∈ db.unfinishedMembers g seq := (db.mem_unfinishedMembers g).mpr hmember
        cases hds : db.unfinishedMembers g seq with
        | nil => simp [hds] at hd
        | cons d₀ ds =>
            rw [hds] at hd
            exact List.mem_map.mpr ⟨(k, m), hd, rfl⟩

/-! ### The union -/

variable {db g}

/-- A member belongs to the tenant of its source. -/
theorem Unfinished.tenant {seq : ℤ} {src : Source} {k : MemberKey} {m : Member} (h : db.Sound)
    (hm : db.Unfinished g seq k m) (hsrc : db.sources.get? seq = some src) :
    k.tenant = src.tenant := by
  obtain ⟨-, src', hsrc', ht, -⟩ := h.source hm.1 hm.2.1
  rw [hsrc] at hsrc'
  cases hsrc'
  exact ht.symm

theorem mem_currentDr {tenant : Uuid} {row : MemberKey × Member} :
    row ∈ db.currentDr g tenant ↔
      row.1.tenant = tenant ∧ ∃ seq, db.Unfinished g seq row.1 row.2 := by
  rw [currentDr, List.mem_filter]
  simp only [Bool.and_eq_true, decide_eq_true_eq, Option.isSome_iff_exists, Unfinished,
    ← Table.mem_rows]
  constructor
  · rintro ⟨hrow, ⟨⟨ht, hcurrent⟩, seq, hseq⟩, hstatus⟩
    exact ⟨ht, seq, hrow, hseq, hstatus, hcurrent⟩
  · rintro ⟨ht, seq, hrow, hseq, hstatus, hcurrent⟩
    exact ⟨hrow, ⟨⟨ht, hcurrent⟩, seq, hseq⟩, hstatus⟩

theorem precedes_tenant {a b : Source} (h : a.precedes b = true) : a.tenant = b.tenant := by
  simp only [Source.precedes, Bool.and_eq_true, decide_eq_true_eq] at h
  exact h.1.1

/-- The two anti-joins of the union look for the same predecessors as the one of the join. -/
theorem head_iff_union {tenant : Uuid} {src : Source} (h : db.Sound) (ht : src.tenant = tenant) :
    (src.partition.isNone ||
      (!db.sources.rows.any fun predecessor =>
        predecessor.2.precedes src && !predecessor.2.status.finished) &&
      !(db.currentDr g tenant).any fun d => db.sources.rows.any fun predecessor =>
        d.2.outboxSeq = some predecessor.1 && predecessor.2.precedes src) = true ↔
      db.Head g src := by
  simp only [Head, Bool.or_eq_true, Option.isNone_iff_eq_none, Bool.and_eq_true,
    Bool.not_eq_true', List.any_eq_false, Prod.forall, Table.mem_rows, not_and,
    Bool.not_eq_false, decide_eq_true_eq, List.any_eq_true, not_exists]
  refine or_congr_right ⟨?_, ?_⟩
  · rintro ⟨hfinished, hmembers⟩ seq p hp hprec
    refine ⟨hfinished seq p hp hprec, fun k m hm => ?_⟩
    have hk : k.tenant = tenant := by rw [hm.tenant h hp, precedes_tenant hprec, ht]
    exact hmembers k m (mem_currentDr.mpr ⟨hk, seq, hm⟩) seq p hp hm.2.1 hprec
  · intro hall
    refine ⟨fun seq p hp hprec => (hall seq p hp hprec).1, ?_⟩
    intro k m hd seq p hp hseq hprec
    obtain ⟨-, seq', hm⟩ := mem_currentDr.mp hd
    have hsame : seq' = seq := Option.some.inj (hm.2.1.symm.trans hseq)
    exact (hall seq p hp hprec).2 k m (hsame ▸ hm)

theorem mem_outboxCandidates {tenant : Uuid} {domain : String} {c : Candidate} (h : db.Sound) :
    c ∈ db.outboxCandidates g tenant domain ↔ db.IsCandidate g tenant domain c := by
  simp only [outboxCandidates, List.mem_map, List.mem_filter, List.mem_append, List.mem_flatMap]
  constructor
  · rintro ⟨⟨src, c'⟩, ⟨hin, hhead⟩, rfl⟩
    rcases hin with ⟨row, ⟨hrow, hkept⟩, heq⟩ | ⟨d, hd, row, ⟨hrow, hkept⟩, heq⟩
    · cases heq
      simp only [Bool.and_eq_true, decide_eq_true_eq, Bool.not_eq_true', List.any_eq_false] at hkept
      have hsrc := Table.mem_rows.mp hrow
      refine .ordinary hsrc hkept.1.1 hkept.1.2 ?_ ((head_iff_union h hkept.1.1.1).mp hhead)
      intro k m hm
      have hk : k.tenant = tenant := by rw [hm.tenant h hsrc, hkept.1.1.1]
      exact hkept.2 (k, m) (mem_currentDr.mpr ⟨hk, row.1, hm⟩) hm.2.1
    · cases heq
      simp only [Bool.and_eq_true, decide_eq_true_eq] at hkept
      obtain ⟨-, seq, hm⟩ := mem_currentDr.mp hd
      have hseq : seq = row.1 := by
        have heq := hm.2.1.symm.trans hkept.1.1.1
        exact Option.some.inj heq
      exact .recovery (Table.mem_rows.mp hrow) ⟨hkept.1.1.2, hkept.1.2⟩ (hseq ▸ hm) hkept.2
        ((head_iff_union h hkept.1.1.2).mp hhead)
  · intro hc
    cases hc with
    | @ordinary seq src hsrc hscope hopen halone hhead =>
        refine ⟨(src, _), ⟨.inl ⟨(seq, src), ⟨Table.mem_rows.mpr hsrc, ?_⟩, rfl⟩,
          (head_iff_union h hscope.1).mpr hhead⟩, rfl⟩
        simp only [Bool.and_eq_true, decide_eq_true_eq, Bool.not_eq_true', List.any_eq_false]
        refine ⟨⟨hscope, hopen⟩, ?_⟩
        rintro ⟨k, m⟩ hd hseq
        obtain ⟨-, seq', hm⟩ := mem_currentDr.mp hd
        rw [hm.2.1] at hseq
        cases hseq
        exact halone k m hm
    | @recovery seq src k m hsrc hscope hm hopen hhead =>
        have hk : k.tenant = tenant := by rw [hm.tenant h hsrc, hscope.1]
        refine ⟨(src, _), ⟨.inr ⟨(k, m), mem_currentDr.mpr ⟨hk, seq, hm⟩, (seq, src),
          ⟨Table.mem_rows.mpr hsrc, ?_⟩, rfl⟩, (head_iff_union h hscope.1).mpr hhead⟩, rfl⟩
        simp only [Bool.and_eq_true, decide_eq_true_eq]
        exact ⟨⟨⟨hm.2.1, hscope.1⟩, hscope.2⟩, hopen⟩

/-- Both queries return the same rows. -/
theorem candidates_agree {tenant : Uuid} {domain : String} {c : Candidate} (h : db.Sound) :
    c ∈ db.outboxCandidates g tenant domain ↔ c ∈ db.outboxCandidatesPlain g tenant domain := by
  rw [mem_outboxCandidates h, mem_outboxCandidatesPlain]

/-! ### One candidate for a source -/

/-- A source has at most one unfinished member. -/
theorem Unfinished.unique {seq : ℤ} {k k' : MemberKey} {m m' : Member} (h : db.Sound)
    (hm : db.Unfinished g seq k m) (hm' : db.Unfinished g seq k' m') : k = k' ∧ m = m' := by
  obtain ⟨hget, hseq, -, hcurrent⟩ := hm
  obtain ⟨hget', hseq', -, hcurrent'⟩ := hm'
  obtain ⟨hgroup, src, hsrc, ht, hmsg⟩ := h.source hget hseq
  obtain ⟨hgroup', src', hsrc', ht', hmsg'⟩ := h.source hget' hseq'
  rw [hsrc] at hsrc'
  cases hsrc'
  have htenant : k.tenant = k'.tenant := ht.symm.trans ht'
  have hop : k.operation = k'.operation := by
    unfold current at hcurrent hcurrent'
    split at hcurrent
    · next p hp =>
        split at hcurrent'
        · next p' hp' =>
            simp only [Bool.and_eq_true, decide_eq_true_eq] at hcurrent hcurrent'
            rw [htenant] at hp
            exact h.plan hp hp' (Option.some.inj (hcurrent.2.trans hcurrent'.2.symm))
              (Option.some.inj (hcurrent.1.trans hcurrent'.1.symm))
        · cases hcurrent'
    · cases hcurrent
  have hk : k = k' := h.member hget hget' htenant hop (hmsg.symm.trans hmsg')
    (hgroup.trans hgroup'.symm)
  subst hk
  rw [hget] at hget'
  exact ⟨rfl, Option.some.inj hget'⟩

/-- A source has at most one candidate. -/
theorem IsCandidate.unique {tenant : Uuid} {domain : String} {c c' : Candidate} (h : db.Sound)
    (hc : db.IsCandidate g tenant domain c) (hc' : db.IsCandidate g tenant domain c')
    (hseq : c.seq = c'.seq) : c = c' := by
  cases hc with
  | @ordinary seq src hsrc hscope hopen halone hhead =>
      cases hc' with
      | @ordinary seq' src' hsrc' hscope' hopen' halone' hhead' =>
          dsimp only at hseq
          subst hseq
          rw [hsrc] at hsrc'
          cases hsrc'
          rfl
      | @recovery seq' src' k m hsrc' hscope' hm hopen' hhead' =>
          dsimp only at hseq
          subst hseq
          exact absurd hm (halone k m)
  | @recovery seq src k m hsrc hscope hm hopen hhead =>
      cases hc' with
      | @ordinary seq' src' hsrc' hscope' hopen' halone' hhead' =>
          dsimp only at hseq
          subst hseq
          exact absurd hm (halone' k m)
      | @recovery seq' src' k' m' hsrc' hscope' hm' hopen' hhead' =>
          dsimp only at hseq
          subst hseq
          obtain ⟨rfl, rfl⟩ := hm.unique h hm'
          rfl

/-- The rows of the query are rows of different sources. -/
theorem nodup_outboxCandidates {tenant : Uuid} {domain : String} (h : db.Sound) :
    ((db.outboxCandidates g tenant domain).map Candidate.seq).Nodup := by
  have hseqs (p : ℤ × Source → Bool) : ((db.sources.rows.filter p).map Prod.fst).Nodup :=
    (List.filter_sublist.map Prod.fst).nodup db.sources.nodup
  simp only [outboxCandidates, List.map_map]
  refine (List.filter_sublist.map _).nodup ?_
  rw [List.map_append, List.map_map, List.map_flatMap, List.nodup_append']
  refine ⟨hseqs _, ?_, ?_⟩
  · rw [List.nodup_flatMap]
    refine ⟨fun d _ => ?_, ?_⟩
    · rw [List.map_map]
      exact hseqs _
    · have hnodup : (db.currentDr g tenant).Nodup := db.members.nodup.of_map.filter _
      refine hnodup.imp_of_mem ?_
      intro d d' hd hd' hne seq hin hin'
      obtain ⟨-, seq₁, hm⟩ := mem_currentDr.mp hd
      obtain ⟨-, seq₂, hm'⟩ := mem_currentDr.mp hd'
      simp only [List.map_map, List.mem_map, List.mem_filter, Bool.and_eq_true,
        decide_eq_true_eq] at hin hin'
      obtain ⟨row, ⟨-, ⟨⟨hseq, -⟩, -⟩, -⟩, hrow⟩ := hin
      obtain ⟨row', ⟨-, ⟨⟨hseq', -⟩, -⟩, -⟩, hrow'⟩ := hin'
      have h₁ : seq₁ = seq := Option.some.inj ((hm.2.1.symm.trans hseq).trans (congrArg some hrow))
      have h₂ : seq₂ = seq := Option.some.inj ((hm'.2.1.symm.trans hseq').trans (congrArg some hrow'))
      subst h₁ h₂
      obtain ⟨hk, hv⟩ := hm.unique h hm'
      exact hne (Prod.ext hk hv)
  · intro seq hin hin'
    simp only [List.mem_map, List.mem_filter, List.mem_flatMap, Bool.and_eq_true,
      decide_eq_true_eq, Bool.not_eq_true', List.any_eq_false, Function.comp_apply] at hin hin'
    obtain ⟨row, ⟨-, -, hnone⟩, hrow⟩ := hin
    obtain ⟨d, hd, c, ⟨row', ⟨-, ⟨⟨hseq, -⟩, -⟩, -⟩, rfl⟩, hrow'⟩ := hin'
    dsimp only at hrow hrow'
    exact hnone d hd (by rw [hseq, hrow', hrow])

end Db

end Rss.Outbox
