import Rss.Model.TimeseriesPostgres.Maintain

/-! # Folds in parts

A builder that takes samples in several parts ends as it would have after all of them: a deletion
that lies before the last sample does not count any more, and the bound of items only refuses. -/

namespace Rss.Timeseries

/-! ### One sample -/

namespace SummaryBuilder

variable {b b' : SummaryBuilder} {x : Sample} {maxItems maxItems' : ℕ}

/-- Why a sample is not of the fold, if it is not. -/
def refusal (b : SummaryBuilder) (x : Sample) : Option Error :=
  if b.spec.matches x = false then some .invalidInput
  else match b.pending with
    | some p =>
        if p.stream ≠ x.stream ∨ p.series ≠ x.series then some .invalidInput
        else if p.Before x then none else some .conflict
    | none => none

/-- The sample takes the place of the pending one, at the same time. -/
def supersedes (b : SummaryBuilder) (x : Sample) : Bool :=
  b.pending.any (fun p => ordered b.spec.metric && decide (p.observedAt = x.observedAt))

/-- The sample is pending after the one before it. -/
def follow (b : SummaryBuilder) (x : Sample) : Except Error SummaryBuilder := do
  let b ← b.flush (some x)
  pure { b with pending := some x }

theorem push_eq (b : SummaryBuilder) (x : Sample) (maxItems : ℕ) :
    b.push x maxItems = match b.refusal x with
      | some e => .error e
      | none =>
          if b.supersedes x then .ok { b with pending := some x }
          else b.follow x >>= fun b' => (b'.summary.checkSize maxItems).map (fun _ => b') := by
  by_cases hmatches : b.spec.matches x = true
  · cases hpending : b.pending with
    | none =>
        simp only [push, refusal, supersedes, follow, hmatches, hpending, bind_assoc, pure_bind]
        rfl
    | some p =>
        by_cases hsame : p.stream ≠ x.stream ∨ p.series ≠ x.series
        · simp only [push, refusal, hmatches, hpending, hsame]
          rfl
        · by_cases hbefore : p.Before x
          · simp only [push, refusal, supersedes, follow, hmatches, hpending, hsame, hbefore,
              bind_assoc, pure_bind, not_true, if_false, if_true, Option.any_some]
            rfl
          · simp only [push, refusal, hmatches, hpending, hsame, hbefore]
            rfl
  · simp only [push, refusal, hmatches]
    rfl

/-- After a push the sample is the pending one. -/
theorem push_last (h : b.push x maxItems = .ok b') : b'.lastObservedAt = some x.observedAt := by
  rw [push_eq] at h
  cases hrefusal : b.refusal x with
  | some e =>
      rw [hrefusal] at h
      cases h
  | none =>
      rw [hrefusal] at h
      simp only at h
      split at h
      · cases h
        rfl
      · obtain ⟨c, hfollow, h⟩ := bind_eq_ok.mp h
        obtain ⟨⟨⟩, -, rfl⟩ := map_eq_ok.mp h
        obtain ⟨d, -, hpure⟩ := bind_eq_ok.mp hfollow
        cases hpure
        rfl

theorem checkSize_mono {s : Summary} (h : s.checkSize maxItems = .ok ()) (hle : maxItems ≤ maxItems') :
    s.checkSize maxItems' = .ok () := by
  unfold Summary.checkSize at h ⊢
  split at h
  · cases h
  · rw [if_neg (by omega)]

/-- A wider bound takes what a narrower one took. -/
theorem push_mono (h : b.push x maxItems = .ok b') (hle : maxItems ≤ maxItems') :
    b.push x maxItems' = .ok b' := by
  rw [push_eq] at h ⊢
  cases hrefusal : b.refusal x with
  | some e =>
      rw [hrefusal] at h
      cases h
  | none =>
      rw [hrefusal] at h
      simp only at h ⊢
      split at h
      · next hsupersedes => rw [if_pos hsupersedes, h]
      · next hsupersedes =>
          obtain ⟨c, hfollow, h⟩ := bind_eq_ok.mp h
          obtain ⟨⟨⟩, hcheck, rfl⟩ := map_eq_ok.mp h
          rw [if_neg hsupersedes, hfollow, ok_bind, checkSize_mono hcheck hle]
          rfl

theorem finish_mono {s : Summary} (h : b.finish maxItems = .ok s) (hle : maxItems ≤ maxItems') :
    b.finish maxItems' = .ok s := by
  obtain ⟨c, hflush, h⟩ := bind_eq_ok.mp h
  obtain ⟨⟨⟩, hcheck, h⟩ := bind_eq_ok.mp h
  rw [finish, hflush, ok_bind, checkSize_mono hcheck hle, ok_bind]
  exact h

theorem flush_pending {next : Option Sample} (h : b.flush next = .ok b') : b'.pending = none := by
  unfold flush at h
  split at h
  · next hpending =>
      cases h
      exact hpending
  · simp only at h
    split at h
    · obtain ⟨valid, -, h⟩ := bind_eq_ok.mp h
      obtain ⟨found, -, h⟩ := bind_eq_ok.mp h
      cases h
      rfl
    · obtain ⟨valid, -, h⟩ := bind_eq_ok.mp h
      obtain ⟨found, -, h⟩ := bind_eq_ok.mp h
      cases h
      rfl

theorem flush_window {next : Option Sample} (h : b.flush next = .ok b') :
    b'.summary.window = b.summary.window := by
  unfold flush at h
  split at h
  · cases h
    rfl
  · simp only at h
    split at h
    · obtain ⟨valid, -, h⟩ := bind_eq_ok.mp h
      obtain ⟨found, -, h⟩ := bind_eq_ok.mp h
      cases h
      rfl
    · obtain ⟨valid, -, h⟩ := bind_eq_ok.mp h
      obtain ⟨found, -, h⟩ := bind_eq_ok.mp h
      cases h
      rfl

theorem push_window (h : b.push x maxItems = .ok b') :
    b'.summary.window = b.summary.window := by
  rw [push_eq] at h
  cases hrefusal : b.refusal x with
  | some e =>
      rw [hrefusal] at h
      cases h
  | none =>
      rw [hrefusal] at h
      simp only at h
      split at h
      · cases h
        rfl
      · obtain ⟨c, hfollow, h⟩ := bind_eq_ok.mp h
        obtain ⟨⟨⟩, -, rfl⟩ := map_eq_ok.mp h
        obtain ⟨d, hflush, hpure⟩ := bind_eq_ok.mp hfollow
        cases hpure
        show d.summary.window = b.summary.window
        exact flush_window hflush

theorem interrupt_window {t : ℕ} (h : b.interrupt t = .ok b') :
    b'.summary.window = b.summary.window := by
  obtain ⟨window, -, h⟩ := bind_eq_ok.mp h
  obtain ⟨c, -, h⟩ := bind_eq_ok.mp h
  cases h
  rfl

theorem finish_window {s : Summary} (h : b.finish maxItems = .ok s) :
    s.window = b.summary.window := by
  obtain ⟨c, hflush, h⟩ := bind_eq_ok.mp h
  obtain ⟨⟨⟩, -, h⟩ := bind_eq_ok.mp h
  cases h
  exact flush_window hflush

theorem new_window {spec : SummarySpec} {w : Interval} (h : new spec w = .ok b) :
    b.summary.window = w ∧ b.lastObservedAt = none := by
  obtain ⟨⟨⟩, -, h⟩ := bind_eq_ok.mp h
  simp only at h
  split at h
  · cases h
  · cases h
    exact ⟨rfl, rfl⟩

/-- After an interruption no point precedes what follows. -/
theorem interrupt_last {t : ℕ} (h : b.interrupt t = .ok b') : b'.lastObservedAt = none := by
  obtain ⟨window, -, h⟩ := bind_eq_ok.mp h
  obtain ⟨c, hflush, h⟩ := bind_eq_ok.mp h
  cases h
  simp [lastObservedAt, flush_pending hflush]

end SummaryBuilder

end Rss.Timeseries

namespace Rss.TimeseriesPostgres

open Rss.Timeseries

variable {b b' : SummaryBuilder} {gaps : List (ℕ × ℕ)}

/-! ### Deletions between samples -/

/-- The deletion counts at a time, after the given one. -/
def cuts (at_ : ℕ) (last : Option ℕ) (gap : ℕ × ℕ) : Bool :=
  decide (gap.1 ≤ at_) && last.any (fun last => decide (last < gap.2) && decide (last ≤ gap.1))

theorem mask_cons (gap : ℕ × ℕ) (gaps : List (ℕ × ℕ)) (at_ : ℕ) (b : SummaryBuilder) :
    mask (gap :: gaps) at_ b =
      if cuts at_ b.lastObservedAt gap then b.interrupt gap.1 >>= mask gaps at_
      else mask gaps at_ b := by
  rw [mask, List.foldlM_cons]
  by_cases hcuts : cuts at_ b.lastObservedAt gap = true
  · have hboth := hcuts
    simp only [cuts, Bool.and_eq_true, decide_eq_true_eq] at hboth
    rw [if_pos hcuts, if_pos hboth]
    rfl
  · have hnot := hcuts
    simp only [cuts, Bool.and_eq_true, decide_eq_true_eq] at hnot
    rw [if_neg hcuts, if_neg hnot]
    rfl

/-- A deletion that ends by the last point does not count. -/
theorem mask_filter {t : ℕ} (gaps : List (ℕ × ℕ)) (at_ : ℕ)
    (h : ∀ last ∈ b.lastObservedAt, t ≤ last) :
    mask (gaps.filter (fun gap => decide (t < gap.2))) at_ b = mask gaps at_ b := by
  induction gaps generalizing b with
  | nil => rfl
  | cons gap gaps ih =>
      rw [List.filter_cons, mask_cons]
      by_cases hlate : t < gap.2
      · rw [if_pos (decide_eq_true hlate), mask_cons]
        split
        · cases hinterrupt : b.interrupt gap.1 with
          | error e => rfl
          | ok c =>
              refine ih fun last hlast => ?_
              rw [SummaryBuilder.interrupt_last hinterrupt] at hlast
              cases hlast
        · exact ih h
      · have hnot : cuts at_ b.lastObservedAt gap = false := by
          cases hlast : b.lastObservedAt with
          | none => simp [cuts]
          | some last =>
              have hle := h last hlast
              have hpast : ¬ last < gap.2 := by omega
              simp [cuts, hpast]
        rw [if_neg (by simpa using hlate), ih h, hnot]
        rfl

theorem mask_window {at_ : ℕ} (h : mask gaps at_ b = .ok b') :
    b'.summary.window = b.summary.window := by
  induction gaps generalizing b with
  | nil =>
      cases h
      rfl
  | cons gap gaps ih =>
      rw [mask_cons] at h
      split at h
      · obtain ⟨c, hinterrupt, h⟩ := bind_eq_ok.mp h
        exact (ih h).trans (SummaryBuilder.interrupt_window hinterrupt)
      · exact ih h

/-! ### Samples in parts -/

theorem maskAndPush_cons (gaps : List (ℕ × ℕ)) (maxItems : ℕ) (b : SummaryBuilder) (x : Sample)
    (xs : List Sample) : maskAndPush gaps maxItems b (x :: xs) =
      mask gaps x.observedAt b >>= fun b => b.push x maxItems >>= fun b =>
        maskAndPush gaps maxItems b xs := by
  rw [maskAndPush, List.foldlM_cons, bind_assoc]
  rfl

theorem maskAndPush_append (gaps : List (ℕ × ℕ)) (maxItems : ℕ) (b : SummaryBuilder)
    (xs ys : List Sample) : maskAndPush gaps maxItems b (xs ++ ys) =
      maskAndPush gaps maxItems b xs >>= fun b => maskAndPush gaps maxItems b ys :=
  List.foldlM_append

theorem maskAndPush_mono {maxItems maxItems' : ℕ} {xs : List Sample}
    (h : maskAndPush gaps maxItems b xs = .ok b') (hle : maxItems ≤ maxItems') :
    maskAndPush gaps maxItems' b xs = .ok b' := by
  induction xs generalizing b with
  | nil => exact h
  | cons x xs ih =>
      rw [maskAndPush_cons] at h ⊢
      obtain ⟨c, hmask, h⟩ := bind_eq_ok.mp h
      obtain ⟨d, hpush, h⟩ := bind_eq_ok.mp h
      rw [hmask, ok_bind, SummaryBuilder.push_mono hpush hle, ok_bind]
      exact ih h

theorem maskAndPush_window {maxItems : ℕ} {xs : List Sample}
    (h : maskAndPush gaps maxItems b xs = .ok b') : b'.summary.window = b.summary.window := by
  induction xs generalizing b with
  | nil =>
      cases h
      rfl
  | cons x xs ih =>
      rw [maskAndPush_cons] at h
      obtain ⟨c, hmask, h⟩ := bind_eq_ok.mp h
      obtain ⟨d, hpush, h⟩ := bind_eq_ok.mp h
      exact (ih h).trans ((SummaryBuilder.push_window hpush).trans (mask_window hmask))

/-- The last sample pushed is the last point. -/
theorem maskAndPush_last {maxItems : ℕ} {xs : List Sample} {x : Sample}
    (h : maskAndPush gaps maxItems b (xs ++ [x]) = .ok b') :
    b'.lastObservedAt = some x.observedAt := by
  rw [maskAndPush_append] at h
  obtain ⟨c, -, h⟩ := bind_eq_ok.mp h
  rw [maskAndPush_cons] at h
  obtain ⟨d, -, h⟩ := bind_eq_ok.mp h
  obtain ⟨e, hpush, h⟩ := bind_eq_ok.mp h
  cases h
  exact SummaryBuilder.push_last hpush

/-- The deletions that end by the last point may be left out of what follows. -/
theorem maskAndPush_filter {t maxItems : ℕ} {xs : List Sample}
    (h : ∀ last ∈ b.lastObservedAt, t ≤ last) (hxs : ∀ x ∈ xs, t ≤ x.observedAt) :
    maskAndPush (gaps.filter (fun gap => decide (t < gap.2))) maxItems b xs =
      maskAndPush gaps maxItems b xs := by
  induction xs generalizing b with
  | nil => rfl
  | cons x xs ih =>
      rw [maskAndPush_cons, maskAndPush_cons, mask_filter gaps x.observedAt h]
      refine bind_congr fun c => ?_
      cases hpush : c.push x maxItems with
      | error e => rfl
      | ok d =>
          refine ih (fun last hlast => ?_) fun y hy => hxs y (List.mem_cons_of_mem x hy)
          rw [SummaryBuilder.push_last hpush] at hlast
          cases hlast
          exact hxs x List.mem_cons_self

end Rss.TimeseriesPostgres
