import Rss.Library.Sorting
import Rss.Verification.Timeseries.Points
import Rss.Verification.TimeseriesPostgres.Admission
import Rss.Verification.TimeseriesPostgres.Folding

/-! # What a summary reads

The samples of a series in their order, and the deletions of a window. -/

namespace Rss.Timeseries

/-- Two samples are at one place of the order, or one is before the other. -/
theorem Sample.before_trichotomy (a b : Sample) :
    (a.observedAt = b.observedAt ∧ a.sequence = b.sequence ∧ a.id = b.id) ∨ a.Before b ∨
      b.Before a := by
  unfold Sample.Before
  rcases Nat.lt_trichotomy a.observedAt b.observedAt with h | h | h
  · exact .inr (.inl (.inl h))
  · rcases Nat.lt_trichotomy a.sequence b.sequence with h' | h' | h'
    · exact .inr (.inl (.inr ⟨h, .inl h'⟩))
    · rcases lt_trichotomy a.id b.id with h'' | h'' | h''
      · exact .inr (.inl (.inr ⟨h, .inr ⟨h', h''⟩⟩))
      · exact .inl ⟨h, h', h''⟩
      · exact .inr (.inr (.inr ⟨h.symm, .inr ⟨h'.symm, h''⟩⟩))
    · exact .inr (.inr (.inr ⟨h.symm, .inl h'⟩))
  · exact .inr (.inr (.inl h))

theorem Sample.not_before_trans {a b c : Sample} (h : ¬ b.Before a) (h' : ¬ c.Before b) :
    ¬ c.Before a := by
  intro hca
  rcases a.before_trichotomy b with ⟨h₁, h₂, h₃⟩ | hab | hba
  · apply h'
    unfold Sample.Before at hca ⊢
    rwa [← h₁, ← h₂, ← h₃]
  · exact h' (hca.trans hab)
  · exact h hba

end Rss.Timeseries

namespace Rss.TimeseriesPostgres

open Rss.Timeseries

variable {s s' : Store} {spec : SummarySpec}

/-! ### Samples -/

/-- Every raw row is filed under its identity and time. -/
def Filed (s : Store) : Prop :=
  ∀ k t row, s.samples.get? (k, t) = some row →
    Store.identityOf row.raw = k ∧ row.raw.observedAt = t

theorem filed_of_inv {D : Digests} {labels : List Event} (h : Inv D labels s) : Filed s := by
  intro k t row hrow
  obtain ⟨hk, ht, -⟩ := h.linked k t row hrow
  exact ⟨hk, ht⟩

theorem mem_seriesWithin {lo hi : ℕ} {x : Sample} (hfiled : Filed s)
    (h : x ∈ s.seriesWithin spec lo hi) : lo ≤ x.observedAt ∧ x.observedAt < hi := by
  obtain ⟨row, hrow, rfl⟩ := List.mem_map.mp (List.mem_mergeSort.mp h)
  obtain ⟨hmem, hin⟩ := List.mem_filter.mp hrow
  obtain ⟨-, hat⟩ := hfiled _ _ _ (Table.mem_rows.mp hmem)
  simp only [Bool.and_eq_true, decide_eq_true_eq] at hin
  rw [hat]
  exact ⟨hin.1.1.2, hin.1.2⟩

/-- The samples of a series come in their strict order. -/
theorem seriesWithin_sorted {lo hi : ℕ} (hfiled : Filed s) :
    (s.seriesWithin spec lo hi).Pairwise Sample.Before := by
  have hkeys : s.samples.rows.Pairwise (fun a b => a.1 ≠ b.1) :=
    List.pairwise_map.mp s.samples.nodup
  have hdistinct : ((s.samples.rows.filter (fun row => row.1.1.1 = spec.stream &&
      row.2.raw.series = spec.series && decide (lo ≤ row.1.2) && decide (row.1.2 < hi) &&
      s.visible row.2.raw)).map (fun row => row.2.raw)).Pairwise
        (fun a b => ¬ (a.observedAt = b.observedAt ∧ a.id = b.id)) := by
    rw [List.pairwise_map]
    refine (hkeys.sublist List.filter_sublist).imp_of_mem fun {a b} ha hb hne hsame => hne ?_
    obtain ⟨hmem, hin⟩ := List.mem_filter.mp ha
    obtain ⟨hmem', hin'⟩ := List.mem_filter.mp hb
    obtain ⟨hk, ht⟩ := hfiled _ _ _ (Table.mem_rows.mp hmem)
    obtain ⟨hk', ht'⟩ := hfiled _ _ _ (Table.mem_rows.mp hmem')
    simp only [Bool.and_eq_true, decide_eq_true_eq] at hin hin'
    have hid : a.1.1.2 = b.1.1.2 := by
      rw [← hk, ← hk']
      exact hsame.2
    exact Prod.ext (Prod.ext (hin.1.1.1.1.trans hin'.1.1.1.1.symm) hid)
      (ht.symm.trans (hsame.1.trans ht'))
  have hsymm : ∀ {a b : Sample}, ¬ (a.observedAt = b.observedAt ∧ a.id = b.id) →
      ¬ (b.observedAt = a.observedAt ∧ b.id = a.id) :=
    fun h hab => h ⟨hab.1.symm, hab.2.symm⟩
  unfold Store.seriesWithin
  generalize (s.samples.rows.filter (fun row => row.1.1.1 = spec.stream &&
      row.2.raw.series = spec.series && decide (lo ≤ row.1.2) && decide (row.1.2 < hi) &&
      s.visible row.2.raw)).map (fun row => row.2.raw) = l at hdistinct ⊢
  have hsorted := @List.pairwise_mergeSort _ (fun a b : Sample => !decide (b.Before a))
    (fun a b c hab hbc => by
      simp only [Bool.not_eq_true', decide_eq_false_iff_not] at hab hbc ⊢
      exact Sample.not_before_trans hab hbc)
    (fun a b => by
      simp only [Bool.or_eq_true, Bool.not_eq_true', decide_eq_false_iff_not]
      by_cases hab : b.Before a
      · exact .inr fun hba => Sample.Before.irrefl a (hba.trans hab)
      · exact .inl hab) l
  have hapart := ((List.mergeSort_perm l (fun a b : Sample => !decide (b.Before a))).pairwise_iff
    hsymm).mpr hdistinct
  refine (hsorted.and hapart).imp fun {a b} h => ?_
  obtain ⟨hle, hne⟩ := h
  simp only [Bool.not_eq_true', decide_eq_false_iff_not] at hle
  rcases a.before_trichotomy b with ⟨h₁, -, h₃⟩ | hab | hba
  · exact absurd ⟨h₁, h₃⟩ hne
  · exact hab
  · exact absurd hba hle

/-! ### Deletions -/

/-- The order of `lifecycle::fences`. -/
def fenceOrder (a b : (Scope × String) × Fence) : Ordering :=
  (compare a.2.lo b.2.lo).then ((compare a.2.hi b.2.hi).then (compare a.1.2 b.1.2))

theorem fenceOrder_trans : Std.TransCmp fenceOrder :=
  inferInstanceAs (Std.TransCmp (compareLex (compareOn (fun a : (Scope × String) × Fence => a.2.lo))
    (compareLex (compareOn (fun a : (Scope × String) × Fence => a.2.hi))
      (compareOn (fun a : (Scope × String) × Fence => a.1.2)))))

theorem fenceOrder_isLE_trans {a b c : (Scope × String) × Fence} (h : (fenceOrder a b).isLE = true)
    (h' : (fenceOrder b c).isLE = true) : (fenceOrder a c).isLE = true :=
  fenceOrder_trans.isLE_trans h h'

theorem fenceOrder_total (a b : (Scope × String) × Fence) :
    ((fenceOrder a b).isLE || (fenceOrder b a).isLE) = true := by
  have hswap : fenceOrder a b = (fenceOrder b a).swap := fenceOrder_trans.eq_swap
  rw [hswap]
  cases fenceOrder b a <;> rfl

/-- Rows that neither order puts last have the same interval and name. -/
theorem fenceOrder_antisymm {a b : (Scope × String) × Fence} (h : (fenceOrder a b).isLE = true)
    (h' : (fenceOrder b a).isLE = true) : a.2.lo = b.2.lo ∧ a.2.hi = b.2.hi ∧ a.1.2 = b.1.2 := by
  have hswap : fenceOrder a b = (fenceOrder b a).swap := fenceOrder_trans.eq_swap
  have heq : fenceOrder a b = .eq := by
    cases hab : fenceOrder a b with
    | eq => rfl
    | gt =>
        rw [hab] at h
        cases h
    | lt =>
        have hba : fenceOrder b a = .gt := by
          rw [hab] at hswap
          cases hcase : fenceOrder b a with
          | gt => rfl
          | eq => rw [hcase] at hswap; cases hswap
          | lt => rw [hcase] at hswap; cases hswap
        rw [hba] at h'
        cases h'
  unfold fenceOrder at heq
  simp only [Ordering.then_eq_eq, Std.LawfulEqCmp.compare_eq_iff_eq] at heq
  exact heq

/-- The fences of a query, in its order. -/
def Store.fenceRows (s : Store) (selection : Selection) (window : Interval)
    (kinds : List FenceKind) : List ((Scope × String) × Fence) :=
  (s.fences.rows.filter (fun row => row.1.1 = selection.scope &&
      row.2.selection.overlaps selection && decide (row.2.lo < window.stop) &&
      decide (window.start < row.2.hi) && decide (row.2.kind ∈ kinds) &&
      (decide (row.2.kind ≠ .delete) || !row.2.restored))).mergeSort
    (fun a b => (fenceOrder a b).isLE)

theorem fencesWithin_eq (selection : Selection) (window : Interval) (kinds : List FenceKind)
    (limit : ℕ) : s.fencesWithin selection window kinds limit =
      if (s.fenceRows selection window kinds).length > limit then .error .budgetExceeded
      else .ok ((s.fenceRows selection window kinds).map Prod.snd) := by
  simp only [Store.fencesWithin, List.length_map]
  rfl

/-- Of the fences of a window, a later start leaves those that end after it. -/
theorem fenceRows_filter {selection : Selection} {w w' : Interval} {kinds : List FenceKind}
    (hstart : w.start ≤ w'.start) (hstop : w'.stop = w.stop) :
    s.fenceRows selection w' kinds =
      (s.fenceRows selection w kinds).filter (fun row => decide (w'.start < row.2.hi)) := by
  unfold Store.fenceRows
  rw [← @mergeSort_filter _ (fun a b => (fenceOrder a b).isLE) _ _
    (fun _ _ _ => fenceOrder_isLE_trans) fenceOrder_total]
  · rw [List.filter_filter]
    congr 1
    refine List.filter_congr fun row _ => ?_
    rw [hstop]
    by_cases hlate : w'.start < row.2.hi
    · have hlater : w.start < row.2.hi := by omega
      simp [hlate, hlater]
    · simp [hlate]
  · intro a ha b hb hab hba
    obtain ⟨hmem, hin⟩ := List.mem_filter.mp ha
    obtain ⟨hmem', hin'⟩ := List.mem_filter.mp hb
    simp only [Bool.and_eq_true, decide_eq_true_eq] at hin hin'
    obtain ⟨-, -, hid⟩ := fenceOrder_antisymm hab hba
    have hkey : a.1 = b.1 := Prod.ext (hin.1.1.1.1.1.trans hin'.1.1.1.1.1.symm) hid
    have hrow := Table.mem_rows.mp hmem
    rw [hkey, Table.mem_rows.mp hmem'] at hrow
    exact Prod.ext hkey (Option.some.inj hrow).symm

theorem deletions_eq_ok {w : Interval} {limit : ℕ} {gaps : List (ℕ × ℕ)} :
    s.deletions spec w limit = .ok gaps ↔
      (s.fenceRows spec.selection w [.delete]).length ≤ limit ∧
        gaps = (s.fenceRows spec.selection w [.delete]).map (fun row => (row.2.lo, row.2.hi)) := by
  have hsorted : (s.fenceRows spec.selection w [.delete]).Pairwise (fun a b => a.2.lo ≤ b.2.lo) := by
    refine (@List.pairwise_mergeSort _ (fun a b => (fenceOrder a b).isLE)
      (fun _ _ _ => fenceOrder_isLE_trans) fenceOrder_total _).imp fun {a b} hab => ?_
    by_contra hlt
    have hgt : compare a.2.lo b.2.lo = .gt := Nat.compare_eq_gt.mpr (by omega)
    rw [fenceOrder, hgt] at hab
    cases hab
  have hmerged : ((s.fenceRows spec.selection w [.delete]).map
      (fun row => (row.2.lo, row.2.hi))).mergeSort (fun a b => decide (a.1 ≤ b.1)) =
        (s.fenceRows spec.selection w [.delete]).map (fun row => (row.2.lo, row.2.hi)) := by
    apply List.mergeSort_of_pairwise
    rw [List.pairwise_map]
    exact hsorted.imp decide_eq_true
  unfold Store.deletions
  rw [fencesWithin_eq]
  by_cases hmany : (s.fenceRows spec.selection w [.delete]).length > limit
  · rw [if_pos hmany, error_bind]
    simp [not_le.mpr hmany]
  · rw [if_neg hmany, ok_bind, List.map_map]
    simp only [not_lt.mp hmany, true_and]
    rw [← hmerged]
    exact ⟨fun h => (Except.ok.inj h).symm, fun h => congrArg _ h.symm⟩

/-- The deletions from a later time on are those that end after it. -/
theorem deletions_filter {w w' : Interval} {limit limit' : ℕ} {gaps gaps' : List (ℕ × ℕ)}
    (h : s.deletions spec w limit = .ok gaps) (h' : s.deletions spec w' limit' = .ok gaps')
    (hstart : w.start ≤ w'.start) (hstop : w'.stop = w.stop) :
    gaps' = gaps.filter (fun gap => decide (w'.start < gap.2)) := by
  obtain ⟨-, rfl⟩ := deletions_eq_ok.mp h
  obtain ⟨-, rfl⟩ := deletions_eq_ok.mp h'
  rw [fenceRows_filter hstart hstop, List.filter_map]
  rfl

theorem deletions_mono {w : Interval} {limit limit' : ℕ} {gaps : List (ℕ × ℕ)}
    (h : s.deletions spec w limit = .ok gaps) (hle : limit ≤ limit') :
    s.deletions spec w limit' = .ok gaps := by
  obtain ⟨hcount, hgaps⟩ := deletions_eq_ok.mp h
  exact deletions_eq_ok.mpr ⟨hcount.trans hle, hgaps⟩

/-! ### The rows of a series -/

/-- The fence may hide samples of the series, or cut its summaries. -/
def Fence.cuts (spec : SummarySpec) (scope : Scope) (f : Fence) : Bool :=
  decide (scope = spec.stream.scope) && f.selection.matches_ spec.stream spec.series &&
    decide (f.kind ≠ .cutoff)

namespace Store

/-- The raw rows of the series. -/
def rowsOf (s : Store) (spec : SummarySpec) : List ((Identity × ℕ) × SampleRow) :=
  s.samples.rows.filter (fun row => row.1.1.1 = spec.stream && row.2.raw.series = spec.series)

/-- The fences of the series, cutoffs apart. -/
def cutsOf (s : Store) (spec : SummarySpec) : List ((Scope × String) × Fence) :=
  s.fences.rows.filter (fun row => row.2.cuts spec row.1.1)

end Store

theorem overlaps_selection (sel : Selection) :
    sel.overlaps spec.selection = sel.matches_ spec.stream spec.series := by
  cases sel with
  | exact stream series =>
      show (decide (spec.stream = stream) && decide (spec.series = series)) =
        (decide (stream = spec.stream) && decide (series = spec.series))
      rw [eq_comm, decide_eq_decide.mpr (eq_comm (a := stream)),
        decide_eq_decide.mpr (eq_comm (a := series))]
  | resource scope subject resource keys => rfl

/-- Only the fences of its series hide a sample. -/
theorem visible_eq {x : Sample} (hstream : x.stream = spec.stream)
    (hseries : x.series = spec.series) : s.visible x = !(s.cutsOf spec).any (fun row =>
      row.2.hides && row.2.encloses x.stream x.series x.observedAt) := by
  unfold Store.visible Store.fencesOf Store.cutsOf
  rw [List.any_map, List.any_filter, List.any_filter, hstream, hseries]
  congr 2
  funext row
  obtain ⟨key, f⟩ := row
  simp only [Function.comp_apply]
  unfold Fence.cuts Fence.encloses Fence.hides
  cases f.kind <;> cases f.selection.matches_ spec.stream spec.series <;> simp

theorem seriesWithin_eq (lo hi : ℕ) : s.seriesWithin spec lo hi =
    (((s.rowsOf spec).filter (fun row => decide (lo ≤ row.1.2) && decide (row.1.2 < hi) &&
      s.visible row.2.raw)).map (fun row => row.2.raw)).mergeSort
        (fun a b => !decide (b.Before a)) := by
  unfold Store.seriesWithin Store.rowsOf
  rw [List.filter_filter]
  congr 3
  funext row
  simp only [Bool.and_assoc, Bool.and_comm]

theorem seriesWithin_length_le (lo hi : ℕ) :
    (s.seriesWithin spec lo hi).length ≤ (s.rowsOf spec).length := by
  rw [seriesWithin_eq, List.length_mergeSort, List.length_map]
  exact List.length_filter_le _ _

theorem fenceRows_eq (w : Interval) {kinds : List FenceKind} (h : FenceKind.cutoff ∉ kinds) :
    s.fenceRows spec.selection w kinds =
      ((s.cutsOf spec).filter (fun row => decide (row.2.lo < w.stop) &&
        decide (w.start < row.2.hi) && decide (row.2.kind ∈ kinds) &&
        (decide (row.2.kind ≠ .delete) || !row.2.restored))).mergeSort
          (fun a b => (fenceOrder a b).isLE) := by
  unfold Store.fenceRows Store.cutsOf
  rw [List.filter_filter]
  congr 2
  funext row
  unfold Fence.cuts
  rw [overlaps_selection]
  by_cases hcutoff : row.2.kind = .cutoff
  · simp [hcutoff, h]
  · simp only [hcutoff, ne_eq, not_false_eq_true, decide_true, Bool.and_true]
    show (decide (row.1.1 = spec.stream.scope) && _ && _ && _ && _ && _) = _
    simp only [Bool.and_assoc, Bool.and_comm, Bool.and_left_comm]

/-- The reads of the samples and of the fences, cutoffs apart, give the same. -/
structure SameReads (spec : SummarySpec) (s s' : Store) : Prop where
  series : ∀ lo hi, s'.seriesWithin spec lo hi = s.seriesWithin spec lo hi
  fences : ∀ w kinds, FenceKind.cutoff ∉ kinds →
    s'.fenceRows spec.selection w kinds = s.fenceRows spec.selection w kinds

theorem SameReads.of_eq (hsamples : s'.samples = s.samples) (hfences : s'.fences = s.fences) :
    SameReads spec s s' := by
  constructor
  · intro lo hi
    unfold Store.seriesWithin Store.visible Store.fencesOf
    rw [hsamples, hfences]
  · intro w kinds _
    unfold Store.fenceRows
    rw [hfences]

/-- The reads rest on the rows of the series and on its fences. -/
theorem SameReads.of_rows (hfiled : Filed s) (hrows : s'.rowsOf spec = s.rowsOf spec)
    (hcuts : s'.cutsOf spec = s.cutsOf spec) : SameReads spec s s' := by
  constructor
  · intro lo hi
    rw [seriesWithin_eq, seriesWithin_eq, hrows]
    congr 2
    refine List.filter_congr fun row hrow => ?_
    obtain ⟨hmem, hin⟩ := List.mem_filter.mp hrow
    simp only [Bool.and_eq_true, decide_eq_true_eq] at hin
    obtain ⟨hkey, -⟩ := hfiled _ _ _ (Table.mem_rows.mp hmem)
    have hstream : row.2.raw.stream = spec.stream := (congrArg Prod.fst hkey).trans hin.1
    rw [visible_eq hstream hin.2, visible_eq hstream hin.2, hcuts]
  · intro w kinds hkinds
    rw [fenceRows_eq w hkinds, fenceRows_eq w hkinds, hcuts]

end Rss.TimeseriesPostgres
