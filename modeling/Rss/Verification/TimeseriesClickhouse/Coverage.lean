import Rss.Library.Sorting
import Rss.Model.TimeseriesClickhouse.Aggregate
import Rss.Verification.TimeseriesPostgres.Admission
import Rss.Verification.TimeseriesPostgres.Coverage

/-! # Stored summaries of the warehouse

The warehouse solves the coverage of a window backwards, so it finds a result whenever some clean
summaries are chained from its start to its end and the sums along its chain can be added. -/

namespace Rss.TimeseriesClickhouse

open Rss.Timeseries

variable {stop maxPoints : ℕ} {refs : List Reference} {r : Reference} {path : Path stop}
  {fetch : String → Except Error Summary} {c : Control} {spec : SummarySpec} {window : Interval}
  {held : ℕ → ℕ → Summary}

/-! ### The path -/

/-- The order of the references: the latest start first, and the longest of each start. -/
def Reference.Before (x y : Reference) : Prop := y.lo < x.lo ∨ (y.lo = x.lo ∧ y.hi ≤ x.hi)

/-- A path covers the times that the references lead from to the end, and goes on by the longest
of those that lead there. -/
structure Solved (stop : ℕ) (refs : List Reference) (path : Path stop) : Prop where
  covered : ∀ t, (path.table.get? t).isSome ↔ Reaches Reference.lo Reference.hi refs t stop
  entry : ∀ t hi id, path.table.get? t = some (hi, id) → t < stop →
    (∃ r ∈ refs, r.lo = t ∧ r.hi = hi ∧ r.objectId = id) ∧ (path.table.get? hi).isSome ∧
      ∀ r ∈ refs, r.lo = t → Reaches Reference.lo Reference.hi refs r.hi stop → r.hi ≤ hi

theorem solved_start (stop : ℕ) : Solved stop [] (Path.start stop) where
  covered := by
    intro t
    rw [reaches_nil, Path.start, Table.get?_insertNew]
    split
    · next heq => simp [heq]
    · next hne => simp [hne]
  entry := by
    intro t hi id hentry hlt
    rw [Path.start, Table.get?_insertNew, if_neg hlt.ne] at hentry
    cases hentry

/-- A reference that comes after those before it is of no use after its start. -/
theorem reaches_later (hr : r.lo < r.hi) (hproper : ∀ x ∈ refs, x.lo < x.hi)
    (hfirst : ∀ x ∈ refs, x.Before r) {t : ℕ} (ht : r.lo < t) :
    Reaches Reference.lo Reference.hi (r :: refs) t stop ↔
      Reaches Reference.lo Reference.hi refs t stop := by
  have hle : ∀ x ∈ refs, r.lo ≤ x.lo := by
    intro x hx
    rcases hfirst x hx with hlt | ⟨heq, -⟩
    · exact hlt.le
    · exact heq.le
  rw [reaches_cons hr hproper hle]
  exact or_iff_left fun h => absurd h.1 ht.ne'

/-- A reference that comes after those before it. -/
theorem Solved.extend (h : Solved stop refs path) (hr : r.lo < r.hi)
    (hproper : ∀ x ∈ refs, x.lo < x.hi) (hfirst : ∀ x ∈ refs, x.Before r) :
    ∃ path', path.extend r = .ok path' ∧ Solved stop (r :: refs) path' := by
  have hle : ∀ x ∈ refs, r.lo ≤ x.lo := by
    intro x hx
    rcases hfirst x hx with hlt | ⟨heq, -⟩
    · exact hlt.le
    · exact heq.le
  have hlater := fun t ht => @reaches_later stop refs r hr hproper hfirst t ht
  -- What was the longest way from a time stays so: the reference is no longer than those before it.
  have hold : ∀ t hi id, path.table.get? t = some (hi, id) → t < stop →
      (∃ x ∈ r :: refs, x.lo = t ∧ x.hi = hi ∧ x.objectId = id) ∧ (path.table.get? hi).isSome ∧
        ∀ x ∈ r :: refs, x.lo = t → Reaches Reference.lo Reference.hi (r :: refs) x.hi stop →
          x.hi ≤ hi := by
    intro t hi id hfound hlt
    obtain ⟨⟨x, hx, hlo, hhi, hid⟩, hnext, hlongest⟩ := h.entry t hi id hfound hlt
    refine ⟨⟨x, List.mem_cons_of_mem r hx, hlo, hhi, hid⟩, hnext, fun y hy hylo hreaches => ?_⟩
    rcases List.mem_cons.mp hy with rfl | hy
    · rcases hfirst x hx with hbelow | ⟨-, hshort⟩
      · omega
      · omega
    · have hyhi := hproper y hy
      have hylow := hle y hy
      exact hlongest y hy hylo ((hlater y.hi (by omega)).mp hreaches)
  rw [Path.extend, dif_pos hr]
  by_cases hcovered : (path.table.get? r.hi).isSome
  · rw [if_pos hcovered]
    refine ⟨_, rfl, fun t => ?_, fun t hi id hentry hlt => ?_⟩
    · rw [reaches_cons hr hproper hle, ← h.covered, ← h.covered, Path.orInsert,
        Table.get?_insertNew]
      split
      · next heq => simp [heq, hcovered]
      · next hne => simp [hne]
    · have hsome : ∀ t, (path.table.get? t).isSome →
          ((path.table.insertNew r.lo (r.hi, r.objectId)).get? t).isSome := by
        intro t ht
        rw [Table.get?_insertNew]
        split
        · rfl
        · exact ht
      have hkept : path.table.get? t = some (hi, id) →
          (∃ x ∈ r :: refs, x.lo = t ∧ x.hi = hi ∧ x.objectId = id) ∧
            ((path.orInsert r hr).table.get? hi).isSome ∧
              ∀ x ∈ r :: refs, x.lo = t →
                Reaches Reference.lo Reference.hi (r :: refs) x.hi stop → x.hi ≤ hi := by
        intro hfound
        obtain ⟨hsource, hnext, hlongest⟩ := hold t hi id hfound hlt
        exact ⟨hsource, hsome hi hnext, hlongest⟩
      rw [Path.orInsert, Table.get?_insertNew] at hentry
      split at hentry
      · next heq =>
          cases hfound : path.table.get? r.lo with
          | none =>
              rw [hfound] at hentry
              cases hentry
              refine ⟨⟨r, List.mem_cons_self, heq.symm, rfl, rfl⟩, hsome _ hcovered,
                fun x hx hxlo hreaches => ?_⟩
              rcases List.mem_cons.mp hx with rfl | hx
              · exact le_rfl
              · -- Its start would be covered already.
                have hxhi := hproper x hx
                have hback := (hlater x.hi (by omega)).mp hreaches
                have hstart := (h.covered x.lo).mpr (hback.step hx)
                rw [hxlo, heq, hfound] at hstart
                cases hstart
          | some entry =>
              rw [hfound] at hentry
              cases hentry
              exact hkept (heq ▸ hfound)
      · exact hkept hentry
  · rw [if_neg hcovered]
    refine ⟨_, rfl, fun t => ?_, hold⟩
    rw [reaches_cons hr hproper hle, ← h.covered, ← h.covered]
    simp [hcovered]

theorem Solved.extendAll {rest : List Reference} (h : Solved stop refs path)
    (hproper : ∀ x ∈ refs, x.lo < x.hi) (hrest : ∀ x ∈ rest, x.lo < x.hi)
    (hbefore : ∀ x ∈ rest, ∀ y ∈ refs, y.Before x) (hsorted : rest.Pairwise Reference.Before) :
    ∃ path', rest.foldlM Path.extend path = .ok path' ∧ Solved stop (rest.reverse ++ refs) path' := by
  induction rest generalizing refs path with
  | nil => exact ⟨path, rfl, h⟩
  | cons x rest ih =>
      obtain ⟨hx, htail⟩ := List.pairwise_cons.mp hsorted
      obtain ⟨path₁, hextend, hsolved⟩ := h.extend (hrest x List.mem_cons_self) hproper
        (hbefore x List.mem_cons_self)
      obtain ⟨path₂, hfold, hall⟩ := ih hsolved
        (fun y hy => by
          rcases List.mem_cons.mp hy with rfl | hy
          · exact hrest y List.mem_cons_self
          · exact hproper y hy)
        (fun y hy => hrest y (List.mem_cons_of_mem x hy))
        (fun y hy z hz => by
          rcases List.mem_cons.mp hz with rfl | hz
          · exact hx y hy
          · exact hbefore y (List.mem_cons_of_mem x hy) z hz) htail
      refine ⟨path₂, ?_, ?_⟩
      · rw [List.foldlM_cons, hextend]
        exact hfold
      · rw [List.reverse_cons, List.append_assoc]
        exact hall

theorem solve_solved (hproper : ∀ x ∈ refs, x.lo < x.hi)
    (hsorted : refs.Pairwise Reference.Before) :
    ∃ path, Path.solve stop refs = .ok path ∧ Solved stop refs path := by
  obtain ⟨path, hsolve, hsolved⟩ := (solved_start stop).extendAll
    (fun x hx => absurd hx List.not_mem_nil) hproper
    (fun _ _ y hy => absurd hy List.not_mem_nil) hsorted
  rw [List.append_nil] at hsolved
  have hsame : ∀ t, Reaches Reference.lo Reference.hi refs.reverse t stop ↔
      Reaches Reference.lo Reference.hi refs t stop := fun t =>
    ⟨fun h => h.mono fun x hx => List.mem_reverse.mp hx,
      fun h => h.mono fun x hx => List.mem_reverse.mpr hx⟩
  refine ⟨path, hsolve, fun t => (hsolved.covered t).trans (hsame t), fun t hi id hentry hlt => ?_⟩
  obtain ⟨⟨x, hx, hends⟩, hnext, hlongest⟩ := hsolved.entry t hi id hentry hlt
  exact ⟨⟨x, List.mem_reverse.mp hx, hends⟩, hnext, fun y hy hylo hreaches =>
    hlongest y (List.mem_reverse.mpr hy) hylo ((hsame y.hi).mpr hreaches)⟩

/-! ### The summaries along the path -/

/-- The stored summary of a reference. -/
def valueOf (fetch : String → Except Error Summary) (r : Reference) : Except Error Summary :=
  fetch r.objectId

/-- From a covered time on the loop merges one chain and ends: that of the longest references from
which the end is reached. -/
theorem follow_eq {at_ : ℕ} (h : Solved stop refs path) (hwithin : ∀ x ∈ refs, x.hi ≤ stop)
    (hholds : ∀ x ∈ refs, Holds Reference.lo Reference.hi (valueOf fetch) spec held x)
    (hat : at_ ≤ stop) (hcovered : (path.table.get? at_).isSome) :
    ∃ chain, Widest Reference.lo Reference.hi refs at_ stop chain ∧
      ∀ value, path.follow fetch maxPoints at_ value =
        mergeAlong (valueOf fetch) maxPoints value chain := by
  induction hleft : stop - at_ using Nat.strong_induction_on generalizing at_ with
  | _ left ih =>
      by_cases hlt : at_ < stop
      · obtain ⟨⟨hi, id⟩, hentry⟩ := Option.isSome_iff_exists.mp hcovered
        obtain ⟨⟨x, hx, hlo, hhi, hid⟩, hnext, hlongest⟩ := h.entry at_ hi id hentry hlt
        have hrising := path.rising at_ hi id hentry hlt
        have hend : hi ≤ stop := hhi ▸ hwithin x hx
        obtain ⟨chain, hwidest, hfollow⟩ := ih (stop - hi) (by omega) hend hnext rfl
        have hx' := hholds x hx
        refine ⟨x :: chain, ?_, fun value => ?_⟩
        · rw [← hlo]
          refine .step hx (fun y hy hsame hreaches => ?_) (hhi.symm ▸ hwidest)
          rw [hhi]
          exact hlongest y hy (hsame.trans hlo) hreaches
        · have hloaded : fetch id = .ok (held x.lo x.hi) := by
            rw [← hid]
            exact hx'.value
          rw [Path.follow, dif_pos hlt, mergeAlong_cons, hx'.value, ok_bind]
          split
          · next hnone =>
              rw [hentry] at hnone
              cases hnone
          · next hi' id' hentry' =>
              rw [hentry] at hentry'
              cases hentry'
              rw [hloaded, ok_bind]
              simp only
              rw [if_neg (by rw [hx'.start, hx'.stop, hlo, hhi]; simp)]
              exact bind_congr fun merged => hfollow (some merged)
      · have heq : at_ = stop := by omega
        refine ⟨[], heq ▸ .refl at_, fun value => ?_⟩
        rw [Path.follow, dif_neg hlt]
        rfl

/-! ### The answer -/

theorem references_sorted : (c.references spec window).Pairwise Reference.Before := by
  unfold Control.references
  rw [List.pairwise_map]
  refine (List.pairwise_mergeSort (fun a b c hab hbc => ?_) (fun a b => ?_) _).imp
    fun {a b} hab => ?_
  · rw [then_isLE] at hab hbc ⊢
    omega
  · rw [Bool.or_eq_true, then_isLE, then_isLE]
    omega
  · rw [then_isLE] at hab
    unfold Reference.Before
    simp only
    omega

theorem references_within : ∀ r ∈ c.references spec window,
    window.start ≤ r.lo ∧ r.hi ≤ window.stop := by
  intro r hr
  obtain ⟨found, hfound, rfl⟩ := List.mem_map.mp hr
  obtain ⟨-, hin⟩ := List.mem_filter.mp (List.mem_mergeSort.mp hfound)
  simp only [Bool.and_eq_true, decide_eq_true_eq] at hin
  exact ⟨hin.1.1.2, hin.1.2⟩

/-- The warehouse merges the chain of the longest references from which the end is reached, when
the end is reached, and finds nothing otherwise. -/
theorem cached_widest (hwindow : window.start < window.stop)
    (hcount : (c.references spec window).length ≤ maxPoints)
    (hmergeable : Mergeable Reference.lo Reference.hi (valueOf fetch) spec maxPoints
      (c.references spec window) held) :
    (Reaches Reference.lo Reference.hi (c.references spec window) window.start window.stop →
      ∃ chain, Widest Reference.lo Reference.hi (c.references spec window) window.start
          window.stop chain ∧
        c.cached fetch spec window maxPoints = mergeAlong (valueOf fetch) maxPoints none chain) ∧
    (¬ Reaches Reference.lo Reference.hi (c.references spec window) window.start window.stop →
      c.cached fetch spec window maxPoints = .ok none) := by
  obtain ⟨path, hsolve, hsolved⟩ :=
    @solve_solved window.stop _ (fun x hx => (hmergeable.holds x hx).proper)
      (references_sorted (c := c))
  have hcached : c.cached fetch spec window maxPoints =
      if (path.table.get? window.start).isNone then .ok none
      else path.follow fetch maxPoints window.start none := by
    unfold Control.cached
    simp only
    rw [if_neg (not_lt.mpr hcount), hsolve, ok_bind]
    rfl
  constructor
  · intro hreaches
    have hcovered := (hsolved.covered window.start).mpr hreaches
    obtain ⟨chain, hwidest, hfollow⟩ := @follow_eq _ maxPoints _ path fetch spec held _ hsolved
      (fun x hx => (references_within x hx).2) hmergeable.holds hwindow.le hcovered
    refine ⟨chain, hwidest, ?_⟩
    rw [hcached, if_neg (by simp [Option.isNone_iff_eq_none, ← Option.isSome_iff_ne_none, hcovered]),
      hfollow]
  · intro hnot
    rw [← hsolved.covered] at hnot
    rw [hcached, if_pos (by simpa using hnot)]

/-! ### Both providers -/

/-- Both providers hold clean summaries of the same intervals of the window. -/
def SameReferences (s : TimeseriesPostgres.Store) (c : Control) (spec : SummarySpec)
    (window : Interval) : Prop :=
  ∀ lo hi, (∃ row ∈ s.references spec window, row.1 = lo ∧ TimeseriesPostgres.rowStop row = hi) ↔
    ∃ r ∈ c.references spec window, r.lo = lo ∧ r.hi = hi

/-- Some references are chained from the start of the window to its end. -/
def Tileable (refs : List Reference) (window : Interval) : Prop :=
  ∃ chain, chain ≠ [] ∧ Tiling Reference.lo Reference.hi window.start window.stop chain ∧
    ∀ x ∈ chain, x ∈ refs

/-- A chain tiles the window, and yet the longest reference at each time, from the start on, leads
to a time before the end at which none starts. -/
def Hidden (refs : List Reference) (window : Interval) : Prop :=
  Tileable refs window ∧ ∃ t chain,
    Longest Reference.lo Reference.hi refs window.start t chain ∧ t ≠ window.stop ∧
      DeadEnd Reference.lo refs t

/-- Along the longest references from which the end of the window is reached, the sums of the
summaries held cannot be added. -/
def Overflows (held : ℕ → ℕ → Summary) (refs : List Reference) (window : Interval) : Prop :=
  ∃ chain, chain ≠ [] ∧
    Widest Reference.lo Reference.hi refs window.start window.stop chain ∧
      ∃ e, addAlong held none (endsOf Reference.lo Reference.hi chain) = .error e

/-- The warehouse finds a result exactly when a chain tiles the window, and what it follows is such
a chain; the relational provider finds one when the warehouse does. -/
structure ExactChains (s : TimeseriesPostgres.Store) (limits : TimeseriesPostgres.Limits)
    (fetch : String → Except Error Summary) (c : Control) (maxPoints : ℕ) (spec : SummarySpec)
    (window : Interval) : Prop where
  clickhouse : (∃ summary, c.cached fetch spec window maxPoints = .ok (some summary)) ↔
    Tileable (c.references spec window) window
  follows : ∀ summary, c.cached fetch spec window maxPoints = .ok (some summary) →
    ∃ chain, Tiling Reference.lo Reference.hi window.start window.stop chain ∧
      (∀ x ∈ chain, x ∈ c.references spec window) ∧
      mergeAlong (valueOf fetch) maxPoints none chain = .ok (some summary)
  postgres : (∃ summary, s.cached spec window limits = .ok (some summary)) ↔
    ∃ summary, c.cached fetch spec window maxPoints = .ok (some summary)

theorem tileable_iff (hwindow : window.start < window.stop) : Tileable refs window ↔
    Reaches Reference.lo Reference.hi refs window.start window.stop := by
  constructor
  · rintro ⟨chain, -, htiling, hmem⟩
    exact ⟨chain, htiling, hmem⟩
  · rintro ⟨chain, htiling, hmem⟩
    refine ⟨chain, fun hnil => ?_, htiling, hmem⟩
    subst hnil
    generalize window.start = a at htiling hwindow
    generalize window.stop = b at htiling hwindow
    cases htiling
    exact lt_irrefl _ hwindow

/-- The chains of the longest references from which the end is reached have the same ends. -/
theorem widest_ends_eq {chain chain' : List Reference}
    (h : Widest Reference.lo Reference.hi refs window.start window.stop chain)
    (h' : Widest Reference.lo Reference.hi refs window.start window.stop chain')
    (hproper : ∀ r ∈ refs, r.lo < r.hi) :
    endsOf Reference.lo Reference.hi chain = endsOf Reference.lo Reference.hi chain' :=
  h.ends_eq h' hproper (fun r hr => ⟨r, hr, rfl, rfl⟩) fun r hr => ⟨r, hr, rfl, rfl⟩

/-- The warehouse finds a result exactly when a chain tiles the window and its own can be added,
and what it follows is such a chain. -/
theorem clickhouse_found (hwindow : window.start < window.stop)
    (hcount : (c.references spec window).length ≤ maxPoints)
    (hmergeable : Mergeable Reference.lo Reference.hi (valueOf fetch) spec maxPoints
      (c.references spec window) held) :
    ((∃ summary, c.cached fetch spec window maxPoints = .ok (some summary)) ↔
      Tileable (c.references spec window) window ∧
        ¬ Overflows held (c.references spec window) window) ∧
    ∀ summary, c.cached fetch spec window maxPoints = .ok (some summary) →
      ∃ chain, Tiling Reference.lo Reference.hi window.start window.stop chain ∧
        (∀ x ∈ chain, x ∈ c.references spec window) ∧
        mergeAlong (valueOf fetch) maxPoints none chain = .ok (some summary) := by
  obtain ⟨hfound, hnone⟩ := cached_widest hwindow hcount hmergeable
  have hproper := fun r hr => (hmergeable.holds r hr).proper
  rw [tileable_iff hwindow]
  by_cases hreaches : Reaches Reference.lo Reference.hi (c.references spec window) window.start
      window.stop
  · obtain ⟨chain, hwidest, hcached⟩ := hfound hreaches
    obtain ⟨htiling, hmem⟩ := hwidest.tiling
    rw [hcached, hmergeable.mergeAlong htiling hmem hwindow]
    refine ⟨⟨fun hadds => ⟨hreaches, ?_⟩, fun h => ?_⟩, fun summary hsummary =>
      ⟨chain, htiling, hmem, hsummary⟩⟩
    · rintro ⟨chain', -, hwidest', e, hfails⟩
      obtain ⟨total, htotal⟩ := hadds
      rw [← widest_ends_eq hwidest hwidest' hproper, htotal] at hfails
      cases hfails
    · cases hadds : addAlong held none (endsOf Reference.lo Reference.hi chain) with
      | ok total => exact ⟨total, rfl⟩
      | error e =>
          refine absurd ⟨chain, fun hnil => ?_, hwidest, e, hadds⟩ h.2
          rw [hnil] at hadds
          cases hadds
  · rw [hnone hreaches]
    refine ⟨⟨fun h => ?_, fun h => absurd h.1 hreaches⟩, fun summary h => ?_⟩
    · obtain ⟨summary, hsummary⟩ := h
      cases hsummary
    · cases h

/-- Inside an empty window there is no reference, and neither provider finds a result. -/
theorem exact_of_empty {s : TimeseriesPostgres.Store} {limits : TimeseriesPostgres.Limits}
    (hwindow : window.start = window.stop)
    (hproper : ∀ r ∈ c.references spec window, r.lo < r.hi)
    (hrows : ∀ row ∈ s.references spec window, row.1 < TimeseriesPostgres.rowStop row) :
    ExactChains s limits fetch c maxPoints spec window ∧
      ¬ Hidden (c.references spec window) window ∧
      ¬ Overflows held (c.references spec window) window := by
  have hrefs : c.references spec window = [] := by
    refine List.eq_nil_iff_forall_not_mem.mpr fun r hr => ?_
    have hin := references_within r hr
    have hlt := hproper r hr
    omega
  have hnone : s.references spec window = [] := by
    refine List.eq_nil_iff_forall_not_mem.mpr fun row hrow => ?_
    have hin := TimeseriesPostgres.references_within row hrow
    have hlt := hrows row hrow
    omega
  have hempty : ∀ chain : List Reference, chain ≠ [] →
      ¬ ∀ x ∈ chain, x ∈ c.references spec window := by
    intro chain hne hmem
    cases chain with
    | nil => exact hne rfl
    | cons x chain =>
        have hx := hmem x List.mem_cons_self
        rw [hrefs] at hx
        cases hx
  have htileable : ¬ Tileable (c.references spec window) window := by
    rintro ⟨chain, hne, -, hmem⟩
    exact hempty chain hne hmem
  have hclickhouse : c.cached fetch spec window maxPoints = .ok none := by
    unfold Control.cached
    simp only
    rw [hrefs, if_neg (by simp)]
    show (if ((Path.start window.stop).table.get? window.start).isNone then _ else _) = _
    have hcovered : (Path.start window.stop).table.get? window.start =
        some (window.stop, "") := by
      rw [Path.start, Table.get?_insertNew, if_pos hwindow]
      rfl
    rw [hcovered, if_neg (by simp), Path.follow, dif_neg (by omega)]
  have hpostgres : s.cached spec window limits = .ok none := by
    unfold TimeseriesPostgres.Store.cached
    simp only
    rw [hnone, if_neg (by simp), TimeseriesPostgres.walk]
  refine ⟨⟨?_, ?_, ?_⟩, fun h => htileable h.1, ?_⟩
  · rw [hclickhouse]
    refine ⟨fun h => ?_, fun h => absurd h htileable⟩
    obtain ⟨summary, hsummary⟩ := h
    cases hsummary
  · rw [hclickhouse]
    intro summary hsummary
    cases hsummary
  · rw [hclickhouse, hpostgres]
  · rintro ⟨chain, hne, hwidest, -⟩
    exact hempty chain hne hwidest.tiling.2

/-- Summary references are chained exactly, by both providers, if and only if no long reference
hides a chain of shorter ones and the sums along the chain can be added. -/
theorem cached_exactly {s : TimeseriesPostgres.Store} {limits : TimeseriesPostgres.Limits}
    (hsame : SameReferences s c spec window)
    (hcount : (c.references spec window).length ≤ maxPoints)
    (hrows : (s.references spec window).length ≤ limits.maxPoints)
    (hmergeable : Mergeable Reference.lo Reference.hi (valueOf fetch) spec maxPoints
      (c.references spec window) held)
    (hstored : Mergeable Prod.fst TimeseriesPostgres.rowStop TimeseriesPostgres.rowValue spec
      limits.maxPoints (s.references spec window) held) :
    ExactChains s limits fetch c maxPoints spec window ↔
      ¬ Hidden (c.references spec window) window ∧
        ¬ Overflows held (c.references spec window) window := by
  have hproper := fun r hr => (hmergeable.holds r hr).proper
  have hrising := fun row hrow => (hstored.holds row hrow).proper
  rcases Nat.lt_or_eq_of_le window.le with hwindow | hempty
  · obtain ⟨hfound, hfollows⟩ := clickhouse_found hwindow hcount hmergeable
    have hlongest := TimeseriesPostgres.cached_longest hwindow hrows hstored
    have hto : ∀ row ∈ s.references spec window, ∃ r ∈ c.references spec window,
        r.lo = row.1 ∧ r.hi = TimeseriesPostgres.rowStop row :=
      fun row hrow => (hsame _ _).mp ⟨row, hrow, rfl, rfl⟩
    have hfrom : ∀ r ∈ c.references spec window, ∃ row ∈ s.references spec window,
        row.1 = r.lo ∧ TimeseriesPostgres.rowStop row = r.hi :=
      fun r hr => (hsame _ _).mpr ⟨r, hr, rfl, rfl⟩
    have hdead : DeadEnd Reference.lo (c.references spec window) window.stop := fun r hr => by
      have hlt := hproper r hr
      have hin := (references_within r hr).2
      omega
    constructor
    · rintro ⟨hclickhouse, -, hpostgres⟩
      refine ⟨?_, fun hoverflows => ?_⟩
      · rintro ⟨htileable, t, chain, ht, hne, hend⟩
        obtain ⟨rows, hchain, -⟩ := hlongest.mp (hpostgres.mpr (hclickhouse.mpr htileable))
        obtain ⟨chain', hall⟩ := hchain.of_ends hto hfrom
        exact hne (ht.unique hend hall hdead)
      · have htileable : Tileable (c.references spec window) window := by
          obtain ⟨chain, hne, hwidest, -⟩ := hoverflows
          exact ⟨chain, hne, hwidest.tiling⟩
        exact (hfound.mp (hclickhouse.mpr htileable)).2 hoverflows
    · rintro ⟨hclear, hadds⟩
      have hexact : (∃ summary, c.cached fetch spec window maxPoints = .ok (some summary)) ↔
          Tileable (c.references spec window) window := by
        rw [hfound]
        exact and_iff_left hadds
      refine ⟨hexact, hfollows, ?_⟩
      rw [hlongest, hexact]
      constructor
      · rintro ⟨rows, hchain, -⟩
        obtain ⟨chain, hall⟩ := hchain.of_ends hto hfrom
        exact (tileable_iff hwindow).mpr hall.widest.reaches
      · intro htileable
        obtain ⟨ht, hend⟩ := greedy_longest hrising
          TimeseriesPostgres.references_sorted window.start
        obtain ⟨chain, hall⟩ := ht.of_ends hto hfrom
        have hstop : (greedy Prod.fst TimeseriesPostgres.rowStop (s.references spec window)
            window.start).2 = window.stop := by
          by_contra hne
          refine hclear ⟨htileable, _, chain, hall, hne, fun r hr => ?_⟩
          obtain ⟨row, hrow, hlo, -⟩ := hfrom r hr
          rw [← hlo]
          exact hend row hrow
        rw [hstop] at ht hall
        refine ⟨_, ht, ?_⟩
        rw [show endsOf Prod.fst TimeseriesPostgres.rowStop _ = endsOf Reference.lo Reference.hi chain
          from ht.widest.ends_eq hall.widest hrising hto hfrom]
        cases hsum : addAlong held none (endsOf Reference.lo Reference.hi chain) with
        | ok total => exact ⟨total, rfl⟩
        | error e =>
            refine absurd ⟨chain, fun hnil => ?_, hall.widest, e, hsum⟩ hadds
            rw [hnil] at hsum
            cases hsum
  · obtain ⟨hexact, hclear⟩ := @exact_of_empty maxPoints fetch c spec window held s limits hempty
      hproper hrising
    exact ⟨fun _ => hclear, fun _ => hexact⟩

/-! ### Buckets of 15 and of 20 -/

/-- A specification of the meter. -/
def meterSpecOf (resolution : ℕ) : SummarySpec :=
  ⟨TimeseriesPostgres.meterStream, ⟨TimeseriesPostgres.meterDefinition, "line", "meter", []⟩,
    resolution, .observedOnly, none⟩

/-- A bucket without a sample. -/
def quietBucket (w : Interval) : Summary :=
  ⟨w, (meterSpecOf 30).semantics, 0, ∅, .numeric (.empty .u64)⟩

def firstQuarter : Interval := ⟨0, 15, by decide⟩

def secondQuarter : Interval := ⟨15, 30, by decide⟩

def longBucket : Interval := ⟨0, 20, by decide⟩

def halfMinute : Interval := ⟨0, 30, by decide⟩

/-- Two buckets of 15, and no other. -/
def quarterRows : TimeseriesPostgres.Store :=
  { TimeseriesPostgres.Store.empty with
    summaries := (Table.empty.insertNew (meterSpecOf 15, 0) ⟨15, false, quietBucket firstQuarter⟩).insertNew
      (meterSpecOf 15, 15) ⟨30, false, quietBucket secondQuarter⟩ }

/-- A bucket of 20 before two buckets of 15. -/
def longRows : TimeseriesPostgres.Store :=
  { TimeseriesPostgres.Store.empty with
    summaries := ((Table.empty.insertNew (meterSpecOf 20, 0) ⟨20, false, quietBucket longBucket⟩).insertNew
      (meterSpecOf 15, 0) ⟨15, false, quietBucket firstQuarter⟩).insertNew
        (meterSpecOf 15, 15) ⟨30, false, quietBucket secondQuarter⟩ }

def quarters : Control :=
  ⟨(Table.empty.insertNew (meterSpecOf 15, 15) ⟨30, "b", false⟩).insertNew (meterSpecOf 15, 0)
    ⟨15, "a", false⟩⟩

def longControl : Control :=
  ⟨((Table.empty.insertNew (meterSpecOf 15, 15) ⟨30, "b", false⟩).insertNew (meterSpecOf 20, 0)
    ⟨20, "l", false⟩).insertNew (meterSpecOf 15, 0) ⟨15, "a", false⟩⟩

/-- The objects of the warehouse. -/
def meterObject (id : String) : Except Error Summary :=
  if id = "a" then .ok (quietBucket firstQuarter)
  else if id = "b" then .ok (quietBucket secondQuarter)
  else if id = "l" then .ok (quietBucket longBucket)
  else .error .invariant

def narrow : TimeseriesPostgres.Limits := ⟨10, 950, 950, Nat.succ_pos _, Nat.succ_pos _⟩

/-- The buckets by their ends. -/
def meterHeld : ℕ → ℕ → Summary
  | 0, 15 => quietBucket firstQuarter
  | 0, 20 => quietBucket longBucket
  | _, _ => quietBucket secondQuarter

theorem quietBucket_of (w : Interval) : (quietBucket w).Of (meterSpecOf 30) :=
  ⟨rfl, ⟨rfl, fun _ hv => absurd hv (by simp [Numeric.empty]),
    fun _ hv => absurd hv (by simp [Numeric.empty])⟩, le_rfl⟩

/-- The sums of buckets without a sample can be added. -/
theorem addAlong_meter (total : Option Sum) (htotal : ∀ x ∈ total, x = .u128 0)
    (ends : List (ℕ × ℕ)) : ∃ sum, addAlong meterHeld total ends = .ok sum := by
  induction ends generalizing total with
  | nil => exact ⟨total, rfl⟩
  | cons x ends ih =>
      obtain ⟨w, hw⟩ : ∃ w, meterHeld x.1 x.2 = quietBucket w := by
        unfold meterHeld
        split
        · exact ⟨_, rfl⟩
        · exact ⟨_, rfl⟩
        · exact ⟨_, rfl⟩
      have hnext : addNext total (meterHeld x.1 x.2).data = .ok (some (.u128 0)) := by
        rw [hw]
        cases total with
        | none => rfl
        | some y =>
            rw [htotal y rfl]
            rfl
      rw [addAlong, List.foldlM_cons, hnext]
      exact ih (some (.u128 0)) fun y hy => (Option.some.inj hy).symm

theorem quarterRows_references : quarterRows.references (meterSpecOf 30) halfMinute =
    [(0, ⟨15, false, quietBucket firstQuarter⟩), (15, ⟨30, false, quietBucket secondQuarter⟩)] := by
  have hsorted : List.mergeSort
      [((meterSpecOf 15, 0), (⟨15, false, quietBucket firstQuarter⟩ : TimeseriesPostgres.SummaryRow)),
        ((meterSpecOf 15, 15), ⟨30, false, quietBucket secondQuarter⟩)]
      (fun a b => ((compare a.1.2 b.1.2).then (compare b.2.hi a.2.hi)).isLE) =
      [((meterSpecOf 15, 0), ⟨15, false, quietBucket firstQuarter⟩),
        ((meterSpecOf 15, 15), ⟨30, false, quietBucket secondQuarter⟩)] :=
    List.mergeSort_of_pairwise (by simp [then_isLE])
  exact congrArg (List.map fun row => (row.1.2, row.2)) hsorted

theorem longRows_references : longRows.references (meterSpecOf 30) halfMinute =
    [(0, ⟨20, false, quietBucket longBucket⟩), (0, ⟨15, false, quietBucket firstQuarter⟩),
      (15, ⟨30, false, quietBucket secondQuarter⟩)] := by
  have hsorted : List.mergeSort
      [((meterSpecOf 20, 0), (⟨20, false, quietBucket longBucket⟩ : TimeseriesPostgres.SummaryRow)),
        ((meterSpecOf 15, 0), ⟨15, false, quietBucket firstQuarter⟩),
        ((meterSpecOf 15, 15), ⟨30, false, quietBucket secondQuarter⟩)]
      (fun a b => ((compare a.1.2 b.1.2).then (compare b.2.hi a.2.hi)).isLE) =
      [((meterSpecOf 20, 0), ⟨20, false, quietBucket longBucket⟩),
        ((meterSpecOf 15, 0), ⟨15, false, quietBucket firstQuarter⟩),
        ((meterSpecOf 15, 15), ⟨30, false, quietBucket secondQuarter⟩)] :=
    List.mergeSort_of_pairwise (by simp [then_isLE])
  exact congrArg (List.map fun row => (row.1.2, row.2)) hsorted

theorem quarters_references : quarters.references (meterSpecOf 30) halfMinute =
    [⟨15, 30, "b"⟩, ⟨0, 15, "a"⟩] := by
  have hsorted : List.mergeSort
      [((meterSpecOf 15, 15), (⟨30, "b", false⟩ : SummaryRow)), ((meterSpecOf 15, 0), ⟨15, "a", false⟩)]
      (fun a b => ((compare b.1.2 a.1.2).then (compare b.2.hi a.2.hi)).isLE) =
      [((meterSpecOf 15, 15), ⟨30, "b", false⟩), ((meterSpecOf 15, 0), ⟨15, "a", false⟩)] :=
    List.mergeSort_of_pairwise (by simp [then_isLE])
  exact congrArg (List.map fun row => (⟨row.1.2, row.2.hi, row.2.objectId⟩ : Reference)) hsorted

theorem longControl_references : longControl.references (meterSpecOf 30) halfMinute =
    [⟨15, 30, "b"⟩, ⟨0, 20, "l"⟩, ⟨0, 15, "a"⟩] := by
  have hsorted : List.mergeSort
      [((meterSpecOf 15, 15), (⟨30, "b", false⟩ : SummaryRow)), ((meterSpecOf 20, 0), ⟨20, "l", false⟩),
        ((meterSpecOf 15, 0), ⟨15, "a", false⟩)]
      (fun a b => ((compare b.1.2 a.1.2).then (compare b.2.hi a.2.hi)).isLE) =
      [((meterSpecOf 15, 15), ⟨30, "b", false⟩), ((meterSpecOf 20, 0), ⟨20, "l", false⟩),
        ((meterSpecOf 15, 0), ⟨15, "a", false⟩)] :=
    List.mergeSort_of_pairwise (by simp [then_isLE])
  exact congrArg (List.map fun row => (⟨row.1.2, row.2.hi, row.2.objectId⟩ : Reference)) hsorted

/-- No chain of buckets without a sample overflows. -/
theorem meter_not_overflows (refs : List Reference) (window : Interval) :
    ¬ Overflows meterHeld refs window := by
  rintro ⟨chain, -, -, e, hsum⟩
  obtain ⟨sum, hadded⟩ := addAlong_meter none (fun _ hx => absurd hx (by simp))
    (endsOf Reference.lo Reference.hi chain)
  rw [hadded] at hsum
  cases hsum

/-- Two buckets chain the window, and both providers find them. -/
theorem cached_exactly_quarters : ExactChains quarterRows narrow meterObject quarters 10
    (meterSpecOf 30) halfMinute := by
  have hmergeable : Mergeable Reference.lo Reference.hi (valueOf meterObject) (meterSpecOf 30) 10
      (quarters.references (meterSpecOf 30) halfMinute) meterHeld := by
    rw [quarters_references]
    refine ⟨fun r hr => ?_, by decide, by decide⟩
    simp only [List.mem_cons, List.not_mem_nil, or_false] at hr
    rcases hr with rfl | rfl
    · exact ⟨by decide, rfl, quietBucket_of secondQuarter, rfl, rfl⟩
    · exact ⟨by decide, rfl, quietBucket_of firstQuarter, rfl, rfl⟩
  have hstored : Mergeable Prod.fst TimeseriesPostgres.rowStop TimeseriesPostgres.rowValue
      (meterSpecOf 30) narrow.maxPoints (quarterRows.references (meterSpecOf 30) halfMinute)
      meterHeld := by
    rw [quarterRows_references]
    refine ⟨fun r hr => ?_, by decide, by decide⟩
    simp only [List.mem_cons, List.not_mem_nil, or_false] at hr
    rcases hr with rfl | rfl
    · exact ⟨by decide, rfl, quietBucket_of firstQuarter, rfl, rfl⟩
    · exact ⟨by decide, rfl, quietBucket_of secondQuarter, rfl, rfl⟩
  have hsame : SameReferences quarterRows quarters (meterSpecOf 30) halfMinute := by
    intro lo hi
    rw [quarterRows_references, quarters_references]
    simp [TimeseriesPostgres.rowStop, or_comm]
  refine (cached_exactly hsame ?_ ?_ hmergeable hstored).mpr ⟨?_, ?_⟩
  · rw [quarters_references]
    decide
  · rw [quarterRows_references]
    decide
  · rintro ⟨-, t, chain, ht, hne, hend⟩
    rw [quarters_references] at ht hend
    have hsecond : Longest Reference.lo Reference.hi [⟨15, 30, "b"⟩, ⟨0, 15, "a"⟩] 15 30 [_] :=
      .step (show (⟨15, 30, "b"⟩ : Reference) ∈ _ by simp) (by simp) (.refl 30)
    have hboth : Longest Reference.lo Reference.hi [⟨15, 30, "b"⟩, ⟨0, 15, "a"⟩] 0 30 [_, _] :=
      .step (show (⟨0, 15, "a"⟩ : Reference) ∈ _ by simp) (by simp) hsecond
    refine hne (ht.unique hend hboth ?_)
    intro r hr
    simp only [List.mem_cons, List.not_mem_nil, or_false] at hr
    rcases hr with rfl | rfl
    · decide
    · decide
  · exact meter_not_overflows _ halfMinute

/-- The bucket of 20 hides the two of 15 from the relational provider, not from the warehouse. -/
theorem long_bucket_hides_chain :
    SameReferences longRows longControl (meterSpecOf 30) halfMinute ∧
      longRows.cached (meterSpecOf 30) halfMinute narrow = .ok none ∧
      ∃ summary, longControl.cached meterObject (meterSpecOf 30) halfMinute 10 =
        .ok (some summary) := by
  have hmergeable : Mergeable Reference.lo Reference.hi (valueOf meterObject) (meterSpecOf 30) 10
      (longControl.references (meterSpecOf 30) halfMinute) meterHeld := by
    rw [longControl_references]
    refine ⟨fun r hr => ?_, by decide, by decide⟩
    simp only [List.mem_cons, List.not_mem_nil, or_false] at hr
    rcases hr with rfl | rfl | rfl
    · exact ⟨by decide, rfl, quietBucket_of secondQuarter, rfl, rfl⟩
    · exact ⟨by decide, rfl, quietBucket_of longBucket, rfl, rfl⟩
    · exact ⟨by decide, rfl, quietBucket_of firstQuarter, rfl, rfl⟩
  refine ⟨fun lo hi => ?_, ?_, (clickhouse_found (by decide) ?_ hmergeable).1.mpr ⟨?_, ?_⟩⟩
  · rw [longRows_references, longControl_references]
    simp only [TimeseriesPostgres.rowStop, List.mem_cons, List.not_mem_nil, or_false,
      exists_eq_or_imp, exists_eq_left]
    tauto
  · unfold TimeseriesPostgres.Store.cached
    rw [longRows_references]
    rfl
  · rw [longControl_references]
    decide
  · rw [longControl_references]
    refine ⟨[⟨0, 15, "a"⟩, ⟨15, 30, "b"⟩], by simp, ?_, by simp⟩
    have hsecond : Tiling Reference.lo Reference.hi 15 30 [⟨15, 30, "b"⟩] :=
      @Tiling.cons ℕ Reference Reference.lo Reference.hi ⟨15, 30, "b"⟩ [] 30 (.nil 30)
    exact @Tiling.cons ℕ Reference Reference.lo Reference.hi ⟨0, 15, "a"⟩ _ 30 hsecond
  · exact meter_not_overflows _ halfMinute

/-- `f64::MAX`. -/
def f64Max : FiniteF64 := ⟨Float.ofBits 0x7FEFFFFFFFFFFFFF, by decide, by decide⟩

/-- A bucket of one sample, the greatest finite value. -/
def fullBucket (w : Interval) : Summary :=
  ⟨w, { (meterSpecOf 30).semantics with series :=
      ⟨{ TimeseriesPostgres.meterDefinition with metric := .gauge .f64 }, "line", "meter", []⟩ },
    1, ∅, .numeric ⟨.f64 f64Max, 1, some (.f64 f64Max), some (.f64 f64Max)⟩⟩

-- The sum of the two is not finite.
example : (fullBucket firstQuarter).merge (fullBucket secondQuarter) 10 = .error .numericRange := rfl

end Rss.TimeseriesClickhouse
