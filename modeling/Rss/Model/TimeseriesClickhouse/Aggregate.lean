import Rss.Library.Fallible
import Rss.Library.Table
import Rss.Model.Timeseries.Lifecycle

/-! # Stored summaries of the warehouse

`aggregate.rs`: the control tables refer to summaries that are objects of the warehouse. The query
of an object is a parameter. A budget of bytes is not modelled: a read that exceeds it fails. -/

namespace Rss.TimeseriesClickhouse

open Rss.Timeseries

/-- A row of `summaries`, without its start. -/
structure SummaryRow where
  hi : ℕ
  objectId : String
  dirty : Bool
  deriving DecidableEq, Repr

/-- The control tables that a cached summary is found by. -/
structure Control where
  summaries : Table (SummarySpec × ℕ) SummaryRow

/-- A clean summary, by its interval and object. -/
structure Reference where
  lo : ℕ
  hi : ℕ
  objectId : String
  deriving DecidableEq, Repr

namespace Control

/-- The clean rows of the same semantics inside the window, the latest start first, and the longest
of each start. -/
def references (c : Control) (spec : SummarySpec) (window : Interval) : List Reference :=
  ((c.summaries.rows.filter (fun row => row.1.1.stream.scope = spec.stream.scope &&
      decide (row.1.1.semantics = spec.semantics) && decide (window.start ≤ row.1.2) &&
      decide (row.2.hi ≤ window.stop) && !row.2.dirty)).mergeSort
    (fun a b => ((compare b.1.2 a.1.2).then (compare b.2.hi a.2.hi)).isLE)).map
      (fun row => ⟨row.1.2, row.2.hi, row.2.objectId⟩)

end Control

/-! ### Coverage -/

/-- The times that reach the end of the window, each with the interval and the object to go on
with. Before the end a time goes on to a later one. -/
structure Path (stop : ℕ) where
  table : Table ℕ (ℕ × String)
  rising : ∀ at_ hi id, table.get? at_ = some (hi, id) → at_ < stop → at_ < hi

namespace Path

variable {stop : ℕ}

/-- Only the end is covered. -/
def start (stop : ℕ) : Path stop where
  table := Table.empty.insertNew stop (stop, "")
  rising := by
    intro at_ hi id hentry hlt
    rw [Table.get?_insertNew, if_neg hlt.ne] at hentry
    cases hentry

/-- `entry(lo).or_insert((hi, id))`. -/
def orInsert (path : Path stop) (r : Reference) (h : r.lo < r.hi) : Path stop where
  table := path.table.insertNew r.lo (r.hi, r.objectId)
  rising := by
    intro at_ hi id hentry hlt
    rw [Table.get?_insertNew] at hentry
    split at hentry
    · next heq =>
        cases hold : path.table.get? r.lo with
        | none =>
            rw [hold] at hentry
            cases hentry
            rw [heq]
            exact h
        | some entry =>
            rw [hold] at hentry
            cases hentry
            rw [heq] at hlt ⊢
            exact path.rising _ _ _ hold hlt
    · exact path.rising _ _ _ hentry hlt

/-- A reference to a covered time covers its start. -/
def extend (path : Path stop) (r : Reference) : Except Error (Path stop) :=
  if h : r.lo < r.hi then
    .ok (if (path.table.get? r.hi).isSome then path.orInsert r h else path)
  else .error .invariant

/-- The references in their order, from the latest start on. -/
def solve (stop : ℕ) (refs : List Reference) : Except Error (Path stop) :=
  refs.foldlM extend (start stop)

/-- The summaries along the path, from a time on. -/
def follow (fetch : String → Except Error Summary) (maxPoints : ℕ) (path : Path stop) (at_ : ℕ)
    (value : Option Summary) : Except Error (Option Summary) :=
  if hlt : at_ < stop then
    match hentry : path.table.get? at_ with
    | none => .error .invariant
    | some (hi, id) => do
        let summary ← fetch id
        if summary.window.start ≠ at_ ∨ summary.window.stop ≠ hi then throw .invariant
        let merged ← Summary.mergeAfter value summary maxPoints
        follow fetch maxPoints path hi (some merged)
  else .ok value
termination_by stop - at_
decreasing_by
  have hrising := path.rising at_ hi id hentry hlt
  omega

end Path

namespace Control

/-- `ChStore::cached`; `fetch` is `summary_value` in the namespace of the specification. -/
def cached (fetch : String → Except Error Summary) (c : Control) (spec : SummarySpec)
    (window : Interval) (maxPoints : ℕ) : Except Error (Option Summary) := do
  let refs := c.references spec window
  if refs.length > maxPoints then throw .budgetExceeded
  let path ← Path.solve window.stop refs
  if (path.table.get? window.start).isNone then return none
  path.follow fetch maxPoints window.start none

end Control

end Rss.TimeseriesClickhouse
