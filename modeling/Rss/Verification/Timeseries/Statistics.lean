import Mathlib
import Rss.Model.Timeseries.Aggregate

/-! # What the points of a summary add up to

Every flush of the builder adds one piece to the statistics, and the statistics of a list of
pieces is a function of their sum. -/

namespace Rss.Timeseries

/-! ### Numbers -/

/-- The metric is not of floating-point numbers. -/
def Metric.Integral : Metric → Prop
  | .gauge number | .counter number _ => number ≠ .f64
  | _ => True

/-- The integer of a number, which one of floating point does not have. -/
def Number.value : Number → ℤ
  | .i64 v => v.toInt
  | .u64 v => v.toNat
  | .f64 _ => 0

theorem Number.eq_of_value {a b : Number} (hint : a.kind ≠ .f64) (hkind : a.kind = b.kind)
    (hvalue : a.value = b.value) : a = b := by
  match a, b with
  | .i64 a, .i64 b => exact congrArg Number.i64 (Int64.toInt_inj.mp hvalue)
  | .u64 a, .u64 b =>
      have hnat : a.toNat = b.toNat := Int.ofNat_inj.mp hvalue
      exact congrArg Number.u64 (UInt64.toNat_inj.mp hnat)
  | .f64 _, _ => exact absurd rfl hint

theorem Number.compare_eq {a b : Number} (hint : a.kind ≠ .f64) (h : a.kind = b.kind) :
    Number.compare a b = .ok (Ord.compare a.value b.value) := by
  match a, b with
  | .i64 a, .i64 b => rfl
  | .u64 a, .u64 b =>
      simp only [Number.compare, Number.value]
      congr 1
      rw [Nat.compare_eq_ite_lt, Int.compare_eq_ite_lt]
      simp
  | .f64 _, _ => exact absurd rfl hint

/-- The exact sum of integers of a kind. -/
def sumOf : NumberKind → List Number → Sum
  | .i64, ns => .i128 (ns.map Number.value).sum
  | .u64, ns => .u128 (ns.map Number.value).sum.toNat
  | .f64, _ => .f64 .zero

/-- The statistics of a list of numbers. -/
noncomputable def numericOf (kind : NumberKind) (ns : List Number) : Numeric :=
  ⟨sumOf kind ns, ns.length, ns.argmin Number.value, ns.argmax Number.value⟩

/-- All numbers are of the kind. -/
def OfKind (kind : NumberKind) (ns : List Number) : Prop := ∀ n ∈ ns, n.kind = kind

theorem OfKind.append {kind : NumberKind} {xs ys : List Number} (hx : OfKind kind xs)
    (hy : OfKind kind ys) : OfKind kind (xs ++ ys) := by
  intro n hn
  rcases List.mem_append.mp hn with h | h
  · exact hx n h
  · exact hy n h

theorem value_bounds_i64 {n : Number} (h : n.kind = .i64) :
    -2 ^ 63 ≤ n.value ∧ n.value < 2 ^ 63 := by
  match n with
  | .i64 v => exact ⟨v.le_toInt, v.toInt_lt⟩

theorem value_bounds_u64 {n : Number} (h : n.kind = .u64) : 0 ≤ n.value ∧ n.value < 2 ^ 64 := by
  match n with
  | .u64 v =>
      have hlt : v.toNat < 2 ^ 64 := v.toNat_lt
      simp only [Number.value]
      omega

theorem sum_bounds_i64 {ns : List Number} (h : OfKind .i64 ns) :
    -2 ^ 63 * (ns.length : ℤ) ≤ (ns.map Number.value).sum ∧
      (ns.map Number.value).sum ≤ (2 ^ 63 - 1) * (ns.length : ℤ) := by
  induction ns with
  | nil => simp
  | cons n ns ih =>
      have hn := value_bounds_i64 (h n List.mem_cons_self)
      have hrest := ih (fun m hm => h m (List.mem_cons_of_mem n hm))
      simp only [List.map_cons, List.sum_cons, List.length_cons]
      push_cast
      omega

theorem sum_bounds_u64 {ns : List Number} (h : OfKind .u64 ns) :
    0 ≤ (ns.map Number.value).sum ∧
      (ns.map Number.value).sum ≤ (2 ^ 64 - 1) * (ns.length : ℤ) := by
  induction ns with
  | nil => simp
  | cons n ns ih =>
      have hn := value_bounds_u64 (h n List.mem_cons_self)
      have hrest := ih (fun m hm => h m (List.mem_cons_of_mem n hm))
      simp only [List.map_cons, List.sum_cons, List.length_cons]
      push_cast
      omega

/-- Sums of fewer than `2 ^ 64` numbers never overflow. -/
theorem checkedAdd_sumOf {kind : NumberKind} {xs ys : List Number} (hint : kind ≠ .f64)
    (hx : OfKind kind xs) (hy : OfKind kind ys) (hlen : (xs ++ ys).length < 2 ^ 64) :
    (sumOf kind xs).checkedAdd (sumOf kind ys) = .ok (sumOf kind (xs ++ ys)) := by
  have hxy := hx.append hy
  have hlen' : ((xs ++ ys).length : ℤ) < 2 ^ 64 := by exact_mod_cast hlen
  cases kind with
  | i64 =>
      have hbounds := sum_bounds_i64 hxy
      simp only [List.map_append, List.sum_append] at hbounds
      simp only [sumOf, Sum.checkedAdd, List.map_append, List.sum_append]
      rw [if_pos]
      omega
  | u64 =>
      have hbx := sum_bounds_u64 hx
      have hby := sum_bounds_u64 hy
      have hbounds := sum_bounds_u64 hxy
      simp only [List.map_append, List.sum_append] at hbounds
      simp only [sumOf, Sum.checkedAdd, List.map_append, List.sum_append]
      rw [checkedAdd_of_lt (by omega), okOr_some, Int.toNat_add hbx.1 hby.1]
      rfl
  | f64 => exact absurd rfl hint

theorem asSum_eq {kind : NumberKind} {n : Number} (hint : kind ≠ .f64) (h : n.kind = kind) :
    n.asSum = sumOf kind [n] := by
  subst h
  cases n with
  | i64 v => simp [Number.asSum, Number.kind, sumOf, Number.value]
  | u64 v => simp [Number.asSum, Number.kind, sumOf, Number.value]
  | f64 v => exact absurd rfl hint

/-! ### Sums as integers -/

def Sum.value : Sum → ℤ
  | .i128 v => v
  | .u128 v => v
  | .f64 _ => 0

def Sum.kind : Sum → NumberKind
  | .i128 _ => .i64
  | .u128 _ => .u64
  | .f64 _ => .f64

theorem sumOf_kind (kind : NumberKind) (ns : List Number) : (sumOf kind ns).kind = kind := by
  cases kind <;> rfl

theorem sumOf_value {kind : NumberKind} {ns : List Number} (hint : kind ≠ .f64)
    (h : OfKind kind ns) : (sumOf kind ns).value = (ns.map Number.value).sum := by
  cases kind with
  | i64 => rfl
  | u64 => exact Int.toNat_of_nonneg (sum_bounds_u64 h).1
  | f64 => exact absurd rfl hint

theorem Sum.eq_of_value {a b : Sum} (hint : a.kind ≠ .f64) (hkind : a.kind = b.kind)
    (hvalue : a.value = b.value) : a = b := by
  match a, b with
  | .i128 v, .i128 w => exact congrArg Sum.i128 hvalue
  | .u128 v, .u128 w => exact congrArg Sum.u128 (Int.ofNat_inj.mp hvalue)
  | .f64 _, _ => exact absurd rfl hint

/-- The integer as a sum of an integer kind. -/
def Sum.ofInt : NumberKind → ℤ → Sum
  | .i64, v => .i128 v
  | .u64, v => .u128 v.toNat
  | .f64, _ => .f64 .zero

/-- Sums that are not negative add up while they stay below the smaller of the two bounds. -/
theorem Sum.checkedAdd_ofInt {kind : NumberKind} {a b : ℤ} (hint : kind ≠ .f64) (ha : 0 ≤ a)
    (hb : 0 ≤ b) (hlt : a + b < if kind = .i64 then 2 ^ 127 else 2 ^ 128) :
    (Sum.ofInt kind a).checkedAdd (Sum.ofInt kind b) = .ok (Sum.ofInt kind (a + b)) := by
  cases kind with
  | i64 =>
      simp only [if_true] at hlt
      simp only [Sum.ofInt, Sum.checkedAdd]
      rw [if_pos (by omega)]
  | u64 =>
      simp only [reduceCtorEq, if_false] at hlt
      simp only [Sum.ofInt, Sum.checkedAdd]
      rw [checkedAdd_of_lt (by omega), okOr_some, Int.toNat_add ha hb]
      rfl
  | f64 => exact absurd rfl hint

/-! ### Extrema -/

/-- The number, unless the bound is as low. -/
def lower (bound : Option Number) (n : Number) : Number :=
  match bound with
  | none => n
  | some v => if n.value < v.value then n else v

def upper (bound : Option Number) (n : Number) : Number :=
  match bound with
  | none => n
  | some v => if v.value < n.value then n else v

theorem argmin_snoc (ns : List Number) (n : Number) :
    (ns ++ [n]).argmin Number.value = some (lower (ns.argmin Number.value) n) := by
  rw [List.argmin_concat]
  cases ns.argmin Number.value with
  | none => rfl
  | some v =>
      simp only [lower]
      split <;> rfl

theorem argmax_snoc (ns : List Number) (n : Number) :
    (ns ++ [n]).argmax Number.value = some (upper (ns.argmax Number.value) n) := by
  rw [List.argmax_concat]
  cases ns.argmax Number.value with
  | none => rfl
  | some v =>
      simp only [upper]
      split <;> rfl

/-- A bound of the number's kind gives way exactly when the number passes it. -/
theorem replaces_eq {n : Number} {bound : Option Number} {way : Ordering} (hint : n.kind ≠ .f64)
    (h : ∀ v ∈ bound, n.kind = v.kind) :
    Numeric.replaces n bound way =
      .ok (bound.all (fun v => compare n.value v.value == way)) := by
  cases bound with
  | none => rfl
  | some v => simp [Numeric.replaces, Number.compare_eq hint (h v rfl), Except.map]

theorem compare_beq_lt (a b : ℤ) : (compare a b == Ordering.lt) = decide (a < b) := by
  rw [Int.compare_eq_ite_lt]
  split
  · simp_all
  · split <;> simp_all

theorem compare_beq_gt (a b : ℤ) : (compare a b == Ordering.gt) = decide (b < a) := by
  rw [Int.compare_eq_ite_lt]
  split
  · simp_all [Int.le_of_lt]
  · split <;> simp_all

theorem extrema_eq {s : Numeric} {n : Number} (hint : n.kind ≠ .f64)
    (hmin : ∀ v ∈ s.min, n.kind = v.kind) (hmax : ∀ v ∈ s.max, n.kind = v.kind) :
    s.extrema n = .ok { s with min := some (lower s.min n), max := some (upper s.max n) } := by
  obtain ⟨sum, count, min, max⟩ := s
  have hlow : (if min.all (fun v => compare n.value v.value == .lt) then some n else min) =
      some (lower min n) := by
    cases min with
    | none => rfl
    | some v =>
        simp only [Option.all_some, compare_beq_lt, decide_eq_true_eq, lower]
        split <;> rfl
  have hhigh : (if max.all (fun v => compare n.value v.value == .gt) then some n else max) =
      some (upper max n) := by
    cases max with
    | none => rfl
    | some v =>
        simp only [Option.all_some, compare_beq_gt, decide_eq_true_eq, upper]
        split <;> rfl
  rw [Numeric.extrema, replaces_eq hint hmin, ok_bind, ← hlow, ← hhigh]
  split
  · dsimp only at hmax ⊢
    rw [replaces_eq hint hmax, ok_bind]
    split <;> rfl
  · dsimp only at hmax ⊢
    rw [replaces_eq hint hmax, ok_bind]
    split <;> rfl

/-- One more number. -/
theorem add_numericOf {kind : NumberKind} {ns : List Number} {n : Number} (hint : kind ≠ .f64)
    (hns : OfKind kind ns) (hn : n.kind = kind) (hlen : ns.length + 1 < 2 ^ 64) :
    (numericOf kind ns).add n = .ok (numericOf kind (ns ++ [n])) := by
  have hone : OfKind kind [n] := by simpa [OfKind] using hn
  have hmin : ∀ v ∈ ns.argmin Number.value, n.kind = v.kind :=
    fun v hv => hn.trans (hns v (List.argmin_mem hv)).symm
  have hmax : ∀ v ∈ ns.argmax Number.value, n.kind = v.kind :=
    fun v hv => hn.trans (hns v (List.argmax_mem hv)).symm
  simp only [Numeric.add, numericOf]
  rw [asSum_eq hint hn, checkedAdd_sumOf hint hns hone (by simpa using hlen), ok_bind,
    checkedAdd_of_lt hlen, okOr_some, ok_bind, extrema_eq (hn.trans_ne hint) hmin hmax, argmin_snoc,
    argmax_snoc]
  simp

theorem lower_kind {kind : NumberKind} {bound : Option Number} {n : Number}
    (hbound : ∀ v ∈ bound, v.kind = kind) (hn : n.kind = kind) : (lower bound n).kind = kind := by
  cases bound with
  | none => exact hn
  | some v =>
      simp only [lower]
      split
      · exact hn
      · exact hbound v rfl

theorem upper_kind {kind : NumberKind} {bound : Option Number} {n : Number}
    (hbound : ∀ v ∈ bound, v.kind = kind) (hn : n.kind = kind) : (upper bound n).kind = kind := by
  cases bound with
  | none => exact hn
  | some v =>
      simp only [upper]
      split
      · exact hn
      · exact hbound v rfl

/-- A higher number leaves the lower bound. -/
theorem lower_lower {bound : Option Number} {lo hi : Number} (h : lo.value ≤ hi.value) :
    lower (some (lower bound lo)) hi = lower bound lo := by
  cases bound with
  | none => exact if_neg (not_lt.mpr h)
  | some v =>
      simp only [lower]
      grind

/-- A lower number of the same kind before a higher one makes no difference to the upper bound. -/
theorem upper_upper {bound : Option Number} {lo hi : Number} (hint : lo.kind ≠ .f64)
    (hkind : lo.kind = hi.kind) (h : lo.value ≤ hi.value) : upper (some (upper bound lo)) hi = upper bound hi := by
  have hsame : hi.value ≤ lo.value → lo = hi :=
    fun hle => Number.eq_of_value hint hkind (le_antisymm h hle)
  cases bound with
  | none =>
      by_cases hlt : lo.value < hi.value
      · exact if_pos hlt
      · exact (if_neg hlt).trans (hsame (not_lt.mp hlt))
  | some v =>
      simp only [upper]
      grind

theorem argmin_append (xs ys : List Number) :
    (xs ++ ys).argmin Number.value =
      match ys.argmin Number.value with
      | none => xs.argmin Number.value
      | some n => some (lower (xs.argmin Number.value) n) := by
  induction ys using List.reverseRecOn with
  | nil => simp
  | append_singleton ys y ih =>
      rw [← List.append_assoc, argmin_snoc, argmin_snoc, ih]
      cases ys.argmin Number.value with
      | none => rfl
      | some n =>
          cases xs.argmin Number.value with
          | none => rfl
          | some m =>
              simp only [lower]
              congr 1
              grind

theorem argmax_append (xs ys : List Number) :
    (xs ++ ys).argmax Number.value =
      match ys.argmax Number.value with
      | none => xs.argmax Number.value
      | some n => some (upper (xs.argmax Number.value) n) := by
  induction ys using List.reverseRecOn with
  | nil => simp
  | append_singleton ys y ih =>
      rw [← List.append_assoc, argmax_snoc, argmax_snoc, ih]
      cases ys.argmax Number.value with
      | none => rfl
      | some n =>
          cases xs.argmax Number.value with
          | none => rfl
          | some m =>
              simp only [upper]
              congr 1
              grind

/-- The numbers of two neighbouring windows. -/
theorem merge_numericOf {kind : NumberKind} {xs ys : List Number} (hint : kind ≠ .f64)
    (hx : OfKind kind xs) (hy : OfKind kind ys) (hlen : (xs ++ ys).length < 2 ^ 64) :
    (numericOf kind xs).merge (numericOf kind ys) = .ok (numericOf kind (xs ++ ys)) := by
  simp only [Numeric.merge, numericOf]
  rw [checkedAdd_sumOf hint hx hy hlen, ok_bind, checkedAdd_of_lt (by simpa using hlen), okOr_some,
    ok_bind, argmin_append, argmax_append]
  cases hmin : ys.argmin Number.value with
  | none =>
      obtain rfl := List.argmin_eq_none.mp hmin
      simp [Numeric.extrema?]
  | some lo =>
      cases hmax : ys.argmax Number.value with
      | none =>
          obtain rfl := List.argmax_eq_none.mp hmax
          simp at hmin
      | some hi =>
          have hlo := List.argmin_mem hmin
          have hhi := List.argmax_mem hmax
          have hle : lo.value ≤ hi.value := List.not_lt_of_mem_argmin hhi hmin |> not_lt.mp
          have hkinds : lo.kind = hi.kind := (hy lo hlo).trans (hy hi hhi).symm
          have hxmin : ∀ v ∈ xs.argmin Number.value, v.kind = kind :=
            fun v hv => hx v (List.argmin_mem hv)
          have hxmax : ∀ v ∈ xs.argmax Number.value, v.kind = kind :=
            fun v hv => hx v (List.argmax_mem hv)
          have hfirst := @extrema_eq ⟨sumOf kind (xs ++ ys), xs.length + ys.length,
            xs.argmin Number.value, xs.argmax Number.value⟩ lo ((hy lo hlo).trans_ne hint)
            (fun v hv => (hy lo hlo).trans (hxmin v hv).symm)
            (fun v hv => (hy lo hlo).trans (hxmax v hv).symm)
          simp only [Numeric.extrema?]
          rw [hfirst, ok_bind, extrema_eq ((hy hi hhi).trans_ne hint), lower_lower hle,
            upper_upper ((hy lo hlo).trans_ne hint) hkinds hle]
          · simp
          · rintro v ⟨⟩
            exact (hy hi hhi).trans (lower_kind hxmin (hy lo hlo)).symm
          · rintro v ⟨⟩
            exact (hy hi hhi).trans (upper_kind hxmax (hy lo hlo)).symm

/-! ### Pieces -/

theorem Interval.new_of_le {start stop : ℕ} (h : start ≤ stop) :
    Interval.new start stop = .ok ⟨start, stop, h⟩ := dif_pos h

/-- A point as the builder flushes it: after the point before, and with the time of the next. -/
structure Point where
  previous : Option Sample
  sample : Sample
  next : Option ℕ

/-- The value of a computation that does not fail. -/
def Except.valueD {α : Type} (x : Except Error α) (d : α) : α :=
  match x with
  | .ok a => a
  | .error _ => d

theorem Except.eq_valueD {α : Type} {x : Except Error α} {a : α} (d : α) (h : x = .ok a) :
    x = .ok (Except.valueD x d) := by rw [h]; rfl

/-- The contribution of a point to a counter, with the defects it adds. -/
def contribution (spec : SummarySpec) (previous : Option Sample) (p : Sample) :
    Except Error (Option Contribution × Finset Completeness) :=
  match spec.metric, previous with
  | .counter _ .delta, _ => delta p (spec.maxGap.getD 0)
  | .counter _ .cumulative, some a => cumulative a p (spec.maxGap.getD 0)
  | _, _ => .ok (none, ∅)

def contributionOf (spec : SummarySpec) (previous : Option Sample) (p : Sample) :
    Option Contribution × Finset Completeness :=
  Except.valueD (contribution spec previous p) (none, ∅)

/-- The segment of a point: its state from the point, or from the start of the window, to the
end of its hold. -/
def heldSegment (spec : SummarySpec) (w : Interval) (p : Sample) (next : Option ℕ) :
    Option StateSegment :=
  p.stateValue.bind (fun value =>
    if h : p.observedAt < w.stop ∧ max p.observedAt w.start ≤ holdEnd spec w p.observedAt next then
      some ⟨value, ⟨max p.observedAt w.start, holdEnd spec w p.observedAt next, h.2⟩⟩
    else none)

def transitionOf (spec : SummarySpec) (w : Interval) (previous : Option Sample) (p : Sample) :
    Option Transition :=
  p.stateValue.bind (fun value =>
    if p.observedAt < w.stop then transitionInto spec w previous p value else none)

theorem statePiece_eq (spec : SummarySpec) (w : Interval) (previous : Option Sample) (p : Sample)
    (next : Option ℕ) :
    statePiece spec w previous p next =
      .ok (heldSegment spec w p next, transitionOf spec w previous p) := by
  unfold statePiece heldSegment transitionOf
  cases p.stateValue with
  | none => rfl
  | some value =>
      by_cases hin : p.observedAt < w.stop
      · by_cases hle : max p.observedAt w.start ≤ holdEnd spec w p.observedAt next
        · simp only [ge_iff_le, not_le.mpr hin, if_false, hle, if_true, Interval.new, dif_pos,
            ok_bind, Option.bind_some, hin, and_self]
          rfl
        · simp [hin, hle, not_le.mpr hin]
      · simp [hin, not_lt.mp hin]

/-- What points add to a summary. -/
structure Piece where
  valid : ℕ
  defects : Finset Completeness
  numbers : List Number
  contributions : List Contribution
  segments : List StateSegment
  transitions : List Transition

namespace Piece

def empty : Piece := ⟨0, ∅, [], [], [], []⟩

def append (a b : Piece) : Piece :=
  ⟨a.valid + b.valid, a.defects ∪ b.defects, a.numbers ++ b.numbers,
    a.contributions ++ b.contributions, a.segments ++ b.segments, a.transitions ++ b.transitions⟩

instance : Append Piece := ⟨append⟩

theorem append_def (a b : Piece) : a ++ b = append a b := rfl

theorem append_assoc (a b c : Piece) : a ++ b ++ c = a ++ (b ++ c) := by
  simp [append_def, append, Nat.add_assoc, Finset.union_assoc]

theorem empty_append (a : Piece) : empty ++ a = a := by
  simp [append_def, append, empty]

theorem append_empty (a : Piece) : a ++ empty = a := by
  simp [append_def, append, empty]

end Piece

/-- What one point adds within a window. -/
def piece (spec : SummarySpec) (w : Interval) (x : Point) : Piece where
  valid := if inside x.sample.observedAt w && x.sample.isValid then 1 else 0
  defects :=
    if inside x.sample.observedAt w then
      (contributionOf spec x.previous x.sample).2 ∪ (if x.sample.isValid then ∅ else {.gaps})
    else ∅
  numbers := if inside x.sample.observedAt w then x.sample.number.toList else []
  contributions :=
    if inside x.sample.observedAt w then (contributionOf spec x.previous x.sample).1.toList else []
  segments := (heldSegment spec w x.sample x.next).toList
  transitions := (transitionOf spec w x.previous x.sample).toList

/-- What a list of points adds. -/
def pieces (spec : SummarySpec) (w : Interval) (xs : List Point) : Piece :=
  xs.foldr (fun x rest => piece spec w x ++ rest) .empty

theorem pieces_nil (spec : SummarySpec) (w : Interval) : pieces spec w [] = .empty := rfl

theorem pieces_cons (spec : SummarySpec) (w : Interval) (x : Point) (xs : List Point) :
    pieces spec w (x :: xs) = piece spec w x ++ pieces spec w xs := rfl

theorem pieces_append (spec : SummarySpec) (w : Interval) (xs ys : List Point) :
    pieces spec w (xs ++ ys) = pieces spec w xs ++ pieces spec w ys := by
  induction xs with
  | nil => simp [pieces_nil, Piece.empty_append]
  | cons x xs ih => rw [List.cons_append, pieces_cons, pieces_cons, ih, Piece.append_assoc]

/-- The statistics of a metric, from what its points added. -/
noncomputable def dataOf (metric : Metric) (a : Piece) : Statistics :=
  match metric with
  | .gauge kind => .numeric (numericOf kind a.numbers)
  | .counter kind _ => .counter kind a.contributions
  | .bool | .state _ => .state a.segments a.transitions

noncomputable def summaryOf (spec : SummarySpec) (w : Interval) (a : Piece) : Summary :=
  ⟨w, spec.semantics, a.valid, a.defects, dataOf spec.metric a⟩

/-- The numbers counted are integers of the metric's kind, and no more than the valid samples. -/
structure Piece.Fits (spec : SummarySpec) (a : Piece) : Prop where
  integral : spec.metric.Integral
  kind : ∀ kind, spec.metric = .gauge kind → OfKind kind a.numbers
  numbers_le : a.numbers.length ≤ a.valid

theorem Piece.Fits.empty {spec : SummarySpec} (h : spec.metric.Integral) : Piece.empty.Fits spec :=
  ⟨h, fun _ _ => by simp [Piece.empty, OfKind], le_rfl⟩

theorem Piece.Fits.of_gauge {spec : SummarySpec} {a : Piece} {kind : NumberKind} (h : a.Fits spec)
    (hm : spec.metric = .gauge kind) : kind ≠ .f64 := by
  have hint := h.integral
  rw [hm] at hint
  exact hint

theorem Piece.Fits.append {spec : SummarySpec} {a b : Piece} (ha : a.Fits spec)
    (hb : b.Fits spec) : (a ++ b).Fits spec where
  integral := ha.integral
  kind kind h := (ha.kind kind h).append (hb.kind kind h)
  numbers_le := by
    have := ha.numbers_le
    have := hb.numbers_le
    simp only [Piece.append_def, Piece.append, List.length_append]
    omega

/-! ### Samples of a specification -/

/-- The sample belongs to the specification's stream and series. -/
theorem SummarySpec.metric_eq {spec : SummarySpec} {s : Sample} (h : spec.matches s = true) :
    s.series.metric = spec.metric := by
  simp only [SummarySpec.matches, Bool.and_eq_true, decide_eq_true_eq] at h
  rw [SummarySpec.metric, h.2]

theorem Sample.number_accepts {s : Sample} {n : Number} (h : s.number = some n) :
    s.reading = .valid (.number n) ∧ s.isValid = true := by
  unfold Sample.number at h
  split at h
  · rename_i m hreading
    obtain rfl := Option.some.inj h
    exact ⟨hreading, by rw [Sample.isValid, hreading]⟩
  · cases h

theorem Sample.number_kind {spec : SummarySpec} {s : Sample} {n : Number} {kind : NumberKind}
    (hs : spec.matches s = true) (h : s.number = some n)
    (hmetric : spec.metric = .gauge kind ∨ ∃ t, spec.metric = .counter kind t) :
    n.kind = kind := by
  have haccepts := s.valid.accepts _ (Sample.number_accepts h).1
  rw [SummarySpec.metric_eq hs] at haccepts
  rcases hmetric with hm | ⟨t, hm⟩
  · rw [hm] at haccepts
    exact (of_decide_eq_true haccepts).symm
  · rw [hm] at haccepts
    simp only [Metric.accepts, Bool.and_eq_true, decide_eq_true_eq] at haccepts
    exact haccepts.1.symm

theorem Sample.interval_of_counter {spec : SummarySpec} {s : Sample} {kind : NumberKind}
    {t : Temporality} (hs : spec.matches s = true) (hm : spec.metric = .counter kind t) :
    ∃ w, s.interval = some w := by
  obtain ⟨w, hw, -⟩ := s.valid.counter_interval kind t ((SummarySpec.metric_eq hs).trans hm)
  exact ⟨w, hw⟩

theorem piece_fits {spec : SummarySpec} {w : Interval} {x : Point} (hint : spec.metric.Integral)
    (hs : spec.matches x.sample = true) : (piece spec w x).Fits spec where
  integral := hint
  kind kind hm := by
    intro n hn
    simp only [piece] at hn
    split at hn
    · exact Sample.number_kind hs (Option.mem_toList.mp hn) (.inl hm)
    · cases hn
  numbers_le := by
    simp only [piece]
    cases hin : inside x.sample.observedAt w with
    | false => simp
    | true =>
        cases hnumber : x.sample.number with
        | none => simp
        | some n => simp [(Sample.number_accepts hnumber).2]

theorem pieces_fits {spec : SummarySpec} {w : Interval} {xs : List Point}
    (hint : spec.metric.Integral) (hs : ∀ x ∈ xs, spec.matches x.sample = true) :
    (pieces spec w xs).Fits spec := by
  induction xs with
  | nil => exact .empty hint
  | cons x xs ih =>
      refine .append (piece_fits hint (hs x List.mem_cons_self)) (ih ?_)
      exact fun y hy => hs y (List.mem_cons_of_mem x hy)

/-! ### Contributions -/

theorem delta_ok {spec : SummarySpec} {s : Sample} {kind : NumberKind} (maxGap : ℕ)
    (hs : spec.matches s = true) (hm : spec.metric = .counter kind .delta) :
    ∃ r, delta s maxGap = .ok r := by
  obtain ⟨w, hw⟩ := Sample.interval_of_counter hs hm
  unfold delta
  cases s.number with
  | none => exact ⟨_, rfl⟩
  | some n =>
      simp only [hw, okOr_some, ok_bind]
      split <;> exact ⟨_, rfl⟩

/-- A number that is no lower has a difference. -/
theorem difference_ok {x y : Number} (hint : x.kind ≠ .f64) (hkind : x.kind = y.kind)
    (h : x.value ≤ y.value) : ∃ d, difference x y = .ok d := by
  match x, y with
  | .i64 a, .i64 b => exact ⟨_, rfl⟩
  | .u64 a, .u64 b =>
      have hle : a.toNat ≤ b.toNat := Int.ofNat_le.mp h
      exact ⟨.u128 (b.toNat - a.toNat), by simp [difference, checkedSub, hle, Except.map]⟩
  | .f64 _, _ => exact absurd rfl hint

theorem cumulative_ok {spec : SummarySpec} {a b : Sample} {kind : NumberKind} (maxGap : ℕ)
    (hint : kind ≠ .f64) (ha : spec.matches a = true) (hb : spec.matches b = true)
    (hm : spec.metric = .counter kind .cumulative) (hle : a.observedAt ≤ b.observedAt) :
    ∃ r, cumulative a b maxGap = .ok r := by
  obtain ⟨ai, hai⟩ := Sample.interval_of_counter ha hm
  obtain ⟨bi, hbi⟩ := Sample.interval_of_counter hb hm
  unfold cumulative
  cases hx : a.number with
  | none => exact ⟨_, rfl⟩
  | some x =>
      cases hy : b.number with
      | none => exact ⟨_, rfl⟩
      | some y =>
          have hkx := Sample.number_kind ha hx (.inr ⟨_, hm⟩)
          have hky := Sample.number_kind hb hy (.inr ⟨_, hm⟩)
          have hkind : y.kind = x.kind := hky.trans hkx.symm
          simp only [hai, hbi, okOr_some, ok_bind, Number.compare_eq (hky.trans_ne hint) hkind,
            Except.map, compare_beq_lt, Interval.new, dif_pos hle]
          by_cases hreset : ai.start ≠ bi.start ∨ bi.widthMicros = 0
          · exact ⟨_, by simp only [hreset, if_true]; rfl⟩
          · by_cases hlt : y.value < x.value
            · exact ⟨_, by simp only [hreset, if_false, hlt, decide_true, if_true]; rfl⟩
            · obtain ⟨d, hd⟩ := difference_ok (hkx.trans_ne hint) hkind.symm (not_lt.mp hlt)
              simp only [hreset, if_false, hlt, decide_false, ok_bind, hd, Bool.false_eq_true]
              split <;> exact ⟨_, rfl⟩

theorem contribution_ok {spec : SummarySpec} {previous : Option Sample} {p : Sample}
    (hint : spec.metric.Integral) (hp : spec.matches p = true)
    (hprevious : ∀ a ∈ previous, spec.matches a = true ∧ a.observedAt ≤ p.observedAt) :
    contribution spec previous p = .ok (contributionOf spec previous p) := by
  have hok : ∃ r, contribution spec previous p = .ok r := by
    unfold contribution
    split
    · exact delta_ok _ hp ‹_›
    · rename_i a hm
      obtain ⟨ha, hle⟩ := hprevious a rfl
      rw [hm] at hint
      exact cumulative_ok _ hint ha hp hm hle
    · exact ⟨_, rfl⟩
  obtain ⟨r, hr⟩ := hok
  exact Except.eq_valueD _ hr

/-! ### Flushing -/

/-- The counter of a specification has its gap. -/
theorem maxGap_of_counter {spec : SummarySpec} {kind : NumberKind} {t : Temporality}
    (hspec : spec.validate = .ok ()) (hm : spec.metric = .counter kind t) :
    spec.maxGap = some (spec.maxGap.getD 0) := by
  cases hgap : spec.maxGap with
  | some g => rfl
  | none =>
      exfalso
      simp only [SummarySpec.validate, hm, hgap] at hspec
      split at hspec
      · cases hspec
      · split at hspec
        · cases hspec
        · simp at hspec

/-- A flush of a counter within the window finds the contribution of its point. -/
theorem counter_eq {spec : SummarySpec} {w : Interval} {previous : Option Sample} {p : Sample}
    {kind : NumberKind} {t : Temporality} (hint : spec.metric.Integral)
    (hspec : spec.validate = .ok ()) (hm : spec.metric = .counter kind t) (hin : inside p.observedAt w = true)
    (hp : spec.matches p = true)
    (hprevious : ∀ a ∈ previous, spec.matches a = true ∧ a.observedAt ≤ p.observedAt ∧
      (t = .cumulative → a.observedAt ≠ p.observedAt)) :
    counter spec w (if t = .delta then [p] else previous.toList ++ [p]) t =
      .ok ((contributionOf spec previous p).1.toList, (contributionOf spec previous p).2) := by
  have hok := contribution_ok hint hp (fun a ha => ⟨(hprevious a ha).1, (hprevious a ha).2.1⟩)
  generalize contributionOf spec previous p = r at hok
  rw [counter, maxGap_of_counter hspec hm, okOr_some, ok_bind]
  cases t with
  | delta =>
      have hdelta : delta p (spec.maxGap.getD 0) = .ok r := by simpa [contribution, hm] using hok
      simp [deltas, hin, hdelta]
  | cumulative =>
      cases previous with
      | none =>
          have hr : r = (none, ∅) := by simpa [contribution, hm, eq_comm] using hok
          simp [points, pairs, hr]
      | some a =>
          have hne := (hprevious a rfl).2.2 rfl
          have hcumulative : cumulative a p (spec.maxGap.getD 0) = .ok r := by
            simpa [contribution, hm] using hok
          simp [points, hne, pairs, hin, hcumulative]

/-- What a flush needs of its builder. -/
structure Flushable (spec : SummarySpec) (previous : Option Sample) (p : Sample) : Prop where
  sample : spec.matches p = true
  previous : ∀ a ∈ previous, spec.matches a = true ∧ a.observedAt ≤ p.observedAt ∧
    (SummaryBuilder.ordered spec.metric = true → a.observedAt ≠ p.observedAt)

/-- Only a counter's points contribute. -/
theorem contributionOf_eq_empty {spec : SummarySpec} {previous : Option Sample} {p : Sample}
    (h : ∀ kind t, spec.metric ≠ .counter kind t) : contributionOf spec previous p = (none, ∅) := by
  unfold contributionOf contribution
  cases hm : spec.metric with
  | counter kind t => exact absurd hm (h kind t)
  | _ => rfl

/-- The state of a point, whichever of the two state metrics it is of. -/
theorem flushData_state {spec : SummarySpec} {w : Interval} {acc : Piece}
    {previous : Option Sample} {p : Sample} {next : Option Sample} {pending : Option Sample}
    (hm : ∀ a, dataOf spec.metric a = .state a.segments a.transitions) :
    SummaryBuilder.flushData ⟨spec, summaryOf spec w acc, previous, pending⟩ p next =
      .ok (dataOf spec.metric
        (acc ++ piece spec w ⟨previous, p, next.map (fun s => s.observedAt)⟩), ∅) := by
  simp only [SummaryBuilder.flushData, summaryOf, hm, statePiece_eq, ok_bind]
  rfl

/-- The statistics and defects of a flush. -/
theorem flushData_eq {spec : SummarySpec} {w : Interval} {acc : Piece} {previous : Option Sample}
    {p : Sample} {next : Option Sample} {pending : Option Sample}
    (hspec : spec.validate = .ok ()) (hp : Flushable spec previous p) (hfits : acc.Fits spec)
    (hnumbers : acc.numbers.length + 1 < 2 ^ 64) :
    SummaryBuilder.flushData ⟨spec, summaryOf spec w acc, previous, pending⟩ p next =
      .ok (dataOf spec.metric
          (acc ++ piece spec w ⟨previous, p, next.map (fun s => s.observedAt)⟩),
        if inside p.observedAt w then (contributionOf spec previous p).2 else ∅) := by
  cases hm : spec.metric with
  | gauge kind =>
      have hnone := @contributionOf_eq_empty spec previous p (by simp [hm])
      simp only [SummaryBuilder.flushData, summaryOf, dataOf, hm, hnone, ite_self,
        Piece.append_def, Piece.append, piece]
      cases hin : inside p.observedAt w with
      | false => simp
      | true =>
          cases hnumber : p.number with
          | none => simp
          | some n =>
              have hadd := add_numericOf (hfits.of_gauge hm) (hfits.kind kind hm)
                (Sample.number_kind hp.sample hnumber (.inl hm)) hnumbers
              simp [hadd, Except.map]
  | counter kind t =>
      simp only [SummaryBuilder.flushData, summaryOf, dataOf, hm, Piece.append_def, Piece.append,
        piece]
      cases hin : inside p.observedAt w with
      | false => simp
      | true =>
          have hcounter := @counter_eq spec w previous p kind t hfits.integral hspec hm hin hp.sample
            (fun a ha => ⟨(hp.previous a ha).1, (hp.previous a ha).2.1, fun ht =>
              (hp.previous a ha).2.2 (by simp [hm, ht, SummaryBuilder.ordered])⟩)
          simp only [if_true, hcounter, ok_bind]
          rfl
  | bool =>
      have hnone := @contributionOf_eq_empty spec previous p (by simp [hm])
      rw [flushData_state (by simp [hm, dataOf]), hm, hnone, ite_self]
  | state members =>
      have hnone := @contributionOf_eq_empty spec previous p (by simp [hm])
      rw [flushData_state (by simp [hm, dataOf]), hm, hnone, ite_self]

/-- A flush adds exactly the piece of its point. -/
theorem flush_eq {spec : SummarySpec} {w : Interval} {acc : Piece} {previous : Option Sample}
    {p : Sample} {next : Option Sample} (hspec : spec.validate = .ok ())
    (hp : Flushable spec previous p) (hfits : acc.Fits spec) (hvalid : acc.valid + 1 < 2 ^ 64) :
    SummaryBuilder.flush ⟨spec, summaryOf spec w acc, previous, some p⟩ next =
      .ok ⟨spec, summaryOf spec w
        (acc ++ piece spec w ⟨previous, p, next.map (fun s => s.observedAt)⟩), some p, none⟩ := by
  have hnumbers : acc.numbers.length + 1 < 2 ^ 64 :=
    (Nat.add_le_add_right hfits.numbers_le 1).trans_lt hvalid
  have hdata := @flushData_eq spec w acc previous p next (some p) hspec hp hfits hnumbers
  simp only [SummaryBuilder.flush, hdata, ok_bind]
  simp only [summaryOf, checkedAdd_of_lt hvalid, okOr_some]
  rcases Bool.eq_false_or_eq_true (inside p.observedAt w) with hin | hin
  · rcases Bool.eq_false_or_eq_true p.isValid with hv | hv
    · simp [Piece.append_def, Piece.append, piece, hin, hv, Finset.union_comm]
    · simp [Piece.append_def, Piece.append, piece, hin, hv, Finset.union_comm]
      rfl
  · simp [Piece.append_def, Piece.append, piece, hin]
    rfl

/-! ### The fold -/

/-- The points the builder flushes, from the one pending on. -/
def trace (single : Bool) (previous : Option Sample) (pending : Sample) :
    List Sample → List Point
  | [] => [⟨previous, pending, none⟩]
  | s :: rest =>
      if single && decide (pending.observedAt = s.observedAt) then trace single previous s rest
      else ⟨previous, pending, some s.observedAt⟩ :: trace single (some pending) s rest

/-- The points of a list of samples. -/
def pointsOf (single : Bool) : List Sample → List Point
  | [] => []
  | s :: rest => trace single none s rest

/-- Samples of the specification, strictly ordered and of distinct identity. -/
structure Canonical (spec : SummarySpec) (samples : List Sample) : Prop where
  matches_ : ∀ s ∈ samples, spec.matches s = true
  ordered : samples.Pairwise Sample.Before
  ids : (samples.map (fun s => s.id)).Nodup

theorem Sample.Before.le {a b : Sample} (h : a.Before b) : a.observedAt ≤ b.observedAt := by
  rcases h with h | ⟨h, -⟩
  · exact h.le
  · exact h.le

theorem checkCanonical_ok {spec : SummarySpec} {samples : List Sample} {previous : Option Sample}
    {ids : List String} (h : Canonical spec samples)
    (hprevious : ∀ p ∈ previous, ∀ s ∈ samples, p.Before s)
    (hids : ∀ s ∈ samples, s.id ∉ ids) : checkCanonical spec previous ids samples = .ok () := by
  induction samples generalizing previous ids with
  | nil => rfl
  | cons s rest ih =>
      have hordered := List.pairwise_cons.mp h.ordered
      have hnodup := List.nodup_cons.mp h.ids
      have hbefore : (previous.any fun p => ¬ p.Before s) = false := by
        cases previous with
        | none => rfl
        | some p => simp [hprevious p rfl s List.mem_cons_self]
      have hrest : Canonical spec rest :=
        ⟨fun x hx => h.matches_ x (List.mem_cons_of_mem s hx), hordered.2, hnodup.2⟩
      simp only [checkCanonical, h.matches_ s List.mem_cons_self, Bool.not_true, Bool.false_eq_true,
        if_false, hbefore, hids s List.mem_cons_self, or_self]
      refine ih hrest ?_ ?_
      · rintro p ⟨⟩ x hx
        exact hordered.1 x hx
      · intro x hx
        rw [List.mem_cons, not_or]
        refine ⟨fun heq => hnodup.1 ?_, hids x (List.mem_cons_of_mem s hx)⟩
        exact List.mem_map.mpr ⟨x, hx, heq⟩

/-- The items a piece may add to the size of a summary. -/
def Piece.items (a : Piece) : ℕ :=
  a.contributions.length + a.segments.length + a.transitions.length

theorem Piece.items_append (a b : Piece) : (a ++ b).items = a.items + b.items := by
  simp only [Piece.items, Piece.append_def, Piece.append, List.length_append]
  omega

theorem piece_bounds (spec : SummarySpec) (w : Interval) (x : Point) :
    (piece spec w x).items ≤ 3 ∧ (piece spec w x).valid ≤ 1 := by
  have hlen : ∀ {α : Type} (o : Option α), o.toList.length ≤ 1 := fun o => by cases o <;> simp
  have hcontributions : (piece spec w x).contributions.length ≤ 1 := by
    simp only [piece]
    split
    · exact hlen _
    · exact Nat.zero_le 1
  have hsegments : (piece spec w x).segments.length ≤ 1 := hlen _
  have htransitions : (piece spec w x).transitions.length ≤ 1 := hlen _
  refine ⟨by simp only [Piece.items]; omega, ?_⟩
  simp only [piece]
  split <;> omega

theorem checkSize_eq (s : Summary) (maxItems : ℕ) :
    s.checkSize maxItems = if s.size ≤ maxItems then .ok () else .error .budgetExceeded := by
  rw [Summary.checkSize]
  by_cases h : s.size ≤ maxItems
  · rw [if_pos h, if_neg (not_lt.mpr h)]
  · rw [if_neg h, if_pos (not_le.mp h)]

theorem size_le_items (spec : SummarySpec) (w : Interval) (a : Piece) :
    (summaryOf spec w a).size ≤ 1 + a.items := by
  simp only [Summary.size, summaryOf, dataOf, Piece.items]
  cases spec.metric with
  | gauge kind => simp
  | counter kind t =>
      dsimp only
      omega
  | bool =>
      dsimp only
      omega
  | state members =>
      dsimp only
      omega

/-- More points never make a summary smaller. -/
theorem size_le_append (spec : SummarySpec) (w : Interval) (a b : Piece) :
    (summaryOf spec w a).size ≤ (summaryOf spec w (a ++ b)).size := by
  simp only [Summary.size, summaryOf, dataOf, Piece.append_def, Piece.append]
  cases spec.metric with
  | gauge kind => simp
  | counter kind t => simp
  | bool =>
      simp only [List.length_append]
      omega
  | state members =>
      simp only [List.length_append]
      omega

theorem checkSize_ok {spec : SummarySpec} {w : Interval} {acc : Piece} {maxItems : ℕ}
    (h : 1 + acc.items ≤ maxItems) : (summaryOf spec w acc).checkSize maxItems = .ok () := by
  rw [checkSize_eq, if_pos ((size_le_items spec w acc).trans h)]

/-- The summary, when it is within the budget. -/
def Summary.within (s : Summary) (maxItems : ℕ) : Except Error Summary :=
  if s.size ≤ maxItems then .ok s else .error .budgetExceeded

theorem within_append {spec : SummarySpec} {w : Interval} {a b : Piece} {maxItems : ℕ}
    (h : ¬ (summaryOf spec w a).size ≤ maxItems) :
    (summaryOf spec w (a ++ b)).within maxItems = .error .budgetExceeded :=
  if_neg fun hle => h ((size_le_append spec w a b).trans hle)

theorem Flushable.next {spec : SummarySpec} {previous : Option Sample} {p s : Sample}
    (hp : Flushable spec previous p) (hs : spec.matches s = true) (hbefore : p.Before s) :
    (p.observedAt = s.observedAt → Flushable spec previous s) ∧
      ((SummaryBuilder.ordered spec.metric = true → p.observedAt ≠ s.observedAt) →
        Flushable spec (some p) s) := by
  refine ⟨fun hsame => ⟨hs, ?_⟩, fun hne => ⟨hs, ?_⟩⟩
  · rw [← hsame]
    exact hp.previous
  · rintro a ⟨⟩
    exact ⟨hp.sample, hbefore.le, hne⟩

/-- Pushing the rest and finishing adds the pieces of all remaining points, within the budget. -/
theorem fold_push {spec : SummarySpec} {w : Interval} {rest : List Sample} {acc : Piece}
    {previous : Option Sample} {p : Sample} {maxItems : ℕ} (hspec : spec.validate = .ok ())
    (hp : Flushable spec previous p) (hrest : Canonical spec (p :: rest)) (hfits : acc.Fits spec)
    (hvalid : acc.valid + (rest.length + 1) < 2 ^ 64) :
    (rest.foldlM (fun b s => b.push s maxItems)
        (⟨spec, summaryOf spec w acc, previous, some p⟩ : SummaryBuilder) >>=
        fun b => b.finish maxItems) =
      (summaryOf spec w (acc ++ pieces spec w
        (trace (SummaryBuilder.ordered spec.metric) previous p rest))).within maxItems := by
  induction rest generalizing acc previous p with
  | nil =>
      simp only [List.foldlM_nil, trace, pieces_cons, pieces_nil, Piece.append_empty]
      refine Eq.trans (ok_bind _ _) ?_
      rw [SummaryBuilder.finish, flush_eq hspec hp hfits (by simpa using hvalid), ok_bind]
      simp only [checkSize_eq, Option.map_none, Summary.within]
      split <;> rfl
  | cons s rest ih =>
      have hordered := List.pairwise_cons.mp hrest.ordered
      have hs : spec.matches s = true :=
        hrest.matches_ s (List.mem_cons_of_mem p List.mem_cons_self)
      have hbefore : p.Before s := hordered.1 s List.mem_cons_self
      have hsame : p.stream = s.stream ∧ p.series = s.series := by
        have hp' := hp.sample
        simp only [SummarySpec.matches, Bool.and_eq_true, decide_eq_true_eq] at hp' hs
        exact ⟨hp'.1.symm.trans hs.1, hp'.2.symm.trans hs.2⟩
      have hcanonical : Canonical spec (s :: rest) :=
        ⟨fun x hx => hrest.matches_ x (List.mem_cons_of_mem p hx), hordered.2,
          (List.nodup_cons.mp hrest.ids).2⟩
      obtain ⟨hstay, hmove⟩ := hp.next hs hbefore
      simp only [List.length_cons] at hvalid
      rw [List.foldlM_cons, bind_assoc]
      by_cases hshared : (SummaryBuilder.ordered spec.metric &&
          decide (p.observedAt = s.observedAt)) = true
      · have hpush : SummaryBuilder.push ⟨spec, summaryOf spec w acc, previous, some p⟩ s maxItems =
            .ok ⟨spec, summaryOf spec w acc, previous, some s⟩ := by
          simp [SummaryBuilder.push, hs, hsame, hbefore, hshared]
          rfl
        rw [hpush, ok_bind, trace, if_pos hshared]
        refine ih (hstay ?_) hcanonical hfits (by omega)
        simp only [Bool.and_eq_true, decide_eq_true_eq] at hshared
        exact hshared.2
      · have hbounds := piece_bounds spec w ⟨previous, p, some s.observedAt⟩
        have hflush := @flush_eq spec w acc previous p (some s) hspec hp hfits (by omega)
        rw [trace, if_neg hshared, pieces_cons, ← Piece.append_assoc]
        by_cases hsize : (summaryOf spec w
            (acc ++ piece spec w ⟨previous, p, some s.observedAt⟩)).size ≤ maxItems
        · have hpush : SummaryBuilder.push ⟨spec, summaryOf spec w acc, previous, some p⟩ s
              maxItems = .ok ⟨spec, summaryOf spec w
                (acc ++ piece spec w ⟨previous, p, some s.observedAt⟩), some p, some s⟩ := by
            simp [SummaryBuilder.push, hs, hsame, hbefore, hshared, hflush, checkSize_eq, hsize]
          rw [hpush, ok_bind]
          refine ih (hmove ?_) hcanonical (hfits.append (piece_fits hfits.integral hp.sample)) ?_
          · intro hsingle heq
            exact hshared (by simp [hsingle, heq])
          · simp only [Piece.append_def, Piece.append]
            omega
        · have hpush : SummaryBuilder.push ⟨spec, summaryOf spec w acc, previous, some p⟩ s
              maxItems = .error .budgetExceeded := by
            simp [SummaryBuilder.push, hs, hsame, hbefore, hshared, hflush, checkSize_eq, hsize]
          rw [hpush, error_bind, within_append hsize]

theorem new_eq {spec : SummarySpec} {w : Interval} (hspec : spec.validate = .ok ())
    (hw : w.widthMicros ≠ 0) :
    SummaryBuilder.new spec w = .ok ⟨spec, summaryOf spec w .empty, none, none⟩ := by
  simp only [SummaryBuilder.new, hspec, hw, ok_bind, if_false, summaryOf]
  cases spec.metric with
  | gauge kind => cases kind <;> rfl
  | _ => rfl

/-- A summary is that of the pieces of its points; only a budget can refuse it. -/
theorem compute_spec {spec : SummarySpec} {w : Interval} {samples : List Sample} {maxItems : ℕ}
    (hint : spec.metric.Integral) (hspec : spec.validate = .ok ()) (hw : w.widthMicros ≠ 0) (hsamples : Canonical spec samples)
    (hlen : samples.length ≤ maxItems → samples.length < 2 ^ 64) :
    Summary.compute spec w samples maxItems =
      if samples.length > maxItems then .error .budgetExceeded
      else (summaryOf spec w (pieces spec w
        (pointsOf (SummaryBuilder.ordered spec.metric) samples))).within maxItems := by
  have hcheck := @checkCanonical_ok spec samples none [] hsamples (by simp) (by simp)
  rw [Summary.compute]
  by_cases hmax : samples.length > maxItems
  · rw [if_pos (.inl hmax), if_pos hmax]
    rfl
  · have hcount := hlen (not_lt.mp hmax)
    rw [if_neg (by simp [hmax, hw]), if_neg hmax]
    simp only [hcheck, new_eq hspec hw, ok_bind]
    cases samples with
    | nil =>
        simp only [List.foldlM_nil]
        refine Eq.trans (ok_bind _ _) ?_
        simp only [SummaryBuilder.finish, SummaryBuilder.flush, ok_bind, checkSize_eq, pointsOf,
          pieces_nil, Summary.within]
        by_cases hsize : (summaryOf spec w .empty).size ≤ maxItems
        · simp only [hsize, if_true]
          rfl
        · simp only [hsize, if_false]
          rfl
    | cons s rest =>
        have hs := hsamples.matches_ s List.mem_cons_self
        rw [List.foldlM_cons, bind_assoc, pointsOf, ← Piece.empty_append (pieces _ _ _)]
        by_cases hsize : (summaryOf spec w .empty).size ≤ maxItems
        · have hpush : SummaryBuilder.push ⟨spec, summaryOf spec w .empty, none, none⟩ s
              maxItems = .ok ⟨spec, summaryOf spec w .empty, none, some s⟩ := by
            simp [SummaryBuilder.push, hs, SummaryBuilder.flush, checkSize_eq, hsize]
          rw [hpush, ok_bind]
          refine fold_push hspec ⟨hs, by simp⟩ hsamples (.empty hint) ?_
          simpa [Piece.empty] using hcount
        · have hpush : SummaryBuilder.push ⟨spec, summaryOf spec w .empty, none, none⟩ s
              maxItems = .error .budgetExceeded := by
            simp [SummaryBuilder.push, hs, SummaryBuilder.flush, checkSize_eq, hsize]
          rw [hpush, error_bind, within_append hsize]

theorem trace_length (single : Bool) (previous : Option Sample) (p : Sample) (xs : List Sample) :
    (trace single previous p xs).length ≤ xs.length + 1 := by
  induction xs generalizing previous p with
  | nil => simp [trace]
  | cons s xs ih =>
      rw [trace]
      split
      · exact (ih previous s).trans (by simp)
      · simpa using ih (some p) s

theorem pointsOf_length (single : Bool) (xs : List Sample) :
    (pointsOf single xs).length ≤ xs.length := by
  cases xs with
  | nil => exact le_rfl
  | cons p xs => simpa [pointsOf] using trace_length single none p xs

theorem pieces_bounds (spec : SummarySpec) (w : Interval) (xs : List Point) :
    (pieces spec w xs).items ≤ 3 * xs.length ∧ (pieces spec w xs).valid ≤ xs.length := by
  induction xs with
  | nil => simp [pieces_nil, Piece.items, Piece.empty]
  | cons x xs ih =>
      have hx := piece_bounds spec w x
      rw [pieces_cons, Piece.items_append, List.length_cons]
      refine ⟨by omega, ?_⟩
      simp only [Piece.append_def, Piece.append]
      omega

/-- A summary is that of the pieces of its points, with room for three items a sample. -/
theorem compute_eq {spec : SummarySpec} {w : Interval} {samples : List Sample} {maxItems : ℕ}
    (hint : spec.metric.Integral) (hspec : spec.validate = .ok ()) (hw : w.widthMicros ≠ 0) (hsamples : Canonical spec samples)
    (hmax : 3 * samples.length + 1 ≤ maxItems) (hlen : samples.length < 2 ^ 64) :
    Summary.compute spec w samples maxItems =
      .ok (summaryOf spec w
        (pieces spec w (pointsOf (SummaryBuilder.ordered spec.metric) samples))) := by
  have hitems := (pieces_bounds spec w (pointsOf (SummaryBuilder.ordered spec.metric) samples)).1
  have hpoints := pointsOf_length (SummaryBuilder.ordered spec.metric) samples
  have hsize := size_le_items spec w
    (pieces spec w (pointsOf (SummaryBuilder.ordered spec.metric) samples))
  rw [compute_spec hint hspec hw hsamples fun _ => hlen, if_neg (by omega), Summary.within,
    if_pos (by omega)]

/-! ### Merging -/

theorem mergeData_eq {spec : SummarySpec} {a b : Piece} (ha : a.Fits spec) (hb : b.Fits spec)
    (hvalid : a.valid + b.valid < 2 ^ 64) :
    Summary.mergeData (dataOf spec.metric a) (dataOf spec.metric b) =
      .ok (dataOf spec.metric (a ++ b)) := by
  cases hm : spec.metric with
  | gauge kind =>
      have hlen : (a.numbers ++ b.numbers).length < 2 ^ 64 := by
        have := ha.numbers_le
        have := hb.numbers_le
        rw [List.length_append]
        omega
      have hmerge := merge_numericOf (ha.of_gauge hm) (ha.kind kind hm) (hb.kind kind hm) hlen
      simp only [dataOf, Summary.mergeData, hmerge]
      rfl
  | counter kind t => simp [dataOf, Summary.mergeData, Piece.append_def, Piece.append]
  | bool => rfl
  | state members => rfl

/-- Neighbouring summaries of one specification merge to that of both windows, unless there are
too many samples to count. -/
theorem merge_eq {spec : SummarySpec} {w₁ w₂ : Interval} {a b : Piece} {maxItems : ℕ}
    (hadjacent : w₁.stop = w₂.start) (hle : w₁.start ≤ w₂.stop) (ha : a.Fits spec)
    (hb : b.Fits spec) (hmax : 1 + a.items + b.items ≤ maxItems) :
    (summaryOf spec w₁ a).merge (summaryOf spec w₂ b) maxItems =
      if a.valid + b.valid < 2 ^ 64 then .ok (summaryOf spec ⟨w₁.start, w₂.stop, hle⟩ (a ++ b))
      else .error .numericRange := by
  have hwindow : ¬ ((summaryOf spec w₁ a).window.stop ≠ (summaryOf spec w₂ b).window.start ∨
      (summaryOf spec w₁ a).semantics ≠ (summaryOf spec w₂ b).semantics) := by
    simp [summaryOf, hadjacent]
  rw [Summary.merge, if_neg hwindow]
  simp only [summaryOf, Interval.new_of_le hle, ok_bind]
  by_cases hvalid : a.valid + b.valid < 2 ^ 64
  · rw [if_pos hvalid, checkedAdd_of_lt hvalid, okOr_some]
    simp only [ok_bind, mergeData_eq ha hb hvalid]
    have hsize := @checkSize_ok spec ⟨w₁.start, w₂.stop, hle⟩ (a ++ b) maxItems (by
      rw [Piece.items_append]
      omega)
    simp only [summaryOf, Piece.append_def, Piece.append] at hsize ⊢
    rw [hsize]
    rfl
  · rw [if_neg hvalid, checkedAdd, if_neg hvalid]
    rfl

end Rss.Timeseries
