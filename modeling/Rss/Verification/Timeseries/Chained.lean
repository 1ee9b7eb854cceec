import Mathlib.Algebra.Order.BigOperators.Group.List
import Rss.Library.Tilings
import Rss.Verification.Timeseries.Statistics

/-! # Chains of summaries

Summaries of one specification that are chained end to end merge to one of the whole interval, as
long as their sums can be added. -/

namespace Rss.Timeseries

variable {α : Type} {lo hi : α → ℕ} {value : α → Except Error Summary} {spec : SummarySpec}
  {maxPoints : ℕ} {refs chain : List α} {held : ℕ → ℕ → Summary}

/-! ### Numbers of one kind -/

/-- Finite values are ordered. -/
theorem partialCmp_of_finite {a b : Float} (ha : a.isFinite = true) (hb : b.isFinite = true) :
    ∃ o, partialCmp a b = some o := by
  unfold Float.isFinite Float.Model.isFinite at ha hb
  unfold partialCmp Float.Model.compare
  generalize a.toModel.unpack = x at ha
  generalize b.toModel.unpack = y at hb
  cases x with
  | infinity s => cases ha
  | notANumber => cases ha
  | zero s =>
      cases y with
      | infinity s => cases hb
      | notANumber => cases hb
      | zero s => exact ⟨_, rfl⟩
      | finite s m e h => cases s <;> exact ⟨_, rfl⟩
  | finite s m e h =>
      cases y with
      | infinity s => cases hb
      | notANumber => cases hb
      | zero s' => cases s <;> exact ⟨_, rfl⟩
      | finite s' m' e' h' => cases s <;> cases s' <;> exact ⟨_, rfl⟩

theorem Number.compare_total {a b : Number} (h : a.kind = b.kind) :
    ∃ o, Number.compare a b = .ok o := by
  match a, b with
  | .i64 a, .i64 b => exact ⟨_, rfl⟩
  | .u64 a, .u64 b => exact ⟨_, rfl⟩
  | .f64 a, .f64 b =>
      obtain ⟨o, ho⟩ := partialCmp_of_finite a.finite b.finite
      exact ⟨o, okOr_eq_ok.mpr ho⟩

/-- The sum and the range are of the kind. -/
structure Numeric.IsOf (kind : NumberKind) (n : Numeric) : Prop where
  sum : n.sum.kind = kind
  min : ∀ v ∈ n.min, v.kind = kind
  max : ∀ v ∈ n.max, v.kind = kind

theorem replaces_total {n : Number} {bound : Option Number} {way : Ordering}
    (h : ∀ v ∈ bound, n.kind = v.kind) : ∃ b, Numeric.replaces n bound way = .ok b := by
  cases bound with
  | none => exact ⟨true, rfl⟩
  | some v =>
      obtain ⟨o, ho⟩ := Number.compare_total (h v rfl)
      exact ⟨o == way, by rw [Numeric.replaces, ho]; rfl⟩

theorem extrema_total {kind : NumberKind} {s : Numeric} {n : Number} (hs : s.IsOf kind)
    (hn : n.kind = kind) :
    ∃ m, s.extrema n = .ok m ∧ m.IsOf kind ∧ m.sum = s.sum ∧ m.count = s.count := by
  have hone : ∀ v ∈ some n, v.kind = kind := by
    rintro v ⟨⟩
    exact hn
  obtain ⟨lower, hlower⟩ := @replaces_total n s.min .lt fun v hv => hn.trans (hs.min v hv).symm
  obtain ⟨upper, hupper⟩ := @replaces_total n s.max .gt fun v hv => hn.trans (hs.max v hv).symm
  rw [Numeric.extrema, hlower, ok_bind]
  cases lower
  all_goals
    simp only [Bool.false_eq_true, if_false, if_true, hupper, ok_bind]
    cases upper
  · exact ⟨_, rfl, hs, rfl, rfl⟩
  · exact ⟨_, rfl, ⟨hs.sum, hs.min, hone⟩, rfl, rfl⟩
  · exact ⟨_, rfl, ⟨hs.sum, hone, hs.max⟩, rfl, rfl⟩
  · exact ⟨_, rfl, ⟨hs.sum, hone, hone⟩, rfl, rfl⟩

theorem extrema?_total {kind : NumberKind} {s : Numeric} {bound : Option Number} (hs : s.IsOf kind)
    (hbound : ∀ v ∈ bound, v.kind = kind) :
    ∃ m, s.extrema? bound = .ok m ∧ m.IsOf kind ∧ m.sum = s.sum ∧ m.count = s.count := by
  cases bound with
  | none => exact ⟨s, rfl, hs, rfl, rfl⟩
  | some n => exact extrema_total hs (hbound n rfl)

/-- A sum has the kind of its parts. -/
theorem checkedAdd_kind {kind : NumberKind} {x y z : Sum} (hx : x.kind = kind)
    (h : x.checkedAdd y = .ok z) : z.kind = kind := by
  subst hx
  cases x with
  | i128 a =>
      cases y with
      | i128 b =>
          unfold Sum.checkedAdd at h
          simp only at h
          split at h
          · cases h
            rfl
          · cases h
      | _ => cases h
  | u128 a =>
      cases y with
      | u128 b =>
          obtain ⟨v, -, rfl⟩ := map_eq_ok.mp h
          rfl
      | _ => cases h
  | f64 a =>
      cases y with
      | f64 b =>
          obtain ⟨v, -, rfl⟩ := map_eq_ok.mp h
          rfl
      | _ => cases h

/-- Statistics of one kind merge as their sums add. -/
theorem merge_total {kind : NumberKind} {a b : Numeric} {total : Sum} (ha : a.IsOf kind)
    (hb : b.IsOf kind) (hcount : a.count + b.count < 2 ^ 64)
    (hsum : a.sum.checkedAdd b.sum = .ok total) :
    ∃ m, a.merge b = .ok m ∧ m.IsOf kind ∧ m.sum = total ∧ m.count = a.count + b.count := by
  have hadded : Numeric.IsOf kind { a with sum := total, count := a.count + b.count } :=
    ⟨checkedAdd_kind ha.sum hsum, ha.min, ha.max⟩
  obtain ⟨c, hlower, hc, hcsum, hccount⟩ := extrema?_total hadded hb.min
  obtain ⟨d, hupper, hd, hdsum, hdcount⟩ := extrema?_total hc hb.max
  refine ⟨d, ?_, hd, hdsum.trans hcsum, hdcount.trans hccount⟩
  rw [Numeric.merge, hsum, ok_bind, checkedAdd_of_lt hcount, okOr_some, ok_bind, hlower, ok_bind,
    hupper]

/-! ### Summaries of a specification -/

/-- Statistics of the metric, with numbers of its kind. -/
def Metric.Describes : Metric → Statistics → Prop
  | .gauge kind, .numeric n => n.IsOf kind
  | .counter kind _, .counter kind' _ => kind' = kind
  | .bool, .state _ _ | .state _, .state _ _ => True
  | _, _ => False

/-- How many numbers the statistics count. -/
def Statistics.count : Statistics → ℕ
  | .numeric n => n.count
  | _ => 0

/-- A summary of the specification, which counts no more numbers than valid samples. -/
structure Summary.Of (spec : SummarySpec) (s : Summary) : Prop where
  semantics : s.semantics = spec.semantics
  data : spec.metric.Describes s.data
  count_le : s.data.count ≤ s.valid

/-- The sum of a gauge. -/
def Statistics.sum? : Statistics → Option Sum
  | .numeric n => some n.sum
  | _ => none

/-- The sum so far and that of the next statistics, where these have one. -/
def addNext (total : Option Sum) (data : Statistics) : Except Error (Option Sum) :=
  match total, data.sum? with
  | some x, some y => (x.checkedAdd y).map some
  | some x, none => .ok (some x)
  | none, sum => .ok sum

/-- The sums of summaries from left to right. -/
def addAlong (held : ℕ → ℕ → Summary) (total : Option Sum) (ends : List (ℕ × ℕ)) :
    Except Error (Option Sum) :=
  ends.foldlM (fun total x => addNext total (held x.1 x.2).data) total

/-- Statistics of one metric merge when their sums add. -/
theorem mergeData_total {metric : Metric} {a b : Statistics} {total : Option Sum}
    (ha : metric.Describes a) (hb : metric.Describes b) (hcount : a.count + b.count < 2 ^ 64)
    (hsum : addNext a.sum? b = .ok total) :
    ∃ m, Summary.mergeData a b = .ok m ∧ metric.Describes m ∧ m.sum? = total ∧
      m.count = a.count + b.count := by
  cases a with
  | numeric a =>
      cases b with
      | numeric b =>
          cases metric with
          | gauge kind =>
              obtain ⟨z, hz, rfl⟩ := map_eq_ok.mp hsum
              obtain ⟨m, hmerge, hm, rfl, hmcount⟩ := merge_total ha hb hcount hz
              exact ⟨.numeric m, by rw [Summary.mergeData, hmerge]; rfl, hm, rfl, hmcount⟩
          | _ => exact ha.elim
      | _ => cases metric <;> first | exact ha.elim | exact hb.elim
  | counter k x =>
      cases b with
      | counter k' y =>
          cases metric with
          | counter kind t =>
              have hk : k = k' := Eq.trans ha (Eq.symm hb)
              cases hsum
              exact ⟨.counter k (x ++ y), by rw [Summary.mergeData, if_pos hk], ha, rfl, rfl⟩
          | _ => exact ha.elim
      | _ => cases metric <;> first | exact ha.elim | exact hb.elim
  | state x y =>
      cases b with
      | state x' y' =>
          cases hsum
          refine ⟨_, rfl, ?_, rfl, rfl⟩
          cases metric <;> first | exact ha.elim | trivial
      | _ => cases metric <;> first | exact ha.elim | exact hb.elim

/-- Only the sums of two gauges may fail to add, and then these do not merge. -/
theorem mergeData_error {a b : Statistics} {e : Error} (hsum : addNext a.sum? b = .error e) :
    Summary.mergeData a b = .error e := by
  cases a with
  | numeric a =>
      cases b with
      | numeric b =>
          have hadd : a.sum.checkedAdd b.sum = .error e := by
            unfold addNext Statistics.sum? at hsum
            simp only at hsum
            cases hz : a.sum.checkedAdd b.sum with
            | ok z =>
                rw [hz] at hsum
                cases hsum
            | error e' =>
                rw [hz] at hsum
                cases hsum
                rfl
          rw [Summary.mergeData, Numeric.merge, hadd]
          rfl
      | _ => cases hsum
  | _ => cases b <;> cases hsum

theorem mergeData_size {s t m : Summary} (h : Summary.mergeData s.data t.data = .ok m.data) :
    m.size ≤ s.size + t.size := by
  obtain ⟨_, _, _, _, a⟩ := s
  obtain ⟨_, _, _, _, b⟩ := t
  obtain ⟨_, _, _, _, d⟩ := m
  unfold Summary.mergeData at h
  unfold Summary.size
  simp only at h ⊢
  split at h
  · obtain ⟨n, -, rfl⟩ := map_eq_ok.mp h
    simp
  · split at h
    · cases h
      simp
    · cases h
  · cases h
    simp only [List.length_append]
    omega
  · cases h

/-- Neighbouring summaries merge when their sums add. -/
theorem Summary.Of.merge {a b : Summary} {total : Option Sum} (ha : a.Of spec) (hb : b.Of spec)
    (hadjacent : a.window.stop = b.window.start) (hvalid : a.valid + b.valid < 2 ^ 64)
    (hsize : a.size + b.size ≤ maxPoints) (hsum : addNext a.data.sum? b.data = .ok total) :
    ∃ m, a.merge b maxPoints = .ok m ∧ m.Of spec ∧ m.data.sum? = total ∧
      m.window.stop = b.window.stop ∧ m.valid = a.valid + b.valid ∧ m.size ≤ a.size + b.size := by
  have hacount := ha.count_le
  have hbcount := hb.count_le
  have hle : a.window.start ≤ b.window.stop :=
    a.window.le.trans (hadjacent ▸ b.window.le)
  obtain ⟨data, hmerge, hdata, hdatasum, hdatacount⟩ :=
    mergeData_total ha.data hb.data (by omega) hsum
  have hmsize := @mergeData_size a b ⟨⟨a.window.start, b.window.stop, hle⟩, a.semantics,
    a.valid + b.valid, a.defects ∪ b.defects, data⟩ hmerge
  refine ⟨⟨⟨a.window.start, b.window.stop, hle⟩, a.semantics, a.valid + b.valid,
    a.defects ∪ b.defects, data⟩, ?_, ⟨ha.semantics, hdata, ?_⟩, hdatasum, rfl, rfl, hmsize⟩
  · have hsame : ¬ (a.window.stop ≠ b.window.start ∨ a.semantics ≠ b.semantics) := by
      simp [hadjacent, ha.semantics, hb.semantics]
    rw [Summary.merge, if_neg hsame]
    simp only [Interval.new_of_le hle, ok_bind, checkedAdd_of_lt hvalid, okOr_some, hmerge]
    rw [checkSize_eq, if_pos (hmsize.trans hsize)]
    rfl
  · show data.count ≤ a.valid + b.valid
    omega

theorem Summary.Of.merge_error {a b : Summary} {e : Error} (ha : a.Of spec) (hb : b.Of spec)
    (hadjacent : a.window.stop = b.window.start) (hvalid : a.valid + b.valid < 2 ^ 64)
    (hsum : addNext a.data.sum? b.data = .error e) : a.merge b maxPoints = .error e := by
  have hle : a.window.start ≤ b.window.stop :=
    a.window.le.trans (hadjacent ▸ b.window.le)
  have hsame : ¬ (a.window.stop ≠ b.window.start ∨ a.semantics ≠ b.semantics) := by
    simp [hadjacent, ha.semantics, hb.semantics]
  rw [Summary.merge, if_neg hsame]
  simp only [Interval.new_of_le hle, ok_bind, checkedAdd_of_lt hvalid, okOr_some,
    mergeData_error hsum]
  rfl

/-! ### Along a chain -/

/-- The values of the references one after another, merged to those before. -/
def mergeAlong (value : α → Except Error Summary) (maxPoints : ℕ) (acc : Option Summary)
    (xs : List α) : Except Error (Option Summary) :=
  xs.foldlM (fun acc x => do
    let next ← value x
    let merged ← Summary.mergeAfter acc next maxPoints
    pure (some merged)) acc

theorem mergeAlong_cons (acc : Option Summary) (x : α) (xs : List α) :
    mergeAlong value maxPoints acc (x :: xs) =
      value x >>= fun next => Summary.mergeAfter acc next maxPoints >>= fun merged =>
        mergeAlong value maxPoints (some merged) xs := by
  rw [mergeAlong, List.foldlM_cons, bind_assoc]
  refine bind_congr fun next => ?_
  rw [bind_assoc]
  rfl

/-- The reference is of a proper interval, and its value the summary held of the interval. -/
structure Holds (lo hi : α → ℕ) (value : α → Except Error Summary) (spec : SummarySpec)
    (held : ℕ → ℕ → Summary) (r : α) : Prop where
  proper : lo r < hi r
  value : value r = .ok (held (lo r) (hi r))
  of_spec : (held (lo r) (hi r)).Of spec
  start : (held (lo r) (hi r)).window.start = lo r
  stop : (held (lo r) (hi r)).window.stop = hi r

/-- Every reference holds its summary, and there is room for all of them together. -/
structure Mergeable (lo hi : α → ℕ) (value : α → Except Error Summary) (spec : SummarySpec)
    (maxPoints : ℕ) (refs : List α) (held : ℕ → ℕ → Summary) : Prop where
  holds : ∀ r ∈ refs, Holds lo hi value spec held r
  items : (refs.map (fun r => (held (lo r) (hi r)).size)).sum ≤ maxPoints
  valid : (refs.map (fun r => (held (lo r) (hi r)).valid)).sum < 2 ^ 64

/-- The ends of the references. -/
def endsOf (lo hi : α → ℕ) (refs : List α) : List (ℕ × ℕ) := refs.map (fun r => (lo r, hi r))

/-- A list of distinct members has no greater sum. -/
theorem sum_map_le (f : α → ℕ) (hnodup : chain.Nodup) (hsub : ∀ x ∈ chain, x ∈ refs) :
    (chain.map f).sum ≤ (refs.map f).sum := by
  obtain ⟨l, hperm, hsublist⟩ := List.subperm_of_subset hnodup hsub
  rw [← (hperm.map f).sum_eq]
  exact List.Sublist.sum_le_sum (hsublist.map f) fun _ _ => Nat.zero_le _

/-- A chain merges to what precedes it as long as there is room and the sums add. -/
theorem mergeAlong_after {a b : ℕ} {acc : Summary} (htiling : Tiling lo hi a b chain)
    (hstop : acc.window.stop = a) (hacc : acc.Of spec)
    (hholds : ∀ r ∈ chain, Holds lo hi value spec held r)
    (hitems : acc.size + (chain.map (fun r => (held (lo r) (hi r)).size)).sum ≤ maxPoints)
    (hvalid : acc.valid + (chain.map (fun r => (held (lo r) (hi r)).valid)).sum < 2 ^ 64) :
    (∃ summary, mergeAlong value maxPoints (some acc) chain = .ok (some summary)) ↔
      ∃ total, addAlong held acc.data.sum? (endsOf lo hi chain) = .ok total := by
  induction htiling generalizing acc with
  | nil t => exact ⟨fun _ => ⟨_, rfl⟩, fun _ => ⟨_, rfl⟩⟩
  | @cons x xs b rest ih =>
      have hx := hholds x List.mem_cons_self
      have hxs := fun r hr => hholds r (List.mem_cons_of_mem x hr)
      rw [List.map_cons, List.sum_cons] at hitems hvalid
      have hadd : addAlong held acc.data.sum? (endsOf lo hi (x :: xs)) =
          addNext acc.data.sum? (held (lo x) (hi x)).data >>= fun total =>
            addAlong held total (endsOf lo hi xs) := by
        rw [endsOf, List.map_cons, addAlong, List.foldlM_cons]
        rfl
      rw [mergeAlong_cons, hx.value, ok_bind, Summary.mergeAfter, hadd]
      cases hsum : addNext acc.data.sum? (held (lo x) (hi x)).data with
      | error e =>
          rw [hacc.merge_error hx.of_spec (hstop.trans hx.start.symm) (by omega) hsum]
          simp
      | ok total =>
          obtain ⟨m, hmerge, hm, rfl, hmstop, hmvalid, hmsize⟩ :=
            hacc.merge hx.of_spec (hstop.trans hx.start.symm) (by omega)
              (show _ ≤ maxPoints by omega) hsum
          rw [hmerge, ok_bind, ok_bind]
          exact ih (hmstop.trans hx.stop) hm hxs (by omega) (by omega)

/-- A chain of the references merges to one summary exactly when the sums add. -/
theorem Mergeable.mergeAlong {a b : ℕ} (h : Mergeable lo hi value spec maxPoints refs held)
    (htiling : Tiling lo hi a b chain) (hsub : ∀ x ∈ chain, x ∈ refs) (hne : a < b) :
    (∃ summary, mergeAlong value maxPoints none chain = .ok (some summary)) ↔
      ∃ total, addAlong held none (endsOf lo hi chain) = .ok total := by
  have hholds : ∀ x ∈ chain, Holds lo hi value spec held x := fun x hx => h.holds x (hsub x hx)
  have hnodup : chain.Nodup :=
    (htiling.pairwise fun x hx => (hholds x hx).proper).imp fun {x y} hlt heq => by
      rw [heq] at hlt
      exact lt_irrefl _ hlt
  have hitems := (sum_map_le (fun r => (held (lo r) (hi r)).size) hnodup hsub).trans h.items
  have hvalid := (sum_map_le (fun r => (held (lo r) (hi r)).valid) hnodup hsub).trans_lt h.valid
  cases htiling with
  | nil t => exact absurd hne (lt_irrefl _)
  | @cons x xs b rest =>
      have hx := hholds x List.mem_cons_self
      rw [List.map_cons, List.sum_cons] at hitems hvalid
      have hfirst : addAlong held none (endsOf lo hi (x :: xs)) =
          addAlong held (held (lo x) (hi x)).data.sum? (endsOf lo hi xs) := by
        rw [endsOf, List.map_cons, addAlong, List.foldlM_cons]
        rfl
      rw [mergeAlong_cons, hx.value, ok_bind, Summary.mergeAfter, ok_bind, hfirst]
      exact mergeAlong_after rest hx.stop hx.of_spec
        (fun r hr => hholds r (List.mem_cons_of_mem x hr)) hitems hvalid

end Rss.Timeseries
