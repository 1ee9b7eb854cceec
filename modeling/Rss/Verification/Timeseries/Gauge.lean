import Rss.Verification.Timeseries.Statistics

/-! # Exact statistics of integer gauges

However values are grouped, their statistics are the mathematical ones, and the test for the
statistics a provider computed knows the range of the values but not that its ends are reached. -/

namespace Rss.Timeseries

/-! ### Folding in any grouping -/

/-- A way to fold numbers: one after another, or parts that were folded apart. -/
inductive Grouping where
  | empty
  | add (g : Grouping) (n : Number)
  | merge (a b : Grouping)

namespace Grouping

def numbers : Grouping → List Number
  | .empty => []
  | .add g n => g.numbers ++ [n]
  | .merge a b => a.numbers ++ b.numbers

def fold (kind : NumberKind) : Grouping → Except Error Numeric
  | .empty => .ok (.empty kind)
  | .add g n => do
      let s ← g.fold kind
      s.add n
  | .merge a b => do
      let left ← a.fold kind
      let right ← b.fold kind
      left.merge right

end Grouping

theorem OfKind.of_append {kind : NumberKind} {xs ys : List Number} (h : OfKind kind (xs ++ ys)) :
    OfKind kind xs ∧ OfKind kind ys :=
  ⟨fun n hn => h n (List.mem_append_left ys hn), fun n hn => h n (List.mem_append_right xs hn)⟩

theorem Grouping.fold_eq {kind : NumberKind} {g : Grouping} (hint : kind ≠ .f64) (hkind : OfKind kind g.numbers)
    (hlen : g.numbers.length < 2 ^ 64) : g.fold kind = .ok (numericOf kind g.numbers) := by
  induction g with
  | empty => cases kind <;> rfl
  | add g n ih =>
      obtain ⟨hg, hn⟩ := OfKind.of_append hkind
      have hshort : g.numbers.length + 1 < 2 ^ 64 := by simpa [numbers] using hlen
      rw [fold, ih hg (by omega), ok_bind, numbers]
      exact add_numericOf hint hg (hn n (List.mem_singleton_self n)) hshort
  | merge a b iha ihb =>
      obtain ⟨ha, hb⟩ := OfKind.of_append hkind
      have hboth : (a.numbers ++ b.numbers).length < 2 ^ 64 := hlen
      rw [List.length_append] at hboth
      rw [fold, iha ha (by omega), ok_bind, ihb hb (by omega), ok_bind, numbers]
      exact merge_numericOf hint ha hb hlen

/-- The statistics are those of the numbers. -/
structure Exact (kind : NumberKind) (ns : List Number) (s : Numeric) : Prop where
  sum : s.sum = sumOf kind ns
  count : s.count = ns.length
  min : ∀ m, s.min = some m ↔ m ∈ ns ∧ ∀ n ∈ ns, m.value ≤ n.value
  max : ∀ m, s.max = some m ↔ m ∈ ns ∧ ∀ n ∈ ns, n.value ≤ m.value

theorem exact_numericOf {kind : NumberKind} {ns : List Number} (hint : kind ≠ .f64) (hkind : OfKind kind ns) :
    Exact kind ns (numericOf kind ns) where
  sum := rfl
  count := rfl
  min m := by
    constructor
    · intro hm
      have hargmin : m ∈ ns.argmin Number.value := hm
      exact ⟨List.argmin_mem hargmin, fun n hn => List.le_of_mem_argmin hn hargmin⟩
    · rintro ⟨hm, hleast⟩
      cases hargmin : ns.argmin Number.value with
      | none =>
          rw [List.argmin_eq_none.mp hargmin] at hm
          cases hm
      | some k =>
          have hk := List.argmin_mem hargmin
          have hvalue : k.value = m.value :=
            le_antisymm (List.le_of_mem_argmin hm hargmin) (hleast k hk)
          have hsame := Number.eq_of_value ((hkind k hk).trans_ne hint)
            ((hkind k hk).trans (hkind m hm).symm) hvalue
          rw [← hsame]
          exact hargmin
  max m := by
    constructor
    · intro hm
      have hargmax : m ∈ ns.argmax Number.value := hm
      exact ⟨List.argmax_mem hargmax, fun n hn => List.le_of_mem_argmax hn hargmax⟩
    · rintro ⟨hm, hgreatest⟩
      cases hargmax : ns.argmax Number.value with
      | none =>
          rw [List.argmax_eq_none.mp hargmax] at hm
          cases hm
      | some k =>
          have hk := List.argmax_mem hargmax
          have hvalue : k.value = m.value :=
            le_antisymm (hgreatest k hk) (List.le_of_mem_argmax hm hargmax)
          have hsame := Number.eq_of_value ((hkind k hk).trans_ne hint)
            ((hkind k hk).trans (hkind m hm).symm) hvalue
          rw [← hsame]
          exact hargmax

/-- Statistics do not depend on the order of the numbers. -/
theorem Exact.unique {kind : NumberKind} {ns ns' : List Number} {s s' : Numeric}
    (h : Exact kind ns s) (h' : Exact kind ns' s') (hperm : ns.Perm ns') : s = s' := by
  have hsum : s.sum = s'.sum := by
    rw [h.sum, h'.sum]
    cases kind <;> simp only [sumOf, (hperm.map Number.value).sum_eq]
  have hcount : s.count = s'.count := by rw [h.count, h'.count, hperm.length_eq]
  have hmin : s.min = s'.min := by
    ext m
    rw [h.min, h'.min]
    simp only [hperm.mem_iff]
  have hmax : s.max = s'.max := by
    ext m
    rw [h.max, h'.max]
    simp only [hperm.mem_iff]
  cases s
  cases s'
  simp_all

/-! ### Statistics a provider computed -/

/-- No product of a range's end and a count leaves 128 bits. -/
theorem mulI128_eq (v : Int64) {n : ℕ} (hn : n < 2 ^ 64) :
    mulI128 v.toInt n = v.toInt * n ∧ -2 ^ 127 ≤ v.toInt * n ∧ v.toInt * n < 2 ^ 127 := by
  have hlow := Int.mul_le_mul_of_nonneg_right v.le_toInt (Int.natCast_nonneg n)
  have hhigh := Int.mul_le_mul_of_nonneg_right (Int.le_sub_one_of_lt v.toInt_lt)
    (Int.natCast_nonneg n)
  refine ⟨Int.bmod_eq_of_le_mul_two ?_ ?_, ?_, ?_⟩ <;> omega

theorem mulU128_eq (v : UInt64) {n : ℕ} (hn : n < 2 ^ 64) :
    mulU128 v.toNat n = v.toNat * n ∧ v.toNat * n < 2 ^ 128 := by
  have hlt : v.toNat * n < 2 ^ 64 * 2 ^ 64 := Nat.mul_lt_mul'' v.toNat_lt hn
  exact ⟨Nat.mod_eq_of_lt hlt, hlt⟩

/-- The range of the statistics is one of the kind, and the sum of that many values within it. -/
structure GaugeStatistics.Ranged (kind : NumberKind) (stats : GaugeStatistics) (lo hi : Number) :
    Prop where
  min : stats.min = some lo
  max : stats.max = some hi
  sum_kind : stats.sum.kind = kind
  lo_kind : lo.kind = kind
  hi_kind : hi.kind = kind
  count_pos : 0 < stats.count
  le : lo.value ≤ hi.value
  sum_ge : lo.value * stats.count ≤ stats.sum.value
  sum_le : stats.sum.value ≤ hi.value * stats.count

/-- The statistics of no values. -/
structure GaugeStatistics.Vacant (kind : NumberKind) (stats : GaugeStatistics) : Prop where
  min : stats.min = none
  max : stats.max = none
  sum : stats.sum = .zero kind
  count : stats.count = 0

/-- The test for computed statistics is that of their range. -/
theorem consistent_iff {kind : NumberKind} {stats : GaugeStatistics} (hint : kind ≠ .f64) :
    Numeric.consistent kind stats = true ↔
      stats.Vacant kind ∨ ∃ lo hi, stats.Ranged kind lo hi := by
  obtain ⟨sum, count, min, max, gaps, hcount⟩ := stats
  constructor
  · intro h
    unfold Numeric.consistent at h
    split at h
    · rename_i v lo hi hsum hmin hmax
      dsimp only at hsum hmin hmax h
      simp only [Bool.and_eq_true, decide_eq_true_eq, (mulI128_eq _ hcount).1] at h
      exact .inr ⟨.i64 lo, .i64 hi, hmin, hmax, by rw [hsum]; rfl, rfl, rfl, h.1.1.1, h.1.1.2,
        by rw [hsum]; exact h.1.2, by rw [hsum]; exact h.2⟩
    · rename_i v lo hi hsum hmin hmax
      dsimp only at hsum hmin hmax h
      simp only [Bool.and_eq_true, decide_eq_true_eq, (mulU128_eq _ hcount).1] at h
      have hlow : (lo.toNat : ℤ) * count ≤ v := by exact_mod_cast h.1.2
      have hhigh : (v : ℤ) ≤ hi.toNat * count := by exact_mod_cast h.2
      exact .inr ⟨.u64 lo, .u64 hi, hmin, hmax, by rw [hsum]; rfl, rfl, rfl, h.1.1.1,
        Int.ofNat_le.mpr h.1.1.2, by rw [hsum]; exact hlow, by rw [hsum]; exact hhigh⟩
    · rename_i v hsum hmin hmax
      dsimp only at hsum hmin hmax h
      simp only [Bool.and_eq_true, decide_eq_true_eq] at h
      exact .inl ⟨hmin, hmax, by rw [hsum, h.1]; rfl, h.2⟩
    · rename_i v hsum hmin hmax
      dsimp only at hsum hmin hmax h
      simp only [Bool.and_eq_true, decide_eq_true_eq] at h
      exact .inl ⟨hmin, hmax, by rw [hsum, h.1]; rfl, h.2⟩
    · cases h
  · rintro (⟨rfl, rfl, rfl, rfl⟩ | ⟨lo, hi, rfl, rfl, hkind, hlo, hhi, hpos, hle, hge, hhigh⟩)
    · cases kind with
      | i64 => rfl
      | u64 => rfl
      | f64 => exact absurd rfl hint
    · cases kind with
      | i64 =>
          match lo, hi, sum, hlo, hhi, hkind with
          | .i64 lo, .i64 hi, .i128 v, _, _, _ =>
              simp only [Numeric.consistent, Bool.and_eq_true, decide_eq_true_eq,
                (mulI128_eq _ hcount).1]
              exact ⟨⟨⟨hpos, hle⟩, hge⟩, hhigh⟩
      | u64 =>
          match lo, hi, sum, hlo, hhi, hkind with
          | .u64 lo, .u64 hi, .u128 v, _, _, _ =>
              simp only [Numeric.consistent, Bool.and_eq_true, decide_eq_true_eq,
                (mulU128_eq _ hcount).1]
              have hge' : (lo.toNat : ℤ) * count ≤ v := hge
              have hhigh' : (v : ℤ) ≤ hi.toNat * count := hhigh
              exact ⟨⟨⟨hpos, Int.ofNat_le.mp hle⟩, by exact_mod_cast hge'⟩, by exact_mod_cast hhigh'⟩
      | f64 => exact absurd rfl hint

/-! ### Sums between two bounds -/

/-- Every sum between the bounds is one of that many integers between them. -/
theorem exists_between (lo hi : ℤ) (h : lo ≤ hi) (k : ℕ) (total : ℤ) (hlow : lo * k ≤ total)
    (hhigh : total ≤ hi * k) :
    ∃ xs : List ℤ, xs.length = k ∧ xs.sum = total ∧ ∀ x ∈ xs, lo ≤ x ∧ x ≤ hi := by
  induction k generalizing total with
  | zero =>
      refine ⟨[], rfl, ?_, by simp⟩
      simp only [Nat.cast_zero, mul_zero] at hlow hhigh
      simp only [List.sum_nil]
      omega
  | succ k ih =>
      -- The first takes what the others cannot.
      have hstep : lo * k ≤ hi * k := Int.mul_le_mul_of_nonneg_right h (Int.natCast_nonneg k)
      push_cast at hlow hhigh
      rw [mul_add, mul_one] at hlow hhigh
      obtain ⟨xs, hlength, hsum, hall⟩ := ih (total - max lo (total - hi * k))
        (by omega) (by omega)
      refine ⟨max lo (total - hi * k) :: xs, by simp [hlength], by simp [hsum], ?_⟩
      intro x hx
      rcases List.mem_cons.mp hx with rfl | hx
      · omega
      · exact hall x hx

/-- The sum of integers that reach their upper bound. -/
theorem sum_ge_of_mem {xs : List ℤ} {lo hi : ℤ} (hlow : ∀ x ∈ xs, lo ≤ x) (hmem : hi ∈ xs) :
    lo * (xs.length - 1) + hi ≤ xs.sum := by
  have hrest : lo * ((xs.erase hi).length : ℤ) ≤ (xs.erase hi).sum := by
    have hcard := List.card_nsmul_le_sum (xs.erase hi) lo
      fun x hx => hlow x (List.mem_of_mem_erase hx)
    rw [nsmul_eq_mul] at hcard
    linarith
  rw [List.length_erase_of_mem hmem] at hrest
  have hpos := List.length_pos_of_mem hmem
  rw [← List.sum_erase hmem]
  push_cast [hpos] at hrest
  linarith

/-- The sum of integers that reach their lower bound. -/
theorem sum_le_of_mem {xs : List ℤ} {lo hi : ℤ} (hhigh : ∀ x ∈ xs, x ≤ hi) (hmem : lo ∈ xs) :
    xs.sum ≤ lo + hi * (xs.length - 1) := by
  have hrest : (xs.erase lo).sum ≤ hi * ((xs.erase lo).length : ℤ) := by
    have hcard := List.sum_le_card_nsmul (xs.erase lo) hi
      fun x hx => hhigh x (List.mem_of_mem_erase hx)
    rw [nsmul_eq_mul] at hcard
    linarith
  rw [List.length_erase_of_mem hmem] at hrest
  have hpos := List.length_pos_of_mem hmem
  rw [← List.sum_erase hmem]
  push_cast [hpos] at hrest
  linarith

/-! ### Statistics that some values have -/

/-- The integer as a number of an integer kind. -/
def Number.ofValue (kind : NumberKind) (v : ℤ) : Number :=
  match kind with
  | .i64 => .i64 (Int64.ofInt v)
  | .u64 => .u64 (UInt64.ofNat v.toNat)
  | .f64 => .f64 .zero

theorem Number.kind_ofValue (kind : NumberKind) (v : ℤ) : (Number.ofValue kind v).kind = kind := by
  cases kind <;> rfl

/-- An integer between two numbers of the kind is one of it. -/
theorem Number.value_ofValue {kind : NumberKind} {lo hi : Number} {v : ℤ} (hint : kind ≠ .f64)
    (hlo : lo.kind = kind) (hhi : hi.kind = kind) (hle : lo.value ≤ v) (hge : v ≤ hi.value) :
    (Number.ofValue kind v).value = v := by
  cases kind with
  | i64 =>
      have hlow := (value_bounds_i64 hlo).1
      have hhigh := (value_bounds_i64 hhi).2
      exact Int64.toInt_ofInt_of_le (hlow.trans hle) (hge.trans_lt hhigh)
  | u64 =>
      have hlow := (value_bounds_u64 hlo).1
      have hhigh := (value_bounds_u64 hhi).2
      have hlt : v.toNat < 2 ^ 64 := by omega
      simp only [Number.ofValue, Number.value]
      rw [UInt64.toNat_ofNat_of_lt' hlt, Int.toNat_of_nonneg (hlow.trans hle)]
  | f64 => exact absurd rfl hint

/-- The sum and count, and the range with both of its ends reached, of some numbers of the kind. -/
def GaugeStatistics.Attained (kind : NumberKind) (stats : GaugeStatistics) : Prop :=
  ∃ ns, OfKind kind ns ∧ Exact kind ns ⟨stats.sum, stats.count, stats.min, stats.max⟩

/-- The sum leaves no room for one of the ends of the range: the other values would have to pass
the other end. -/
def GaugeStatistics.Misses (stats : GaugeStatistics) (lo hi : Number) : Prop :=
  stats.sum.value < lo.value * (stats.count - 1) + hi.value ∨
    lo.value + hi.value * (stats.count - 1) < stats.sum.value

theorem attained_of_vacant {kind : NumberKind} {stats : GaugeStatistics} (h : stats.Vacant kind) :
    stats.Attained kind := by
  refine ⟨[], by simp [OfKind], ?_, h.count, by simp [h.min], by simp [h.max]⟩
  dsimp only
  rw [h.sum]
  cases kind <;> rfl

theorem not_misses_of_attained {kind : NumberKind} {stats : GaugeStatistics} {lo hi : Number}
    (hint : kind ≠ .f64) (h : stats.Ranged kind lo hi) (hattained : stats.Attained kind) : ¬ stats.Misses lo hi := by
  obtain ⟨ns, hkind, hexact⟩ := hattained
  obtain ⟨hlo, hleast⟩ := (hexact.min lo).mp h.min
  obtain ⟨hhi, hgreatest⟩ := (hexact.max hi).mp h.max
  have hsum : stats.sum.value = (ns.map Number.value).sum := by
    have hexact_sum : stats.sum = sumOf kind ns := hexact.sum
    rw [hexact_sum, sumOf_value hint hkind]
  have hlength : (stats.count : ℤ) = (ns.map Number.value).length := by
    rw [List.length_map]
    exact_mod_cast hexact.count
  have hlow := sum_ge_of_mem (fun x hx => by
    obtain ⟨n, hn, rfl⟩ := List.mem_map.mp hx
    exact hleast n hn) (List.mem_map_of_mem (f := Number.value) hhi)
  have hhigh := sum_le_of_mem (fun x hx => by
    obtain ⟨n, hn, rfl⟩ := List.mem_map.mp hx
    exact hgreatest n hn) (List.mem_map_of_mem (f := Number.value) hlo)
  rw [← hsum, ← hlength] at hlow hhigh
  rintro (hmiss | hmiss)
  · exact absurd hlow (not_le.mpr hmiss)
  · exact absurd hhigh (not_le.mpr hmiss)

/-- Numbers between the ends, with both ends among them, have the range. -/
theorem exact_of_between {kind : NumberKind} {stats : GaugeStatistics} {lo hi : Number}
    (hint : kind ≠ .f64) (h : stats.Ranged kind lo hi) {ns : List Number} (hkind : OfKind kind ns)
    (hlength : ns.length = stats.count) (hsum : (ns.map Number.value).sum = stats.sum.value)
    (hlo : lo ∈ ns) (hhi : hi ∈ ns) (hall : ∀ n ∈ ns, lo.value ≤ n.value ∧ n.value ≤ hi.value) :
    Exact kind ns ⟨stats.sum, stats.count, stats.min, stats.max⟩ where
  sum := Sum.eq_of_value (h.sum_kind.trans_ne hint) (h.sum_kind.trans (sumOf_kind kind ns).symm)
    (hsum.symm.trans (sumOf_value hint hkind).symm)
  count := hlength.symm
  min m := by
    dsimp only
    rw [h.min, Option.some.injEq]
    constructor
    · rintro rfl
      exact ⟨hlo, fun n hn => (hall n hn).1⟩
    · rintro ⟨hm, hleast⟩
      exact Number.eq_of_value (h.lo_kind.trans_ne hint) (h.lo_kind.trans (hkind m hm).symm)
        (le_antisymm (hall m hm).1 (hleast lo hlo))
  max m := by
    dsimp only
    rw [h.max, Option.some.injEq]
    constructor
    · rintro rfl
      exact ⟨hhi, fun n hn => (hall n hn).2⟩
    · rintro ⟨hm, hgreatest⟩
      exact Number.eq_of_value (h.hi_kind.trans_ne hint) (h.hi_kind.trans (hkind m hm).symm)
        (le_antisymm (hgreatest hi hhi) (hall m hm).2)

theorem attained_of_not_misses {kind : NumberKind} {stats : GaugeStatistics} {lo hi : Number}
    (hint : kind ≠ .f64) (h : stats.Ranged kind lo hi) (hreach : ¬ stats.Misses lo hi) : stats.Attained kind := by
  obtain ⟨hlow, hhigh⟩ := not_or.mp hreach
  rw [not_lt] at hlow hhigh
  obtain ⟨k, hk⟩ := Nat.exists_eq_succ_of_ne_zero h.count_pos.ne'
  rw [hk] at hlow hhigh
  push_cast at hlow hhigh
  rw [add_sub_cancel_right] at hlow hhigh
  cases k with
  | zero =>
      -- A single value is both ends of the range.
      simp only [Nat.cast_zero, mul_zero, zero_add, add_zero] at hlow hhigh
      have hle := h.le
      have hsame : hi = lo := Number.eq_of_value (h.hi_kind.trans_ne hint)
        (h.hi_kind.trans h.lo_kind.symm) (by omega)
      have hone : OfKind kind [lo] := by simpa [OfKind] using h.lo_kind
      refine ⟨[lo], hone, exact_of_between hint h hone hk.symm ?_ ?_ ?_ ?_⟩
      · simp only [List.map_cons, List.map_nil, List.sum_cons, List.sum_nil]
        omega
      · simp
      · simp [hsame]
      · simpa using hle
  | succ k =>
      push_cast at hlow hhigh
      obtain ⟨xs, hlength, hsum, hall⟩ := exists_between lo.value hi.value h.le k
        (stats.sum.value - lo.value - hi.value) (by linarith) (by linarith)
      have hvalue : ∀ x ∈ xs, (Number.ofValue kind x).value = x := fun x hx =>
        Number.value_ofValue hint h.lo_kind h.hi_kind (hall x hx).1 (hall x hx).2
      have hkind : OfKind kind (lo :: hi :: xs.map (Number.ofValue kind)) := by
        intro n hn
        simp only [List.mem_cons, List.mem_map] at hn
        rcases hn with rfl | rfl | ⟨x, -, rfl⟩
        · exact h.lo_kind
        · exact h.hi_kind
        · exact Number.kind_ofValue kind x
      have hmap : (xs.map (Number.ofValue kind)).map Number.value = xs := by
        rw [List.map_map]
        calc xs.map (Number.value ∘ Number.ofValue kind) = xs.map id := List.map_congr_left hvalue
          _ = xs := List.map_id xs
      refine ⟨_, hkind, exact_of_between hint h hkind ?_ ?_ ?_ ?_ ?_⟩
      · simp [hlength, hk]
      · simp only [List.map_cons, hmap, List.sum_cons, hsum]
        omega
      · simp
      · simp
      · intro n hn
        simp only [List.mem_cons, List.mem_map] at hn
        rcases hn with rfl | rfl | ⟨x, hx, rfl⟩
        · exact ⟨le_rfl, h.le⟩
        · exact ⟨h.le, le_rfl⟩
        · rw [hvalue x hx]
          exact hall x hx

/-- Statistics of some values pass the test. -/
theorem consistent_of_attained {kind : NumberKind} {stats : GaugeStatistics} (hint : kind ≠ .f64)
    (h : stats.Attained kind) : Numeric.consistent kind stats = true := by
  obtain ⟨ns, hkind, hexact⟩ := h
  have hsum : stats.sum = sumOf kind ns := hexact.sum
  have hcount : stats.count = ns.length := hexact.count
  apply (consistent_iff hint).mpr
  cases hns : ns with
  | nil =>
      have hmin : stats.min = none := Option.eq_none_iff_forall_ne_some.mpr fun m hm => by
        simpa [hns] using (hexact.min m).mp hm
      have hmax : stats.max = none := Option.eq_none_iff_forall_ne_some.mpr fun m hm => by
        simpa [hns] using (hexact.max m).mp hm
      refine .inl ⟨hmin, hmax, ?_, by simpa [hns] using hcount⟩
      rw [hsum, hns]
      cases kind <;> rfl
  | cons n rest =>
      have hne : ns ≠ [] := by simp [hns]
      obtain ⟨lo, hlo⟩ := Option.isSome_iff_exists.mp
        (Option.isSome_iff_ne_none.mpr (mt List.argmin_eq_none.mp hne) :
          (ns.argmin Number.value).isSome)
      obtain ⟨hi, hhi⟩ := Option.isSome_iff_exists.mp
        (Option.isSome_iff_ne_none.mpr (mt List.argmax_eq_none.mp hne) :
          (ns.argmax Number.value).isSome)
      have hleast : ∀ n ∈ ns, lo.value ≤ n.value := fun n hn => List.le_of_mem_argmin hn hlo
      have hgreatest : ∀ n ∈ ns, n.value ≤ hi.value := fun n hn => List.le_of_mem_argmax hn hhi
      have hlo_mem := List.argmin_mem hlo
      have hhi_mem := List.argmax_mem hhi
      have hlow := List.card_nsmul_le_sum (ns.map Number.value) lo.value fun x hx => by
        obtain ⟨m, hm, rfl⟩ := List.mem_map.mp hx
        exact hleast m hm
      have hhigh := List.sum_le_card_nsmul (ns.map Number.value) hi.value fun x hx => by
        obtain ⟨m, hm, rfl⟩ := List.mem_map.mp hx
        exact hgreatest m hm
      rw [nsmul_eq_mul, List.length_map, mul_comm] at hlow hhigh
      refine .inr ⟨lo, hi, (hexact.min lo).mpr ⟨hlo_mem, hleast⟩,
        (hexact.max hi).mpr ⟨hhi_mem, hgreatest⟩, by rw [hsum, sumOf_kind], hkind lo hlo_mem,
        hkind hi hhi_mem, ?_, hleast hi hhi_mem, ?_, ?_⟩
      · rw [hcount]
        exact List.length_pos_of_ne_nil hne
      · rwa [hsum, sumOf_value hint hkind, hcount]
      · rwa [hsum, sumOf_value hint hkind, hcount]

/-! ### The samples of a window -/

/-- The numbers of the samples inside the window. -/
def numbersWithin (w : Interval) (samples : List Sample) : List Number :=
  samples.filterMap (fun s => if inside s.observedAt w then s.number else none)

/-- A sample inside the window is not valid. -/
def gapsWithin (w : Interval) (samples : List Sample) : Bool :=
  samples.any (fun s => inside s.observedAt w && !s.isValid)

theorem Sample.isValid_gauge {spec : SummarySpec} {kind : NumberKind} {s : Sample}
    (hm : spec.metric = .gauge kind) (hs : spec.matches s = true) :
    s.isValid = s.number.isSome := by
  have haccepts := s.valid.accepts
  rw [SummarySpec.metric_eq hs, hm] at haccepts
  unfold Sample.isValid Sample.number
  cases hreading : s.reading with
  | valid v =>
      cases v with
      | number n => rfl
      | bool b => exact absurd (haccepts _ hreading) (by simp [Metric.accepts])
      | state id => exact absurd (haccepts _ hreading) (by simp [Metric.accepts])
  | missing => rfl
  | failed => rfl

/-- What a summary of a gauge keeps of its points. -/
structure GaugePiece (w : Interval) (samples : List Sample) (a : Piece) : Prop where
  numbers : a.numbers = numbersWithin w samples
  valid : a.valid = (numbersWithin w samples).length
  defects : a.defects = if gapsWithin w samples then {.gaps} else ∅

theorem GaugePiece.append {w : Interval} {xs ys : List Sample} {a b : Piece}
    (ha : GaugePiece w xs a) (hb : GaugePiece w ys b) : GaugePiece w (xs ++ ys) (a ++ b) where
  numbers := by
    simp only [Piece.append_def, Piece.append, ha.numbers, hb.numbers, numbersWithin,
      List.filterMap_append]
  valid := by
    simp only [Piece.append_def, Piece.append, ha.valid, hb.valid, numbersWithin,
      List.filterMap_append, List.length_append]
  defects := by
    have hboth : gapsWithin w (xs ++ ys) = (gapsWithin w xs || gapsWithin w ys) := List.any_append
    simp only [Piece.append_def, Piece.append, ha.defects, hb.defects, hboth]
    rcases Bool.eq_false_or_eq_true (gapsWithin w xs) with hx | hx
    · cases gapsWithin w ys <;> simp [hx]
    · simp [hx]

theorem piece_gauge {spec : SummarySpec} {kind : NumberKind} {w : Interval} {x : Point}
    (hm : spec.metric = .gauge kind) (hs : spec.matches x.sample = true) :
    GaugePiece w [x.sample] (piece spec w x) := by
  have hnone := @contributionOf_eq_empty spec x.previous x.sample (by simp [hm])
  have hvalid := Sample.isValid_gauge hm hs
  rcases Bool.eq_false_or_eq_true (inside x.sample.observedAt w) with hin | hin
  · cases hnumber : x.sample.number with
    | none => constructor <;> simp [piece, numbersWithin, gapsWithin, hin, hnone, hvalid, hnumber]
    | some n => constructor <;> simp [piece, numbersWithin, gapsWithin, hin, hnone, hvalid, hnumber]
  · constructor <;> simp [piece, numbersWithin, gapsWithin, hin]

theorem pieces_trace_gauge {spec : SummarySpec} {kind : NumberKind} {w : Interval}
    {previous : Option Sample} {p : Sample} {rest : List Sample} (hm : spec.metric = .gauge kind)
    (hs : ∀ s ∈ p :: rest, spec.matches s = true) :
    GaugePiece w (p :: rest) (pieces spec w (trace false previous p rest)) := by
  induction rest generalizing previous p with
  | nil =>
      have hp := @piece_gauge spec kind w ⟨previous, p, none⟩ hm (hs p List.mem_cons_self)
      simpa [trace, pieces_cons, pieces_nil, Piece.append_empty] using hp
  | cons s rest ih =>
      have hp := @piece_gauge spec kind w ⟨previous, p, some s.observedAt⟩ hm
        (hs p List.mem_cons_self)
      have hrest := @ih (some p) s fun t ht => hs t (List.mem_cons_of_mem p ht)
      exact hp.append hrest

/-- The statistics of a window's samples give the summary of the samples. -/
theorem fromIntegerGauge_eq {spec : SummarySpec} {kind : NumberKind} {w : Interval}
    {samples : List Sample} {stats : GaugeStatistics} {maxItems : ℕ}
    (hint : kind ≠ .f64) (hspec : spec.validate = .ok ()) (hm : spec.metric = .gauge kind)
    (hw : w.widthMicros ≠ 0) (hsamples : Canonical spec samples) (hpos : 0 < maxItems) (hlen : samples.length ≤ maxItems)
    (hmax : maxItems < 2 ^ 64)
    (hstats : Exact kind (numbersWithin w samples) ⟨stats.sum, stats.count, stats.min, stats.max⟩)
    (hgaps : stats.gaps = gapsWithin w samples) :
    ∃ summary, Summary.compute spec w samples maxItems = .ok summary ∧
      Summary.fromIntegerGauge spec w stats = .ok summary := by
  have hpiece : GaugePiece w samples (pieces spec w (pointsOf false samples)) := by
    cases samples with
    | nil => exact ⟨rfl, rfl, rfl⟩
    | cons p rest => exact pieces_trace_gauge hm hsamples.matches_
  have hkind : OfKind kind (numbersWithin w samples) := by
    intro n hn
    obtain ⟨s, hs, hnumber⟩ := List.mem_filterMap.mp hn
    split at hnumber
    · exact Sample.number_kind (hsamples.matches_ s hs) hnumber (.inl hm)
    · cases hnumber
  have hsame : (⟨stats.sum, stats.count, stats.min, stats.max⟩ : Numeric) =
      numericOf kind (numbersWithin w samples) :=
    hstats.unique (exact_numericOf hint hkind) (List.Perm.refl _)
  have hcount : stats.count = (numbersWithin w samples).length := hstats.count
  have hnumeric : Numeric.fromIntegerStatistics kind stats =
      .ok (numericOf kind (numbersWithin w samples)) := by
    rw [Numeric.fromIntegerStatistics, if_pos (consistent_of_attained hint ⟨_, hkind, hstats⟩), hsame]
  have hordered : SummaryBuilder.ordered spec.metric = false := by simp [hm, SummaryBuilder.ordered]
  have hsize : (summaryOf spec w (pieces spec w (pointsOf false samples))).size ≤ maxItems := by
    simp only [Summary.size, summaryOf, hm, dataOf]
    exact hpos
  refine ⟨summaryOf spec w (pieces spec w (pointsOf false samples)), ?_, ?_⟩
  · rw [compute_spec (by rw [hm]; exact hint) hspec hw hsamples (fun _ => hlen.trans_lt hmax), if_neg (not_lt.mpr hlen),
      hordered, Summary.within, if_pos hsize]
  · simp only [Summary.fromIntegerGauge, hspec, ok_bind, hm, hw, if_false,
      hnumeric, summaryOf, dataOf, hpiece.numbers, hpiece.valid, hpiece.defects, hcount, hgaps]
    rfl

/-! ### What the statistics of a kind guarantee -/

/-- Everything but the test of a tuple whose values nobody has seen. -/
structure GaugeExact (kind : NumberKind) : Prop where
  folded : ∀ g : Grouping, OfKind kind g.numbers → g.numbers.length < 2 ^ 64 →
    ∃ s, g.fold kind = .ok s ∧ Exact kind g.numbers s
  regrouped : ∀ g g' : Grouping, OfKind kind g.numbers → g.numbers.length < 2 ^ 64 →
    g.numbers.Perm g'.numbers → g'.fold kind = g.fold kind
  accepted : ∀ (g : Grouping) (s : Numeric) (stats : GaugeStatistics), OfKind kind g.numbers →
    g.numbers.length < 2 ^ 64 → g.fold kind = .ok s →
    s = ⟨stats.sum, stats.count, stats.min, stats.max⟩ →
    Numeric.fromIntegerStatistics kind stats = .ok s
  products_i64 : ∀ (v : Int64) (n : ℕ), n < 2 ^ 64 →
    mulI128 v.toInt n = v.toInt * n ∧ -2 ^ 127 ≤ v.toInt * n ∧ v.toInt * n < 2 ^ 127
  products_u64 : ∀ (v : UInt64) (n : ℕ), n < 2 ^ 64 →
    mulU128 v.toNat n = v.toNat * n ∧ v.toNat * n < 2 ^ 128
  projected : ∀ (spec : SummarySpec) (w : Interval) (samples : List Sample)
    (stats : GaugeStatistics) (maxItems : ℕ), spec.validate = .ok () →
    spec.metric = .gauge kind → w.widthMicros ≠ 0 → Canonical spec samples → 0 < maxItems →
    samples.length ≤ maxItems → maxItems < 2 ^ 64 →
    Exact kind (numbersWithin w samples) ⟨stats.sum, stats.count, stats.min, stats.max⟩ →
    stats.gaps = gapsWithin w samples →
    ∃ computed imported, Summary.compute spec w samples maxItems = .ok computed ∧
      Summary.fromIntegerGauge spec w stats = .ok imported ∧
      ∀ op, imported.project op = computed.project op

theorem gaugeExact {kind : NumberKind} (hint : kind ≠ .f64) : GaugeExact kind where
  folded g hkind hlen := ⟨_, Grouping.fold_eq hint hkind hlen, exact_numericOf hint hkind⟩
  regrouped g g' hkind hlen hperm := by
    have hkind' : OfKind kind g'.numbers := fun n hn => hkind n (hperm.mem_iff.mpr hn)
    rw [Grouping.fold_eq hint hkind hlen,
      Grouping.fold_eq hint hkind' (by rwa [← hperm.length_eq])]
    have hsame := (exact_numericOf hint hkind).unique (exact_numericOf hint hkind') hperm
    rw [hsame]
  accepted g s stats hkind hlen hfold hstats := by
    rw [Grouping.fold_eq hint hkind hlen, Except.ok.injEq] at hfold
    have hexact := exact_numericOf hint hkind
    rw [hfold, hstats] at hexact
    rw [Numeric.fromIntegerStatistics, if_pos (consistent_of_attained hint ⟨_, hkind, hexact⟩), hstats]
  products_i64 v n hn := mulI128_eq v hn
  products_u64 v n hn := mulU128_eq v hn
  projected spec w samples stats maxItems hspec hm hw hsamples hpos hlen hmax hstats hgaps := by
    obtain ⟨summary, hcompute, himport⟩ :=
      fromIntegerGauge_eq hint hspec hm hw hsamples hpos hlen hmax hstats hgaps
    exact ⟨summary, summary, hcompute, himport, fun _ => rfl⟩

/-- A tuple is accepted only if some values have it, exactly when its sum leaves room for both ends
of its range. -/
theorem gauge_statistics {kind : NumberKind} (hint : kind ≠ .f64) (stats : GaugeStatistics) :
    (GaugeExact kind ∧
      ((∃ n, Numeric.fromIntegerStatistics kind stats = .ok n) → stats.Attained kind)) ↔
      ∀ lo hi, stats.Ranged kind lo hi → ¬ stats.Misses lo hi := by
  have hok : (∃ n, Numeric.fromIntegerStatistics kind stats = .ok n) ↔
      Numeric.consistent kind stats = true := by
    rw [Numeric.fromIntegerStatistics]
    split <;> simp_all
  rw [hok]
  constructor
  · rintro ⟨-, hattained⟩ lo hi hranged
    have hconsistent := (consistent_iff hint).mpr (.inr ⟨lo, hi, hranged⟩)
    exact not_misses_of_attained hint hranged (hattained hconsistent)
  · intro hreach
    refine ⟨gaugeExact hint, fun hconsistent => ?_⟩
    rcases (consistent_iff hint).mp hconsistent with hvacant | ⟨lo, hi, hranged⟩
    · exact attained_of_vacant hvacant
    · exact attained_of_not_misses hint hranged (hreach lo hi hranged)

/-- Two values between 0 and 10, which add up to 10. -/
def pairReading : GaugeStatistics := ⟨.u128 10, 2, some (.u64 0), some (.u64 10), true, by decide⟩

theorem gauge_statistics_pair : GaugeExact .u64 ∧ pairReading.Attained .u64 := by
  have hint : NumberKind.u64 ≠ .f64 := by decide
  obtain ⟨hexact, hattained⟩ := (gauge_statistics hint pairReading).mpr fun lo hi hranged => by
    obtain rfl := Option.some.inj hranged.min
    obtain rfl := Option.some.inj hranged.max
    rintro (hlow | hhigh)
    · exact absurd hlow (by decide)
    · exact absurd hhigh (by decide)
  exact ⟨hexact, hattained ⟨_, rfl⟩⟩

/-- One value, said to lie between 0 and 10. -/
def loneReading : GaugeStatistics := ⟨.u128 5, 1, some (.u64 0), some (.u64 10), false, by decide⟩

theorem loneReading_accepted :
    (∃ n, Numeric.fromIntegerStatistics .u64 loneReading = .ok n) ∧ ¬ loneReading.Attained .u64 := by
  refine ⟨⟨_, rfl⟩, fun hattained => ?_⟩
  have hranged : loneReading.Ranged .u64 (.u64 0) (.u64 10) := by
    constructor <;> decide
  exact not_misses_of_attained (by decide) hranged hattained (.inl (by decide))

end Rss.Timeseries
