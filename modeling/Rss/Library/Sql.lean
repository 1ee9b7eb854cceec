import Mathlib.Algebra.Order.Ring.Int
import Mathlib.Order.Basic

/-! # SQL scalars and the database clock

Columns of type `uuid`, `bigint` and `timestamptz`, and the wall clock that one
transaction may read several times. -/

namespace Rss.Sql

abbrev Uuid := BitVec 128

/-- Largest `bigint`. -/
def bigintMax : ℤ := 2 ^ 63 - 1

/-- `n + 1` in `bigint` arithmetic, absent when it is out of range. -/
def succ (n : ℤ) : Option ℤ :=
  if n < bigintMax then some (n + 1) else none

theorem succ_eq_some {n m : ℤ} (h : succ n = some m) : m = n + 1 := by
  unfold succ at h
  split at h
  · exact (Option.some.inj h).symm
  · cases h

/-- Microseconds in `n * interval '1 millisecond'`. -/
def milliseconds (n : ℤ) : ℤ := n * 1000

/-- `least(a, b)` for a nullable first argument. -/
def least (a : Option ℤ) (b : ℤ) : ℤ :=
  match a with
  | none => b
  | some a => if a ≤ b then a else b

theorem least_le (a : Option ℤ) (b : ℤ) : least a b ≤ b := by
  unfold least
  split
  · exact Int.le_refl b
  · split
    · assumption
    · exact Int.le_refl b

/-- The wall clock during one transaction: each reading lies some microseconds after the
one before. -/
structure Clock where
  now : ℤ
  steps : ℕ → ℕ

/-- The clock at its next reading. -/
def Clock.tick (c : Clock) : Clock := ⟨c.now + c.steps 0, fun i => c.steps (i + 1)⟩

theorem Clock.le_tick (c : Clock) : c.now ≤ c.tick.now :=
  Int.le_add_of_nonneg_right (Int.natCast_nonneg _)

end Rss.Sql
