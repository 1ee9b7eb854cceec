import Mathlib.Algebra.Order.Ring.Int
import Mathlib.Data.Option.Basic

/-! # Fallible computations and checked arithmetic

Inversion rules for computations in `Except` and for the checked operations on
fixed-width unsigned integers. -/

namespace Rss

universe u

variable {ε α β : Type u}

@[simp] theorem ok_bind (a : α) (f : α → Except ε β) : (Except.ok a >>= f) = f a := (rfl)

@[simp] theorem error_bind (e : ε) (f : α → Except ε β) :
    (Except.error e >>= f) = Except.error e := rfl

/-- A sequence succeeds exactly when its first part succeeds and the rest does from there. -/
theorem bind_eq_ok {x : Except ε α} {f : α → Except ε β} {b : β} :
    (x >>= f) = .ok b ↔ ∃ a, x = .ok a ∧ f a = .ok b := by
  cases x with
  | error e => simp
  | ok a => simp

/-- A sequence fails exactly when its first part does, or the rest fails from its value. -/
theorem bind_eq_error {x : Except ε α} {f : α → Except ε β} {e : ε} :
    (x >>= f) = .error e ↔ x = .error e ∨ ∃ a, x = .ok a ∧ f a = .error e := by
  cases x with
  | error e' => simp
  | ok a => simp

theorem map_eq_ok {f : α → β} {x : Except ε α} {b : β} :
    x.map f = .ok b ↔ ∃ a, x = .ok a ∧ f a = b := by
  cases x <;> simp [Except.map]

theorem mapError_eq_ok {ε' : Type u} {f : ε → ε'} {x : Except ε α} {a : α} :
    x.mapError f = .ok a ↔ x = .ok a := by
  cases x <;> simp [Except.mapError]

/-- A call that checks its state first and writes it once: a failed check leaves it alone. -/
theorem run_check_set {σ ε α : Type} (check : σ → Except ε α) (write : σ → α → σ) (s : σ) :
    ((do let s ← get
         let a ← liftExcept (check s)
         set (write s a) : ExceptT ε (StateM σ) Unit).run.run s).run =
      match check s with
      | .ok a => (.ok (), write s a)
      | .error e => (.error e, s) := by
  change (((liftExcept (check s) : ExceptT ε (StateM σ) α) >>=
    fun a => set (write s a)).run.run s).run = _
  cases check s with
  | ok a => rfl
  | error e => rfl

/-- `Option::ok_or`. -/
def okOr (x : Option α) (e : ε) : Except ε α :=
  match x with
  | some a => .ok a
  | none => .error e

@[simp] theorem okOr_some (a : α) (e : ε) : okOr (some a) e = .ok a := rfl

@[simp] theorem okOr_none (e : ε) : okOr (none : Option α) e = .error e := rfl

theorem okOr_eq_ok {x : Option α} {e : ε} {a : α} : okOr x e = .ok a ↔ x = some a := by
  cases x <;> simp

theorem okOr_eq_error {x : Option α} {e e' : ε} :
    okOr x e = .error e' ↔ x = none ∧ e' = e := by
  cases x <;> simp [eq_comm]

/-- Addition of `width`-bit unsigned integers, absent on overflow. -/
def checkedAdd (width a b : ℕ) : Option ℕ :=
  if a + b < 2 ^ width then some (a + b) else none

theorem checkedAdd_eq_some {width a b c : ℕ} :
    checkedAdd width a b = some c ↔ c = a + b ∧ a + b < 2 ^ width := by
  unfold checkedAdd
  split <;> simp_all [eq_comm]

theorem checkedAdd_of_lt {width a b : ℕ} (h : a + b < 2 ^ width) :
    checkedAdd width a b = some (a + b) :=
  checkedAdd_eq_some.mpr ⟨rfl, h⟩

/-- Multiplication of `width`-bit unsigned integers, absent on overflow. -/
def checkedMul (width a b : ℕ) : Option ℕ :=
  if a * b < 2 ^ width then some (a * b) else none

theorem checkedMul_eq_some {width a b c : ℕ} :
    checkedMul width a b = some c ↔ c = a * b ∧ a * b < 2 ^ width := by
  unfold checkedMul
  split <;> simp_all [eq_comm]

/-- Subtraction of unsigned integers, absent when the result would be negative. -/
def checkedSub (a b : ℕ) : Option ℕ :=
  if b ≤ a then some (a - b) else none

@[simp] theorem checkedSub_zero_one : checkedSub 0 1 = none := rfl

@[simp] theorem checkedSub_succ_one (n : ℕ) : checkedSub (n + 1) 1 = some n := by
  simp [checkedSub]

end Rss
