import Rss.Library.Query

/-! # Check constraints

A check constraint refuses only what is false: a comparison with a null lets the row through. -/

namespace Rss.Sql

namespace Truth

variable {α β : Type}

/-- `x IS NULL`. -/
def isNull (a : Option α) : Truth := some a.isNone

/-- `x IS NOT NULL`. -/
def isNotNull (a : Option α) : Truth := some a.isSome

/-- A check constraint lets the row through. -/
def Passes (t : Truth) : Prop := t ≠ some false

instance (t : Truth) : Decidable t.Passes := inferInstanceAs (Decidable (t ≠ some false))

@[simp] theorem passes_some (b : Bool) : Passes (some b) ↔ b = true := by
  cases b <;> simp [Passes]

@[simp] theorem passes_and (a b : Truth) : (a.and b).Passes ↔ a.Passes ∧ b.Passes := by
  rcases a with _ | _ | _ <;> rcases b with _ | _ | _ <;> simp [Truth.and, Passes]

@[simp] theorem passes_or (a b : Truth) : (a.or b).Passes ↔ a.Passes ∨ b.Passes := by
  rcases a with _ | _ | _ <;> rcases b with _ | _ | _ <;> simp [Truth.or, Passes]

@[simp] theorem passes_comparing (r : α → β → Bool) (a : Option α) (b : Option β) :
    (comparing r a b).Passes ↔ ∀ x ∈ a, ∀ y ∈ b, r x y = true := by
  cases a <;> cases b <;> simp [comparing, Passes]

@[simp] theorem passes_isNull (a : Option α) : (isNull a).Passes ↔ a = none := by
  simp [isNull]

@[simp] theorem passes_isNotNull (a : Option α) : (isNotNull a).Passes ↔ a.isSome = true := by
  simp [isNotNull]

end Truth

/-- Every constraint lets the row through. -/
def Admitted (checks : List Truth) : Prop := ∀ t ∈ checks, t.Passes

instance (checks : List Truth) : Decidable (Admitted checks) :=
  inferInstanceAs (Decidable (∀ t ∈ checks, t.Passes))

@[simp] theorem admitted_nil : Admitted [] := fun _ h => absurd h List.not_mem_nil

@[simp] theorem admitted_cons (t : Truth) (checks : List Truth) :
    Admitted (t :: checks) ↔ t.Passes ∧ Admitted checks :=
  List.forall_mem_cons

/-! ### Byte strings -/

/-- A value of type `bytea`: so many octets. -/
structure Bytea where
  octets : ℕ
  bits : BitVec (8 * octets)

/-- The value as so many octets, if it has as many. -/
def Bytea.sized (n : ℕ) (b : Bytea) : Option (BitVec (8 * n)) :=
  if h : b.octets = n then some (h ▸ b.bits) else none

theorem Bytea.sized_eq_some {n : ℕ} {b : Bytea} {bits : BitVec (8 * n)} :
    b.sized n = some bits ↔ b = ⟨n, bits⟩ := by
  obtain ⟨octets, own⟩ := b
  unfold sized
  constructor
  · intro h
    split at h
    · next hn =>
        dsimp only at hn
        subst hn
        cases h
        rfl
    · cases h
  · intro h
    cases h
    exact dif_pos rfl

end Rss.Sql
