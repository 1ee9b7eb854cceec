import Mathlib.Data.Nat.ModEq
import Mathlib.Tactic.Ring

/-! # Hexadecimal digits

Numbers as a fixed count of hexadecimal digits, and the numbers such digits are read as. -/

namespace Rss

/-- The digits of the lower-case alphabet. -/
def hexDigit (n : ℕ) : Char := Nat.digitChar (n % 16)

def hexValue (c : Char) : Option ℕ :=
  if c.isDigit then some (c.toNat - 48)
  else if 97 ≤ c.toNat ∧ c.toNat ≤ 102 then some (c.toNat - 87)
  else if 65 ≤ c.toNat ∧ c.toNat ≤ 70 then some (c.toNat - 55)
  else none

/-- The lowest digits of a number, the most significant one first. -/
def hexDigits : ℕ → ℕ → List Char
  | 0, _ => []
  | width + 1, n => hexDigits width (n / 16) ++ [hexDigit n]

/-- The number that digits of either case spell. -/
def readHex (cs : List Char) : Option ℕ :=
  cs.foldlM (fun n c => (hexValue c).map fun d => 16 * n + d) 0

theorem hexDigit_spec (n : ℕ) : hexValue (hexDigit n) = some (n % 16) ∧ hexDigit n ≠ '-' := by
  have hall : ∀ d < 16, hexValue (Nat.digitChar d) = some d ∧ Nat.digitChar d ≠ '-' := by decide
  exact hall (n % 16) (Nat.mod_lt n (by decide))

@[simp] theorem length_hexDigits (width n : ℕ) : (hexDigits width n).length = width := by
  induction width generalizing n with
  | zero => rfl
  | succ width ih => simp [hexDigits, ih]

theorem hyphen_notMem_hexDigits (width n : ℕ) : '-' ∉ hexDigits width n := by
  induction width generalizing n with
  | zero => exact List.not_mem_nil
  | succ width ih =>
      rw [hexDigits, List.mem_append, List.mem_singleton, not_or]
      exact ⟨ih (n / 16), (hexDigit_spec n).2.symm⟩

/-- The digits are read as the number they were written for, up to their count. -/
theorem readHex_hexDigits (width n : ℕ) :
    readHex (hexDigits width n) = some (n % 16 ^ width) := by
  induction width generalizing n with
  | zero => simp [readHex, hexDigits, Nat.mod_one]
  | succ width ih =>
      have hread : readHex (hexDigits width (n / 16) ++ [hexDigit n]) =
          (readHex (hexDigits width (n / 16))).bind fun m =>
            (hexValue (hexDigit n)).map fun d => 16 * m + d := by
        unfold readHex
        rw [List.foldlM_append]
        refine congrArg (Option.bind _) (funext fun m => ?_)
        rw [List.foldlM_cons]
        cases hexValue (hexDigit n) <;> rfl
      have hmod : n % 16 ^ (width + 1) = 16 * (n / 16 % 16 ^ width) + n % 16 := by
        rw [Nat.pow_succ, Nat.mul_comm, Nat.mod_mul]
        ring
      rw [hexDigits, hread, ih, (hexDigit_spec n).1, hmod]
      rfl

/-! ### Groups -/

/-- Characters in groups of the given sizes, with hyphens between them. -/
def hyphenate : List ℕ → List Char → List Char
  | [], cs => cs
  | n :: ns, cs => cs.take n ++ '-' :: hyphenate ns (cs.drop n)

theorem filter_hyphenate {ns : List ℕ} {cs : List Char} (h : '-' ∉ cs) :
    (hyphenate ns cs).filter (fun c => c ≠ '-') = cs := by
  induction ns generalizing cs with
  | nil => exact List.filter_eq_self.mpr fun c hc => decide_eq_true fun heq => h (heq ▸ hc)
  | cons n ns ih =>
      have hgroup : (cs.take n).filter (fun c => c ≠ '-') = cs.take n :=
        List.filter_eq_self.mpr fun c hc =>
          decide_eq_true fun heq => h (List.mem_of_mem_take (heq ▸ hc))
      rw [hyphenate, List.filter_append, List.filter_cons_of_neg (by simp), hgroup,
        ih fun hmem => h (List.mem_of_mem_drop hmem), List.take_append_drop]

end Rss
