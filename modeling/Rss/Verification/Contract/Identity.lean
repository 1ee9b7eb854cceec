import Mathlib.Data.List.Induction
import Mathlib.Tactic.IntervalCases
import Rss.Model.Contract.Identity

/-! # Texts of contract identities

Each identifier is read back from its own text, and from no other. -/

namespace Rss.Contract

open Rss.Sql (natural? natural?_toDigits)

/-! ### Prefixes -/

theorem isPrefixOf?_eq_some {α : Type} [BEq α] [LawfulBEq α] {p l rest : List α} :
    p.isPrefixOf? l = some rest ↔ l = p ++ rest := by
  induction p generalizing l with
  | nil => simp [List.isPrefixOf?, eq_comm]
  | cons a p ih =>
      cases l with
      | nil => simp [List.isPrefixOf?]
      | cons b l =>
          by_cases hab : a = b
          · simp [List.isPrefixOf?, hab, ih]
          · simp [List.isPrefixOf?, hab, Ne.symm hab]

theorem stripPrefix?_eq_some {p s rest : String} :
    stripPrefix? p s = some rest ↔ s = p ++ rest := by
  unfold stripPrefix?
  rw [Option.map_eq_some_iff, ← String.toList_inj, String.toList_append]
  constructor
  · intro h
    obtain ⟨l, hl, rfl⟩ := h
    rw [isPrefixOf?_eq_some.mp hl, String.toList_ofList]
  · intro h
    exact ⟨rest.toList, isPrefixOf?_eq_some.mpr h, String.ofList_toList⟩

@[simp] theorem stripPrefix?_append (p s : String) : stripPrefix? p (p ++ s) = some s :=
  stripPrefix?_eq_some.mpr rfl

/-! ### Numbers -/

theorem signed?_digits {n : ℤ} (hn : 0 ≤ n) : signed? (Json.digits n) = some n := by
  obtain ⟨k, rfl⟩ := Int.eq_ofNat_of_zero_le hn
  have hsign : ∀ cs c, Json.digits (k : ℤ) = c :: cs → c.isDigit = true := fun cs c h => by
    have hdigits : Nat.toDigits 10 k = c :: cs := h
    exact Nat.isDigit_of_mem_toDigits (b := 10) (n := k) (by decide) (by decide) (by simp [hdigits])
  have hdigits : natural? (Json.digits (k : ℤ)) = some k := natural?_toDigits k
  unfold signed?
  split
  · rename_i cs h
    exact absurd (hsign _ _ h) (by decide)
  · rename_i cs h
    exact absurd (hsign _ _ h) (by decide)
  · rw [hdigits]
    rfl

theorem parseI64_decimal {n : ℤ} (hn : 0 ≤ n) (hlt : n < 2 ^ 63) :
    parseI64 (decimal n) = some n := by
  unfold parseI64 decimal
  rw [String.toList_ofList, signed?_digits hn]
  have hrange : decide (-2 ^ 63 ≤ n ∧ n < 2 ^ 63) = true := decide_eq_true ⟨by omega, hlt⟩
  exact Option.filter_some_pos hrange

theorem Timepoint.tryFrom_unixSeconds (t : Timepoint) : tryFrom t.unixSeconds = some t := by
  unfold tryFrom
  rw [dif_pos ⟨t.nonneg, t.range⟩]

/-- The time of a message is read back from its decimal text. -/
theorem Timepoint.parse_decimal (t : Timepoint) :
    (parseI64 (decimal t.unixSeconds)).bind tryFrom = some t := by
  rw [parseI64_decimal t.nonneg t.range]
  exact t.tryFrom_unixSeconds

theorem toDigits_ne_nil (n : ℕ) : Nat.toDigits 10 n ≠ [] := by
  rw [Nat.toDigits_eq_if (by decide)]
  split <;> simp

theorem decimal_ne (n : ℕ) : decimal n ≠ "" := by
  intro h
  have hlist := congrArg String.toList h
  rw [decimal, String.toList_ofList] at hlist
  exact toDigits_ne_nil n hlist

/-- A positive number has no leading zero. -/
theorem head?_toDigits_ne {n : ℕ} (hn : 0 < n) : (Nat.toDigits 10 n).head? ≠ some '0' := by
  induction n using Nat.strongRecOn with
  | ind n ih =>
      rw [Nat.toDigits_eq_if (by decide)]
      split
      · rename_i hlt
        interval_cases n <;> decide
      · rename_i hle
        rw [List.head?_append_of_ne_nil _ (toDigits_ne_nil _)]
        exact ih (n / 10) (by omega) (by omega)

/-! ### Checked texts -/

@[simp] theorem Checked.parse_asStr {ε : Type} {check : String → Except ε Unit}
    (t : Checked check) : Checked.parse check t.asStr = .ok t := by
  obtain ⟨value, valid⟩ := t
  unfold Checked.parse
  split
  · rfl
  · rename_i e h
    rw [valid] at h
    cases h

/-! ### Canonical digits -/

theorem exists_digitChar {c : Char} (h : c.isDigit = true) :
    ∃ n < 10, c = Nat.digitChar n ∧ c.toNat - '0'.toNat = n := by
  have hbounds : 48 ≤ c.toNat ∧ c.toNat ≤ 57 := by
    simp only [Char.isDigit, Bool.and_eq_true, decide_eq_true_eq] at h
    exact ⟨h.1, h.2⟩
  have hzero : '0'.toNat = 48 := rfl
  refine ⟨c.toNat - 48, by omega, ?_, by rw [hzero]⟩
  have hchar : c = Char.ofNat c.toNat := (Char.ofNat_toNat c).symm
  obtain ⟨k, hk⟩ : ∃ k, k = c.toNat := ⟨_, rfl⟩
  rw [← hk] at hchar hbounds ⊢
  rw [hchar]
  obtain ⟨hlow, hhigh⟩ := hbounds
  interval_cases k <;> rfl

/-- Digits without a leading zero are those of their number. -/
theorem toDigits_ofDigitChars {cs : List Char} (hall : ∀ c ∈ cs, c.isDigit = true)
    (hne : cs ≠ []) (hhead : cs.head? ≠ some '0') :
    Nat.toDigits 10 (Nat.ofDigitChars 10 cs 0) = cs ∧ 0 < Nat.ofDigitChars 10 cs 0 := by
  induction cs using List.reverseRecOn with
  | nil => exact absurd rfl hne
  | append_singleton ds c ih =>
      obtain ⟨n, hn, hc, hvalue⟩ := exists_digitChar (hall c (by simp))
      rw [Nat.ofDigitChars_append, Nat.ofDigitChars_cons, Nat.ofDigitChars_nil, hvalue]
      cases hds : ds with
      | nil =>
          have hpos : n ≠ 0 := by
            intro hzero
            subst hzero
            rw [hds, hc] at hhead
            exact hhead rfl
          rw [Nat.ofDigitChars_nil, Nat.mul_zero, Nat.zero_add, Nat.toDigits_of_lt_base hn, hc]
          exact ⟨rfl, Nat.pos_of_ne_zero hpos⟩
      | cons d ds' =>
          have hdigits := ih (fun x hx => hall x (List.mem_append_left _ hx)) (by simp [hds])
            (by rw [hds] at hhead ⊢; exact hhead)
          rw [← hds, ← Nat.toDigits_append_toDigits (by decide) hdigits.2 hn, hdigits.1,
            Nat.toDigits_of_lt_base hn, hc]
          exact ⟨rfl, by omega⟩

/-! ### Contracts -/

theorem validateContractId_ne {raw : String} (h : validateContractId raw = .ok ()) : raw ≠ "" := by
  intro hempty
  simp [validateContractId, hempty] at h

theorem validateSchemaDigest_ne {raw : String} (h : validateSchemaDigest raw = .ok ()) :
    raw ≠ "" := by
  intro hempty
  subst hempty
  exact absurd h (by decide)

/-! ### Versions -/

theorem isAsciiDigit_of_isDigit {c : Char} (h : c.isDigit = true) :
    (String.utf8EncodeChar c).all isAsciiDigit = true := by
  have hone : c.utf8Size = 1 := Json.utf8Size_of_isDigit h
  have hbounds : 48 ≤ c.toNat ∧ c.toNat ≤ 57 := by
    simp only [Char.isDigit, Bool.and_eq_true, decide_eq_true_eq] at h
    exact ⟨h.1, h.2⟩
  rw [String.utf8EncodeChar_eq_singleton hone]
  simp only [List.all_cons, List.all_nil, Bool.and_true, isAsciiDigit, Bool.and_eq_true,
    decide_eq_true_eq, UInt8.le_iff_toNat_le]
  have hbyte : c.val.toUInt8.toNat = c.toNat := by
    rw [UInt32.toNat_toUInt8]
    exact Nat.mod_eq_of_lt (by change c.toNat < 256; omega)
  rw [hbyte]
  exact hbounds

theorem ContractVersion.text_ne (v : ContractVersion) : v.text ≠ "" := by
  intro h
  have hlist := congrArg String.toList h
  simp [ContractVersion.text] at hlist

theorem ContractVersion.parse_text (v : ContractVersion) : parse v.text = .ok v := by
  have hlist : (decimal v.major).toList = Nat.toDigits 10 v.major := String.toList_ofList
  have hall : (utf8 (decimal v.major)).all isAsciiDigit = true := by
    unfold utf8
    rw [hlist, List.all_flatMap, List.all_eq_true]
    intro c hc
    exact isAsciiDigit_of_isDigit (Nat.isDigit_of_mem_toDigits (by decide) (by decide) hc)
  have hhead : (decimal v.major).toList.head? ≠ some '0' := hlist ▸ head?_toDigits_ne v.pos
  have hnat : natural? (decimal v.major).toList = some v.major := hlist ▸ natural?_toDigits v.major
  unfold parse ContractVersion.text
  simp only [stripPrefix?_append, okOr_some, ok_bind, decimal_ne, hhead, hall, hnat, decide_false,
    Bool.not_true, Bool.or_false, Bool.false_eq_true, if_false]
  rw [dif_pos v.range, fromMajor, dif_neg (Nat.ne_of_gt v.pos)]

end Rss.Contract
