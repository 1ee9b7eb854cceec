import Mathlib.Data.Nat.Notation

/-! # Groups of base64

Bytes as letters of six bits and back. Three bytes are four letters; one or two bytes at the end
are two or three, whose unused bits are zero in the canonical spelling. -/

namespace Rss.Base64

/-- The letters of a byte string. -/
def encode : List ℕ → List ℕ
  | [] => []
  | [a] => [a / 4, a % 4 * 16]
  | [a, b] => [a / 4, a % 4 * 16 + b / 16, b % 16 * 4]
  | a :: b :: c :: bs =>
      a / 4 :: (a % 4 * 16 + b / 16) :: (b % 16 * 4 + c / 64) :: c % 64 :: encode bs

/-- The bytes of a word of letters, whatever its unused bits are. -/
def decode : List ℕ → Option (List ℕ)
  | [] => some []
  | [_] => none
  | [x, y] => some [x * 4 + y / 16]
  | [x, y, z] => some [x * 4 + y / 16, y % 16 * 16 + z / 4]
  | x :: y :: z :: w :: l =>
      (decode l).map fun bs => (x * 4 + y / 16) :: (y % 16 * 16 + z / 4) :: (z % 4 * 64 + w) :: bs

/-- The unused bits of a word are zero, and no letter is left over. -/
def Canonical : List ℕ → Prop
  | [] => True
  | [_] => False
  | [_, y] => y % 16 = 0
  | [_, _, z] => z % 4 = 0
  | _ :: _ :: _ :: _ :: l => Canonical l

theorem decode_encode {bs : List ℕ} (h : ∀ b ∈ bs, b < 256) : decode (encode bs) = some bs := by
  fun_induction encode bs with
  | case1 => rfl
  | case2 a =>
      have ha := h a (by simp)
      simp only [decode, Option.some.injEq, List.cons.injEq, and_true]
      omega
  | case3 a b =>
      have ha := h a (by simp)
      have hb := h b (by simp)
      simp only [decode, Option.some.injEq, List.cons.injEq, and_true]
      omega
  | case4 a b c bs ih =>
      have ha := h a (by simp)
      have hb := h b (by simp)
      have hc := h c (by simp)
      have hrest := ih fun x hx => h x (by simp [hx])
      simp only [decode, hrest, Option.map_some, Option.some.injEq, List.cons.injEq, and_true]
      omega

theorem eq_nil_of_encode {bs : List ℕ} (h : encode bs = []) : bs = [] := by
  cases bs using encode.fun_cases with
  | case1 => rfl
  | case2 a => cases h
  | case3 a b => cases h
  | case4 a b c bs => cases h

theorem canonical_encode (bs : List ℕ) : Canonical (encode bs) := by
  fun_induction encode bs with
  | case1 => trivial
  | case2 a => exact Nat.mul_mod_left _ _
  | case3 a b => exact Nat.mul_mod_left _ _
  | case4 a b c bs ih => exact ih

theorem encode_lt {bs : List ℕ} (h : ∀ b ∈ bs, b < 256) : ∀ x ∈ encode bs, x < 64 := by
  fun_induction encode bs with
  | case1 => simp
  | case2 a =>
      have ha := h a (by simp)
      simp only [List.forall_mem_cons, List.not_mem_nil, false_implies, implies_true, and_true]
      omega
  | case3 a b =>
      have ha := h a (by simp)
      have hb := h b (by simp)
      simp only [List.forall_mem_cons, List.not_mem_nil, false_implies, implies_true, and_true]
      omega
  | case4 a b c bs ih =>
      have ha := h a (by simp)
      have hb := h b (by simp)
      have hc := h c (by simp)
      have hrest := ih fun x hx => h x (by simp [hx])
      simp only [List.forall_mem_cons]
      exact ⟨by omega, by omega, by omega, by omega, hrest⟩

/-- A canonical word is the spelling of the bytes it decodes to. -/
theorem encode_of_decode {l bs : List ℕ} (h : ∀ x ∈ l, x < 64) (hl : Canonical l)
    (hdecode : decode l = some bs) : encode bs = l ∧ ∀ b ∈ bs, b < 256 := by
  fun_induction decode l generalizing bs with
  | case1 =>
      cases hdecode
      exact ⟨rfl, by simp⟩
  | case2 x => cases hdecode
  | case3 x y =>
      cases hdecode
      have hx := h x (by simp)
      have hy := h y (by simp)
      simp only [Canonical] at hl
      simp only [encode, List.cons.injEq, and_true, List.forall_mem_cons, List.not_mem_nil,
        false_implies, implies_true]
      omega
  | case4 x y z =>
      cases hdecode
      have hx := h x (by simp)
      have hy := h y (by simp)
      have hz := h z (by simp)
      simp only [Canonical] at hl
      simp only [encode, List.cons.injEq, and_true, List.forall_mem_cons, List.not_mem_nil,
        false_implies, implies_true]
      omega
  | case5 x y z w l ih =>
      obtain ⟨rest, hrest, rfl⟩ := Option.map_eq_some_iff.mp hdecode
      have hx := h x (by simp)
      have hy := h y (by simp)
      have hz := h z (by simp)
      have hw := h w (by simp)
      obtain ⟨htail, hbytes⟩ := ih (fun v hv => h v (by simp [hv])) hl hrest
      simp only [encode, List.cons.injEq, htail, and_true, List.forall_mem_cons]
      exact ⟨by omega, by omega, by omega, by omega, hbytes⟩

theorem exists_decode {l : List ℕ} (hl : Canonical l) : ∃ bs, decode l = some bs := by
  fun_induction decode l with
  | case1 => exact ⟨[], rfl⟩
  | case2 x => exact hl.elim
  | case3 x y => exact ⟨_, rfl⟩
  | case4 x y z => exact ⟨_, rfl⟩
  | case5 x y z w l ih =>
      obtain ⟨rest, hrest⟩ := ih hl
      exact ⟨_, by rw [hrest]; rfl⟩

/-- The canonical words are the spellings of the byte strings. -/
theorem canonical_iff {l : List ℕ} (h : ∀ x ∈ l, x < 64) :
    Canonical l ↔ ∃ bs : List ℕ, (∀ b ∈ bs, b < 256) ∧ l = encode bs := by
  constructor
  · intro hl
    obtain ⟨bs, hdecode⟩ := exists_decode hl
    obtain ⟨hencode, hbytes⟩ := encode_of_decode h hl hdecode
    exact ⟨bs, hbytes, hencode.symm⟩
  · intro hex
    obtain ⟨bs, -, rfl⟩ := hex
    exact canonical_encode bs

/-- Canonical words are those whose length and last letter are right. -/
theorem canonical_eq (l : List ℕ) : Canonical l ↔ l.length % 4 ≠ 1 ∧
    (l.length % 4 = 2 → ∀ x ∈ l.getLast?, x % 16 = 0) ∧
    (l.length % 4 = 3 → ∀ x ∈ l.getLast?, x % 4 = 0) := by
  fun_induction Canonical l with
  | case1 => simp
  | case2 x => simp
  | case3 x y => simp
  | case4 x y z => simp
  | case5 x y z w l ih =>
      rw [ih]
      have hlength : (x :: y :: z :: w :: l).length % 4 = l.length % 4 := by
        simp only [List.length_cons]
        omega
      rw [hlength]
      cases l with
      | nil => simp
      | cons v l => simp [List.getLast?_cons_cons]

end Rss.Base64
