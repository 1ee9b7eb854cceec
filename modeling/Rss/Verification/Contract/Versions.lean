import Rss.Verification.Contract.Grammar

/-! # Texts of contract versions

Both parsers accept the displayed versions, and nothing else. -/

namespace Rss.Contract

open Rss.Sql (natural? natural?_toDigits)

/-! ### Digits -/

theorem isDigit_of_bytes {s : String} (h : (utf8 s).all isAsciiDigit = true) :
    ∀ c ∈ s.toList, c.isDigit = true := by
  have hbytes : ∀ b ∈ s.toList.flatMap String.utf8EncodeChar, isAsciiDigit b = true :=
    List.all_eq_true.mp h
  have hascii := lt_of_mem_flatMap_utf8EncodeChar s.toList fun b hb => by
    have := isAsciiDigit_iff.mp (hbytes b hb)
    omega
  rw [flatMap_utf8EncodeChar_of_lt hascii] at hbytes
  intro c hc
  rw [← isAsciiDigit_asciiByte (hascii c hc)]
  exact hbytes _ (List.mem_map_of_mem hc)

theorem toDigits_isDigit {n : ℕ} {c : Char} (h : c ∈ Nat.toDigits 10 n) : c.isDigit = true :=
  Nat.isDigit_of_mem_toDigits (by decide) (by decide) h

theorem lt_of_isDigit {c : Char} (h : c.isDigit = true) : c.toNat < 128 := by
  have := isDigit_iff.mp h
  omega

/-! ### The parser -/

/-- What parses is the text of what it parses to. -/
theorem ContractVersion.text_of_parse {s : String} {v : ContractVersion} (h : parse s = .ok v) :
    s = v.text := by
  unfold parse at h
  simp only [bind_eq_ok, okOr_eq_ok] at h
  obtain ⟨digits, hstrip, h⟩ := h
  split at h
  · cases h
  · rename_i hvalid
    simp only [Bool.or_eq_true, decide_eq_true_eq, Bool.not_eq_true', not_or,
      Bool.not_eq_false] at hvalid
    obtain ⟨⟨hempty, hhead⟩, hdigits⟩ := hvalid
    have hall := isDigit_of_bytes hdigits
    have hne : digits.toList ≠ [] := fun hnil => hempty (by
      rw [← String.ofList_toList (s := digits), hnil])
    have hnat : natural? digits.toList = some (Nat.ofDigitChars 10 digits.toList 0) :=
      if_pos ⟨hne, List.all_eq_true.mpr hall⟩
    rw [hnat] at h
    simp only at h
    split at h
    · unfold fromMajor at h
      split at h
      · cases h
      · cases h
        rw [stripPrefix?_eq_some.mp hstrip, text, decimal]
        change _ = "v" ++ String.ofList (Nat.toDigits 10 (Nat.ofDigitChars 10 digits.toList 0))
        rw [(toDigits_ofDigitChars hall hne hhead).1, String.ofList_toList]
    · cases h

theorem ContractVersion.parse_eq_ok {s : String} {v : ContractVersion} :
    parse s = .ok v ↔ s = v.text :=
  ⟨text_of_parse, fun h => h ▸ v.parse_text⟩

/-! ### The constant parser -/

theorem le_ofDigitChars (cs : List Char) (m : ℕ) : m ≤ Nat.ofDigitChars 10 cs m := by
  induction cs generalizing m with
  | nil => rw [Nat.ofDigitChars_nil]
  | cons c cs ih =>
      rw [Nat.ofDigitChars_cons]
      exact Nat.le_trans (by omega) (ih _)

theorem staticMajor_digits {major k : ℕ} {bs : List UInt8} (h : staticMajor major bs = some k) :
    ∀ b ∈ bs, isAsciiDigit b = true := by
  induction bs generalizing major with
  | nil => simp
  | cons b bs ih =>
      unfold staticMajor at h
      split at h
      · cases h
      · rename_i hb
        split at h
        · cases h
        · exact List.forall_mem_cons.mpr ⟨by simpa using hb, ih h⟩

/-- The loop reads the number of the digits, unless it needs more than 32 bits. -/
theorem staticMajor_map {cs : List Char} (hall : ∀ c ∈ cs, c.isDigit = true) {major k : ℕ}
    (hmajor : major < 2 ^ 32) :
    staticMajor major (cs.map asciiByte) = some k ↔
      Nat.ofDigitChars 10 cs major = k ∧ k < 2 ^ 32 := by
  induction cs generalizing major with
  | nil =>
      rw [Nat.ofDigitChars_nil]
      simp only [List.map_nil, staticMajor, Option.some.injEq]
      exact ⟨fun h => ⟨h, h ▸ hmajor⟩, fun h => h.1⟩
  | cons c cs ih =>
      have hc := hall c List.mem_cons_self
      have hbounds := isDigit_iff.mp hc
      have hcs : ∀ d ∈ cs, d.isDigit = true := fun d hd => hall d (List.mem_cons_of_mem c hd)
      have hdigit : isAsciiDigit (asciiByte c) = true := by
        rw [isAsciiDigit_asciiByte (lt_of_isDigit hc), hc]
      have hvalue : (asciiByte c).toNat - 48 = c.toNat - '0'.toNat := by
        rw [toNat_asciiByte (lt_of_isDigit hc)]
        rfl
      have hzero : '0'.toNat = 48 := rfl
      rw [List.map_cons, Nat.ofDigitChars_cons, staticMajor, hdigit, hvalue]
      simp only [Bool.not_true, Bool.false_eq_true, if_false]
      split
      · rename_i hover
        have hle := le_ofDigitChars cs (10 * major + (c.toNat - '0'.toNat))
        refine iff_of_false (fun h => by cases h) fun h => ?_
        have hlt := h.1 ▸ h.2
        omega
      · rename_i hfits
        rw [Nat.mul_comm]
        exact ih hcs (by omega)

/-- A displayed version has the bytes of its characters. -/
theorem utf8_text (v : ContractVersion) :
    utf8 v.text = 118 :: (Nat.toDigits 10 v.major).map asciiByte := by
  have hlist : v.text.toList = 'v' :: Nat.toDigits 10 v.major := by
    have hdecimal : (decimal v.major).toList = Nat.toDigits 10 v.major := String.toList_ofList
    rw [ContractVersion.text, String.toList_append, hdecimal]
    rfl
  unfold utf8
  rw [hlist, flatMap_utf8EncodeChar_of_lt]
  · rfl
  · intro c hc
    rcases List.mem_cons.mp hc with rfl | hc
    · decide
    · exact lt_of_isDigit (toDigits_isDigit hc)

/-- The bytes that the assertions let through. -/
theorem parseStaticVersion_eq_some {s : String} {v : ContractVersion} :
    parseStaticVersion s = some v ↔ ∃ b bs, utf8 s = 118 :: b :: bs ∧ (bs = [] ∨ b ≠ 48) ∧
      staticMajor 0 (b :: bs) = some v.major := by
  unfold parseStaticVersion
  rcases utf8 s with _ | ⟨a, _ | ⟨b, bs⟩⟩
  · simp
  · simp
  · by_cases ha : a = 118
    · subst ha
      by_cases hzero : bs = [] ∨ b ≠ 48
      · have hguard : (decide (bs.length + 1 + 1 = 2) ||
            decide ((118 :: b :: bs)[1]? ≠ some 48)) = true := by
          rcases hzero with rfl | hb <;> simp [*]
        simp only [List.length_cons, List.head?_cons, List.drop_succ_cons, List.drop_zero, hguard]
        rw [if_neg (by simp), if_neg (by simp)]
        constructor
        · intro h
          obtain ⟨major, hmajor, h⟩ := Option.bind_eq_some_iff.mp h
          split at h
          · cases h
            exact ⟨b, bs, rfl, hzero, hmajor⟩
          · cases h
        · intro h
          obtain ⟨_, _, heq, -, hmajor⟩ := h
          cases heq
          rw [hmajor, Option.bind_some, dif_pos ⟨v.pos, v.range⟩]
      · obtain ⟨hbs, hb⟩ := not_or.mp hzero
        have hguard : (decide ((118 :: b :: bs).length = 2) ||
            decide ((118 :: b :: bs)[1]? ≠ some 48)) = false := by
          simp [hbs, not_not.mp hb]
        simp only [hguard, Bool.not_false, if_true, ite_self]
        refine iff_of_false (fun h => by cases h) fun h => ?_
        obtain ⟨_, _, heq, hor, -⟩ := h
        cases heq
        exact hzero hor
    · simp [ha]

theorem parseStaticVersion_text (v : ContractVersion) : parseStaticVersion v.text = some v := by
  obtain ⟨c, cs, hcs⟩ : ∃ c cs, Nat.toDigits 10 v.major = c :: cs :=
    List.exists_cons_of_ne_nil (toDigits_ne_nil v.major)
  have hall : ∀ d ∈ Nat.toDigits 10 v.major, d.isDigit = true := fun d hd => toDigits_isDigit hd
  have hmajor := (staticMajor_map hall (by decide)).mpr
    ⟨Nat.ofDigitChars_ten_toDigits, v.range⟩
  have hutf8 := utf8_text v
  rw [hcs, List.map_cons] at hmajor hutf8
  refine parseStaticVersion_eq_some.mpr ⟨_, _, hutf8, .inr fun heq => ?_, hmajor⟩
  have hc := hall c (hcs ▸ List.mem_cons_self)
  have hzero := (asciiByte_eq_iff (d := '0') (lt_of_isDigit hc) (by decide)).mp heq
  exact head?_toDigits_ne v.pos (by rw [hcs, hzero]; rfl)

theorem text_of_parseStaticVersion {s : String} {v : ContractVersion}
    (h : parseStaticVersion s = some v) : s = v.text := by
  obtain ⟨b, bs, hutf8, hzero, hmajor⟩ := parseStaticVersion_eq_some.mp h
  have hbytes : ∀ x ∈ utf8 s, x.toNat < 128 := by
    rw [hutf8, List.forall_mem_cons]
    refine ⟨by decide, fun x hx => ?_⟩
    have := isAsciiDigit_iff.mp (staticMajor_digits hmajor x hx)
    omega
  have hascii := lt_of_mem_flatMap_utf8EncodeChar s.toList hbytes
  unfold utf8 at hutf8
  rw [flatMap_utf8EncodeChar_of_lt hascii] at hutf8
  obtain ⟨a, cs, hlist, ha, hcs⟩ := List.map_eq_cons_iff.mp hutf8
  rw [hlist, List.forall_mem_cons] at hascii
  have hv : a = 'v' := (asciiByte_eq_iff (d := 'v') hascii.1 (by decide)).mp ha
  have hall : ∀ c ∈ cs, c.isDigit = true := fun c hc => by
    rw [← isAsciiDigit_asciiByte (hascii.2 c hc)]
    exact staticMajor_digits hmajor _ (hcs ▸ List.mem_map_of_mem hc)
  rw [← hcs] at hmajor
  obtain ⟨hnumber, -⟩ := (staticMajor_map hall (by decide)).mp hmajor
  have hne : cs ≠ [] := fun hnil => by
    rw [hnil] at hcs
    cases hcs
  have hhead : cs.head? ≠ some '0' := fun hhead => by
    obtain ⟨ds, rfl⟩ : ∃ ds, cs = '0' :: ds := by
      cases cs with
      | nil => cases hhead
      | cons c ds => exact ⟨ds, by rw [Option.some.inj hhead]⟩
    obtain ⟨hb, hbs⟩ := List.cons.inj hcs
    rcases hzero with hnil | hb'
    · rw [hnil] at hbs
      rw [List.map_eq_nil_iff.mp hbs] at hnumber
      have hpos := v.pos
      rw [← hnumber] at hpos
      exact absurd hpos (by decide)
    · exact hb' (hb.symm.trans (by decide))
  rw [← String.toList_inj, hlist, hv, ContractVersion.text, String.toList_append]
  have hdecimal : (decimal v.major).toList = Nat.toDigits 10 v.major := String.toList_ofList
  rw [hdecimal, ← hnumber, (toDigits_ofDigitChars hall hne hhead).1]
  rfl

end Rss.Contract
