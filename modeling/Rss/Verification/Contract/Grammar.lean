import Rss.Library.Ascii
import Rss.Model.Contract.Identity
import Rss.Model.Contract.Pattern
import Rss.Verification.Contract.Identity

/-! # The grammar of contract ids

One grammar for the identifiers, which the byte automaton and the pattern of the outbox both
recognise. -/

namespace Rss.Contract

open scoped Computability

/-! ### The grammar -/

def lower : Language Char := oneOf Char.isLower

def lowerOrDigit : Language Char := oneOf fun c => c.isLower || c.isDigit

def hyphen : Language Char := oneOf fun c => c = '-'

def dot : Language Char := oneOf fun c => c = '.'

/-- A letter and then letters or digits, each of them behind a hyphen or not. -/
def segment : Language Char := lower * (lowerOrDigit + hyphen * lowerOrDigit)∗

/-- At least two segments with dots between them. -/
def contractIds : Language Char := segment * (dot * segment) * (dot * segment)∗

/-! ### The automaton -/

/-- The automaton over any alphabet. -/
def dottedFrom {α : Type} [DecidableEq α] (lower alnum : α → Bool) (hyphen dot : α)
    (segmentStart dotted : Bool) : List α → Bool
  | [] => dotted && !segmentStart
  | a :: w =>
      if segmentStart then lower a && dottedFrom lower alnum hyphen dot false dotted w
      else if a = dot then dottedFrom lower alnum hyphen dot true true w
      else if a = hyphen then
        w.head?.any alnum && dottedFrom lower alnum hyphen dot false dotted w
      else alnum a && dottedFrom lower alnum hyphen dot false dotted w

/-- The automaton on characters. -/
def contractIdChars : Bool → Bool → List Char → Bool :=
  dottedFrom Char.isLower (fun c => c.isLower || c.isDigit) '-' '.'

/-- The rest of a word, from the start of a segment. -/
def starting (dotted : Bool) : Language Char := {cs | contractIdChars true dotted cs = true}

/-- The rest of a word, from within a segment. -/
def within (dotted : Bool) : Language Char := {cs | contractIdChars false dotted cs = true}

/-- The empty word, where the automaton may stop. -/
def stop (dotted : Bool) : Language Char := if dotted then 1 else 0

theorem starting_eq (dotted : Bool) : starting dotted = lower * within dotted := by
  refine Language.ext fun cs => ?_
  cases cs with
  | nil =>
      refine iff_of_false ?_ nil_notMem_oneOf_mul
      change ¬ contractIdChars true dotted [] = true
      simp [contractIdChars, dottedFrom]
  | cons c cs =>
      refine Iff.trans ?_ cons_mem_oneOf_mul.symm
      change contractIdChars true dotted (c :: cs) = true ↔ c.isLower = true ∧
        contractIdChars false dotted cs = true
      simp [contractIdChars, dottedFrom]

theorem nil_mem_stop {dotted : Bool} : [] ∈ stop dotted ↔ dotted = true := by
  cases dotted with
  | false => exact iff_of_false (Language.notMem_zero []) (by decide)
  | true => exact iff_of_true Language.nil_mem_one rfl

theorem cons_notMem_stop {dotted : Bool} {c : Char} {cs : List Char} : c :: cs ∉ stop dotted := by
  cases dotted with
  | false => exact Language.notMem_zero _
  | true => exact fun h => List.cons_ne_nil c cs ((Language.mem_one _).mp h)

/-- Within a segment the automaton reads a letter or a digit, perhaps behind a hyphen, starts the
next segment, or stops. -/
theorem within_eq (dotted : Bool) : within dotted =
    (lowerOrDigit + hyphen * lowerOrDigit) * within dotted + (dot * starting true + stop dotted) := by
  refine Language.ext fun cs => ?_
  rw [add_mul, mul_assoc, Language.mem_add, Language.mem_add, Language.mem_add]
  cases cs with
  | nil =>
      simp only [lowerOrDigit, hyphen, dot, nil_notMem_oneOf_mul, nil_mem_stop, false_or]
      change contractIdChars false dotted [] = true ↔ _
      simp [contractIdChars, dottedFrom]
  | cons c cs =>
      simp only [lowerOrDigit, hyphen, dot, cons_mem_oneOf_mul, cons_notMem_stop, or_false,
        decide_eq_true_eq]
      change contractIdChars false dotted (c :: cs) = true ↔
        ((c.isLower || c.isDigit) = true ∧ contractIdChars false dotted cs = true ∨
          c = '-' ∧ cs ∈ oneOf (fun c => c.isLower || c.isDigit) * within dotted) ∨
        c = '.' ∧ contractIdChars true true cs = true
      by_cases hdot : c = '.'
      · subst hdot
        simp [contractIdChars, dottedFrom]
      · by_cases hhyphen : c = '-'
        · subst hhyphen
          cases cs with
          | nil => simp [contractIdChars, dottedFrom, nil_notMem_oneOf_mul]
          | cons n cs =>
              rw [cons_mem_oneOf_mul]
              change _ ↔ (_ ∨ _ ∧ (n.isLower || n.isDigit) = true ∧
                contractIdChars false dotted cs = true) ∨ _
              by_cases hn : n = '-'
              · subst hn
                simp [contractIdChars, dottedFrom]
              · by_cases hn' : n = '.'
                · subst hn'
                  simp [contractIdChars, dottedFrom]
                · simp [contractIdChars, dottedFrom, hn, hn']
        · simp [contractIdChars, dottedFrom, hdot, hhyphen]

theorem nil_notMem_step : [] ∉ lowerOrDigit + hyphen * lowerOrDigit := by
  intro h
  rcases (Language.mem_add _ _ _).mp h with h | h
  · obtain ⟨c, -, heq⟩ := h
    cases heq
  · exact nil_notMem_oneOf_mul h

/-- A word from the start of a segment is a segment and what may follow it. -/
theorem starting_eq_segment (dotted : Bool) :
    starting dotted = segment * (dot * starting true + stop dotted) := by
  have hwithin := (Language.self_eq_mul_add_iff nil_notMem_step).mp (within_eq dotted)
  rw [starting_eq, hwithin, segment, mul_assoc]

theorem nil_notMem_segment_dot : [] ∉ segment * dot := by
  rw [segment, mul_assoc, lower]
  exact nil_notMem_oneOf_mul

/-- With a dot behind it, a word is one segment or more. -/
theorem starting_true : starting true = segment * (dot * segment)∗ := by
  have hstep : starting true = segment * dot * starting true + segment := by
    have h := starting_eq_segment true
    rw [mul_add, ← mul_assoc] at h
    change starting true = segment * dot * starting true + segment * 1 at h
    rwa [mul_one] at h
  rw [(Language.self_eq_mul_add_iff nil_notMem_segment_dot).mp hstep]
  exact kstar_mul_slide segment dot

/-- The automaton recognises the grammar. -/
theorem starting_false : starting false = contractIds := by
  have h := starting_eq_segment false
  rw [starting_true] at h
  change starting false = segment * (dot * (segment * (dot * segment)∗) + 0) at h
  rw [h, contractIds, add_zero]
  simp only [mul_assoc]

/-! ### The pattern -/

/-- A range lists the characters between its ends. -/
theorem mem_charRange {first last c : Char} (hfirst : first.toNat ≤ c.toNat)
    (hlast : c.toNat ≤ last.toNat) : c ∈ charRange first last := by
  refine List.mem_map.mpr ⟨c.toNat - first.toNat, List.mem_range.mpr (by omega), ?_⟩
  rw [Nat.add_sub_cancel' hfirst]
  exact Char.ofNat_toNat c

theorem isLower_iff {c : Char} : c.isLower = true ↔ 97 ≤ c.toNat ∧ c.toNat ≤ 122 := by
  delta Char.isLower
  simp only [Bool.and_eq_true, decide_eq_true_eq]
  exact Iff.rfl

theorem isDigit_iff {c : Char} : c.isDigit = true ↔ 48 ≤ c.toNat ∧ c.toNat ≤ 57 := by
  delta Char.isDigit
  simp only [Bool.and_eq_true, decide_eq_true_eq]
  exact Iff.rfl

theorem contains_letters (c : Char) : (charRange 'a' 'z').contains c = c.isLower := by
  rw [Bool.eq_iff_iff, List.contains_iff_mem]
  constructor
  · have hall : (charRange 'a' 'z').all Char.isLower = true := by decide
    exact List.all_eq_true.mp hall c
  · intro h
    obtain ⟨hlow, hhigh⟩ := isLower_iff.mp h
    exact mem_charRange hlow hhigh

theorem contains_digits (c : Char) : (charRange '0' '9').contains c = c.isDigit := by
  rw [Bool.eq_iff_iff, List.contains_iff_mem]
  constructor
  · have hall : (charRange '0' '9').all Char.isDigit = true := by decide
    exact List.all_eq_true.mp hall c
  · intro h
    obtain ⟨hlow, hhigh⟩ := isDigit_iff.mp h
    exact mem_charRange hlow hhigh

theorem letters_matches : letters.matches' = lower := by
  rw [letters, matches'_choiceOf, lower]
  exact congrArg oneOf (funext contains_letters)

theorem lettersAndDigits_matches : lettersAndDigits.matches' = lowerOrDigit := by
  rw [lettersAndDigits, matches'_choiceOf, lowerOrDigit]
  refine congrArg oneOf (funext fun c => ?_)
  rw [← contains_letters, ← contains_digits, Bool.eq_iff_iff]
  simp only [List.contains_iff_mem, List.mem_append, Bool.or_eq_true]

theorem char_matches (c : Char) : (RegularExpression.char c).matches' = oneOf fun d => d = c := by
  refine Language.ext fun w => ⟨fun h => ⟨c, by simp, h⟩, fun h => ?_⟩
  obtain ⟨d, hd, rfl⟩ := h
  rw [decide_eq_true_eq] at hd
  exact hd ▸ rfl

/-- The segments of the pattern are those of the grammar: a run of letters and digits after each
hyphen, or single ones. -/
theorem segmentPattern_matches : segmentPattern.matches' = segment := by
  have hhyphen : (RegularExpression.char '-').matches' = hyphen := char_matches '-'
  simp only [segmentPattern, oneOrMore, RegularExpression.matches'_mul,
    RegularExpression.matches'_star, letters_matches, lettersAndDigits_matches, hhyphen]
  rw [segment, kstar_add_eq, mul_assoc, mul_assoc hyphen]

theorem contractPattern_matches : contractPattern.matches' = contractIds := by
  have hdot : (RegularExpression.char '.').matches' = dot := char_matches '.'
  simp only [contractPattern, oneOrMore, RegularExpression.matches'_mul,
    RegularExpression.matches'_star, segmentPattern_matches, hdot]
  rw [contractIds]
  simp only [mul_assoc]

/-! ### The bytes of an identifier -/

theorem isAsciiLowercase_iff {b : UInt8} :
    isAsciiLowercase b = true ↔ 97 ≤ b.toNat ∧ b.toNat ≤ 122 := by
  simp only [isAsciiLowercase, Bool.and_eq_true, decide_eq_true_eq, UInt8.le_iff_toNat_le]
  exact Iff.rfl

theorem isAsciiDigit_iff {b : UInt8} : isAsciiDigit b = true ↔ 48 ≤ b.toNat ∧ b.toNat ≤ 57 := by
  simp only [isAsciiDigit, Bool.and_eq_true, decide_eq_true_eq, UInt8.le_iff_toNat_le]
  exact Iff.rfl

theorem isAsciiLowercase_asciiByte {c : Char} (h : c.toNat < 128) :
    isAsciiLowercase (asciiByte c) = c.isLower := by
  rw [Bool.eq_iff_iff, isAsciiLowercase_iff, isLower_iff, toNat_asciiByte h]

theorem isAsciiDigit_asciiByte {c : Char} (h : c.toNat < 128) :
    isAsciiDigit (asciiByte c) = c.isDigit := by
  rw [Bool.eq_iff_iff, isAsciiDigit_iff, isDigit_iff, toNat_asciiByte h]

theorem asciiByte_eq_iff {c d : Char} (hc : c.toNat < 128) (hd : d.toNat < 128) :
    asciiByte c = asciiByte d ↔ c = d := by
  constructor
  · intro h
    have hnat := congrArg UInt8.toNat h
    rw [toNat_asciiByte hc, toNat_asciiByte hd] at hnat
    exact Char.toNat_inj.mp hnat
  · intro h
    rw [h]

theorem contractIdFrom_eq (segmentStart dotted : Bool) (bs : List UInt8) :
    contractIdFrom segmentStart dotted bs = dottedFrom isAsciiLowercase
      (fun b => isAsciiLowercase b || isAsciiDigit b) 45 46 segmentStart dotted bs := by
  induction bs generalizing segmentStart dotted with
  | nil => rfl
  | cons b bs ih => simp only [contractIdFrom, dottedFrom, ih]

/-- The automaton accepts words of its classes only. -/
theorem letters_of_dottedFrom {α : Type} [DecidableEq α] {lower alnum : α → Bool} {hyphen dot : α}
    {segmentStart dotted : Bool} {w : List α}
    (h : dottedFrom lower alnum hyphen dot segmentStart dotted w = true) :
    ∀ a ∈ w, lower a = true ∨ alnum a = true ∨ a = hyphen ∨ a = dot := by
  induction w generalizing segmentStart dotted with
  | nil => simp
  | cons a w ih =>
      rw [List.forall_mem_cons]
      unfold dottedFrom at h
      split at h
      · obtain ⟨hlower, hrest⟩ := (Bool.and_eq_true _ _).mp h
        exact ⟨.inl hlower, ih hrest⟩
      · split at h
        · rename_i hdot
          exact ⟨.inr (.inr (.inr hdot)), ih h⟩
        · split at h
          · rename_i hhyphen
            exact ⟨.inr (.inr (.inl hhyphen)), ih ((Bool.and_eq_true _ _).mp h).2⟩
          · obtain ⟨halnum, hrest⟩ := (Bool.and_eq_true _ _).mp h
            exact ⟨.inr (.inl halnum), ih hrest⟩

theorem contractIdFrom_ascii {bs : List UInt8} {segmentStart dotted : Bool}
    (h : contractIdFrom segmentStart dotted bs = true) : ∀ b ∈ bs, b.toNat < 128 := by
  rw [contractIdFrom_eq] at h
  intro b hb
  rcases letters_of_dottedFrom h b hb with hlower | halnum | rfl | rfl
  · have := isAsciiLowercase_iff.mp hlower
    omega
  · rcases (Bool.or_eq_true _ _).mp halnum with hlower | hdigit
    · have := isAsciiLowercase_iff.mp hlower
      omega
    · have := isAsciiDigit_iff.mp hdigit
      omega
  · decide
  · decide

theorem contractIdChars_ascii {cs : List Char} {segmentStart dotted : Bool}
    (h : contractIdChars segmentStart dotted cs = true) : ∀ c ∈ cs, c.toNat < 128 := by
  intro c hc
  rcases letters_of_dottedFrom h c hc with hlower | halnum | rfl | rfl
  · have := isLower_iff.mp hlower
    omega
  · rcases (Bool.or_eq_true _ _).mp halnum with hlower | hdigit
    · have := isLower_iff.mp hlower
      omega
    · have := isDigit_iff.mp hdigit
      omega
  · decide
  · decide

/-- On ASCII the automaton of the source is the one on characters. -/
theorem contractIdFrom_map {cs : List Char} (h : ∀ c ∈ cs, c.toNat < 128)
    (segmentStart dotted : Bool) :
    contractIdFrom segmentStart dotted (cs.map asciiByte) =
      contractIdChars segmentStart dotted cs := by
  unfold contractIdChars
  induction cs generalizing segmentStart dotted with
  | nil => rfl
  | cons c cs ih =>
      have hc := h c List.mem_cons_self
      have hcs : ∀ d ∈ cs, d.toNat < 128 := fun d hd => h d (List.mem_cons_of_mem c hd)
      have hdot : (asciiByte c = 46) = (c = '.') :=
        propext (asciiByte_eq_iff (d := '.') hc (by decide))
      have hhyphen : (asciiByte c = 45) = (c = '-') :=
        propext (asciiByte_eq_iff (d := '-') hc (by decide))
      have hnext : (cs.map asciiByte).head?.any (fun n => isAsciiLowercase n || isAsciiDigit n) =
          cs.head?.any fun n => n.isLower || n.isDigit := by
        cases cs with
        | nil => rfl
        | cons n cs =>
            have hn := hcs n List.mem_cons_self
            simp [isAsciiLowercase_asciiByte hn, isAsciiDigit_asciiByte hn]
      simp only [List.map_cons, contractIdFrom, dottedFrom, ih hcs, hdot, hhyphen, hnext,
        isAsciiLowercase_asciiByte hc, isAsciiDigit_asciiByte hc]

/-- The bytes of a text pass the automaton when the text is a word of the grammar. -/
theorem contractIdFrom_utf8 (s : String) :
    contractIdFrom true false (utf8 s) = true ↔ s.toList ∈ contractIds := by
  rw [← starting_false]
  change _ ↔ contractIdChars true false s.toList = true
  unfold utf8
  constructor
  · intro h
    have hascii := lt_of_mem_flatMap_utf8EncodeChar _ (contractIdFrom_ascii h)
    rwa [flatMap_utf8EncodeChar_of_lt hascii, contractIdFrom_map hascii] at h
  · intro h
    have hascii := contractIdChars_ascii h
    rwa [flatMap_utf8EncodeChar_of_lt hascii, contractIdFrom_map hascii]

theorem nil_notMem_contractIds : [] ∉ contractIds := by
  rw [← starting_false]
  change ¬ contractIdChars true false [] = true
  decide

/-! ### Identifiers -/

/-- A contract id passes its check when it is a word of the grammar of at most 255 bytes. -/
theorem validateContractId_iff (s : String) :
    validateContractId s = .ok () ↔ s.utf8ByteSize ≤ 255 ∧ s.toList ∈ contractIds := by
  unfold validateContractId validContractId
  by_cases hempty : s = ""
  · subst hempty
    simp [nil_notMem_contractIds]
  · have hpos : 1 ≤ s.utf8ByteSize := by
      rw [Nat.one_le_iff_ne_zero, ne_eq, String.utf8ByteSize_eq_zero_iff]
      exact hempty
    rw [if_neg hempty]
    by_cases hlong : s.utf8ByteSize > 255
    · rw [if_pos hlong]
      exact iff_of_false (fun h => by cases h) fun h => absurd h.1 (Nat.not_le_of_gt hlong)
    · have hshort : s.utf8ByteSize ≤ 255 := Nat.le_of_not_gt hlong
      rw [if_neg hlong, ← contractIdFrom_utf8]
      cases contractIdFrom true false (utf8 s) <;> simp [hpos, hshort]

/-- So is a contract id that the outbox takes. -/
theorem outboxContractId_iff (s : String) :
    outboxContractId s = true ↔ s.utf8ByteSize ≤ 255 ∧ s.toList ∈ contractIds := by
  have hpattern : contractPattern.rmatch s.toList = true ↔ s.toList ∈ contractIds := by
    rw [RegularExpression.rmatch_iff_matches', contractPattern_matches]
  simp only [outboxContractId, Bool.not_eq_true', Bool.or_eq_false_iff, decide_eq_false_iff_not,
    Bool.not_eq_false', Nat.not_lt, gt_iff_lt, hpattern]

end Rss.Contract
