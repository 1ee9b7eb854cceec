import Rss.Library.Base64
import Rss.Model.Contract.Cursor
import Rss.Verification.Contract.Grammar
import Rss.Verification.Contract.Versions

/-! # Spellings of page cursors

The canonical texts are the unpadded base64url of the byte strings that are not empty. -/

namespace Rss.Contract

/-! ### The alphabet -/

/-- The letters of base64url, in the order of their values. -/
def alphabet : List Char :=
  charRange 'A' 'Z' ++ charRange 'a' 'z' ++ charRange '0' '9' ++ ['-', '_']

def letter (v : ℕ) : Char := alphabet.getD v 'A'

/-- The unpadded base64url of a byte string. -/
def base64urlNoPad (bytes : List UInt8) : String :=
  String.ofList ((Base64.encode (bytes.map UInt8.toNat)).map letter)

/-- The bytes that a text of base64url spells, whatever its unused bits are. -/
def base64urlBytes (s : String) : Option (List UInt8) :=
  ((s.toList.mapM fun c => alphabet.idxOf? c).bind Base64.decode).map fun bs => bs.map UInt8.ofNat

/-- What holds of each of the letters. -/
theorem letter_spec : ∀ v < 64, base64urlValue (asciiByte (letter v)) = some (UInt8.ofNat v) ∧
    (letter v).toNat < 128 ∧ alphabet.idxOf? (letter v) = some v ∧
    (UInt8.ofNat v &&& 0x0f = 0 ↔ v % 16 = 0) ∧ (UInt8.ofNat v &&& 0x03 = 0 ↔ v % 4 = 0) := by
  decide

theorem base64urlValue_letter (v : ℕ) (h : v < 64) :
    base64urlValue (asciiByte (letter v)) = some (UInt8.ofNat v) := (letter_spec v h).1

theorem letter_lt (v : ℕ) (h : v < 64) : (letter v).toNat < 128 := (letter_spec v h).2.1

theorem idxOf?_letter (v : ℕ) (h : v < 64) : alphabet.idxOf? (letter v) = some v :=
  (letter_spec v h).2.2.1

set_option maxRecDepth 2000 in
/-- A byte with a value is the letter of the value. -/
theorem letter_of_base64urlValue : ∀ n < 256,
    (base64urlValue (UInt8.ofNat n)).all (fun w => w.toNat < 64 &&
      asciiByte (letter w.toNat) == UInt8.ofNat n) = true := by
  decide

theorem exists_letter {b : UInt8} (h : (base64urlValue b).isSome = true) :
    ∃ v < 64, asciiByte (letter v) = b := by
  obtain ⟨w, hw⟩ := Option.isSome_iff_exists.mp h
  have hall := letter_of_base64urlValue b.toNat b.toNat_lt
  rw [UInt8.ofNat_toNat, hw, Option.all_some, Bool.and_eq_true, decide_eq_true_eq, beq_iff_eq]
    at hall
  exact ⟨w.toNat, hall.1, hall.2⟩

/-! ### Words of letters -/

theorem utf8_letters {l : List ℕ} (h : ∀ v ∈ l, v < 64) :
    utf8 (String.ofList (l.map letter)) = l.map fun v => asciiByte (letter v) := by
  have hascii : ∀ c ∈ l.map letter, c.toNat < 128 := by
    intro c hc
    obtain ⟨v, hv, rfl⟩ := List.mem_map.mp hc
    exact letter_lt v (h v hv)
  rw [utf8, String.toList_ofList, flatMap_utf8EncodeChar_of_lt hascii, List.map_map]
  rfl

theorem getLast?_values {l : List ℕ} (h : ∀ v ∈ l, v < 64) :
    (l.map fun v => asciiByte (letter v)).getLast?.bind base64urlValue =
      l.getLast?.map UInt8.ofNat := by
  rw [List.getLast?_map]
  cases hlast : l.getLast? with
  | none => rfl
  | some v => exact base64urlValue_letter v (h v (List.mem_of_getLast? hlast))

/-- The check of the source, on a word of letters. -/
theorem canonicalBase64urlNoPad_letters {l : List ℕ} (h : ∀ v ∈ l, v < 64) :
    canonicalBase64urlNoPad (String.ofList (l.map letter)) = true ↔
      l ≠ [] ∧ Base64.Canonical l := by
  have hvalues : ((l.map fun v => asciiByte (letter v)).all
      fun b => (base64urlValue b).isSome) = true := by
    rw [List.all_eq_true]
    intro b hb
    obtain ⟨v, hv, rfl⟩ := List.mem_map.mp hb
    rw [base64urlValue_letter v (h v hv)]
    rfl
  have hlast : ∀ v ∈ l.getLast?, v < 64 := fun v hv => h v (List.mem_of_getLast? hv)
  unfold canonicalBase64urlNoPad trailingBits
  rw [utf8_letters h, Base64.canonical_eq]
  simp only [hvalues, getLast?_values h, List.length_map, List.isEmpty_map]
  cases hl : l.getLast? with
  | none =>
      rw [List.getLast?_eq_none_iff] at hl
      subst hl
      simp
  | some v =>
      have hne : l ≠ [] := fun hnil => by
        rw [hnil] at hl
        cases hl
      have hv := (letter_spec v (hlast v hl)).2.2.2
      simp only [Option.map_some, Option.any_some, hv.1, hv.2, Option.mem_def, Option.some.injEq,
        forall_eq', List.isEmpty_eq_false_iff.mpr hne]
      have hmod : l.length % 4 < 4 := Nat.mod_lt _ (by decide)
      interval_cases l.length % 4 <;> simp [hne]

theorem values_of_canonical {s : String} (h : canonicalBase64urlNoPad s = true) :
    ∀ b ∈ utf8 s, (base64urlValue b).isSome = true := by
  simp only [canonicalBase64urlNoPad] at h
  split at h
  · cases h
  · split at h
    · cases h
    · rename_i hall
      rw [Bool.not_eq_true', Bool.not_eq_false] at hall
      exact List.all_eq_true.mp hall

/-- A canonical text is a word of letters. -/
theorem exists_values {s : String} (h : canonicalBase64urlNoPad s = true) :
    ∃ l : List ℕ, (∀ v ∈ l, v < 64) ∧ s = String.ofList (l.map letter) := by
  have hbytes : ∀ b ∈ s.toList.flatMap String.utf8EncodeChar,
      ∃ v < 64, asciiByte (letter v) = b :=
    fun b hb => exists_letter (values_of_canonical h b hb)
  have hascii := lt_of_mem_flatMap_utf8EncodeChar s.toList fun b hb => by
    obtain ⟨v, hv, rfl⟩ := hbytes b hb
    rw [toNat_asciiByte (letter_lt v hv)]
    exact letter_lt v hv
  rw [flatMap_utf8EncodeChar_of_lt hascii] at hbytes
  have hletters : ∀ c ∈ s.toList, ∃ v < 64, letter v = c := by
    intro c hc
    obtain ⟨v, hv, heq⟩ := hbytes _ (List.mem_map_of_mem hc)
    exact ⟨v, hv, (asciiByte_eq_iff (letter_lt v hv) (hascii c hc)).mp heq⟩
  refine ⟨s.toList.map fun c => (alphabet.idxOf? c).getD 0, fun v hv => ?_, ?_⟩
  · obtain ⟨c, hc, rfl⟩ := List.mem_map.mp hv
    obtain ⟨w, hw, rfl⟩ := hletters c hc
    rw [idxOf?_letter w hw]
    exact hw
  · have hmap : s.toList.map (letter ∘ fun c => (alphabet.idxOf? c).getD 0) =
        s.toList.map fun c => c := by
      apply List.map_congr_left
      intro c hc
      obtain ⟨v, hv, rfl⟩ := hletters c hc
      rw [Function.comp_apply, idxOf?_letter v hv]
      rfl
    rw [List.map_map, hmap, List.map_id', String.ofList_toList]

/-! ### Byte strings -/

theorem toNat_lt_of_mem (bytes : List UInt8) : ∀ n ∈ bytes.map UInt8.toNat, n < 256 := by
  intro n hn
  obtain ⟨b, -, rfl⟩ := List.mem_map.mp hn
  exact b.toNat_lt

theorem map_ofNat_toNat (bytes : List UInt8) :
    (bytes.map UInt8.toNat).map UInt8.ofNat = bytes := by
  rw [List.map_map]
  exact List.map_id'' (fun b => UInt8.ofNat_toNat) bytes

theorem map_toNat_ofNat {l : List ℕ} (h : ∀ n ∈ l, n < 256) :
    (l.map UInt8.ofNat).map UInt8.toNat = l := by
  have hmap : l.map (UInt8.toNat ∘ UInt8.ofNat) = l.map fun n => n :=
    List.map_congr_left fun n hn => Nat.mod_eq_of_lt (h n hn)
  rw [List.map_map, hmap, List.map_id']

/-- The canonical texts are the base64url of the byte strings that are not empty. -/
theorem canonicalBase64urlNoPad_iff (s : String) :
    canonicalBase64urlNoPad s = true ↔ ∃ bytes ≠ [], s = base64urlNoPad bytes := by
  constructor
  · intro h
    obtain ⟨l, hl, rfl⟩ := exists_values h
    obtain ⟨hne, hcanonical⟩ := (canonicalBase64urlNoPad_letters hl).mp h
    obtain ⟨bs, hbs, rfl⟩ := (Base64.canonical_iff hl).mp hcanonical
    refine ⟨bs.map UInt8.ofNat, fun hnil => ?_, ?_⟩
    · rw [List.map_eq_nil_iff.mp hnil] at hne
      exact hne rfl
    · rw [base64urlNoPad, map_toNat_ofNat hbs]
  · intro h
    obtain ⟨bytes, hne, rfl⟩ := h
    refine (canonicalBase64urlNoPad_letters (Base64.encode_lt (toNat_lt_of_mem _))).mpr
      ⟨fun hnil => hne ?_, Base64.canonical_encode _⟩
    exact List.map_eq_nil_iff.mp (Base64.eq_nil_of_encode hnil)

theorem mapM_letters {l : List ℕ} (h : ∀ v ∈ l, v < 64) :
    (l.map letter).mapM (fun c => alphabet.idxOf? c) = some l := by
  induction l with
  | nil => rfl
  | cons v l ih =>
      rw [List.forall_mem_cons] at h
      rw [List.map_cons, List.mapM_cons, idxOf?_letter v h.1, ih h.2]
      rfl

theorem base64urlBytes_spelling (bytes : List UInt8) :
    base64urlBytes (base64urlNoPad bytes) = some bytes := by
  have hvalues := mapM_letters (Base64.encode_lt (toNat_lt_of_mem bytes))
  rw [base64urlBytes, base64urlNoPad, String.toList_ofList, hvalues, Option.bind_some,
    Base64.decode_encode (toNat_lt_of_mem _), Option.map_some, map_ofNat_toNat]

/-- Each byte string has one canonical spelling. -/
theorem existsUnique_spelling {bytes : List UInt8} (h : bytes ≠ []) :
    ∃! s, canonicalBase64urlNoPad s = true ∧ base64urlBytes s = some bytes := by
  refine ⟨base64urlNoPad bytes, ⟨(canonicalBase64urlNoPad_iff _).mpr ⟨bytes, h, rfl⟩,
    base64urlBytes_spelling bytes⟩, fun s hs => ?_⟩
  obtain ⟨others, -, rfl⟩ := (canonicalBase64urlNoPad_iff s).mp hs.1
  have heq := hs.2
  rw [base64urlBytes_spelling, Option.some.injEq] at heq
  rw [heq]

/-! ### One grammar -/

theorem ContractId.parse_iff (s : String) :
    (∃ id, ContractId.parse s = .ok id ∧ id.asStr = s) ↔ validateContractId s = .ok () := by
  constructor
  · intro h
    obtain ⟨id, -, rfl⟩ := h
    exact id.valid
  · intro h
    exact ⟨⟨s, h⟩, Checked.parse_asStr ⟨s, h⟩, rfl⟩

theorem parseStaticVersion_eq_some_text {s : String} {v : ContractVersion} :
    parseStaticVersion s = some v ↔ s = v.text :=
  ⟨text_of_parseStaticVersion, fun h => h ▸ parseStaticVersion_text v⟩

/-- Every parser of an identifier accepts the words of its grammar, and nothing else: contract ids
in the code and in the outbox, versions at run time and in constants, and page cursors. -/
theorem identifiers_have_one_grammar :
    (∀ s, ((∃ id, ContractId.parse s = .ok id ∧ id.asStr = s) ↔
        s.utf8ByteSize ≤ 255 ∧ s.toList ∈ contractIds) ∧
      (outboxContractId s = true ↔ s.utf8ByteSize ≤ 255 ∧ s.toList ∈ contractIds)) ∧
    (∀ s v, (ContractVersion.parse s = .ok v ↔ s = v.text) ∧
      (parseStaticVersion s = some v ↔ s = v.text)) ∧
    (∀ s, canonicalBase64urlNoPad s = true ↔ ∃ bytes ≠ [], s = base64urlNoPad bytes) ∧
    ∀ b bytes, ∃! s, canonicalBase64urlNoPad s = true ∧ base64urlBytes s = some (b :: bytes) := by
  refine ⟨fun s => ⟨?_, outboxContractId_iff s⟩, fun s v => ⟨ContractVersion.parse_eq_ok,
    parseStaticVersion_eq_some_text⟩, canonicalBase64urlNoPad_iff, fun b bytes => ?_⟩
  · rw [ContractId.parse_iff, validateContractId_iff]
  · exact existsUnique_spelling (List.cons_ne_nil b bytes)

end Rss.Contract
