import Rss.Model.SagaPostgres.Store
import Rss.Model.SagaPostgres.Wire
import Rss.Verification.Saga.Reservation
import Mathlib.Tactic

/-! # Reading encoded values

What the SQL expressions evaluate to on the documents that the adapter binds. -/

namespace Rss.SagaPostgres

open Rss.Sql Rss.Saga

/-! ### Decimal patterns -/

theorem toDigits_head {n : ℕ} (h : 0 < n) :
    ∃ c cs, Nat.toDigits 10 n = c :: cs ∧ '1' ≤ c ∧ c ≤ '9' := by
  induction n using Nat.strong_induction_on with
  | _ n ih =>
      rw [Nat.toDigits_eq_if (by decide)]
      split
      · rename_i hlt
        have hall : ∀ n < 10, 0 < n → '1' ≤ Nat.digitChar n ∧ Nat.digitChar n ≤ '9' := by decide
        exact ⟨_, [], rfl, hall n hlt h⟩
      · obtain ⟨c, cs, hcs, hc⟩ := ih (n / 10) (by omega) (by omega)
        exact ⟨c, cs ++ [(n % 10).digitChar], by simp [hcs], hc⟩

/-- The pattern of positive numbers bounds the number of digits. -/
theorem positiveDigits_digits (k n : ℕ) :
    positiveDigits k (Json.digits n) = true ↔ 0 < n ∧ n < 10 ^ (k + 1) := by
  have hdigits : Json.digits n = Nat.toDigits 10 n := rfl
  rcases Nat.eq_zero_or_pos n with rfl | hpos
  · have hzero : Json.digits (0 : ℕ) = ['0'] := by decide
    rw [hzero]
    simp [positiveDigits]
  · obtain ⟨c, cs, hcs, hlow, hhigh⟩ := toDigits_head hpos
    have hall : ∀ d ∈ c :: cs, d.isDigit = true := fun d hd =>
      Nat.isDigit_of_mem_toDigits (b := 10) (n := n) (by decide) (by decide) (hcs ▸ hd)
    have hrest : cs.all Char.isDigit = true :=
      List.all_eq_true.mpr (fun d hd => hall d (List.mem_cons_of_mem _ hd))
    have hlen := Nat.length_toDigits_le_iff (b := 10) (n := n) (k := k + 1) (by decide) (by omega)
    rw [hcs, List.length_cons, Nat.add_le_add_iff_right] at hlen
    simp [hdigits, hcs, positiveDigits, hlow, hhigh, hrest, hpos, hlen]

theorem naturalDigits_digits (k n : ℕ) :
    naturalDigits k (Json.digits n) = true ↔ n < 10 ^ (k + 1) := by
  have hdigits : Json.digits n = Nat.toDigits 10 n := rfl
  rcases Nat.eq_zero_or_pos n with rfl | hpos
  · have hzero : Json.digits (0 : ℕ) = ['0'] := by decide
    rw [hzero]
    simp [naturalDigits]
  · obtain ⟨c, cs, hcs, hlow, -⟩ := toDigits_head hpos
    have hzero : Json.digits n ≠ ['0'] := by
      intro h
      rw [hdigits, hcs] at h
      rw [(List.cons.inj h).1] at hlow
      exact absurd hlow (by decide)
    simp [naturalDigits, hzero, positiveDigits_digits, hpos]

theorem digits_injective {m n : ℤ} (h : Json.digits m = Json.digits n) : m = n := by
  have := integer?_digits m
  rw [h, integer?_digits] at this
  exact (Option.some.inj this).symm

/-! ### Members -/

theorem bigint_num {j : Option Json} {key : String} {n : ℕ}
    (hj : member j key = some (encodeNat n)) (hn : n < 2 ^ 63) :
    bigint j key = .ok (some (n : ℤ)) := by
  have hr : ranged 64 (n : ℤ) = .ok (n : ℤ) := by
    refine ranged_eq_ok.mpr ⟨rfl, ?_, ?_⟩
    · norm_num
    · norm_num at hn ⊢
      omega
  rw [bigint, memberText, hj, Option.bind_some, encodeNat, castInteger_num, hr]
  rfl

theorem bigint_null {j : Option Json} {key : String} (hj : member j key = some .null) :
    bigint j key = .ok none := by
  rw [bigint, memberText, hj]
  rfl

theorem lt_of_bigint_num {j : Option Json} {key : String} {n : ℕ} {m : Option ℤ}
    (hj : member j key = some (encodeNat n)) (h : bigint j key = .ok m) :
    m = some (n : ℤ) ∧ n < 2 ^ 63 := by
  rw [bigint, memberText, hj, Option.bind_some, encodeNat, castInteger_num] at h
  obtain ⟨k, hk, h⟩ := bind_eq_ok.mp h
  obtain ⟨rfl, -, hlt⟩ := ranged_eq_ok.mp hk
  refine ⟨(Except.ok.inj h).symm, ?_⟩
  norm_num at hlt ⊢
  omega

theorem memberText_str {j : Option Json} {key s : String} (hj : member j key = some (.str s)) :
    memberText j key = some s := by
  rw [memberText, hj]
  rfl

/-! ### Charging a receipt -/

/-- Bounds that the charge puts on the coordinates of a receipt. -/
def CoordinatesOk (r : ProtectedReceipt) : Prop :=
  0 < r.attempt ∧ r.attempt < 2 ^ 32 ∧ r.seq < 2 ^ 63

theorem octets_renderItems_bytes_le (bs : List UInt8) :
    Json.octets (Json.renderItems (bs.map (fun b => encodeNat b.toNat))) ≤ 5 * bs.length := by
  have hbyte : ∀ b : UInt8, Json.octets (Json.digits (b.toNat : ℤ)) ≤ 3 := fun b =>
    Json.octets_digits_le (by decide) (by have := b.toNat_lt; norm_num at this ⊢; omega)
  induction bs with
  | nil => simp [Json.renderItems]
  | cons b bs ih =>
      have hb := hbyte b
      cases bs with
      | nil =>
          simp only [List.map_cons, List.map_nil, Json.renderItems, encodeNat, Json.render,
            List.length_singleton]
          omega
      | cons b' bs =>
          have hsep : Json.octets ", ".toList = 2 := by decide
          simp only [List.map_cons, List.length_cons] at ih ⊢
          simp only [Json.renderItems, Json.octets_append, hsep]
          simp only [encodeNat, Json.render] at ih ⊢
          omega

theorem octets_encodeBytes_le (bs : List UInt8) :
    Json.octets (encodeBytes bs).render ≤ 5 * bs.length + 2 := by
  have hmarks : '['.utf8Size = 1 ∧ ']'.utf8Size = 1 := by decide
  have := octets_renderItems_bytes_le bs
  simp only [encodeBytes, Json.render, List.cons_append, Json.octets_cons, Json.octets_append,
    Json.octets_nil, hmarks]
  omega

/-- The text of a receipt stays within what the charge allows for it. -/
theorem octets_receipt_le {r : ProtectedReceipt} (hf : r.format = 1) (hc : CoordinatesOk r) :
    Json.octets r.encode.render ≤
      1024 + 6 * (r.ciphertext.keyRef.utf8ByteSize + r.keyId.utf8ByteSize) +
        5 * (r.ciphertext.bytes.length + r.aad.length + r.digest.length) := by
  obtain ⟨-, ha, hs⟩ := hc
  have hkeyRef := Json.octets_quote_le r.ciphertext.keyRef
  have hkeyId := Json.octets_quote_le r.keyId
  have hbytes := octets_encodeBytes_le r.ciphertext.bytes
  have haad := octets_encodeBytes_le r.aad
  have hdigest := octets_encodeBytes_le r.digest
  have hattempt := Json.octets_digits_le (n := r.attempt) (k := 10) (by decide) (by omega)
  have hseq := Json.octets_digits_le (n := r.seq) (k := 19) (by decide) (by omega)
  have hformat : Json.octets (Json.digits (1 : ℕ)) = 1 := by decide
  have hkeys : ∀ key ∈ ["ciphertext", "key_ref", "bytes", "key_id", "digest", "aad", "format",
      "attempt", "seq"], Json.octets (Json.quote key) ≤ 12 := by decide
  have hmarks : Json.octets ": ".toList = 2 ∧ Json.octets ", ".toList = 2 ∧
      '\x7b'.utf8Size = 1 ∧ '\x7d'.utf8Size = 1 := by decide
  simp only [List.forall_mem_cons] at hkeys
  simp only [ProtectedReceipt.encode, Ciphertext.encode, Json.render, Json.renderFields,
    List.cons_append, Json.octets_append, Json.octets_cons, Json.octets_nil, hf, hmarks,
    encodeNat] at *
  omega

instance (r : ProtectedReceipt) : Decidable (CoordinatesOk r) :=
  inferInstanceAs (Decidable (_ ∧ _ ∧ _))

/-- The sizes that the charge accepts. -/
def SizesOk (r : ProtectedReceipt) : Prop :=
  (1 ≤ r.ciphertext.bytes.length ∧ r.ciphertext.bytes.length ≤ 2097152) ∧ r.aad.length ≤ 4096 ∧
    r.digest.length = 32 ∧
    (1 ≤ r.ciphertext.keyRef.utf8ByteSize ∧ r.ciphertext.keyRef.utf8ByteSize ≤ 1024) ∧
    1 ≤ r.keyId.utf8ByteSize ∧ r.keyId.utf8ByteSize ≤ 64

instance (r : ProtectedReceipt) : Decidable (SizesOk r) :=
  inferInstanceAs (Decidable (_ ∧ _ ∧ _ ∧ _ ∧ _))

theorem encodedBytes_eq_ok {r : ProtectedReceipt} {n : ℕ} : r.encodedBytes = .ok n ↔
    r.format = 1 ∧ SizesOk r ∧
      n = 1024 + 6 * (r.ciphertext.keyRef.utf8ByteSize + r.keyId.utf8ByteSize) +
        5 * (r.ciphertext.bytes.length + r.aad.length + r.digest.length) := by
  have hempty : ∀ s : String, s.isEmpty = true ↔ s.utf8ByteSize = 0 := by
    intro s
    rw [String.isEmpty_iff, String.utf8ByteSize_eq_zero_iff]
  have hnil : r.ciphertext.bytes.isEmpty = true ↔ r.ciphertext.bytes.length = 0 := by
    rw [List.isEmpty_iff, List.length_eq_zero_iff]
  simp only [ProtectedReceipt.encodedBytes, hempty, hnil, aadBytes, SizesOk]
  split
  · rename_i hbad
    simp only [reduceCtorEq, false_iff]
    omega
  · rename_i hok
    simp only [Except.ok.injEq]
    omega

theorem text_eq_one (n : ℕ) : (Json.toText (encodeNat n) = some "1") ↔ n = 1 := by
  have hone : "1" = String.ofList (Json.digits (1 : ℕ)) := by decide
  constructor
  · intro h
    rw [hone] at h
    have hd : Json.digits (n : ℤ) = Json.digits ((1 : ℕ) : ℤ) :=
      String.ofList_injective (Option.some.inj h)
    exact_mod_cast digits_injective hd
  · rintro rfl
    rw [hone]
    rfl

theorem outsideByte_encodeNat (b : UInt8) : outsideByte (encodeNat b.toNat) = false := by
  have hlt := b.toNat_lt
  have hnat : naturalDigits 2 (Json.digits (b.toNat : ℤ)) = true :=
    (naturalDigits_digits 2 b.toNat).mpr (by norm_num at hlt ⊢; omega)
  have hle : ¬ (255 : ℤ) < (b.toNat : ℤ) := by norm_num at hlt ⊢; omega
  simp [outsideByte, encodeNat, Json.typeof, Json.render, Json.exceeds, hnat, hle]

theorem equal_text_one (n : ℕ) :
    equal (Json.toText (encodeNat n)) (some "1") = some (decide (n = 1)) := by
  have htext : Json.toText (encodeNat n) = some (String.ofList (Json.digits n)) := rfl
  have hiff : String.ofList (Json.digits n) = "1" ↔ n = 1 := by
    rw [← text_eq_one n, htext, Option.some.injEq]
  rw [htext]
  simp only [equal, comparing, Option.bind_some, Option.map_some, hiff]

theorem coordinates_encode (r : ProtectedReceipt) :
    anyOf [.ok (unmatched (positiveDigits 9) (Json.toText (encodeNat r.attempt))),
        .ok (exceeds (some (encodeNat r.attempt)) 4294967295),
        .ok (unmatched (naturalDigits 18) (Json.toText (encodeNat r.seq))),
        .ok (exceeds (some (encodeNat r.seq)) 9223372036854775807)] =
      .ok (some (decide (¬ CoordinatesOk r))) := by
  have hpos := positiveDigits_digits 9 r.attempt
  have hnat := naturalDigits_digits 18 r.seq
  have htext : ∀ pattern (n : ℕ), unmatched pattern (Json.toText (encodeNat n)) =
      some (!pattern (Json.digits n)) := by
    intro pattern n
    simp [unmatched, encodeNat, Json.toText, Json.render]
  have hexceeds : ∀ (n : ℕ) (bound : ℤ), exceeds (some (encodeNat n)) bound =
      some (decide (bound < n)) := fun _ _ => rfl
  simp only [htext, hexceeds]
  refine (anyOf_some [_, _, _, _]).trans ?_
  congr 2
  rw [Bool.eq_iff_iff]
  simp only [List.any_cons, List.any_nil, id, Bool.or_eq_true, Bool.not_eq_true', decide_eq_true_eq,
    Bool.or_false, ← Bool.not_eq_true, hpos, hnat, CoordinatesOk]
  norm_num
  omega

theorem sizes_encode (r : ProtectedReceipt) :
    anyOf [.ok (notBetween (some (r.ciphertext.bytes.length : ℤ)) 1 2097152),
        .ok (less (some 4096) (some (r.aad.length : ℤ))),
        .ok (unequal (some (r.digest.length : ℤ)) (some 32)),
        .ok (notBetween (some (r.ciphertext.keyRef.utf8ByteSize : ℤ)) 1 1024),
        .ok (notBetween (some (r.keyId.utf8ByteSize : ℤ)) 1 64)] =
      .ok (some (decide (¬ SizesOk r))) := by
  refine (anyOf_some [decide _, decide _, decide _, decide _, decide _]).trans ?_
  congr 2
  rw [Bool.eq_iff_iff]
  simp only [List.any_cons, List.any_nil, id, Bool.or_eq_true, decide_eq_true_eq, Bool.or_false]
  unfold SizesOk
  omega

theorem shape_encode (r : ProtectedReceipt) :
    allOf [.ok (hasType (some r.encode) "object"),
      .ok (hasType (some r.ciphertext.encode) "object"),
      .ok (hasType (some (encodeBytes r.ciphertext.bytes)) "array"),
      .ok (hasType (some (encodeBytes r.aad)) "array"),
      .ok (hasType (some (encodeBytes r.digest)) "array"),
      .ok (hasType (some (.str r.ciphertext.keyRef)) "string"),
      .ok (hasType (some (.str r.keyId)) "string"),
      .ok (hasType (some (encodeNat r.format)) "number"),
      .ok (equal (Json.toText (encodeNat r.format)) (some "1")),
      .ok (hasType (some (encodeNat r.attempt)) "number"),
      .ok (hasType (some (encodeNat r.seq)) "number")] = .ok (some (decide (r.format = 1))) := by
  rw [equal_text_one]
  refine (allOf_some [true, true, true, true, true, true, true, true, _, true, true]).trans ?_
  simp

theorem checkEnvelope_encode {r : ProtectedReceipt} (hf : r.format = 1) (hc : CoordinatesOk r) :
    checkEnvelope (some r.encode) ((r.ciphertext.bytes.map (fun b => encodeNat b.toNat)) ++
        r.aad.map (fun b => encodeNat b.toNat) ++ r.digest.map (fun b => encodeNat b.toNat))
      (receiptCharge (some (r.ciphertext.keyRef.utf8ByteSize : ℤ)) (some (r.keyId.utf8ByteSize : ℤ))
        (some (r.ciphertext.bytes.length : ℤ)) (some (r.aad.length : ℤ))
        (some (r.digest.length : ℤ))) =
    .ok (some ((256 + (1024 + 6 * (r.ciphertext.keyRef.utf8ByteSize + r.keyId.utf8ByteSize) +
        5 * (r.ciphertext.bytes.length + r.aad.length + r.digest.length)) : ℕ) : ℤ)) := by
  have henvelope := octets_receipt_le hf hc
  have hbyte : ∀ bs : List UInt8, (bs.map (fun b => encodeNat b.toNat)).any outsideByte = false := by
    intro bs
    simp [outsideByte_encodeNat]
  have hcharge : receiptCharge (some (r.ciphertext.keyRef.utf8ByteSize : ℤ))
      (some (r.keyId.utf8ByteSize : ℤ)) (some (r.ciphertext.bytes.length : ℤ))
      (some (r.aad.length : ℤ)) (some (r.digest.length : ℤ)) =
      some ((256 + (1024 + 6 * (r.ciphertext.keyRef.utf8ByteSize + r.keyId.utf8ByteSize) +
        5 * (r.ciphertext.bytes.length + r.aad.length + r.digest.length)) : ℕ) : ℤ) := by
    simp only [receiptCharge, Option.bind_eq_bind, Option.bind_some, Option.pure_def,
      Option.some.injEq]
    push_cast
    ring
  rw [checkEnvelope, hcharge, if_neg, if_neg]
  · simp [hbyte]
  · simp only [less, comparing, Option.map_some, Option.bind_some, Option.some.injEq,
      decide_eq_true_eq]
    omega

theorem historyCharge_encode (r : ProtectedReceipt) : historyCharge (some r.encode) =
    if r.format ≠ 1 then raise "RS003" "saga receipt shape"
    else if ¬ CoordinatesOk r then raise "RS003" "saga receipt coordinates"
    else if ¬ SizesOk r then raise "RS003" "saga receipt bound"
    else .ok (some ((256 + (1024 + 6 * (r.ciphertext.keyRef.utf8ByteSize + r.keyId.utf8ByteSize) +
        5 * (r.ciphertext.bytes.length + r.aad.length + r.digest.length)) : ℕ) : ℤ)) := by
  have hne : ¬ (some r.encode = none ∨ some r.encode = some Json.null) := by
    simp [ProtectedReceipt.encode]
  have hlen : ∀ bs, arrayLength (some (encodeBytes bs)) = .ok (some (bs.length : ℤ)) := by
    intro bs
    simp [arrayLength, encodeBytes]
  have hitems : ∀ bs, arrayElements (some (encodeBytes bs)) =
      bs.map (fun b => encodeNat b.toNat) := fun _ => rfl
  have hct : member (some r.encode) "ciphertext" = some r.ciphertext.encode := rfl
  have hbytes : member (some r.ciphertext.encode) "bytes" =
    some (encodeBytes r.ciphertext.bytes) := rfl
  have haad : member (some r.encode) "aad" = some (encodeBytes r.aad) := rfl
  have hdigest : member (some r.encode) "digest" = some (encodeBytes r.digest) := rfl
  have hkeyRef : member (some r.ciphertext.encode) "key_ref" =
    some (.str r.ciphertext.keyRef) := rfl
  have hkeyId : member (some r.encode) "key_id" = some (.str r.keyId) := rfl
  have hformat : member (some r.encode) "format" = some (encodeNat r.format) := rfl
  have hattempt : member (some r.encode) "attempt" = some (encodeNat r.attempt) := rfl
  have hseq : member (some r.encode) "seq" = some (encodeNat r.seq) := rfl
  have htext : ∀ s : String, octetLength (Json.toText (.str s)) = some (s.utf8ByteSize : ℤ) :=
    fun _ => rfl
  simp only [historyCharge, if_neg hne, memberText, hct, hbytes, haad, hdigest, hkeyRef, hkeyId,
    hformat, hattempt, hseq, Option.bind_some, shape_encode, coordinates_encode, hlen, htext,
    sizes_encode, ok_bind, hitems]
  by_cases hf : r.format = 1
  · by_cases hc : CoordinatesOk r
    · by_cases hs : SizesOk r
      · simp only [hf, hc, hs, not_true, decide_false, ne_eq, if_false]
        simpa using checkEnvelope_encode hf hc
      · simp [hf, hc, hs]
    · simp [hf, hc]
  · simp [hf]
/-- A receipt is charged exactly when its size is accounted and its coordinates are in
range, and then by the same bytes. -/
theorem historyCharge_eq_ok {r : ProtectedReceipt} {x : Option ℤ} :
    historyCharge (some r.encode) = .ok x ↔
      ∃ n, r.encodedBytes = .ok n ∧ CoordinatesOk r ∧ x = some ((256 + n : ℕ) : ℤ) := by
  simp only [historyCharge_encode, encodedBytes_eq_ok]
  split
  · rename_i hf
    simp [raise, hf]
  · rename_i hf
    split
    · rename_i hc
      simp [raise, hc]
    · rename_i hc
      split
      · rename_i hs
        simp [raise, hs]
      · rename_i hs
        simp only [not_not] at hf hc hs
        simp only [Except.ok.injEq]
        constructor
        · rintro rfl
          exact ⟨_, ⟨hf, hs, rfl⟩, hc, rfl⟩
        · rintro ⟨n, ⟨-, -, rfl⟩, -, rfl⟩
          rfl

/-! ### Events -/

/-- The document reads as this event, its receipt through its two coordinates. -/
structure Denotes (j : Json) (e : Event) : Prop where
  kind : memberText (some j) "kind" = some e.kind.text
  step : bigint (some j) "step" = .ok (some (e.step : ℤ))
  attempt : bigint (some j) "attempt" = .ok (some (e.attempt : ℤ))
  seq : bigint (some j) "seq" = .ok (some (e.seq : ℤ))
  hasReceipt : hasReceipt (some j) = e.receipt.isSome
  receiptSeq : ∀ r ∈ e.receipt,
    bigint (member (some j) "receipt") "seq" = .ok (some (r.seq : ℤ))
  receiptAttempt : ∀ r ∈ e.receipt,
    bigint (member (some j) "receipt") "attempt" = .ok (some (r.attempt : ℤ))

theorem denotes_encode {e : Event} (hs : e.step < 2 ^ 63) (ha : e.attempt < 2 ^ 63)
    (hq : e.seq < 2 ^ 63)
    (hr : ∀ r ∈ e.receipt, r.attempt < 2 ^ 63 ∧ r.seq < 2 ^ 63) : Denotes e.encode e := by
  have hmem : member (some e.encode) "receipt" =
      some (encodeOption ProtectedReceipt.encode e.receipt) := rfl
  refine ⟨memberText_str rfl, bigint_num rfl hs, bigint_num rfl ha, bigint_num rfl hq, ?_, ?_, ?_⟩
  · cases h : e.receipt <;> simp [SagaPostgres.hasReceipt, hmem, h, encodeOption, ProtectedReceipt.encode]
  · intro r h
    rw [hmem, Option.mem_def.mp h]
    exact bigint_num rfl (hr r h).2
  · intro r h
    rw [hmem, Option.mem_def.mp h]
    exact bigint_num rfl (hr r h).1

/-! ### Progress -/

/-- Ranges of the stored counters. -/
structure Ranged (p : Progress) : Prop where
  forward : p.forward ≤ 1024
  forwardAttempt : p.forwardAttempt < 2 ^ 32
  forwardFailures : p.forwardFailures < 2 ^ 32
  compensation : ∀ c ∈ p.compensation, c < 1024
  compensationAttempt : p.compensationAttempt < 2 ^ 32

/-- The variables a projection is read into. -/
def varsOf (p : Progress) : Vars where
  state := some p.status.text
  f := some p.forward
  fa := some p.forwardAttempt
  ff := some p.forwardFailures
  c := p.compensation.map (fun c : ℕ => (c : ℤ))
  ca := some p.compensationAttempt
  pending := some (encodeOption Intent.encode p.pending)

theorem bigint_compensation {p : Progress} (h : Ranged p) :
    bigint (some p.encode) "compensation" = .ok (p.compensation.map (fun c : ℕ => (c : ℤ))) := by
  have hmem : member (some p.encode) "compensation" =
      some (encodeOption encodeNat p.compensation) := rfl
  cases hc : p.compensation with
  | none => exact bigint_null (by rw [hmem, hc]; rfl)
  | some c =>
      have := h.compensation c hc
      exact bigint_num (by rw [hmem, hc]; rfl) (by omega)

theorem read_encode {p : Progress} (h : Ranged p) :
    Vars.read (some p.encode) = .ok (varsOf p) := by
  have hc := bigint_compensation h
  obtain ⟨hf, hfa, hff, -, hca⟩ := h
  simp only [Vars.read, hc,
    @bigint_num (some p.encode) "forward" _ rfl (by omega : p.forward < 2 ^ 63),
    @bigint_num (some p.encode) "forwardAttempt" _ rfl
      (by omega : p.forwardAttempt < 2 ^ 63),
    @bigint_num (some p.encode) "forwardFailures" _ rfl
      (by omega : p.forwardFailures < 2 ^ 63),
    @bigint_num (some p.encode) "compensationAttempt" _ rfl
      (by omega : p.compensationAttempt < 2 ^ 63), ok_bind]
  rfl

theorem memberText_lastKind (p : Progress) :
    memberText (some p.encode) "lastKind" = p.lastKind.map EventKind.text := by
  have hmem : member (some p.encode) "lastKind" =
      some (encodeOption (fun k => .str k.text) p.lastKind) := rfl
  rw [memberText, hmem]
  cases p.lastKind <;> rfl

/-! ### Definitions -/

theorem arrayLength_steps (d : Definition) :
    arrayLength (member (some d.encode) "steps") = .ok (some (d.steps.length : ℤ)) := by
  have hmem : member (some d.encode) "steps" = some (.arr (d.steps.map StepSpec.encode)) := rfl
  simp [hmem, arrayLength]

theorem maxFailures_encode {d : Definition} {s : ℕ} (hd : d.Valid) (hs : s < d.steps.length) :
    maxFailures (some d.encode) (some (s : ℤ)) = .ok (some (d.maxFailures s : ℤ)) := by
  have hlen := hd.length_le
  have hmem : member (some d.encode) "steps" = some (.arr (d.steps.map StepSpec.encode)) := rfl
  have hranged : ranged 32 (s : ℤ) = .ok (s : ℤ) := by
    refine ranged_eq_ok.mpr ⟨rfl, ?_, ?_⟩
    · norm_num
    · norm_num
      omega
  have helem : element (member (some d.encode) "steps") (some (s : ℤ)) =
      some (d.steps[s].encode) := by
    rw [hmem]
    simp [element, Json.item?, hs]
  have hmax : d.maxFailures s = d.steps[s].maxFailures.toNat := by
    simp [Definition.maxFailures, hs]
  have hlt := d.steps[s].maxFailures.toNat_lt
  rw [hmax]
  simp only [maxFailures, hranged, ok_bind]
  exact bigint_num (by rw [helem]; rfl) (by omega)

end Rss.SagaPostgres
