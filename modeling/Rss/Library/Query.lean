import Rss.Library.Fallible
import Rss.Library.Json
import Rss.Library.Sql

/-! # SQL expressions

Nullable values, three-valued conditions and the casts that can abort a statement.
Conditions are evaluated from the left and only as far as needed. -/

namespace Rss.Sql

universe u

/-- What ends a statement early. -/
inductive Fault where
  | raised (state message : String)
  | numericOutOfRange
  | invalidText
  | invalidParameter
  | untranslatable
  | notNullViolation
  | checkViolation
  | uniqueViolation
  deriving DecidableEq, Repr

abbrev Outcome (α : Type u) := Except Fault α

/-- `RAISE EXCEPTION USING ERRCODE = …, MESSAGE = …`. -/
def raise {α : Type u} (state message : String) : Outcome α := .error (.raised state message)

/-! ### Conditions -/

/-- A truth value, `none` for `NULL`. -/
abbrev Truth := Option Bool

def Truth.and : Truth → Truth → Truth
  | some false, _ | _, some false => some false
  | some true, some true => some true
  | _, _ => none

def Truth.or : Truth → Truth → Truth
  | some true, _ | _, some true => some true
  | some false, some false => some false
  | _, _ => none

/-- A comparison, `NULL` when an operand is. -/
def comparing {α β : Type} (r : α → β → Bool) (a : Option α) (b : Option β) : Truth :=
  a.bind (fun x => b.map (r x))

/-- `x = y`. -/
def equal {α : Type} [DecidableEq α] (a b : Option α) : Truth :=
  comparing (fun x y => decide (x = y)) a b

/-- `x <> y`. -/
def unequal {α : Type} [DecidableEq α] (a b : Option α) : Truth :=
  comparing (fun x y => decide (x ≠ y)) a b

/-- `x < y`. -/
def less (a b : Option ℤ) : Truth := comparing (fun x y => decide (x < y)) a b

/-- `x IN (…)`. -/
def isIn {α : Type} [DecidableEq α] (a : Option α) (values : List α) : Truth :=
  a.map (fun x => decide (x ∈ values))

/-- `x BETWEEN low AND high`. -/
def between (a : Option ℤ) (low high : ℤ) : Truth :=
  a.map (fun x => decide (low ≤ x ∧ x ≤ high))

/-- `x NOT BETWEEN low AND high`. -/
def notBetween (a : Option ℤ) (low high : ℤ) : Truth :=
  a.map (fun x => decide (¬ (low ≤ x ∧ x ≤ high)))

/-- `c₁ AND c₂ AND …`. -/
def allOf : List (Outcome Truth) → Outcome Truth
  | [] => .ok (some true)
  | c :: cs => do
      let t ← c
      if t = some false then .ok (some false)
      else do
        let u ← allOf cs
        .ok (t.and u)

/-- `c₁ OR c₂ OR …`. -/
def anyOf : List (Outcome Truth) → Outcome Truth
  | [] => .ok (some false)
  | c :: cs => do
      let t ← c
      if t = some true then .ok (some true)
      else do
        let u ← anyOf cs
        .ok (t.or u)

@[simp] theorem allOf_nil : allOf [] = .ok (some true) := rfl

@[simp] theorem anyOf_nil : anyOf [] = .ok (some false) := rfl

theorem allOf_true (cs : List (Outcome Truth)) : allOf (.ok (some true) :: cs) = allOf cs := by
  simp only [allOf, ok_bind, Option.some.injEq, Bool.true_eq_false, if_false]
  rcases allOf cs with _ | ⟨_ | _ | _⟩ <;> rfl

theorem anyOf_false (cs : List (Outcome Truth)) : anyOf (.ok (some false) :: cs) = anyOf cs := by
  simp only [anyOf, ok_bind, Option.some.injEq, Bool.false_eq_true, if_false]
  rcases anyOf cs with _ | ⟨_ | _ | _⟩ <;> rfl

/-- Over known truth values a conjunction is the two-valued one. -/
@[simp] theorem allOf_cons (b : Bool) (cs : List (Outcome Truth)) :
    allOf (.ok (some b) :: cs) = if b then allOf cs else .ok (some false) := by
  cases b with
  | false => rfl
  | true => simpa using allOf_true cs

@[simp] theorem anyOf_cons (b : Bool) (cs : List (Outcome Truth)) :
    anyOf (.ok (some b) :: cs) = if b then .ok (some true) else anyOf cs := by
  cases b with
  | false => simpa using anyOf_false cs
  | true => rfl

theorem allOf_some (bs : List Bool) : allOf (bs.map (fun b => .ok (some b))) =
    .ok (some (bs.all id)) := by
  induction bs with
  | nil => rfl
  | cons b bs ih => cases b <;> simp [ih]

theorem anyOf_some (bs : List Bool) : anyOf (bs.map (fun b => .ok (some b))) =
    .ok (some (bs.any id)) := by
  induction bs with
  | nil => rfl
  | cons b bs ih => cases b <;> simp [ih]

/-- A conjunction holds exactly when every part is known to hold. -/
theorem allOf_cons_eq_true {c : Outcome Truth} {cs : List (Outcome Truth)} :
    allOf (c :: cs) = .ok (some true) ↔ c = .ok (some true) ∧ allOf cs = .ok (some true) := by
  rcases c with e | ⟨_ | _ | _⟩
  · simp [allOf]
  · simp only [allOf, ok_bind, reduceCtorEq, if_false, Except.ok.injEq, false_and, iff_false]
    rcases allOf cs with _ | ⟨_ | _ | _⟩ <;> simp [Truth.and]
  · simp
  · simp

theorem allOf_eq_true {cs : List (Outcome Truth)} :
    allOf cs = .ok (some true) ↔ ∀ c ∈ cs, c = .ok (some true) := by
  induction cs with
  | nil => simp
  | cons c cs ih => simp only [List.forall_mem_cons, ← ih, allOf_cons_eq_true]

/-- Below a disjunction that does not hold every part was evaluated and does not hold. -/
theorem anyOf_ne_true {cs : List (Outcome Truth)} {t : Truth} (h : anyOf cs = .ok t)
    (ht : t ≠ some true) : ∀ c ∈ cs, ∃ u, c = .ok u ∧ u ≠ some true := by
  induction cs generalizing t with
  | nil => simp
  | cons c cs ih =>
      obtain ⟨u, hc, h⟩ := bind_eq_ok.mp h
      split at h
      · exact absurd (Except.ok.inj h).symm ht
      · rename_i hu
        obtain ⟨w, hw, h⟩ := bind_eq_ok.mp h
        have hw' : w ≠ some true := by
          rintro rfl
          obtain rfl := Except.ok.inj h
          rcases u with _ | _ | _ <;> simp [Truth.or] at ht
        exact List.forall_mem_cons.mpr ⟨⟨u, hc, hu⟩, ih hw hw'⟩

/-! ### Integers -/

/-- A signed integer of the given width, or an overflow. -/
def ranged (width : ℕ) (n : ℤ) : Outcome ℤ :=
  if -2 ^ (width - 1) ≤ n ∧ n < 2 ^ (width - 1) then .ok n else .error .numericOutOfRange

theorem ranged_eq_ok {width : ℕ} {n m : ℤ} :
    ranged width n = .ok m ↔ m = n ∧ -2 ^ (width - 1) ≤ n ∧ n < 2 ^ (width - 1) := by
  unfold ranged
  split
  · rename_i h
    simp [h, eq_comm]
  · rename_i h
    simp [h]

/-- `bigint` arithmetic on nullable operands. -/
def arith (f : ℤ → ℤ → ℤ) (a b : Option ℤ) : Outcome (Option ℤ) :=
  match a, b with
  | some x, some y => do
      let n ← ranged 64 (f x y)
      .ok (some n)
  | _, _ => .ok none

def add : Option ℤ → Option ℤ → Outcome (Option ℤ) := arith (· + ·)

def sub : Option ℤ → Option ℤ → Outcome (Option ℤ) := arith (· - ·)

def mul : Option ℤ → Option ℤ → Outcome (Option ℤ) := arith (· * ·)

theorem arith_eq_ok {f : ℤ → ℤ → ℤ} {x y : ℤ} {z : Option ℤ}
    (h : arith f (some x) (some y) = .ok z) : z = some (f x y) := by
  obtain ⟨n, hn, h⟩ := bind_eq_ok.mp h
  obtain ⟨rfl, -⟩ := ranged_eq_ok.mp hn
  exact (Except.ok.inj h).symm

/-- A `NOT NULL` column. -/
def notNull {α : Type} (a : Option α) : Outcome α := okOr a .notNullViolation

/-- Decimal digits without a sign. -/
def natural? (cs : List Char) : Option ℕ :=
  if cs ≠ [] ∧ cs.all Char.isDigit then some (Nat.ofDigitChars 10 cs 0) else none

def integer? : List Char → Option ℤ
  | '-' :: cs => (natural? cs).map (fun n => -(n : ℤ))
  | cs => (natural? cs).map (fun n => (n : ℤ))

/-- The cast of a text to a signed integer. -/
def castInteger (width : ℕ) : Option String → Outcome (Option ℤ)
  | none => .ok none
  | some s =>
      match integer? s.toList with
      | none => .error .invalidText
      | some n => do
          let n ← ranged width n
          .ok (some n)

/-! ### Members of a document -/

/-- `j -> 'key'`. -/
def member (j : Option Json) (key : String) : Option Json := j.bind (Json.field? key)

/-- `j -> i`. -/
def element (j : Option Json) (index : Option ℤ) : Option Json :=
  j.bind (fun j => index.bind (fun i => Json.item? i j))

/-- `j ->> 'key'`. -/
def memberText (j : Option Json) (key : String) : Option String :=
  (member j key).bind Json.toText

/-- `(j ->> 'key')::bigint`. -/
def bigint (j : Option Json) (key : String) : Outcome (Option ℤ) :=
  castInteger 64 (memberText j key)

/-- `(j ->> 'key')::integer`. -/
def integer (j : Option Json) (key : String) : Outcome (Option ℤ) :=
  castInteger 32 (memberText j key)

/-- `jsonb_typeof(j) = '…'`. -/
def hasType (j : Option Json) (type : String) : Truth := equal (j.map Json.typeof) (some type)

/-- `jsonb_array_length(j)`. -/
def arrayLength : Option Json → Outcome (Option ℤ)
  | none => .ok none
  | some (.arr items) => .ok (some items.length)
  | some _ => .error .invalidParameter

/-- `octet_length(t)`. -/
def octetLength (t : Option String) : Option ℤ := t.map (fun s => (s.utf8ByteSize : ℤ))

/-- `j > 'n'::jsonb`. -/
def exceeds (j : Option Json) (bound : ℤ) : Truth := j.map (Json.exceeds bound)

/-- An SQL value inside `jsonb_build_object`. -/
def ofInteger : Option ℤ → Json
  | none => .null
  | some n => .num n

def ofText : Option String → Json
  | none => .null
  | some s => .str s

def ofJson (j : Option Json) : Json := j.getD .null

/-- Binding a document as a `jsonb` parameter. -/
def jsonbIn (j : Json) : Outcome Json :=
  if j.storable then .ok j else .error .untranslatable

/-! ### Evaluation on documents of known shape -/

theorem natural?_toDigits (n : ℕ) : natural? (Nat.toDigits 10 n) = some n := by
  have hne : Nat.toDigits 10 n ≠ [] := by
    rw [Nat.toDigits_eq_if (by decide)]
    split <;> simp
  have hall : (Nat.toDigits 10 n).all Char.isDigit = true :=
    List.all_eq_true.mpr
      (fun c hc => Nat.isDigit_of_mem_toDigits (by decide) (by decide) hc)
  simp [natural?, hne, hall, Nat.ofDigitChars_ten_toDigits]

theorem integer?_digits (n : ℤ) : integer? (Json.digits n) = some n := by
  cases n with
  | ofNat n =>
      have hdig : Json.digits (.ofNat n) = Nat.toDigits 10 n := rfl
      rw [hdig]
      unfold integer?
      split
      · rename_i cs h
        have : '-'.isDigit = true :=
          Nat.isDigit_of_mem_toDigits (b := 10) (n := n) (by decide) (by decide) (by simp [h])
        exact absurd this (by decide)
      · simp [natural?_toDigits]
  | negSucc n =>
      simp only [Json.digits, integer?, natural?_toDigits]
      rfl

/-- A cast returns the integer its text denotes, in range. -/
theorem castInteger_eq_some {width : ℕ} {t : Option String} {n : ℤ} :
    castInteger width t = .ok (some n) ↔
      ∃ s, t = some s ∧ integer? s.toList = some n ∧ ranged width n = .ok n := by
  cases t with
  | none => simp [castInteger]
  | some s =>
      cases hs : integer? s.toList with
      | none => simp [castInteger, hs]
      | some m =>
          simp only [castInteger, hs, bind_eq_ok, Except.ok.injEq, Option.some.injEq]
          constructor
          · rintro ⟨k, hk, rfl⟩
            obtain ⟨rfl, -⟩ := ranged_eq_ok.mp hk
            exact ⟨s, rfl, hs, hk⟩
          · rintro ⟨_, rfl, hs', hn⟩
            obtain rfl := Option.some.inj (hs.symm.trans hs')
            exact ⟨m, hn, rfl⟩

theorem ranged_widen {n : ℤ} (h : ranged 32 n = .ok n) : ranged 64 n = .ok n := by
  obtain ⟨-, hlow, hhigh⟩ := ranged_eq_ok.mp h
  refine ranged_eq_ok.mpr ⟨rfl, ?_, ?_⟩
  · exact Int.le_trans (by decide) hlow
  · exact Int.lt_of_lt_of_le hhigh (by decide)

/-- A text that casts to `integer` casts to `bigint` with the same value. -/
theorem castInteger_widen {t : Option String} {n : ℤ} (h : castInteger 32 t = .ok (some n)) :
    castInteger 64 t = .ok (some n) := by
  obtain ⟨s, ht, hs, hn⟩ := castInteger_eq_some.mp h
  exact castInteger_eq_some.mpr ⟨s, ht, hs, ranged_widen hn⟩

/-- The text of a number casts to that number, or is out of range. -/
theorem castInteger_num (width : ℕ) (n : ℤ) :
    castInteger width (Json.toText (.num n)) = (do return some (← ranged width n)) := by
  simp only [Json.toText, Json.render, castInteger, String.toList_ofList, integer?_digits]
  rfl

/-- A cast that succeeds on a number gives that number. -/
theorem castInteger_num_eq_ok {width : ℕ} {n : ℤ} {m : Option ℤ}
    (h : castInteger width (Json.toText (.num n)) = .ok m) : m = some n := by
  rw [castInteger_num] at h
  obtain ⟨k, hk, hm⟩ := bind_eq_ok.mp h
  obtain ⟨rfl, -⟩ := ranged_eq_ok.mp hk
  exact (Except.ok.inj hm).symm

end Rss.Sql
