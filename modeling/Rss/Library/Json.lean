import Mathlib.Algebra.Order.Ring.Int
import Mathlib.Data.List.Basic

/-! # JSON documents

Documents as a `jsonb` column holds them. Numbers are the integers; documents of one shape
list their keys in one order, so equality is structural. -/

namespace Rss

inductive Json where
  | null
  | bool (b : Bool)
  | num (n : ℤ)
  | str (s : String)
  | arr (items : List Json)
  | obj (fields : List (String × Json))
  deriving Repr

namespace Json

/-! ### Equality -/

mutual

def beq : Json → Json → Bool
  | .null, .null => true
  | .bool a, .bool b => a == b
  | .num a, .num b => a == b
  | .str a, .str b => a == b
  | .arr xs, .arr ys => beqItems xs ys
  | .obj xs, .obj ys => beqFields xs ys
  | _, _ => false

def beqItems : List Json → List Json → Bool
  | [], [] => true
  | x :: xs, y :: ys => beq x y && beqItems xs ys
  | _, _ => false

def beqFields : List (String × Json) → List (String × Json) → Bool
  | [], [] => true
  | (k, x) :: xs, (l, y) :: ys => k == l && beq x y && beqFields xs ys
  | _, _ => false

end

mutual

theorem beq_iff : (a b : Json) → (beq a b ↔ a = b)
  | .arr xs, b => by cases b <;> simp [beq, beqItems_iff xs]
  | .obj xs, b => by cases b <;> simp [beq, beqFields_iff xs]
  | .null, b => by cases b <;> simp [beq]
  | .bool a, b => by cases b <;> simp [beq]
  | .num a, b => by cases b <;> simp [beq]
  | .str a, b => by cases b <;> simp [beq]

theorem beqItems_iff : (xs ys : List Json) → (beqItems xs ys ↔ xs = ys)
  | [], ys => by cases ys <;> simp [beqItems]
  | x :: xs, ys => by cases ys <;> simp [beqItems, beq_iff x, beqItems_iff xs]

theorem beqFields_iff : (xs ys : List (String × Json)) → (beqFields xs ys ↔ xs = ys)
  | [], ys => by cases ys <;> simp [beqFields]
  | (k, x) :: xs, [] => by simp [beqFields]
  | (k, x) :: xs, (l, y) :: ys => by
      simp [beqFields, beq_iff x, beqFields_iff xs, and_assoc]

end

instance : DecidableEq Json := fun a b => decidable_of_iff _ (beq_iff a b)

/-! ### Members -/

/-- The value under a key; absent on documents that are not objects. -/
def field? (key : String) : Json → Option Json
  | .obj fields => fields.lookup key
  | _ => none

/-- The element at an index, negative ones counted from the end. -/
def item? (index : ℤ) : Json → Option Json
  | .arr items =>
      match index with
      | .ofNat i => items[i]?
      | .negSucc i => items.reverse[i]?
  | _ => none

/-- `jsonb_typeof`. -/
def typeof : Json → String
  | .null => "null"
  | .bool _ => "boolean"
  | .num _ => "number"
  | .str _ => "string"
  | .arr _ => "array"
  | .obj _ => "object"

/-- The `jsonb` order against a number: containers and booleans sort above, strings and
`null` below. -/
def exceeds (bound : ℤ) : Json → Bool
  | .num n => bound < n
  | .bool _ | .arr (_ :: _) | .obj _ => true
  | .null | .str _ | .arr [] => false

/-! ### Text -/

/-- Decimal digits of an integer. -/
def digits : ℤ → List Char
  | .ofNat n => Nat.toDigits 10 n
  | .negSucc n => '-' :: Nat.toDigits 10 (n + 1)

/-- One character of a quoted string. -/
def escape (c : Char) : List Char :=
  if c = '"' then ['\\', '"']
  else if c = '\\' then ['\\', '\\']
  else if c.toNat = 8 then ['\\', 'b']
  else if c.toNat = 9 then ['\\', 't']
  else if c.toNat = 10 then ['\\', 'n']
  else if c.toNat = 12 then ['\\', 'f']
  else if c.toNat = 13 then ['\\', 'r']
  else if c.toNat < 32 then
    ['\\', 'u', '0', '0', Nat.digitChar (c.toNat / 16), Nat.digitChar (c.toNat % 16)]
  else [c]

def quote (s : String) : List Char := '"' :: s.toList.flatMap escape ++ ['"']

mutual

/-- `jsonb::text`. -/
def render : Json → List Char
  | .null => "null".toList
  | .bool b => (if b then "true" else "false").toList
  | .num n => digits n
  | .str s => quote s
  | .arr items => '[' :: renderItems items ++ [']']
  | .obj fields => '\x7b' :: renderFields fields ++ ['\x7d']

def renderItems : List Json → List Char
  | [] => []
  | [x] => render x
  | x :: xs => render x ++ ", ".toList ++ renderItems xs

def renderFields : List (String × Json) → List Char
  | [] => []
  | [(k, x)] => quote k ++ ": ".toList ++ render x
  | (k, x) :: xs => quote k ++ ": ".toList ++ render x ++ ", ".toList ++ renderFields xs

end

/-- `octet_length` of a text. -/
def octets (cs : List Char) : ℕ := (cs.map Char.utf8Size).sum

/-- The text a scalar extracts to: strings unquoted, `null` nothing. -/
def toText : Json → Option String
  | .null => none
  | .str s => some s
  | j => some (String.ofList (render j))

mutual

/-- No string of the document, key or value, holds the character `jsonb` cannot store. -/
def storable : Json → Bool
  | .str s => !s.toList.contains '\x00'
  | .arr items => storableItems items
  | .obj fields => storableFields fields
  | _ => true

def storableItems : List Json → Bool
  | [] => true
  | x :: xs => storable x && storableItems xs

def storableFields : List (String × Json) → Bool
  | [] => true
  | (k, x) :: xs => !k.toList.contains '\x00' && storable x && storableFields xs

end

/-! ### Sizes -/

@[simp] theorem octets_nil : octets [] = 0 := rfl

@[simp] theorem octets_cons (c : Char) (cs : List Char) :
    octets (c :: cs) = c.utf8Size + octets cs := by
  simp [octets]

@[simp] theorem octets_append (cs ds : List Char) :
    octets (cs ++ ds) = octets cs + octets ds := by
  simp [octets]

theorem utf8ByteSize_ofList (cs : List Char) : (String.ofList cs).utf8ByteSize = octets cs := by
  induction cs with
  | nil => rfl
  | cons c cs ih =>
      have happ : String.ofList (c :: cs) = String.singleton c ++ String.ofList cs := by
        apply String.toList_injective
        simp
      rw [happ, String.utf8ByteSize_append, ih, String.utf8ByteSize_singleton, octets_cons]

theorem octets_toList (s : String) : octets s.toList = s.utf8ByteSize := by
  rw [← utf8ByteSize_ofList, String.ofList_toList]

theorem utf8Size_digitChar {n : ℕ} (h : n < 16) : (Nat.digitChar n).utf8Size = 1 := by
  have hall : ∀ n < 16, (Nat.digitChar n).utf8Size = 1 := by decide
  exact hall n h

theorem utf8Size_of_isDigit {c : Char} (h : c.isDigit = true) : c.utf8Size = 1 := by
  have hle : c.val ≤ 0x7F := by
    simp only [Char.isDigit, Bool.and_eq_true, decide_eq_true_eq] at h
    exact UInt32.le_trans h.2 (by decide)
  simp [Char.utf8Size, hle]

/-- An escape is at most as long as six bytes of the character it stands for. -/
theorem octets_escape_le (c : Char) : octets (escape c) ≤ 6 * c.utf8Size := by
  have hpos := c.utf8Size_pos
  have hpair : ∀ x ∈ ['"', '\\', 'b', 't', 'n', 'f', 'r'], octets ['\\', x] = 2 := by
    simp only [List.forall_mem_cons, List.not_mem_nil, IsEmpty.forall_iff, implies_true, and_true]
    decide
  have hplain : ∀ x ∈ ['\\', 'u', '0'], x.utf8Size = 1 := by
    simp only [List.forall_mem_cons, List.not_mem_nil, IsEmpty.forall_iff, implies_true, and_true]
    decide
  simp only [List.forall_mem_cons] at hpair hplain
  have hcode : c.toNat < 32 → octets ['\\', 'u', '0', '0', Nat.digitChar (c.toNat / 16),
      Nat.digitChar (c.toNat % 16)] = 6 := by
    intro hlt
    simp only [octets_cons, octets_nil, hplain, utf8Size_digitChar (n := c.toNat / 16) (by omega),
      utf8Size_digitChar (n := c.toNat % 16) (by omega)]
  unfold escape
  split_ifs
  case neg =>
    simp only [octets_cons, octets_nil]
    omega
  all_goals omega

/-- A quoted string takes at most six bytes for each of its own. -/
theorem octets_quote_le (s : String) : octets (quote s) ≤ 6 * s.utf8ByteSize + 2 := by
  have hbody : ∀ cs : List Char, octets (cs.flatMap escape) ≤ 6 * octets cs := by
    intro cs
    induction cs with
    | nil => simp
    | cons c cs ih =>
        have := octets_escape_le c
        simp only [List.flatMap_cons, octets_append, octets_cons]
        omega
  have hmark : '"'.utf8Size = 1 := by decide
  have := hbody s.toList
  rw [octets_toList] at this
  simp only [quote, List.cons_append, octets_cons, octets_append, octets_nil, hmark]
  omega

/-- Digits are one byte each. -/
theorem octets_digits (n : ℕ) : octets (digits n) = (Nat.toDigits 10 n).length := by
  have hone : ∀ cs : List Char, (∀ c ∈ cs, c.isDigit = true) → octets cs = cs.length := by
    intro cs
    induction cs with
    | nil => simp
    | cons c cs ih =>
        intro h
        have hc := utf8Size_of_isDigit (h c List.mem_cons_self)
        have hcs := ih (fun c hc => h c (List.mem_cons_of_mem _ hc))
        rw [octets_cons, hc, hcs, List.length_cons, Nat.add_comm]
  exact hone _ (fun c hc => Nat.isDigit_of_mem_toDigits (by decide) (by decide) hc)

theorem octets_digits_le {n k : ℕ} (hk : 0 < k) (h : n < 10 ^ k) : octets (digits n) ≤ k := by
  rw [octets_digits]
  exact (Nat.length_toDigits_le_iff (by decide) hk).mpr h

end Json

end Rss
