import Rss.Library.Framing

/-! # Encodings that are read off the front

A byte string starts with the encoding of at most one value. Such encodings can be put one behind
the other, and the whole is still read in one way. -/

namespace Rss

variable {α β : Type*}

/-- Of the valid values, a byte string starts with the encoding of one at most. -/
def Readable (valid : α → Prop) (encode : α → List UInt8) : Prop :=
  ∀ ⦃a b rest rest'⦄, valid a → valid b → encode a ++ rest = encode b ++ rest' →
    a = b ∧ rest = rest'

namespace Readable

variable {valid : α → Prop} {encode : α → List UInt8}

theorem injective (h : Readable valid encode) {a b : α} (ha : valid a) (hb : valid b)
    (heq : encode a = encode b) : a = b :=
  (h ha hb (congrArg (· ++ []) heq)).1

theorem mono (h : Readable valid encode) {valid' : α → Prop} (himp : ∀ a, valid' a → valid a) :
    Readable valid' encode :=
  fun a b _ _ ha hb heq => h (himp a ha) (himp b hb) heq

/-- A value is told by a part of it. -/
theorem comp (h : Readable valid encode) {f : β → α} {valid' : β → Prop}
    (hvalid : ∀ x, valid' x → valid (f x))
    (hf : ∀ x y, valid' x → valid' y → f x = f y → x = y) :
    Readable valid' (fun x => encode (f x)) := by
  intro x y rest rest' hx hy heq
  obtain ⟨hpart, hrest⟩ := h (hvalid x hx) (hvalid y hy) heq
  exact ⟨hf x y hx hy hpart, hrest⟩

/-- The same bytes before every value. -/
theorem behind (h : Readable valid encode) (head : List UInt8) :
    Readable valid (fun a => head ++ encode a) := by
  intro a b rest rest' ha hb heq
  rw [List.append_assoc, List.append_assoc] at heq
  exact h ha hb (List.append_cancel_left heq)

theorem append (h : Readable valid encode) {valid' : β → Prop} {encode' : β → List UInt8}
    (h' : Readable valid' encode') :
    Readable (fun x : α × β => valid x.1 ∧ valid' x.2) (fun x => encode x.1 ++ encode' x.2) := by
  intro x y rest rest' hx hy heq
  rw [List.append_assoc, List.append_assoc] at heq
  obtain ⟨hfirst, htail⟩ := h hx.1 hy.1 heq
  obtain ⟨hsecond, hrest⟩ := h' hx.2 hy.2 htail
  exact ⟨Prod.ext hfirst hsecond, hrest⟩

/-- A value that may be absent, behind a mark of one length or another. -/
theorem option (h : Readable valid encode) {absent present : List UInt8}
    (hlength : absent.length = present.length) (hne : absent ≠ present) :
    Readable (fun o : Option α => ∀ a ∈ o, valid a)
      (fun o => o.elim absent fun a => present ++ encode a) := by
  intro o o' rest rest' ho ho' heq
  cases o with
  | none =>
      cases o' with
      | none => exact ⟨rfl, List.append_cancel_left heq⟩
      | some b =>
          simp only [Option.elim_none, Option.elim_some, List.append_assoc] at heq
          exact absurd (List.append_inj_left heq hlength) hne
  | some a =>
      cases o' with
      | none =>
          simp only [Option.elim_none, Option.elim_some, List.append_assoc] at heq
          exact absurd (List.append_inj_left heq hlength.symm).symm hne
      | some b =>
          simp only [Option.elim_some, List.append_assoc] at heq
          obtain ⟨rfl, hrest⟩ := h (ho a rfl) (ho' b rfl) (List.append_cancel_left heq)
          exact ⟨rfl, hrest⟩

/-- As many values as another list has. -/
theorem flatMap_inj (h : Readable valid encode) {l l' : List α} {rest rest' : List UInt8}
    (hlength : l.length = l'.length) (hl : ∀ a ∈ l, valid a) (hl' : ∀ a ∈ l', valid a)
    (heq : l.flatMap encode ++ rest = l'.flatMap encode ++ rest') : l = l' ∧ rest = rest' := by
  induction l generalizing l' with
  | nil =>
      obtain rfl := List.eq_nil_of_length_eq_zero hlength.symm
      exact ⟨rfl, heq⟩
  | cons a l ih =>
      cases l' with
      | nil => cases hlength
      | cons b l' =>
          rw [List.forall_mem_cons] at hl hl'
          rw [List.flatMap_cons, List.flatMap_cons, List.append_assoc, List.append_assoc] at heq
          obtain ⟨rfl, htail⟩ := h hl.1 hl'.1 heq
          obtain ⟨rfl, hrest⟩ := ih (Nat.succ.inj hlength) hl.2 hl'.2 htail
          exact ⟨rfl, hrest⟩

end Readable

/-! ### Frames -/

theorem readable_frame (width : ℕ) :
    Readable (fun bytes : List UInt8 => bytes.length < 256 ^ width) (frame width) :=
  fun _ _ _ _ ha hb heq => frame_append_inj ha hb heq

end Rss
