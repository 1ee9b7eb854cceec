import Mathlib.Data.Nat.Notation

/-! # Bytes of ASCII texts

An ASCII text has one byte for each character, and a text whose bytes are all below 128 is one. -/

namespace Rss

/-- The byte of an ASCII character. -/
def asciiByte (c : Char) : UInt8 := UInt8.ofNat c.toNat

theorem toNat_asciiByte {c : Char} (h : c.toNat < 128) : (asciiByte c).toNat = c.toNat := by
  simp only [asciiByte, UInt8.toNat_ofNat']
  omega

theorem utf8EncodeChar_of_lt {c : Char} (h : c.toNat < 128) :
    String.utf8EncodeChar c = [asciiByte c] := by
  unfold String.utf8EncodeChar
  exact if_pos (Nat.le_of_lt_succ h)

/-- The first byte of any other character is at least 128. -/
theorem exists_high_byte {c : Char} (h : 128 ≤ c.toNat) :
    ∃ b ∈ String.utf8EncodeChar c, 128 ≤ b.toNat := by
  have hnot : ¬ c.val.toNat ≤ 127 := Nat.not_le_of_gt h
  unfold String.utf8EncodeChar
  simp only [hnot, if_false]
  split
  · exact ⟨_, List.mem_cons_self, by simp only [UInt8.toNat_ofNat']; omega⟩
  · split
    · exact ⟨_, List.mem_cons_self, by simp only [UInt8.toNat_ofNat']; omega⟩
    · exact ⟨_, List.mem_cons_self, by simp only [UInt8.toNat_ofNat']; omega⟩

theorem flatMap_utf8EncodeChar_of_lt {cs : List Char} (h : ∀ c ∈ cs, c.toNat < 128) :
    cs.flatMap String.utf8EncodeChar = cs.map asciiByte := by
  induction cs with
  | nil => rfl
  | cons c cs ih =>
      rw [List.flatMap_cons, utf8EncodeChar_of_lt (h c List.mem_cons_self), List.map_cons,
        ih fun d hd => h d (List.mem_cons_of_mem c hd)]
      rfl

theorem lt_of_mem_flatMap_utf8EncodeChar (cs : List Char)
    (h : ∀ b ∈ cs.flatMap String.utf8EncodeChar, b.toNat < 128) : ∀ c ∈ cs, c.toNat < 128 := by
  intro c hc
  by_cases hlt : c.toNat < 128
  · exact hlt
  · obtain ⟨b, hb, hhigh⟩ := exists_high_byte (Nat.le_of_not_lt hlt)
    exact absurd (h b (List.mem_flatMap.mpr ⟨c, hc, hb⟩)) (Nat.not_lt_of_ge hhigh)

end Rss
