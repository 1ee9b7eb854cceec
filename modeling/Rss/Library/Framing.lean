import Mathlib.Data.List.Basic
import Mathlib.Data.Nat.ModEq
import Mathlib.Tactic.Ring

/-! # Big-endian numbers and framed bytes

A byte string behind its length, which two different strings never share. -/

namespace Rss

/-- The lowest bytes of a number, the most significant one first. -/
def beBytes (width n : ℕ) : List UInt8 :=
  (List.range width).map fun i => UInt8.ofNat (n / 256 ^ (width - 1 - i))

@[simp] theorem length_beBytes (width n : ℕ) : (beBytes width n).length = width := by
  simp [beBytes]

theorem beBytes_succ (width n : ℕ) :
    beBytes (width + 1) n = beBytes width (n / 256) ++ [UInt8.ofNat n] := by
  unfold beBytes
  rw [List.range_succ, List.map_append, List.map_singleton]
  congr 1
  · refine List.map_congr_left fun i hi => ?_
    have hlt : i < width := List.mem_range.mp hi
    have hexp : width + 1 - 1 - i = (width - 1 - i) + 1 := by omega
    rw [hexp, Nat.pow_succ, Nat.mul_comm, Nat.div_div_eq_div_mul]
  · simp

theorem ofNat_inj_mod {n m : ℕ} (h : UInt8.ofNat n = UInt8.ofNat m) : n % 256 = m % 256 := by
  have hnat := congrArg UInt8.toNat h
  simpa using hnat

/-- The bytes say the number up to their range. -/
theorem beBytes_inj_mod {width n m : ℕ} (h : beBytes width n = beBytes width m) :
    n % 256 ^ width = m % 256 ^ width := by
  induction width generalizing n m with
  | zero => simp [Nat.mod_one]
  | succ width ih =>
      rw [beBytes_succ, beBytes_succ] at h
      obtain ⟨hhigh, hlow⟩ := List.append_inj' h rfl
      have hdiv := ih hhigh
      have hmod := ofNat_inj_mod (List.singleton_inj.mp hlow)
      rw [Nat.pow_succ, Nat.mul_comm, Nat.mod_mul, Nat.mod_mul, hmod, hdiv]

theorem beBytes_inj {width n m : ℕ} (hn : n < 256 ^ width) (hm : m < 256 ^ width)
    (h : beBytes width n = beBytes width m) : n = m := by
  have hmod := beBytes_inj_mod h
  rwa [Nat.mod_eq_of_lt hn, Nat.mod_eq_of_lt hm] at hmod

/-- A byte string behind its length. -/
def frame (width : ℕ) (bytes : List UInt8) : List UInt8 := beBytes width bytes.length ++ bytes

/-- The first frame of a byte string is determined by it. -/
theorem frame_append_inj {width : ℕ} {a b rest rest' : List UInt8} (ha : a.length < 256 ^ width)
    (hb : b.length < 256 ^ width) (h : frame width a ++ rest = frame width b ++ rest') :
    a = b ∧ rest = rest' := by
  unfold frame at h
  rw [List.append_assoc, List.append_assoc] at h
  obtain ⟨hlength, htail⟩ := List.append_inj h (by simp)
  exact List.append_inj htail (beBytes_inj ha hb hlength)

end Rss
