import Mathlib.Algebra.Group.Int.Defs
import Mathlib.Algebra.Group.Nat.Defs
import Mathlib.Tactic.SplitIfs

/-! The integers of C, where `int` has 32 bits and `size_t` has 64. -/
namespace Yfs.CInt

/-- The value of an expression of type `int`; to leave its range is undefined. -/
def int (x : ℤ) : Option ℤ := if -2^31 ≤ x ∧ x < 2^31 then some x else none

/-- An `unsigned int` or a `size_t` where an `int` is expected. -/
def toInt (n : ℕ) : ℤ := (BitVec.ofNat 32 n).toInt

/-- An `int` where a `size_t` is expected. -/
def sizeT (x : ℤ) : ℕ := (x % 2^64).toNat

theorem int_eq {x : ℤ} (hlo : -2^31 ≤ x) (hhi : x < 2^31) : int x = some x := if_pos ⟨hlo,hhi⟩

theorem toInt_eq {n : ℕ} (h : n < 2^31) : toInt n = n := by
  have hn : (BitVec.ofNat 32 n).toNat = n := by
    rw [BitVec.toNat_ofNat, Nat.mod_eq_of_lt (by omega)]
  rw [toInt, BitVec.toInt_eq_toNat_of_lt (by omega), hn]

theorem sizeT_eq {x : ℤ} (hlo : 0 ≤ x) (hhi : x < 2^64) : sizeT x = x.toNat := by
  rw [sizeT, Int.emod_eq_of_lt hlo hhi]

theorem int_eq_some_iff {x y : ℤ} : int x = some y ↔ (-2^31 ≤ x ∧ x < 2^31) ∧ x = y := by
  rw [int]
  split_ifs with h
  · rw [Option.some_inj, and_iff_right h]
  · exact iff_of_false id fun hxy => h hxy.1

theorem toInt_of_le {n : ℕ} (hlo : 2^31 ≤ n) (hhi : n < 2^32) : toInt n = n - 2^32 := by
  rw [toInt, BitVec.toInt_eq_toNat_cond, BitVec.toNat_ofNat, Nat.mod_eq_of_lt hhi,
    if_neg (by omega)]
  omega

theorem sizeT_of_neg {x : ℤ} (hlo : -2^32 ≤ x) (hx : x < 0) : 2^63 ≤ sizeT x := by
  rw [sizeT]
  omega

theorem sizeT_le {x : ℤ} (hx : 0 ≤ x) : (sizeT x : ℤ) ≤ x := by
  rw [sizeT]
  omega

end Yfs.CInt
