import Mathlib.Tactic.Ring
import Mathlib.Data.Int.Order.Basic

namespace EdgeSlice

instance neZero_four : NeZero 4 := ⟨by decide⟩

instance neZero_sixteen : NeZero 16 := ⟨by decide⟩

instance neZero_thirtyThree : NeZero 33 := ⟨by decide⟩

instance neZero_sixtyFour : NeZero 64 := ⟨by decide⟩

def uint8 (x : ℤ) : ℕ := (x % 256).toNat

def uint16 (x : ℤ) : ℕ := (x % 65536).toNat

theorem uint16_lt (x : ℤ) : uint16 x < 65536 := by
  unfold uint16
  omega

theorem uint8_of_lt {n : ℕ} (h : n < 256) : uint8 n = n := by
  unfold uint8
  omega

theorem uint16_of_lt {n : ℕ} (h : n < 65536) : uint16 n = n := by
  unfold uint16
  omega

theorem uint8_le {x : ℤ} (h : 0 ≤ x) : (uint8 x : ℤ) ≤ x := by
  unfold uint8
  omega

theorem uint16_le {x : ℤ} (h : 0 ≤ x) : (uint16 x : ℤ) ≤ x := by
  unfold uint16
  omega

end EdgeSlice
