import Mathlib.Data.Nat.Bitwise

/-! Fields of bits in a byte. -/

namespace EdgeSlice.BitField

theorem ofNat_toNat {n : ℕ} (h : n < 256) : (UInt8.ofNat n).toNat = n := UInt8.toNat_ofNat_of_lt' h

/-- The lowest `w` bits of a byte. -/
theorem low_toNat (b : UInt8) {w : ℕ} (hw : w ≤ 8) :
    (b &&& UInt8.ofNat (2 ^ w - 1)).toNat = b.toNat % 2 ^ w := by
  have hpow : 2 ^ w ≤ 2 ^ 8 := Nat.pow_le_pow_right (by omega) hw
  have hmask : 2 ^ w - 1 < 256 := by omega
  rw [UInt8.toNat_and, ofNat_toNat hmask, Nat.and_two_pow_sub_one_eq_mod]

theorem shiftRight_toNat (b : UInt8) {k : ℕ} (hk : k < 8) : (b >>> UInt8.ofNat k).toNat = b.toNat / 2 ^ k := by
  rw [UInt8.toNat_shiftRight, ofNat_toNat (by omega), Nat.mod_eq_of_lt hk, Nat.shiftRight_eq_div_pow]

/-- The `w` bits of a byte from the `k`th on, moved before they are masked. -/
theorem shifted_toNat (b : UInt8) {k w : ℕ} (hk : k < 8) (hw : w ≤ 8) :
    ((b >>> UInt8.ofNat k) &&& UInt8.ofNat (2 ^ w - 1)).toNat = b.toNat / 2 ^ k % 2 ^ w := by
  rw [low_toNat _ hw, shiftRight_toNat b hk]

/-- The `w` bits of a byte from the `k`th on. -/
theorem field_toNat (b : UInt8) {k w : ℕ} (hw : k + w ≤ 8) (hk : k < 8) :
    ((b &&& UInt8.ofNat ((2 ^ w - 1) * 2 ^ k)) >>> UInt8.ofNat k).toNat =
      b.toNat / 2 ^ k % 2 ^ w := by
  have hpow : 2 ^ (k + w) ≤ 2 ^ 8 := Nat.pow_le_pow_right (by omega) hw
  have hmask : (2 ^ w - 1) * 2 ^ k < 256 := by
    rw [Nat.sub_mul, ← Nat.pow_add, Nat.add_comm w k, Nat.one_mul]
    have hk' := Nat.two_pow_pos k
    omega
  rw [UInt8.toNat_shiftRight, UInt8.toNat_and, ofNat_toNat hmask, ofNat_toNat (by omega),
    Nat.mod_eq_of_lt hk, Nat.shiftRight_and_distrib, ← Nat.shiftLeft_eq, Nat.shiftLeft_shiftRight,
    Nat.and_two_pow_sub_one_eq_mod, Nat.shiftRight_eq_div_pow]

/-- A field above the bits that another byte has. -/
theorem join_toNat {x k : ℕ} {b : UInt8} (hx : x * 2 ^ k < 256) (hb : b.toNat < 2 ^ k) :
    (UInt8.ofNat (x * 2 ^ k) ||| b).toNat = x * 2 ^ k + b.toNat := by
  rw [UInt8.toNat_or, ofNat_toNat hx, ← Nat.shiftLeft_eq, Nat.shiftLeft_add_eq_or_of_lt hb]

/-- One bit of a byte is set. -/
theorem bit_ne_zero (b : UInt8) {k : ℕ} (hk : k < 8) : b &&& UInt8.ofNat (2 ^ k) ≠ 0 ↔ b.toNat / 2 ^ k % 2 = 1 := by
  have hpow : 2 ^ k < 2 ^ 8 := Nat.pow_lt_pow_right (by decide) hk
  have hbit : (b &&& UInt8.ofNat (2 ^ k)).toNat = (b.toNat.testBit k).toNat * 2 ^ k := by
    rw [UInt8.toNat_and, ofNat_toNat hpow, Nat.and_two_pow]
  have hpos := Nat.two_pow_pos k
  have hmod := Nat.mod_two_eq_zero_or_one (b.toNat / 2 ^ k)
  rw [← UInt8.toNat_inj.ne, hbit, Nat.testBit_eq_decide_div_mod_eq]
  by_cases hset : b.toNat / 2 ^ k % 2 = 1
  · rw [decide_eq_true hset, Bool.toNat_true, Nat.one_mul]
    exact iff_of_true hpos.ne' hset
  · rw [decide_eq_false hset, Bool.toNat_false, Nat.zero_mul]
    exact iff_of_false (fun h ↦ h rfl) hset

end EdgeSlice.BitField
