import Mathlib.Data.Nat.Bitwise
import Mathlib.Logic.Function.Basic
import Mathlib.Tactic.Ring
import Mathlib.Algebra.Group.Nat.Defs

/-! Memory as a stream of bits, the most significant bit of each byte first. -/

namespace EdgeSlice.BitStream

open Function

def bitAt (mem : ℕ → UInt8) (k : ℕ) : Bool := (mem (k / 8)).toNat.testBit (7 - k % 8)

/-- The number that the `w` bits from the `p`th on stand for. -/
def field (mem : ℕ → UInt8) (p : ℕ) : ℕ → ℕ
  | 0 => 0
  | w + 1 => 2 * field mem p w + (bitAt mem (p + w)).toNat

variable {mem mem' mem'' : ℕ → UInt8} {p v w v' w' : ℕ}

theorem field_lt : field mem p w < 2 ^ w := by
  induction w with
  | zero => exact Nat.one_pos
  | succ w ih =>
    have hbit := Bool.toNat_le (bitAt mem (p + w))
    rw [field, pow_succ]
    omega

theorem field_add (v w : ℕ) : field mem p (v + w) = field mem p v * 2 ^ w + field mem (p + v) w := by
  induction w with
  | zero => simp [field]
  | succ w ih =>
    rw [← Nat.add_assoc, field, ih, field, Nat.add_assoc p v w]
    ring

theorem field_congr (h : ∀ k, p ≤ k → k < p + w → bitAt mem' k = bitAt mem k) :
    field mem' p w = field mem p w := by
  induction w with
  | zero => rfl
  | succ w ih =>
    rw [field, field, ih fun k hk hlt ↦ h k hk (by omega), h (p + w) (by omega) (by omega)]

theorem testBit_field (j : ℕ) :
    (field mem p w).testBit j = (decide (j < w) && bitAt mem (p + (w - 1 - j))) := by
  induction w generalizing j with
  | zero => simp [field]
  | succ w ih =>
    cases j with
    | zero =>
      rw [field, Nat.testBit_zero]
      cases hbit : bitAt mem (p + w) <;> simp [hbit]
    | succ j =>
      have hdiv : (2 * field mem p w + (bitAt mem (p + w)).toNat) / 2 = field mem p w := by
        have hbit := Bool.toNat_le (bitAt mem (p + w))
        omega
      have hindex : w + 1 - 1 - (j + 1) = w - 1 - j := by omega
      rw [field, Nat.testBit_succ, hdiv, ih, hindex]
      simp

/-- A field within one byte. -/
theorem field_in_byte (h : p % 8 + w ≤ 8) :
    field mem p w = (mem (p / 8)).toNat / 2 ^ (8 - p % 8 - w) % 2 ^ w := by
  apply Nat.eq_of_testBit_eq
  intro j
  rw [testBit_field, Nat.testBit_mod_two_pow, Nat.testBit_div_two_pow]
  by_cases hj : j < w
  · have hbyte : (p + (w - 1 - j)) / 8 = p / 8 := by omega
    have hbit : 7 - (p + (w - 1 - j)) % 8 = j + (8 - p % 8 - w) := by omega
    rw [bitAt, hbyte, hbit]
  · simp [hj]

/-- No bit is set from the `p`th on. -/
def Blank (mem : ℕ → UInt8) (p : ℕ) : Prop := ∀ k, p ≤ k → bitAt mem k = false

theorem blank_zero : Blank (fun _ ↦ 0) p := fun _ _ ↦ Nat.zero_testBit _

theorem field_of_blank (h : Blank mem p) : field mem p w = 0 := by
  induction w with
  | zero => rfl
  | succ w ih => simp [field, ih, h (p + w) (Nat.le_add_right p w)]

/-- A field has been written behind what there was. -/
structure Wrote (mem mem' : ℕ → UInt8) (p w v : ℕ) : Prop where
  before : ∀ k < p, bitAt mem' k = bitAt mem k
  value : field mem' p w = v
  blank : Blank mem' (p + w)

theorem Wrote.append (h : Wrote mem mem' p w v) (h' : Wrote mem' mem'' (p + w) w' v') :
    Wrote mem mem'' p (w + w') (v * 2 ^ w' + v') where
  before k hk := (h'.before k (by omega)).trans (h.before k hk)
  value := by
    have hkept : field mem'' p w = field mem' p w := field_congr fun k _ hk ↦ h'.before k hk
    rw [field_add, hkept, h.value, h'.value]
  blank := Nat.add_assoc p w w' ▸ h'.blank

theorem bitAt_update_or {x k : ℕ} (hx : x < 256) (q : ℕ) :
    bitAt (update mem q (mem q ||| UInt8.ofNat x)) k =
      (bitAt mem k || (decide (k / 8 = q) && x.testBit (7 - k % 8))) := by
  by_cases hk : k / 8 = q
  · subst hk
    simp [bitAt, Nat.testBit_or, Nat.mod_eq_of_lt hx]
  · simp [bitAt, hk]

/-- A field within one byte is written by a bitwise or. -/
theorem wrote_or (h : Blank mem p) (hw : p % 8 + w ≤ 8) (hv : v < 2 ^ w) :
    Wrote mem (update mem (p / 8) (mem (p / 8) ||| UInt8.ofNat (v <<< (8 - p % 8 - w)))) p w v := by
  have hx : v <<< (8 - p % 8 - w) < 2 ^ (8 - p % 8) := by
    have hsplit : 2 ^ (8 - p % 8) = 2 ^ w * 2 ^ (8 - p % 8 - w) := by
      rw [← pow_add]
      congr 1
      omega
    rw [Nat.shiftLeft_eq, hsplit]
    exact Nat.mul_lt_mul_of_pos_right hv (Nat.two_pow_pos _)
  have hbyte : v <<< (8 - p % 8 - w) < 256 := hx.trans_le (Nat.pow_le_pow_right (by omega) (by omega : _ ≤ 8))
  constructor
  · intro k hk
    rw [bitAt_update_or hbyte]
    by_cases hsame : k / 8 = p / 8
    · have hhigh : 8 - p % 8 ≤ 7 - k % 8 := by omega
      rw [Nat.testBit_lt_two_pow (hx.trans_le (Nat.pow_le_pow_right (by omega) hhigh))]
      simp
    · simp [hsame]
  · apply Nat.eq_of_testBit_eq
    intro j
    rw [testBit_field]
    by_cases hj : j < w
    · have hsame : (p + (w - 1 - j)) / 8 = p / 8 := by omega
      have hbit : 7 - (p + (w - 1 - j)) % 8 = (8 - p % 8 - w) + j := by omega
      rw [bitAt_update_or hbyte, h _ (by omega), hsame, hbit, Nat.testBit_shiftLeft]
      simp [hj]
    · have hhigh : v < 2 ^ j := hv.trans_le (Nat.pow_le_pow_right (by omega) (by omega))
      simp [hj, Nat.testBit_lt_two_pow hhigh]
  · intro k hk
    rw [bitAt_update_or hbyte, h k (by omega)]
    by_cases hsame : k / 8 = p / 8
    · rw [Nat.testBit_shiftLeft]
      have hlow : ¬ 8 - p % 8 - w ≤ 7 - k % 8 := by omega
      simp [hlow]
    · simp [hsame]

end EdgeSlice.BitStream
