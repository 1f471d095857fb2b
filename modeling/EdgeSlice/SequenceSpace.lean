import Mathlib.Data.Int.ModEq
import Mathlib.Data.Nat.ModEq
import Mathlib.Data.Int.Notation
import Mathlib.Order.Basic

/-! Numbers that are known modulo `m`, next to a number that is known. -/

namespace EdgeSlice.SequenceSpace

variable {m j k h size : ℕ}

/-- A residue is enough to tell numbers that are less than `m` apart. -/
theorem eq_of_mod_eq (heq : j % m = k % m) (hjk : j ≤ k) (hkj : k < j + m) : j = k := by
  have hdvd : m ∣ k - j := (Nat.modEq_iff_dvd' hjk).mp heq
  obtain ⟨q, hq⟩ := hdvd
  rcases Nat.eq_zero_or_pos q with rfl | hpos
  · rw [Nat.mul_zero] at hq
    omega
  · have hle : m * 1 ≤ m * q := Nat.mul_le_mul_left m hpos
    omega

theorem mod_ne (hjk : j < k) (hkj : k < j + m) : j % m ≠ k % m := fun heq ↦
  hjk.ne (eq_of_mod_eq heq hjk.le hkj)

theorem succ_mod (m j : ℕ) : (j % m + 1) % m = (j + 1) % m := Nat.mod_add_mod _ _ _

/-- Each residue is that of a number in any `m` consecutive ones. -/
theorem exists_mod_eq (hj : j < m) (k : ℕ) : ∃ i, k ≤ i ∧ i < k + m ∧ i % m = j := by
  have hk := Nat.mod_lt k (Nat.zero_lt_of_lt hj)
  have hdiv := Nat.div_add_mod k m
  rcases Nat.lt_or_ge j (k % m) with hgt | hle
  · refine ⟨m * (k / m) + (j + m), by omega, by omega, ?_⟩
    rw [Nat.mul_add_mod, Nat.add_mod_right, Nat.mod_eq_of_lt hj]
  · refine ⟨m * (k / m) + j, by omega, by omega, ?_⟩
    rw [Nat.mul_add_mod, Nat.mod_eq_of_lt hj]

/-- How far a residue is ahead of another one, moved by `size`. -/
theorem emod_sub (hlow : k ≤ j + size) (hhigh : j + size < k + m) :
    (((j % m : ℕ) : ℤ) - ((k % m : ℕ) - size)) % m = j + size - k := by
  have hmod : ((j % m : ℕ) : ℤ) - ((k % m : ℕ) - size) ≡ (j : ℤ) - (k - size) [ZMOD m] := by
    push_cast
    exact (Int.mod_modEq _ _).sub ((Int.mod_modEq _ _).sub_right _)
  rw [hmod.eq, Int.emod_eq_of_lt (by omega) (by omega)]
  omega

/-- The difference of two residues, where the numbers are less than `m` apart. -/
theorem mod_sub (hjk : j < k + m) (hkj : k < j + m) :
    ((j % m : ℕ) : ℤ) - (k % m : ℕ) = (j : ℤ) - k ∨
      ((j % m : ℕ) : ℤ) - (k % m : ℕ) = (j : ℤ) - k - m ∨
      ((j % m : ℕ) : ℤ) - (k % m : ℕ) = (j : ℤ) - k + m := by
  have hm : 0 < m := by omega
  have hj := Nat.div_add_mod j m
  have hk := Nat.div_add_mod k m
  have hjlt := Nat.mod_lt j hm
  have hklt := Nat.mod_lt k hm
  rcases Nat.lt_trichotomy (j / m) (k / m) with hlt | heq | hgt
  · obtain ⟨d, hd⟩ := Nat.exists_eq_add_of_lt hlt
    rw [hd, Nat.mul_add, Nat.mul_add, Nat.mul_one] at hk
    rcases Nat.eq_zero_or_pos d with rfl | hpos
    · omega
    · have hle : m * 1 ≤ m * d := Nat.mul_le_mul_left m hpos
      omega
  · rw [heq] at hj
    omega
  · obtain ⟨d, hd⟩ := Nat.exists_eq_add_of_lt hgt
    rw [hd, Nat.mul_add, Nat.mul_add, Nat.mul_one] at hj
    rcases Nat.eq_zero_or_pos d with rfl | hpos
    · omega
    · have hle : m * 1 ≤ m * d := Nat.mul_le_mul_left m hpos
      omega

/-- The place of a number above the lower end of a window that ends at `h`. Its remainder in C is
negative for some numbers that are not in the window. -/
theorem tmod_place (hsize : size < m) (hlow : h ≤ j + size) (hhigh : j + size < h + m) :
    (((j % m : ℕ) : ℤ) - ((h % m : ℕ) - size)).tmod m = (j : ℤ) + size - h ∨
      (((j % m : ℕ) : ℤ) - ((h % m : ℕ) - size)).tmod m < 0 ∧ h < j := by
  have hjlt := Nat.mod_lt j (Nat.zero_lt_of_lt hsize)
  have hhlt := Nat.mod_lt h (Nat.zero_lt_of_lt hsize)
  have hvalue : ((j % m : ℕ) : ℤ) - ((h % m : ℕ) - size) = ((j % m : ℕ) : ℤ) - (h % m : ℕ) + size := by
    omega
  rw [hvalue]
  rcases mod_sub (m := m) (j := j) (k := h) (by omega) (by omega)
    with heq | heq | heq
  · left
    rw [heq, Int.tmod_eq_of_lt (by omega) (by omega)]
    omega
  · right
    have hneg : ((j % m : ℕ) : ℤ) - (h % m : ℕ) + size = -((m : ℤ) - ((j : ℤ) + size - h)) := by
      omega
    rw [hneg, Int.neg_tmod, Int.tmod_eq_of_lt (by omega) (by omega)]
    omega
  · left
    have hround : ((j % m : ℕ) : ℤ) - (h % m : ℕ) + size - m = (j : ℤ) + size - h := by
      omega
    rw [Int.tmod_eq_emod_of_nonneg (by omega), ← Int.sub_emod_right, hround,
      Int.emod_eq_of_lt (by omega) (by omega)]

/-- The residue of the lower end of a window. -/
theorem lower_end (hsize : size < m) (h : ℕ) (hle : size ≤ h) :
    (if ((h % m : ℕ) : ℤ) - size < 0 then ((h % m : ℕ) : ℤ) - size + m else ((h % m : ℕ) : ℤ) - size) =
      ((h - size) % m : ℕ) := by
  have hhlt := Nat.mod_lt h (Nat.zero_lt_of_lt hsize)
  have hllt := Nat.mod_lt (h - size) (Nat.zero_lt_of_lt hsize)
  rcases mod_sub (m := m) (j := h) (k := h - size) (by omega) (by omega)
    with heq | heq | heq
  · rw [if_neg (by omega)]
    omega
  · rw [if_pos (by omega)]
    omega
  · omega

end EdgeSlice.SequenceSpace
