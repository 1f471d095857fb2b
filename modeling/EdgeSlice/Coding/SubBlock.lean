import EdgeSlice.CountedLoop
import Mathlib.Algebra.BigOperators.Group.Finset.Basic
import Mathlib.Algebra.BigOperators.Ring.Finset
import Mathlib.Tactic.FinCases

namespace EdgeSlice.Coding

open Function CountedLoop

/-- `LTE_NULL` -/
def lteNull : UInt8 := 2

def bitrev : List ℕ :=
  [0, 16, 8, 24, 4, 20, 12, 28, 2, 18, 10, 26, 6, 22, 14, 30, 1, 17, 9, 25, 5, 21, 13, 29, 3, 19, 11, 27, 7, 23, 15, 31]

def bitrevX3 : List ℕ :=
  [0, 48, 24, 72, 12, 60, 36, 84, 6, 54, 30, 78, 18, 66, 42, 90, 3, 51, 27, 75, 15, 63, 39, 87, 9, 57, 33, 81, 21, 69,
    45, 93]

def bitrevCc : List ℕ :=
  [1, 17, 9, 25, 5, 21, 13, 29, 3, 19, 11, 27, 7, 23, 15, 31, 0, 16, 8, 24, 4, 20, 12, 28, 2, 18, 10, 26, 6, 22, 14, 30]

/-- `RTC` or `RCC`, the number of rows. -/
def rows (D : ℕ) : ℕ := if D &&& 0x1f > 0 then (D >>> 5) + 1 else D >>> 5

/-- The size of a sub-block. -/
def kPi (D : ℕ) : ℕ := rows D <<< 5

/-- The number of dummy bits. -/
def nullBits (D : ℕ) : ℕ := kPi D - D

theorem rows_eq (D : ℕ) : rows D = (D + 31) / 32 := by
  have hmod : D &&& 0x1f = D % 32 := Nat.and_two_pow_sub_one_eq_mod D 5
  rw [rows, hmod, Nat.shiftRight_eq_div_pow]
  split <;> omega

theorem kPi_eq (D : ℕ) : kPi D = 32 * rows D := by rw [kPi, Nat.shiftLeft_eq, Nat.mul_comm]

theorem kPi_bounds (D : ℕ) : D ≤ kPi D ∧ kPi D < D + 32 := by
  rw [kPi_eq, rows_eq]
  omega

theorem nullBits_lt (D : ℕ) : nullBits D < 32 := by
  have hbounds := kPi_bounds D
  rw [nullBits]
  omega

theorem nullBits_add (D : ℕ) : nullBits D + D = kPi D := by
  have hbounds := kPi_bounds D
  rw [nullBits]
  omega

/-- The row-by-row number of what is read in turn `k`, for a permutation of the columns. -/
def permuted (columns : List ℕ) (D k : ℕ) : ℕ := columns.getD (k / rows D) 0 + 32 * (k % rows D)

/-- A table of the 32 columns in some order. -/
structure Permutes (columns : List ℕ) : Prop where
  lt : ∀ c < 32, columns.getD c 0 < 32
  inj : ∀ c < 32, ∀ c' < 32, columns.getD c 0 = columns.getD c' 0 → c = c'
  surj : ∀ i < 32, ∃ c < 32, columns.getD c 0 = i

theorem permutes_bitrev : Permutes bitrev where
  lt := by decide
  inj := by decide
  surj := by decide

theorem permutes_bitrevCc : Permutes bitrevCc where
  lt := by decide
  inj := by decide
  surj := by decide

namespace Permutes

variable {columns : List ℕ} {D k k' : ℕ}

theorem column_lt (hk : k < kPi D) : k / rows D < 32 := Nat.div_lt_of_lt_mul (by rwa [kPi_eq, Nat.mul_comm] at hk)

theorem permuted_mod (h : Permutes columns) (hk : k < kPi D) :
    permuted columns D k % 32 = columns.getD (k / rows D) 0 := by
  have hlt := h.lt _ (column_lt hk)
  rw [permuted]
  omega

theorem permuted_div (h : Permutes columns) (hk : k < kPi D) : permuted columns D k / 32 = k % rows D := by
  have hlt := h.lt _ (column_lt hk)
  rw [permuted]
  omega

theorem rows_pos (hk : k < kPi D) : 0 < rows D := by
  rw [kPi_eq] at hk
  omega

theorem permuted_lt (h : Permutes columns) (hk : k < kPi D) : permuted columns D k < kPi D := by
  have hdiv := h.permuted_div hk
  have hrow := Nat.mod_lt k (rows_pos hk)
  rw [kPi_eq]
  omega

theorem permuted_inj (h : Permutes columns) (hk : k < kPi D) (hk' : k' < kPi D)
    (heq : permuted columns D k = permuted columns D k') : k = k' := by
  have hcolumn : k / rows D = k' / rows D := by
    refine h.inj _ (column_lt hk) _ (column_lt hk') ?_
    rw [← h.permuted_mod hk, ← h.permuted_mod hk', heq]
  have hrow : k % rows D = k' % rows D := by rw [← h.permuted_div hk, ← h.permuted_div hk', heq]
  rw [← Nat.div_add_mod k (rows D), ← Nat.div_add_mod k' (rows D), hcolumn, hrow]

theorem permuted_surj (h : Permutes columns) {i : ℕ} (hi : i < kPi D) : ∃ k < kPi D, permuted columns D k = i := by
  obtain ⟨c, hc, hcolumn⟩ := h.surj (i % 32) (Nat.mod_lt i (by omega))
  have hrow : i / 32 < rows D := Nat.div_lt_of_lt_mul (by rwa [kPi_eq] at hi)
  have hdiv : (rows D * c + i / 32) / rows D = c := by
    rw [Nat.mul_add_div (by omega), Nat.div_eq_of_lt hrow, Nat.add_zero]
  have hmod : (rows D * c + i / 32) % rows D = i / 32 := by rw [Nat.mul_add_mod, Nat.mod_eq_of_lt hrow]
  refine ⟨rows D * c + i / 32, ?_, ?_⟩
  · rw [kPi_eq]
    calc rows D * c + i / 32 < rows D * c + rows D := Nat.add_lt_add_left hrow _
      _ = rows D * (c + 1) := by ring
      _ ≤ rows D * 32 := Nat.mul_le_mul_left _ (by omega)
      _ = 32 * rows D := Nat.mul_comm _ _
  · rw [permuted, hdiv, hmod, hcolumn]
    omega

end Permutes

end EdgeSlice.Coding

namespace EdgeSlice.Coding

open Function CountedLoop

/-- What the transmitter does for `k` and `ind`. -/
def putBit (w : ℕ → UInt8) (k ind : ℕ) (s : (ℕ → UInt8) × (ℕ → ℕ)) : (ℕ → UInt8) × (ℕ → ℕ) :=
  (update s.1 k (w ind), update s.2 k ind)

/-- What the receiver does for `k` and `ind`. -/
def addSoft (softInput : ℕ → ℤ) (k ind : ℕ) (s : (ℕ → ℤ) × (ℕ → ℕ)) : (ℕ → ℤ) × (ℕ → ℕ) :=
  (update s.1 ind ((s.1 ind + softInput k).bmod (2 ^ 16)), update s.2 k ind)

/-- The indices that have been used. -/
def used (inds : ℕ → ℕ) (E : ℕ) : ℕ → ℕ := turns E (fun k f ↦ update f k (inds k)) fun _ ↦ 0

theorem used_eq {inds : ℕ → ℕ} {E k : ℕ} (hk : k < E) : used inds E k = inds k := by
  rw [used, turns_update, if_pos hk]

theorem turns_putBit (w : ℕ → UInt8) (inds : ℕ → ℕ) (E : ℕ) (e : ℕ → UInt8) :
    turns E (fun k ↦ putBit w k (inds k)) (e, fun _ ↦ 0) =
      (turns E (fun k e ↦ update e k (w (inds k))) e, used inds E) :=
  turns_prod E (fun k e ↦ update e k (w (inds k))) (fun k f ↦ update f k (inds k)) e fun _ ↦ 0

/-- What the receiver has added up. -/
def combined (softInput : ℕ → ℤ) (inds : ℕ → ℕ) (E : ℕ) : ℕ → ℤ :=
  turns E (fun k (w16 : ℕ → ℤ) ↦ update w16 (inds k) ((w16 (inds k) + softInput k).bmod (2 ^ 16))) fun _ ↦ 0

theorem turns_addSoft (softInput : ℕ → ℤ) (inds : ℕ → ℕ) (E : ℕ) :
    turns E (fun k ↦ addSoft softInput k (inds k)) (fun _ ↦ 0, fun _ ↦ 0) =
      (combined softInput inds E, used inds E) :=
  turns_prod E (fun k (w16 : ℕ → ℤ) ↦ update w16 (inds k) ((w16 (inds k) + softInput k).bmod (2 ^ 16)))
    (fun k f ↦ update f k (inds k)) (fun _ ↦ 0) fun _ ↦ 0

theorem combined_eq (softInput : ℕ → ℤ) (inds : ℕ → ℕ) (E p : ℕ) :
    combined softInput inds E p = (∑ k ∈ Finset.range E with inds k = p, softInput k).bmod (2 ^ 16) := by
  induction E with
  | zero => rfl
  | succ E ih =>
    rw [combined, turns_succ, ← combined, Finset.range_add_one, Finset.filter_insert]
    by_cases hp : inds E = p
    · subst hp
      rw [if_pos rfl, Finset.sum_insert (by simp), update_self, ih, Int.bmod_add_bmod, Int.add_comm]
    · rw [if_neg hp, update_of_ne (Ne.symm hp), ih]

end EdgeSlice.Coding
