import Mathlib.Data.Nat.ModEq

namespace EdgeSlice

/-- A counter in two parts, as a number of full cycles and a place in the cycle. -/
structure SplitCounter where
  high : ℕ
  low : ℕ
  deriving DecidableEq, Repr

namespace SplitCounter

variable {n k j : ℕ}

/-- The parts of `k`. -/
def ofNat (n k : ℕ) : SplitCounter := ⟨k / n, k % n⟩

def bump (n : ℕ) (c : SplitCounter) : SplitCounter :=
  if c.low + 1 = n then ⟨c.high + 1, 0⟩ else ⟨c.high, c.low + 1⟩

/-- The counter with a given place in the cycle that comes next. -/
def resume (c : SplitCounter) (low : ℕ) : SplitCounter :=
  if low < c.low then ⟨c.high + 1, low⟩ else ⟨c.high, low⟩

@[simp] theorem ofNat_zero (n : ℕ) : ofNat n 0 = ⟨0, 0⟩ := by
  rw [ofNat, Nat.zero_div, Nat.zero_mod]

theorem ofNat_mul_add (h : j < n) : ofNat n (n * k + j) = ⟨k, j⟩ := by
  have hn : 0 < n := Nat.zero_lt_of_lt h
  rw [ofNat, Nat.mul_add_div hn, Nat.div_eq_of_lt h, Nat.mul_add_mod, Nat.mod_eq_of_lt h, Nat.add_zero]

theorem bump_ofNat (hn : 0 < n) (k : ℕ) : bump n (ofNat n k) = ofNat n (k + 1) := by
  obtain ⟨q, r, hr, rfl⟩ : ∃ q r, r < n ∧ k = n * q + r :=
    ⟨k / n, k % n, Nat.mod_lt k hn, (Nat.div_add_mod k n).symm⟩
  rw [ofNat_mul_add hr, bump]
  simp only
  split
  · rename_i hlast
    have hnext : n * q + r + 1 = n * (q + 1) + 0 := by
      rw [Nat.add_assoc, hlast]
      rfl
    rw [hnext, ofNat_mul_add hn]
  · rename_i hlast
    rw [Nat.add_assoc, ofNat_mul_add (by omega)]

/-- A place in the cycle is enough to know a counter that is less than a cycle ahead. -/
theorem resume_ofNat (hn : 0 < n) (hk : k ≤ j) (hj : j < k + n) :
    resume (ofNat n k) (j % n) = ofNat n j := by
  obtain ⟨q, r, hr, rfl⟩ : ∃ q r, r < n ∧ k = n * q + r :=
    ⟨k / n, k % n, Nat.mod_lt k hn, (Nat.div_add_mod k n).symm⟩
  obtain ⟨d, rfl⟩ := Nat.exists_eq_add_of_le hk
  rw [Nat.add_assoc, ofNat_mul_add hr, resume, Nat.mul_add_mod]
  simp only
  by_cases hwrap : r + d < n
  · rw [ofNat_mul_add hwrap, Nat.mod_eq_of_lt hwrap, if_neg (by omega)]
  · obtain ⟨e, he⟩ := Nat.exists_eq_add_of_le (Nat.le_of_not_lt hwrap)
    have hnext : n * q + (r + d) = n * (q + 1) + e := by
      rw [he, ← Nat.add_assoc]
      rfl
    rw [hnext, ofNat_mul_add (by omega), he, Nat.add_mod_left, Nat.mod_eq_of_lt (by omega),
      if_pos (by omega)]

theorem joined_mod {low m : ℕ} (high period : ℕ) (hlow : low < m) :
    (high * m + low) % (m * period) = low + m * (high % period) := by
  have hm : 0 < m := Nat.zero_lt_of_lt hlow
  rw [Nat.mod_mul, Nat.mul_add_mod_of_lt hlow, Nat.add_comm (high * m), Nat.add_mul_div_right _ _ hm,
    Nat.div_eq_of_lt hlow, Nat.zero_add]

/-- Two parts that are joined, modulo a number of cycles, are known from their sum. -/
theorem joined_inj {high high' low low' m : ℕ} (period : ℕ) (hlow : low < m) (hlow' : low' < m) :
    (high * m + low) % (m * period) = (high' * m + low') % (m * period) ↔
      low = low' ∧ high % period = high' % period := by
  rw [joined_mod _ _ hlow, joined_mod _ _ hlow']
  constructor
  · intro h
    have hparts := congrArg (· % m) h
    simp only [Nat.add_mul_mod_self_left, Nat.mod_eq_of_lt hlow, Nat.mod_eq_of_lt hlow'] at hparts
    rw [hparts] at h
    exact ⟨hparts, Nat.eq_of_mul_eq_mul_left (Nat.zero_lt_of_lt hlow) (Nat.add_left_cancel h)⟩
  · rintro ⟨rfl, hhigh⟩
    rw [hhigh]

/-- The parts of which the high one is a step ahead, joined with room for more than the low one. -/
theorem ahead_inj {m : ℕ} (period : ℕ) (hn : 0 < n) (hm : n ≤ m) :
    ((j + 1) / n * m + j % n) % (m * period) = ((k + 1) / n * m + k % n) % (m * period) ↔
      j % (n * period) = k % (n * period) := by
  have hjoined : ∀ i, i % (n * period) = (i / n * n + i % n) % (n * period) := fun i ↦ by
    rw [Nat.div_add_mod']
  rw [hjoined j, hjoined k, joined_inj period ((Nat.mod_lt j hn).trans_le hm)
    ((Nat.mod_lt k hn).trans_le hm), joined_inj period (Nat.mod_lt j hn) (Nat.mod_lt k hn)]
  apply and_congr_right
  intro hlow
  have hwraps : n ∣ j + 1 ↔ n ∣ k + 1 := (Nat.ModEq.add_right 1 hlow).dvd_iff dvd_rfl
  rw [Nat.succ_div, Nat.succ_div, if_congr hwraps rfl rfl]
  exact ⟨Nat.ModEq.add_right_cancel' _, Nat.ModEq.add_right _⟩

/-- Where the high part is a step ahead, only the last place of a cycle shows it. -/
theorem ahead_eq_iff {m : ℕ} (hn : 0 < n) (hm : n < m) (hk : k < m) :
    ((k + 1) / n * n + k % n) % m = k ↔ (k + 1) % n ≠ 0 := by
  have hparts : (k + 1) / n * n + k % n = k + if n ∣ k + 1 then n else 0 := by
    rw [Nat.succ_div]
    have hjoined := Nat.div_add_mod' k n
    split_ifs
    · rw [Nat.succ_mul]
      omega
    · omega
  rw [hparts, ne_eq, ← Nat.dvd_iff_mod_eq_zero]
  split_ifs with hwraps
  · refine iff_of_false (fun h ↦ ?_) (not_not.mpr hwraps)
    rcases Nat.lt_or_ge (k + n) m with hlt | hge
    · rw [Nat.mod_eq_of_lt hlt] at h
      omega
    · rw [Nat.mod_eq_sub_mod hge, Nat.mod_eq_of_lt (by omega)] at h
      omega
  · rw [Nat.add_zero, Nat.mod_eq_of_lt hk]
    exact iff_of_true rfl hwraps

end SplitCounter

end EdgeSlice
