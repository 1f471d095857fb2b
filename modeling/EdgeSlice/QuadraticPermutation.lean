import Mathlib.Data.Nat.ModEq
import Mathlib.Data.Nat.Prime.Basic
import Mathlib.Data.Set.Finite.Lemmas
import Mathlib.Order.Interval.Set.Infinite
import Mathlib.Order.Interval.Finset.Nat
import Mathlib.Tactic.Ring

/-! Quadratic polynomials that permute the residues of a number. -/

namespace EdgeSlice

def quadratic (a b m i : ℕ) : ℕ := (a * i + b * i ^ 2) % m

namespace QuadraticPermutation

variable {a b m i j : ℕ}

theorem quadratic_lt (hm : 0 < m) (a b i : ℕ) : quadratic a b m i < m := Nat.mod_lt _ hm

@[simp] theorem quadratic_zero (a b m : ℕ) : quadratic a b m 0 = 0 := by
  simp [quadratic]

/-- The next value from the one before. -/
theorem quadratic_succ (a b m i : ℕ) : quadratic a b m (i + 1) = (quadratic a b m i + (a + b * (2 * i + 1))) % m := by
  have hstep : a * (i + 1) + b * (i + 1) ^ 2 = a * i + b * i ^ 2 + (a + b * (2 * i + 1)) := by ring
  rw [quadratic, quadratic, hstep, Nat.mod_add_mod]

/-- The difference of two values has a factor that has no divisor in common with `m`. -/
theorem eq_of_le (hcop : a.Coprime m) (hdvd : ∀ p, p.Prime → p ∣ m → p ∣ b) (hi : i < m) (hji : j ≤ i)
    (h : quadratic a b m i = quadratic a b m j) : i = j := by
  obtain ⟨k, rfl⟩ := Nat.exists_eq_add_of_le hji
  have hfactor : a * (j + k) + b * (j + k) ^ 2 = a * j + b * j ^ 2 + k * (a + b * (2 * j + k)) := by ring
  have hle : a * j + b * j ^ 2 ≤ a * (j + k) + b * (j + k) ^ 2 := by
    rw [hfactor]
    exact Nat.le_add_right _ _
  have hprod := (Nat.modEq_iff_dvd' hle).mp h.symm
  rw [hfactor, Nat.add_sub_cancel_left] at hprod
  have hother : m.Coprime (a + b * (2 * j + k)) := by
    apply Nat.coprime_of_dvd
    intro p hp hpm hpa
    have hpb : p ∣ b * (2 * j + k) := (hdvd p hp hpm).mul_right _
    have hone : p ∣ 1 := by
      rw [← hcop]
      exact Nat.dvd_gcd ((Nat.dvd_add_left hpb).mp hpa) hpm
    exact hp.one_lt.ne' (Nat.dvd_one.mp hone)
  have hk : k = 0 := Nat.eq_zero_of_dvd_of_lt (hother.dvd_of_dvd_mul_right hprod) (by omega)
  omega

theorem injOn (hcop : a.Coprime m) (hdvd : ∀ p, p.Prime → p ∣ m → p ∣ b) :
    Set.InjOn (quadratic a b m) (Set.Iio m) := by
  intro i hi j hj h
  rcases Nat.le_total j i with hji | hij
  · exact eq_of_le hcop hdvd hi hji h
  · exact (eq_of_le hcop hdvd hj hij h.symm).symm

theorem bijOn (hcop : a.Coprime m) (hdvd : ∀ p, p.Prime → p ∣ m → p ∣ b) :
    Set.BijOn (quadratic a b m) (Set.Iio m) (Set.Iio m) := by
  have hmaps : Set.MapsTo (quadratic a b m) (Set.Iio m) (Set.Iio m) := by
    intro i hi
    exact quadratic_lt (Nat.lt_of_le_of_lt (Nat.zero_le i) hi) a b i
  exact ((Set.finite_Iio m).injOn_iff_bijOn_of_mapsTo hmaps).mp (injOn hcop hdvd)

/-- The primes of `m` divide `b` if `m` divides a power of it. -/
theorem dvd_of_dvd_pow {k : ℕ} (h : m ∣ b ^ k) : ∀ p, p.Prime → p ∣ m → p ∣ b :=
  fun _ hp hpm ↦ hp.dvd_of_dvd_pow (hpm.trans h)

end QuadraticPermutation

end EdgeSlice
