import Mathlib.Data.List.Induction
import Mathlib.Algebra.GroupWithZero.Nat
import Mathlib.Tactic.Ring

namespace EdgeSlice

/-- The number that bytes stand for, most significant byte first. -/
def beValue (bs : List UInt8) : ℕ := bs.foldl (fun n b ↦ 256 * n + b.toNat) 0

/-- The last `k` bytes of a number, most significant byte first. -/
def beBytes : ℕ → ℕ → List UInt8
  | 0, _ => []
  | k + 1, n => beBytes k (n / 256) ++ [UInt8.ofNat n]

@[simp] theorem beBytes_length (k n : ℕ) : (beBytes k n).length = k := by
  induction k generalizing n with
  | zero => rfl
  | succ k ih => rw [beBytes, List.length_append, ih, List.length_singleton]

theorem beValue_append_singleton (bs : List UInt8) (b : UInt8) :
    beValue (bs ++ [b]) = 256 * beValue bs + b.toNat := by
  rw [beValue, List.foldl_append]
  rfl

theorem beValue_beBytes {k n : ℕ} (h : n < 256 ^ k) : beValue (beBytes k n) = n := by
  induction k generalizing n with
  | zero =>
    rw [pow_zero, Nat.lt_one_iff] at h
    rw [h]
    rfl
  | succ k ih =>
    have hdiv : n / 256 < 256 ^ k := Nat.div_lt_of_lt_mul (by rwa [pow_succ, mul_comm] at h)
    have hmod : (UInt8.ofNat n).toNat = n % 256 := UInt8.toNat_ofNat'
    rw [beBytes, beValue_append_singleton, ih hdiv, hmod]
    exact Nat.div_add_mod n 256

theorem beValue_lt (bs : List UInt8) : beValue bs < 256 ^ bs.length := by
  induction bs using List.reverseRecOn with
  | nil => exact Nat.one_pos
  | append_singleton bs b ih =>
    rw [beValue_append_singleton, List.length_append, List.length_singleton, pow_succ]
    have := b.toNat_lt
    omega

theorem beBytes_beValue (bs : List UInt8) : beBytes bs.length (beValue bs) = bs := by
  induction bs using List.reverseRecOn with
  | nil => rfl
  | append_singleton bs b ih =>
    have hb : b.toNat < 256 := b.toNat_lt
    have hdiv : (256 * beValue bs + b.toNat) / 256 = beValue bs := by omega
    have hofNat : UInt8.ofNat (256 * beValue bs + b.toNat) = b := by
      apply UInt8.toNat_inj.mp
      rw [UInt8.toNat_ofNat']
      omega
    rw [List.length_append, List.length_singleton, beValue_append_singleton, beBytes, hdiv, ih, hofNat]

/-- Bytes of one length are known by their number. -/
theorem beValue_inj {as bs : List UInt8} (hlen : as.length = bs.length)
    (h : beValue as = beValue bs) : as = bs := by
  rw [← beBytes_beValue as, ← beBytes_beValue bs, hlen, h]

end EdgeSlice
