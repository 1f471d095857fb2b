import Mathlib.Algebra.Order.Floor.Ring
import Mathlib.Data.Int.Log
import Mathlib.Data.Rat.Floor
import Mathlib.Tactic.Linarith
import Mathlib.Tactic.NormNum
import Mathlib.Tactic.Positivity
import Mathlib.Tactic.Ring

/-! Decimal texts of binary floating-point numbers. -/

namespace EdgeSlice

/-- A decimal text, by its digits and the exponent of the last one. -/
structure Decimal where
  digits : ℕ
  exponent : ℤ
  deriving DecidableEq, Repr

namespace Decimal

def value (t : Decimal) : ℚ := t.digits * 10 ^ t.exponent

/-- The number has at most `n` significant digits. -/
def HasDigits (n : ℕ) (v : ℚ) : Prop := ∃ t : Decimal, t.digits < 10 ^ n ∧ t.value = v

/-- The nearest integer, and the even one of two. -/
def roundHalfEven (x : ℚ) : ℤ :=
  if x - ⌊x⌋ < 1 / 2 then ⌊x⌋
  else if 1 / 2 < x - ⌊x⌋ then ⌊x⌋ + 1
  else if ⌊x⌋ % 2 = 0 then ⌊x⌋ else ⌊x⌋ + 1

/-- The distance between the doubles around a positive number. -/
def ulp (x : ℚ) : ℚ := 2 ^ max (Int.log 2 x - 52) (-1074)

/-- The double next to a positive number; `none` for the infinite one. -/
def binary64 (x : ℚ) : Option ℚ :=
  let y := roundHalfEven (x / ulp x) * ulp x
  if y < 2 ^ 1024 then some y else none

/-- The format `%.*E` of a positive number, with `prec` digits behind the first one. -/
def formatE (prec : ℕ) (x : ℚ) : Decimal :=
  let e := Int.log 10 x
  let m := (roundHalfEven (x / 10 ^ (e - prec))).toNat
  if m = 10 ^ (prec + 1) then ⟨10 ^ prec, e + 1 - prec⟩ else ⟨m, e - prec⟩

variable {x v : ℚ} {n m prec d : ℕ} {e : ℤ}

theorem HasDigits.mono (h : HasDigits n v) (hle : n ≤ m) : HasDigits m v := by
  obtain ⟨t, ht, rfl⟩ := h
  exact ⟨t, ht.trans_le (Nat.pow_le_pow_right (by decide) hle), rfl⟩

theorem abs_roundHalfEven_sub_le (x : ℚ) : |(roundHalfEven x : ℚ) - x| ≤ 1 / 2 := by
  have hle := Int.floor_le x
  have hlt := Int.lt_floor_add_one x
  rw [abs_le, roundHalfEven]
  split_ifs
  · constructor <;> linarith
  · push_cast
    constructor <;> linarith
  · constructor <;> linarith
  · push_cast
    constructor <;> linarith

theorem roundHalfEven_eq {k : ℤ} (h : |x - k| < 1 / 2) : roundHalfEven x = k := by
  have hround := abs_roundHalfEven_sub_le x
  rw [abs_le] at hround
  rw [abs_lt] at h
  have hlt : (roundHalfEven x : ℚ) < k + 1 := by linarith
  have hgt : (k : ℚ) - 1 < roundHalfEven x := by linarith
  have hlt' : roundHalfEven x < k + 1 := by exact_mod_cast hlt
  have hgt' : k - 1 < roundHalfEven x := by exact_mod_cast hgt
  omega

theorem ulp_pos (x : ℚ) : 0 < ulp x := zpow_pos (by norm_num) _

theorem abs_roundHalfEven_mul_sub_le {u : ℚ} (hu : 0 < u) (x : ℚ) : |roundHalfEven (x / u) * u - x| ≤ u / 2 := by
  have hround := mul_le_mul_of_nonneg_right (abs_roundHalfEven_sub_le (x / u)) hu.le
  have hx : x / u * u = x := div_mul_cancel₀ x hu.ne'
  rw [← abs_of_pos hu, ← abs_mul, abs_of_pos hu, sub_mul, hx] at hround
  linarith

/-- A double is never farther away than half of the last place. -/
theorem binary64_eq (hmin : 2 ^ (-1022 : ℤ) ≤ x) (hmax : x < 2 ^ 1024 - 2 ^ 970) :
    ∃ y, binary64 x = some y ∧ |y - x| ≤ x * 2 ^ (-53 : ℤ) := by
  have hpos : 0 < x := lt_of_lt_of_le (zpow_pos (by norm_num) _) hmin
  have hlog : -1022 ≤ Int.log 2 x := (Int.zpow_le_iff_le_log (by decide) hpos).mp (by exact_mod_cast hmin)
  have hlog' : Int.log 2 x < 1024 := by
    refine (Int.lt_zpow_iff_log_lt (by decide) hpos).mp ?_
    have hlt : x < 2 ^ 1024 := hmax.trans (sub_lt_self _ (by positivity))
    exact_mod_cast hlt
  have hulp : ulp x = 2 ^ (Int.log 2 x - 52) := by
    rw [ulp, max_eq_left (by omega)]
  have herror := abs_roundHalfEven_mul_sub_le (ulp_pos x) x
  have hsmall : ulp x / 2 ≤ x * 2 ^ (-53 : ℤ) := by
    have hle : (2 : ℚ) ^ Int.log 2 x ≤ x := by exact_mod_cast Int.zpow_log_le_self (by decide : 1 < 2) hpos
    have hhalf : ulp x / 2 = 2 ^ Int.log 2 x * 2 ^ (-53 : ℤ) := by
      rw [hulp, div_eq_mul_inv, ← zpow_neg_one, ← zpow_add₀ two_ne_zero, ← zpow_add₀ two_ne_zero]
      congr 1
      omega
    rw [hhalf]
    exact mul_le_mul_of_nonneg_right hle (zpow_nonneg (by norm_num) _)
  have hlast : ulp x / 2 ≤ 2 ^ 970 := by
    have hle : ulp x ≤ 2 ^ (971 : ℤ) := by
      rw [hulp]
      exact zpow_le_zpow_right₀ (by norm_num) (by omega)
    have hpow : (2 : ℚ) ^ (971 : ℤ) = 2 * 2 ^ 970 := by
      rw [zpow_ofNat, pow_succ']
    rw [hpow, mul_comm] at hle
    exact (div_le_iff₀ two_pos).mpr hle
  have hfinite : roundHalfEven (x / ulp x) * ulp x < 2 ^ 1024 := by
    have habs := sub_le_iff_le_add'.mp ((abs_le.mp herror).2.trans hlast)
    exact habs.trans_lt (lt_sub_iff_add_lt.mp hmax)
  exact ⟨_, if_pos hfinite, herror.trans hsmall⟩

/-- The text has the digits that are asked for. -/
theorem formatE_value (prec : ℕ) (x : ℚ) : (formatE prec x).value =
    (roundHalfEven (x / 10 ^ (Int.log 10 x - prec))).toNat * 10 ^ (Int.log 10 x - prec) := by
  rw [formatE]
  split_ifs with hcarry
  · have hexponent : Int.log 10 x + 1 - prec = 1 + (Int.log 10 x - prec) := by omega
    simp only [value, hcarry, hexponent, zpow_add₀ (by norm_num : (10 : ℚ) ≠ 0)]
    push_cast
    ring
  · rfl

theorem log_bounds (hx : 0 < x) : 10 ^ Int.log 10 x ≤ x ∧ x < 10 ^ (Int.log 10 x + 1) := by
  have hle := Int.zpow_log_le_self (by decide : 1 < 10) hx
  have hlt := Int.lt_zpow_succ_log_self (by decide : 1 < 10) x
  push_cast at hle hlt
  exact ⟨hle, hlt⟩

theorem le_roundHalfEven {k : ℤ} (h : k ≤ x) : k ≤ roundHalfEven x := by
  have hround := (abs_le.mp (abs_roundHalfEven_sub_le x)).1
  have hlt : (k : ℚ) - 1 < roundHalfEven x := by linarith
  have hlt' : k - 1 < roundHalfEven x := by exact_mod_cast hlt
  omega

theorem roundHalfEven_le {k : ℤ} (h : x ≤ k) : roundHalfEven x ≤ k := by
  have hround := (abs_le.mp (abs_roundHalfEven_sub_le x)).2
  have hlt : (roundHalfEven x : ℚ) < k + 1 := by linarith
  have hlt' : roundHalfEven x < k + 1 := by exact_mod_cast hlt
  omega

theorem ten_zpow_split (n : ℕ) (k : ℤ) : (10 : ℚ) ^ (n + k) = 10 ^ n * 10 ^ k := by
  rw [zpow_add₀ (by norm_num), zpow_natCast]

/-- The mantissa has one digit before the point, and `prec` behind it. -/
theorem mantissa_bounds (prec : ℕ) (hx : 0 < x) :
    10 ^ prec ≤ (roundHalfEven (x / 10 ^ (Int.log 10 x - prec))).toNat ∧
      (roundHalfEven (x / 10 ^ (Int.log 10 x - prec))).toNat ≤ 10 ^ (prec + 1) := by
  obtain ⟨hle, hlt⟩ := log_bounds hx
  have hpow : (0 : ℚ) < 10 ^ (Int.log 10 x - prec) := zpow_pos (by norm_num) _
  have hlow : (10 : ℚ) ^ Int.log 10 x = 10 ^ prec * 10 ^ (Int.log 10 x - prec) := by
    rw [← ten_zpow_split]
    congr 1
    omega
  have hhigh : (10 : ℚ) ^ (Int.log 10 x + 1) = 10 ^ (prec + 1) * 10 ^ (Int.log 10 x - prec) := by
    rw [← ten_zpow_split]
    congr 1
    push_cast
    omega
  rw [hlow] at hle
  rw [hhigh] at hlt
  have hge : ((10 ^ prec : ℕ) : ℤ) ≤ roundHalfEven (x / 10 ^ (Int.log 10 x - prec)) := by
    refine le_roundHalfEven ?_
    push_cast
    exact (le_div_iff₀ hpow).mpr hle
  have hle' : roundHalfEven (x / 10 ^ (Int.log 10 x - prec)) ≤ ((10 ^ (prec + 1) : ℕ) : ℤ) := by
    refine roundHalfEven_le ?_
    push_cast
    exact ((div_lt_iff₀ hpow).mpr hlt).le
  omega

theorem formatE_hasDigits (prec : ℕ) (hx : 0 < x) : HasDigits (prec + 1) (formatE prec x).value := by
  refine ⟨formatE prec x, ?_, rfl⟩
  have hle := (mantissa_bounds prec hx).2
  rw [formatE]
  split_ifs with hcarry
  · exact Nat.pow_lt_pow_right (by decide) (Nat.lt_succ_self prec)
  · exact lt_of_le_of_ne hle hcarry

theorem formatE_bounds (prec : ℕ) (hx : 0 < x) :
    10 ^ Int.log 10 x ≤ (formatE prec x).value ∧ (formatE prec x).value ≤ 10 ^ (Int.log 10 x + 1) := by
  obtain ⟨hlow, hhigh⟩ := mantissa_bounds prec hx
  have hpow : (0 : ℚ) ≤ 10 ^ (Int.log 10 x - prec) := zpow_nonneg (by norm_num) _
  have hstart : Int.log 10 x = prec + (Int.log 10 x - prec) := by omega
  have hend : Int.log 10 x + 1 = (prec + 1 : ℕ) + (Int.log 10 x - prec) := by
    push_cast
    omega
  rw [formatE_value]
  constructor
  · nth_rewrite 1 [hstart]
    rw [ten_zpow_split]
    exact mul_le_mul_of_nonneg_right (by exact_mod_cast hlow) hpow
  · rw [hend, ten_zpow_split]
    exact mul_le_mul_of_nonneg_right (by exact_mod_cast hhigh) hpow

/-- A number next to one with few digits does not have more places before the point. -/
theorem log_le (hdigits : d < 10 ^ (prec + 1)) (hprec : prec ≤ 11) (hpos : 0 < x)
    (hx : x ≤ d * 10 ^ e * (1 + 2 ^ (-53 : ℤ))) : Int.log 10 x ≤ prec + e := by
  have hpow : (0 : ℚ) < 10 ^ e := zpow_pos (by norm_num) _
  have hsmall : (10 : ℚ) ^ (prec + 1) ≤ 10 ^ 12 := pow_le_pow_right₀ (by norm_num) (by omega)
  have hd : (d : ℚ) + 1 ≤ 10 ^ (prec + 1) := by exact_mod_cast hdigits
  have hfactor : (d : ℚ) * (1 + 2 ^ (-53 : ℤ)) < 10 ^ (prec + 1) := by
    norm_num at hsmall ⊢
    linarith
  have hlt : x < 10 ^ (prec + 1 + e) := by
    have hsplit : (10 : ℚ) ^ (prec + 1 + e) = 10 ^ (prec + 1) * 10 ^ e := by
      have h := ten_zpow_split (prec + 1) e
      push_cast at h
      exact h
    rw [hsplit]
    calc x ≤ d * (1 + 2 ^ (-53 : ℤ)) * 10 ^ e := by linarith
      _ < 10 ^ (prec + 1) * 10 ^ e := mul_lt_mul_of_pos_right hfactor hpow
  have hlog : Int.log 10 x < prec + 1 + e :=
    (Int.lt_zpow_iff_log_lt (by decide) hpos).mp (by exact_mod_cast hlt)
  omega

theorem pos_of_close (hv : 0 < v) (hx : |x - v| ≤ v * 2 ^ (-53 : ℤ)) : 0 < x := by
  have hclose := (abs_le.mp hx).1
  norm_num at hclose
  linarith

/-- A number with few digits is read back from a number next to it. -/
theorem formatE_eq (hv : 0 < v) (hdigits : HasDigits (prec + 1) v) (hprec : prec ≤ 11)
    (hx : |x - v| ≤ v * 2 ^ (-53 : ℤ)) : (formatE prec x).value = v := by
  obtain ⟨⟨d, e⟩, hd, rfl⟩ := hdigits
  have hv' : (⟨d, e⟩ : Decimal).value = d * 10 ^ e := rfl
  rw [hv'] at hv hx ⊢
  have hclose := abs_le.mp hx
  have hpos := pos_of_close hv hx
  have hlog : Int.log 10 x ≤ prec + e := log_le hd hprec hpos (by linarith)
  obtain ⟨_, hlt⟩ := log_bounds hpos
  have hcell : (0 : ℚ) < 10 ^ (Int.log 10 x - prec) := zpow_pos (by norm_num) _
  obtain ⟨k, hk⟩ : ∃ k : ℕ, e = k + (Int.log 10 x - prec) := ⟨(prec + e - Int.log 10 x).toNat, by omega⟩
  have hvalue : (d : ℚ) * 10 ^ e = ((d * 10 ^ k : ℕ) : ℤ) * 10 ^ (Int.log 10 x - prec) := by
    nth_rewrite 1 [hk]
    rw [ten_zpow_split]
    push_cast
    ring
  have hend : (10 : ℚ) ^ (Int.log 10 x + 1) = 10 ^ (prec + 1) * 10 ^ (Int.log 10 x - prec) := by
    rw [← ten_zpow_split]
    congr 1
    push_cast
    omega
  have hround : roundHalfEven (x / 10 ^ (Int.log 10 x - prec)) = ((d * 10 ^ k : ℕ) : ℤ) := by
    rw [hvalue] at hx hclose
    rw [hend] at hlt
    generalize ((d * 10 ^ k : ℕ) : ℤ) = N at hx hclose ⊢
    generalize (10 : ℚ) ^ (Int.log 10 x - prec) = c at hx hclose hlt hcell ⊢
    have hN : (N : ℚ) * (1 - 2 ^ (-53 : ℤ)) < 10 ^ (prec + 1) := by
      refine lt_of_mul_lt_mul_right ?_ hcell.le
      linarith
    have hsmall : (10 : ℚ) ^ (prec + 1) ≤ 10 ^ 12 := pow_le_pow_right₀ (by norm_num) (by omega)
    apply roundHalfEven_eq
    have hdiv : x / c - N = (x - N * c) / c := by
      rw [sub_div, mul_div_cancel_right₀ _ hcell.ne']
    rw [hdiv, abs_div, abs_of_pos hcell, div_lt_iff₀ hcell]
    refine hx.trans_lt ?_
    have hhalf : (N : ℚ) * 2 ^ (-53 : ℤ) < 1 / 2 := by
      norm_num at hN hsmall ⊢
      linarith
    calc (N : ℚ) * c * 2 ^ (-53 : ℤ) = N * 2 ^ (-53 : ℤ) * c := by ring
      _ < 1 / 2 * c := mul_lt_mul_of_pos_right hhalf hcell
  rw [formatE_value, hround, Int.toNat_natCast, hvalue]
  rfl

/-- A number is kept if it does not have more digits than the text. -/
theorem formatE_eq_iff (hv : 0 < v) (hprec : prec ≤ 11) (hx : |x - v| ≤ v * 2 ^ (-53 : ℤ)) :
    (formatE prec x).value = v ↔ HasDigits (prec + 1) v := by
  constructor
  · intro h
    rw [← h]
    exact formatE_hasDigits prec (pos_of_close hv hx)
  · intro h
    exact formatE_eq hv h hprec hx

end Decimal

end EdgeSlice
