import EdgeSlice.Mac.UlBuffer
import EdgeSlice.MonotoneSearch

namespace EdgeSlice.Mac

open Function MonotoneSearch

/-- The middle of two `uint8_t` bounds, computed as an `int`. -/
def middle (jl ju : UInt8) : UInt8 := UInt8.ofNat ((ju.toNat + jl.toNat) >>> 1)

theorem middle_toNat (jl ju : UInt8) : (middle jl ju).toNat = (ju.toNat + jl.toNat) / 2 := by
  have hu := ju.toNat_lt
  have hl := jl.toNat_lt
  rw [middle, Nat.shiftRight_one, UInt8.toNat_ofNat', Nat.mod_eq_of_lt (by omega)]

/-- The loop of the search. A comparison of `value` with an entry is one of unsigned
words. -/
def locateLoop (table : ℕ → UInt32) (ascend : Bool) (value : Int32) (jl ju : UInt8) : UInt8 :=
  if 1 < ju.toNat - jl.toNat then
    if decide (table (middle jl ju).toNat ≤ value.toUInt32) == ascend then
      locateLoop table ascend value (middle jl ju) ju
    else locateLoop table ascend value jl (middle jl ju)
  else jl
termination_by ju.toNat - jl.toNat
decreasing_by all_goals rw [middle_toNat]; omega

/-- `none` where an assertion stops the UE. -/
def locateBsrIndexByBufferSize (table : ℕ → UInt32) (size : ℕ) (value : Int32) : Option UInt8 :=
  if 0 < size ∧ size ≤ 256 then
    if value = 0 then some 0
    else
      let ju := UInt8.ofNat (size - 1)
      let ascend := decide (table 0 ≤ table ju.toNat)
      let jl := locateLoop table ascend value 0 ju
      if value.toUInt32 = table jl.toNat then some jl else some (jl + 1)
  else none

/-- The loop halves the interval of indices, up where the entry is at most the value. -/
theorem locateLoop_toNat (table : ℕ → UInt32) (value : Int32) (jl ju : UInt8) :
    (locateLoop table true value jl ju).toNat =
      bisect (fun j ↦ decide (table j ≤ value.toUInt32)) jl.toNat ju.toNat := by
  fun_induction locateLoop table true value jl ju with
  | case1 jl ju hgap hup ih =>
    rw [bisect, if_pos hgap, ← middle_toNat, if_pos (by simpa using hup)]
    exact ih
  | case2 jl ju hgap hdown ih =>
    rw [bisect, if_pos hgap, ← middle_toNat, if_neg (by simpa using hdown)]
    exact ih
  | case3 jl ju hgap => rw [bisect, if_neg hgap]

theorem unsigned_le {value : Int32} (hvalue : 0 ≤ value) (w : UInt32) :
    w ≤ value.toUInt32 ↔ (w.toNat : ℤ) ≤ value.toInt := by
  have hpos : 0 ≤ value.toInt := Int32.le_iff_toInt_le.mp hvalue
  rw [UInt32.le_iff_toNat_le, Int32.toNat_toUInt32_of_le hvalue, Int32.toNatClampNeg]
  omega

theorem unsigned_eq {value : Int32} (hvalue : 0 ≤ value) (w : UInt32) :
    value.toUInt32 = w ↔ value.toInt = (w.toNat : ℤ) := by
  have hpos : 0 ≤ value.toInt := Int32.le_iff_toInt_le.mp hvalue
  rw [← UInt32.toNat_inj, Int32.toNat_toUInt32_of_le hvalue, Int32.toNatClampNeg]
  omega

/-- The tables the search is written for. -/
structure Increasing (table : ℕ → UInt32) (size : ℕ) : Prop where
  two_le : 2 ≤ size
  le : size ≤ 256
  zero : table 0 = 0
  lt : ∀ i j, i < j → j < size → table i < table j

/-- The least index whose entry holds the value, or the last one for a value above every
entry. -/
def LeastCovering (table : ℕ → UInt32) (size : ℕ) (value : Int32) (i : ℕ) : Prop :=
  i < size ∧ (∀ j < i, ((table j).toNat : ℤ) < value.toInt) ∧
    (value.toInt ≤ (table i).toNat ∨
      i = size - 1 ∧ ∀ j < size, ((table j).toNat : ℤ) < value.toInt)

variable {table : ℕ → UInt32} {size : ℕ} {value : Int32}

theorem Increasing.le_of_le (h : Increasing table size) {i j : ℕ} (hij : i ≤ j) (hj : j < size) :
    (table i).toNat ≤ (table j).toNat := by
  rcases Nat.eq_or_lt_of_le hij with rfl | hlt
  · exact le_rfl
  · exact (UInt32.lt_iff_toNat_lt.mp (h.lt i j hlt hj)).le

/-- Two neighbours with the value between them settle the search. -/
theorem Increasing.leastCovering (h : Increasing table size) {j : ℕ} (hj : j + 1 < size)
    (hlower : ((table j).toNat : ℤ) ≤ value.toInt)
    (hupper : j + 1 = size - 1 ∨ value.toInt < (table (j + 1)).toNat) :
    LeastCovering table size value (if value.toInt = (table j).toNat then j else j + 1) := by
  have hbelow : ∀ i < j, ((table i).toNat : ℤ) < value.toInt := by
    intro i hi
    have hlt := UInt32.lt_iff_toNat_lt.mp (h.lt i j hi (by omega))
    omega
  split
  · next heq => exact ⟨by omega, hbelow, .inl heq.le⟩
  · next hne =>
    have hbelow' : ∀ i < j + 1, ((table i).toNat : ℤ) < value.toInt := by
      intro i hi
      have hle := h.le_of_le (Nat.le_of_lt_succ hi) (by omega)
      omega
    refine ⟨hj, hbelow', ?_⟩
    rcases hupper with hlast | hlt
    · by_cases hcovers : value.toInt ≤ (table (j + 1)).toNat
      · exact .inl hcovers
      · refine .inr ⟨hlast, fun i hi ↦ ?_⟩
        have hle := h.le_of_le (show i ≤ j + 1 by omega) hj
        omega
    · exact .inl hlt.le

theorem locateBsrIndex_leastCovering (h : Increasing table size) (hvalue : 0 ≤ value) :
    ∃ i, locateBsrIndexByBufferSize table size value = some i ∧
      LeastCovering table size value i.toNat := by
  have htwo := h.two_le
  have hle := h.le
  have hvalueInt : 0 ≤ value.toInt := Int32.le_iff_toInt_le.mp hvalue
  rw [locateBsrIndexByBufferSize, if_pos ⟨by omega, hle⟩]
  by_cases hzero : value = 0
  · rw [if_pos hzero]
    refine ⟨0, rfl, ?_⟩
    subst hzero
    exact ⟨by simpa using (by omega : 0 < size), by simp, .inl (by simp)⟩
  · rw [if_neg hzero]
    have hju : (UInt8.ofNat (size - 1)).toNat = size - 1 := by
      rw [UInt8.toNat_ofNat', Nat.mod_eq_of_lt (by omega)]
    have hascend : decide (table 0 ≤ table (size - 1)) = true := by
      rw [decide_eq_true_eq]
      exact UInt32.le_of_lt (h.lt 0 (size - 1) (by omega) (by omega))
    simp only [hju, hascend]
    have hspec := bisect_spec (fun j ↦ decide (table j ≤ value.toUInt32)) 0 (size - 1) (by omega)
    have hloop := locateLoop_toNat table value 0 (UInt8.ofNat (size - 1))
    rw [hju, UInt8.toNat_zero] at hloop
    rw [← hloop] at hspec
    set jl := locateLoop table true value 0 (UInt8.ofNat (size - 1))
    obtain ⟨⟨-, hlt⟩, hlower, hupper⟩ := hspec
    have hsucc : (jl + 1).toNat = jl.toNat + 1 := by
      rw [UInt8.toNat_add, UInt8.toNat_one, Nat.mod_eq_of_lt (by omega)]
    have hcovering : LeastCovering table size value
        (if value.toInt = (table jl.toNat).toNat then jl.toNat else jl.toNat + 1) := by
      apply h.leastCovering (by omega)
      · rcases hlower with hstart | hp
        · rw [hstart, h.zero]
          exact hvalueInt
        · exact (unsigned_le hvalue _).mp (by simpa using hp)
      · rcases hupper with hlast | hp
        · exact .inl (by omega)
        · have hnot := (unsigned_le hvalue (table (jl.toNat + 1))).not.mp (by simpa using hp)
          exact .inr (by omega)
    simp only [unsigned_eq hvalue]
    split
    · next heq => exact ⟨jl, rfl, by rwa [if_pos heq] at hcovering⟩
    · next hne => exact ⟨jl + 1, rfl, by rwa [if_neg hne, ← hsucc] at hcovering⟩

/-- The entry read back holds every value up to the last entry. -/
theorem LeastCovering.covers {i : ℕ} (h : LeastCovering table size value i)
    (hlast : value.toInt ≤ (table (size - 1)).toNat) : value.toInt ≤ (table i).toNat := by
  rcases h.2.2 with hcovers | hlt
  · exact hcovers
  · have hpos := h.1
    have habove := hlt.2 (size - 1) (by omega)
    omega

theorem locateBsrIndex_exact (h : Increasing table size) (hvalue : 0 ≤ value) :
    ∃ i, locateBsrIndexByBufferSize table size value = some i ∧
      LeastCovering table size value i.toNat ∧
      (value.toInt ≤ (table (size - 1)).toNat → value.toInt ≤ (table i.toNat).toNat) := by
  obtain ⟨i, hi, hcovering⟩ := locateBsrIndex_leastCovering h hvalue
  exact ⟨i, hi, hcovering, hcovering.covers⟩

/-- `BSR_TABLE` as the UE reads it. -/
def bsrWord (j : ℕ) : UInt32 := UInt32.ofNat (bsrTable.toList.getD j 0)

theorem bsrWord_get (bsr : Fin 64) : (bsrWord bsr).toNat = bsrTable.get bsr := by
  revert bsr
  decide

theorem bsrTable_lt {i j : Fin 64} (h : i < j) : bsrTable.get i < bsrTable.get j := by
  have hstep : ∀ k : Fin 63, bsrTable.get k.castSucc < bsrTable.get k.succ := by decide
  exact Fin.strictMono_iff_lt_succ.mpr hstep h

theorem bsrWord_increasing : Increasing bsrWord 64 where
  two_le := by omega
  le := by omega
  zero := rfl
  lt i j hij hj := by
    have h : bsrTable.get ⟨i, hij.trans hj⟩ < bsrTable.get ⟨j, hj⟩ := bsrTable_lt hij
    apply UInt32.lt_iff_toNat_lt.mpr
    rwa [← bsrWord_get, ← bsrWord_get] at h

theorem bsrTable_index_exact :
    ∃ i, locateBsrIndexByBufferSize bsrWord 64 20 = some i ∧
      LeastCovering bsrWord 64 20 i.toNat ∧
      ((20 : Int32).toInt ≤ (bsrWord 63).toNat → (20 : Int32).toInt ≤ (bsrWord i.toNat).toNat) :=
  locateBsrIndex_exact bsrWord_increasing (by decide)

/-- An index below 64 is a short report of the first group. -/
theorem rxShortBsr_index {i : UInt8} (hi : i.toNat < 64) (t : UeTemplate) :
    (rxShortBsr i t).ulBufferInfo 0 = bsrTable.get ⟨i.toNat, hi⟩ := by
  have hgroup : (Fin.ofNat 4 (i >>> 6).toNat : Fin 4) = 0 := by
    apply Fin.ext
    have hshift : (i >>> 6).toNat = i.toNat / 2 ^ 6 := by
      simp [UInt8.toNat_shiftRight, Nat.shiftRight_eq_div_pow]
    simp only [Fin.ofNat, hshift]
    omega
  have hindex : (Fin.ofNat 64 (i &&& 0x3f).toNat : Fin 64) = ⟨i.toNat, hi⟩ := by
    apply Fin.ext
    have hmask : (i &&& 0x3f).toNat = i.toNat % 2 ^ 6 := by
      rw [UInt8.toNat_and, ← Nat.and_two_pow_sub_one_eq_mod]
      simp
    simp only [Fin.ofNat, hmask]
    omega
  rw [rxShortBsr, hgroup, hindex]
  simp only [update_self]

/-- A backlog of at most the last entry is held by the buffer size that the eNB reads back
from the report. -/
theorem rxShortBsr_covers (hvalue : 0 ≤ value) (hlast : value.toInt ≤ 300000) (t : UeTemplate) :
    ∃ i, locateBsrIndexByBufferSize bsrWord 64 value = some i ∧
      value.toInt ≤ ((rxShortBsr i t).ulBufferInfo 0 : ℤ) := by
  obtain ⟨i, hi, hcovering⟩ := locateBsrIndex_leastCovering bsrWord_increasing hvalue
  have hcovers := hcovering.covers hlast
  refine ⟨i, hi, ?_⟩
  rwa [rxShortBsr_index hcovering.1, ← bsrWord_get]

end EdgeSlice.Mac
