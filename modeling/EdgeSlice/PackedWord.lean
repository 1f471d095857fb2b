import Mathlib.Data.Nat.Bitwise

/-! Words that pack fields of bits, in the order of their places. -/

namespace EdgeSlice.PackedWord

/-- A field of a packed structure: its lowest bit, and how many bits it has. -/
structure Field where
  lo : ℕ
  width : ℕ
  deriving DecidableEq

namespace Field

variable (f g : Field) (v w i : ℕ)

def get : ℕ := w >>> f.lo % 2 ^ f.width

/-- The word `w` with `v` written into the field. -/
def put : ℕ := (w >>> (f.lo + f.width)) <<< (f.lo + f.width) ||| (v % 2 ^ f.width) <<< f.lo ||| w % 2 ^ f.lo

def Holds : Prop := f.lo ≤ i ∧ i < f.lo + f.width

theorem testBit_get : (f.get w).testBit i = (decide (i < f.width) && w.testBit (f.lo + i)) := by
  rw [get, Nat.testBit_mod_two_pow, Nat.testBit_shiftRight]

variable {f g v w i}

theorem testBit_put_of_holds (h : f.Holds i) : (f.put v w).testBit i = v.testBit (i - f.lo) := by
  obtain ⟨hlow, hhigh⟩ := h
  have habove : ¬ f.lo + f.width ≤ i := by omega
  have hbelow : ¬ i < f.lo := by omega
  have hin : i - f.lo < f.width := by omega
  simp [put, Nat.testBit_shiftLeft, Nat.testBit_mod_two_pow, habove, hbelow, hlow, hin]

theorem testBit_put_of_not_holds (h : ¬ f.Holds i) : (f.put v w).testBit i = w.testBit i := by
  rcases lt_or_ge i f.lo with hlow | hlow
  · have habove : ¬ f.lo + f.width ≤ i := by omega
    simp [put, Nat.testBit_shiftLeft, Nat.testBit_mod_two_pow, habove, hlow]
  · have habove : f.lo + f.width ≤ i := by
      by_contra hlt
      exact h ⟨hlow, by omega⟩
    have hbelow : ¬ i < f.lo := by omega
    have hout : ¬ i - f.lo < f.width := by omega
    simp [put, Nat.testBit_shiftLeft, Nat.testBit_mod_two_pow, Nat.testBit_shiftRight, habove, hbelow, hout]

theorem get_put_self : f.get (f.put v w) = v % 2 ^ f.width := by
  apply Nat.eq_of_testBit_eq
  intro i
  rw [testBit_get, Nat.testBit_mod_two_pow]
  by_cases hi : i < f.width
  · rw [testBit_put_of_holds ⟨by omega, by omega⟩, Nat.add_sub_cancel_left]
  · simp [hi]

/-- A wider field with the same top reads the written value above its own low bits. -/
theorem get_put_of_top (hlo : g.lo ≤ f.lo) (htop : f.lo + f.width = g.lo + g.width) :
    g.get (f.put v w) = v % 2 ^ f.width * 2 ^ (f.lo - g.lo) + w >>> g.lo % 2 ^ (f.lo - g.lo) := by
  have hlt : w >>> g.lo % 2 ^ (f.lo - g.lo) < 2 ^ (f.lo - g.lo) := Nat.mod_lt _ (Nat.two_pow_pos _)
  rw [← Nat.shiftLeft_eq, Nat.shiftLeft_add_eq_or_of_lt hlt]
  apply Nat.eq_of_testBit_eq
  intro i
  simp only [testBit_get, Nat.testBit_or, Nat.testBit_shiftLeft, Nat.testBit_mod_two_pow, Nat.testBit_shiftRight]
  by_cases hi : i < g.width
  · by_cases hlow : g.lo + i < f.lo
    · have hout : ¬ f.Holds (g.lo + i) := fun h ↦ by have := h.1; omega
      have h₁ : ¬ f.lo - g.lo ≤ i := by omega
      have h₂ : i < f.lo - g.lo := by omega
      simp [testBit_put_of_not_holds hout, hi, h₁, h₂]
    · have hin : f.Holds (g.lo + i) := ⟨by omega, by omega⟩
      have h₁ : f.lo - g.lo ≤ i := by omega
      have h₂ : ¬ i < f.lo - g.lo := by omega
      have h₃ : i - (f.lo - g.lo) < f.width := by omega
      have h₄ : g.lo + i - f.lo = i - (f.lo - g.lo) := by omega
      simp [testBit_put_of_holds hin, hi, h₁, h₂, h₃, h₄]
  · have h₁ : ¬ i < f.lo - g.lo := by omega
    have h₂ : ¬ i - (f.lo - g.lo) < f.width := by omega
    simp [hi, h₁, h₂]

/-- A narrower field with the same top reads the high bits of the written value. -/
theorem get_put_of_narrow (hlo : f.lo ≤ g.lo) (htop : f.lo + f.width = g.lo + g.width) :
    g.get (f.put v w) = v % 2 ^ f.width / 2 ^ (g.lo - f.lo) := by
  rw [← Nat.shiftRight_eq_div_pow]
  apply Nat.eq_of_testBit_eq
  intro i
  rw [testBit_get, Nat.testBit_shiftRight, Nat.testBit_mod_two_pow]
  by_cases hi : i < g.width
  · have hin : f.Holds (g.lo + i) := ⟨by omega, by omega⟩
    have h₁ : g.lo - f.lo + i < f.width := by omega
    have h₂ : g.lo + i - f.lo = g.lo - f.lo + i := by omega
    simp [testBit_put_of_holds hin, hi, h₁, h₂]
  · have h₁ : ¬ g.lo - f.lo + i < f.width := by omega
    simp [hi, h₁]

end Field

end EdgeSlice.PackedWord
