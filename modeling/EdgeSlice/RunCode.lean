import Mathlib.Data.List.Basic
import Mathlib.Tactic.Ring

/-! The runs of consecutive cells among `n`, each coded as one number. -/

namespace EdgeSlice.RunCode

variable {n : ℕ}

/-- A run of `len` cells from `start` on. The long runs take the codes that the short ones leave free. -/
def code (n start len : ℕ) : ℕ :=
  if len ≤ 1 + n / 2 then n * (len - 1) + start else n * (n + 1 - len) + (n - 1 - start)

def runs (n : ℕ) : List (ℕ × ℕ) :=
  (List.range n).flatMap fun start ↦ (List.range (n - start)).map fun k ↦ (start, k + 1)

/-- The run that has a code. -/
def lookup (n c : ℕ) : Option (ℕ × ℕ) := (runs n).find? fun r ↦ code n r.1 r.2 == c

theorem mem_runs {r : ℕ × ℕ} : r ∈ runs n ↔ 0 < r.2 ∧ r.1 + r.2 ≤ n := by
  obtain ⟨start, len⟩ := r
  simp only [runs, List.mem_flatMap, List.mem_range, List.mem_map, Prod.mk.injEq]
  constructor
  · rintro ⟨_, hs, k, hk, rfl, rfl⟩
    omega
  · intro ⟨hpos, hle⟩
    exact ⟨start, by omega, len - 1, by omega, rfl, by omega⟩

/-- The place of a code in the rows of `n` numbers. -/
theorem code_row {start len : ℕ} (hpos : 0 < len) (hle : start + len ≤ n) :
    ∃ row col, code n start len = n * row + col ∧ col < n ∧
      (len ≤ 1 + n / 2 ∧ len = row + 1 ∧ start = col ∨
        1 + n / 2 < len ∧ len = n + 1 - row ∧ row ≤ n ∧ start = n - 1 - col) := by
  by_cases hshort : len ≤ 1 + n / 2
  · exact ⟨len - 1, start, by rw [code, if_pos hshort], by omega, .inl ⟨hshort, by omega, rfl⟩⟩
  · exact ⟨n + 1 - len, n - 1 - start, by rw [code, if_neg hshort], by omega,
      .inr ⟨by omega, by omega, by omega, by omega⟩⟩

theorem row_col_unique {a a' c c' : ℕ} (hc : c < n) (hc' : c' < n) (h : n * a + c = n * a' + c') :
    a = a' ∧ c = c' := by
  have hrow : a = a' := by
    have hdiv := congrArg (· / n) h
    simpa [Nat.mul_add_div (Nat.zero_lt_of_lt hc), Nat.div_eq_of_lt hc, Nat.div_eq_of_lt hc'] using hdiv
  subst hrow
  exact ⟨rfl, Nat.add_left_cancel h⟩

theorem code_inj {start len start' len' : ℕ} (hpos : 0 < len) (hle : start + len ≤ n) (hpos' : 0 < len')
    (hle' : start' + len' ≤ n) (h : code n start len = code n start' len') : start = start' ∧ len = len' := by
  obtain ⟨row, col, hcode, hcol, hcase⟩ := code_row hpos hle
  obtain ⟨row', col', hcode', hcol', hcase'⟩ := code_row hpos' hle'
  rw [hcode, hcode'] at h
  obtain ⟨rfl, rfl⟩ := row_col_unique hcol hcol' h
  omega

theorem lookup_code {start len : ℕ} (hpos : 0 < len) (hle : start + len ≤ n) :
    lookup n (code n start len) = some (start, len) := by
  have hmem : (start, len) ∈ runs n := mem_runs.mpr ⟨hpos, hle⟩
  cases hfound : lookup n (code n start len) with
  | none =>
    have hnone := List.find?_eq_none.mp hfound (start, len) hmem
    simp at hnone
  | some r =>
    have hcode : code n r.1 r.2 = code n start len := by simpa using List.find?_some hfound
    obtain ⟨hrpos, hrle⟩ := mem_runs.mp (List.mem_of_find?_eq_some hfound)
    obtain ⟨hstart, hlen⟩ := code_inj hrpos hrle hpos hle hcode
    rw [← hstart, ← hlen]

end EdgeSlice.RunCode
