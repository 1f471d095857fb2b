import Mathlib.Data.Nat.Notation
import Mathlib.Logic.Function.Iterate

/-! Bit sequences of a linear recursion over two elements, a bit and a word at a time. -/

namespace EdgeSlice.WordRecurrence

open Function

def parity (bits : List Bool) : Bool := bits.foldr (· ^^ ·) false

@[simp] theorem parity_nil : parity [] = false := rfl

@[simp] theorem parity_cons (b : Bool) (bits : List Bool) : parity (b :: bits) = (b ^^ parity bits) := rfl

theorem parity_xor {α : Type*} (f g : α → Bool) (as : List α) :
    parity (as.map fun a ↦ f a ^^ g a) = (parity (as.map f) ^^ parity (as.map g)) := by
  induction as with
  | nil => rfl
  | cons a as ih =>
    simp only [List.map_cons, parity_cons, ih, Bool.xor_assoc]
    rw [Bool.xor_left_comm (g a)]

/-- Bit `n + order` is the sum of the bits at the taps from `n` on. -/
def Recurs (order : ℕ) (taps : List ℕ) (x : ℕ → Bool) : Prop :=
  ∀ n, x (n + order) = parity (taps.map fun t ↦ x (n + t))

section Serial

variable {order : ℕ} (taps : List ℕ) (seed s : BitVec order) {i : ℕ}

/-- One clock of the register: the lowest bit leaves it, and the sum of the taps enters at the top. -/
def clock (s : BitVec order) : BitVec order :=
  (BitVec.cons (parity (taps.map s.getLsbD)) s).extractLsb' 1 order

def sequence (n : ℕ) : Bool := ((clock taps)^[n] seed).getLsbD 0

theorem getLsbD_clock (hi : i < order) :
    (clock taps s).getLsbD i = if i + 1 = order then parity (taps.map s.getLsbD) else s.getLsbD (i + 1) := by
  have hcons := BitVec.getLsbD_cons (parity (taps.map s.getLsbD)) s (1 + i)
  rw [clock, BitVec.getLsbD_extractLsb', decide_eq_true hi, Bool.true_and, hcons, Nat.add_comm]

theorem getLsbD_iterate_clock (n : ℕ) (hi : i < order) :
    ((clock taps)^[n] seed).getLsbD i = sequence taps seed (n + i) := by
  induction i generalizing n with
  | zero => rfl
  | succ i ih =>
    have hnext := ih (n + 1) (Nat.lt_of_succ_lt hi)
    rw [iterate_succ_apply', getLsbD_clock taps _ (Nat.lt_of_succ_lt hi), if_neg (Nat.ne_of_lt hi)] at hnext
    rw [hnext, Nat.add_assoc, Nat.add_comm 1]

/-- The sequence begins with the seed. -/
theorem sequence_seed (hi : i < order) : sequence taps seed i = seed.getLsbD i := by
  have hzero := getLsbD_iterate_clock taps seed 0 hi
  rw [Nat.zero_add] at hzero
  exact hzero.symm

theorem sequence_recurs (hpos : 0 < order) (htaps : ∀ t ∈ taps, t < order) :
    Recurs order taps (sequence taps seed) := by
  intro n
  have htop : order - 1 < order := Nat.sub_one_lt_of_lt hpos
  have hone := getLsbD_iterate_clock taps seed (n + 1) htop
  have hindex : n + 1 + (order - 1) = n + order := by omega
  rw [hindex, iterate_succ_apply', getLsbD_clock taps _ htop, if_pos (Nat.sub_add_cancel hpos)] at hone
  rw [← hone]
  congr 1
  apply List.map_congr_left
  intro t ht
  exact getLsbD_iterate_clock taps seed n (htaps t ht)

end Serial

section Words

variable {order : ℕ} (taps : List ℕ) (w : BitVec (order + 1)) {x : ℕ → Bool} {n : ℕ}

def xorAll (ws : List (BitVec (order + 1))) : BitVec (order + 1) := ws.foldr (· ^^^ ·) 0#(order + 1)

theorem getLsbD_xorAll (f : ℕ → BitVec (order + 1)) (j : ℕ) :
    (xorAll (taps.map f)).getLsbD j = parity (taps.map fun t ↦ (f t).getLsbD j) := by
  induction taps with
  | nil => exact BitVec.getLsbD_zero
  | cons t taps ih => exact BitVec.getLsbD_xor.trans (congrArg ((f t).getLsbD j ^^ ·) ih)

/-- The word of the next `order + 1` bits, the first one lowest. The bits that need one of the new word itself are
put right at the end. -/
def leap : BitVec (order + 1) :=
  xorAll (taps.map fun t ↦ w >>> (t + 1)) ^^^
    xorAll (taps.map fun t ↦ xorAll (taps.map fun t ↦ w >>> (t + 1)) <<< (order - t))

/-- A seed of `order` bits with the bit that follows it. -/
def complete : BitVec (order + 1) := w ^^^ xorAll (taps.map fun t ↦ w >>> t) <<< order

/-- The word holds the bits of the sequence from `n` on. -/
def Window (x : ℕ → Bool) (n : ℕ) (w : BitVec (order + 1)) : Prop := ∀ j ≤ order, w.getLsbD j = x (n + j)

variable {w}

theorem Window.early (h : Window x n w) (hx : Recurs order taps x) {j : ℕ} (hj : ∀ t ∈ taps, j + t < order) :
    (xorAll (taps.map fun t ↦ w >>> (t + 1))).getLsbD j = x (n + (order + 1) + j) := by
  have hindex : n + (order + 1) + j = n + 1 + j + order := by omega
  rw [getLsbD_xorAll, hindex, hx]
  congr 1
  apply List.map_congr_left
  intro t ht
  have hsmall := hj t ht
  rw [BitVec.getLsbD_ushiftRight, h _ (by omega)]
  congr 1
  omega

theorem Window.leap (h : Window x n w) (hx : Recurs order taps x) (htaps : ∀ t ∈ taps, ∀ t' ∈ taps, t + t' < order) :
    Window x (n + (order + 1)) (leap taps w) := by
  intro j hj
  have hindex : n + (order + 1) + j = n + 1 + j + order := by omega
  rw [hindex, hx, WordRecurrence.leap, BitVec.getLsbD_xor, getLsbD_xorAll, getLsbD_xorAll, ← parity_xor]
  congr 1
  apply List.map_congr_left
  intro t ht
  have htt := htaps t ht t ht
  rw [BitVec.getLsbD_ushiftRight, BitVec.getLsbD_shiftLeft, decide_eq_true (Nat.lt_succ_of_le hj), Bool.true_and]
  by_cases hold : j + t < order
  · -- the bit is one of the old word
    have hlow : j < order - t := by omega
    rw [h _ (by omega), decide_eq_true hlow, Bool.not_true, Bool.false_and, Bool.xor_false]
    congr 1
    omega
  · -- the bit is an early one of the new word
    have hlow : ¬j < order - t := by omega
    have hearly := h.early taps hx (j := j - (order - t)) fun t' ht' ↦ by
      have := htaps t ht t' ht'
      omega
    rw [BitVec.getLsbD_of_ge w _ (by omega), decide_eq_false hlow, Bool.not_false, Bool.true_and, Bool.false_xor,
      hearly]
    congr 1
    omega

theorem Window.iterate (h : Window x n w) (hx : Recurs order taps x)
    (htaps : ∀ t ∈ taps, ∀ t' ∈ taps, t + t' < order) (k : ℕ) :
    Window x (n + (order + 1) * k) ((WordRecurrence.leap taps)^[k] w) := by
  induction k with
  | zero => exact h
  | succ k ih =>
    rw [iterate_succ_apply', Nat.mul_succ, ← Nat.add_assoc]
    exact ih.leap taps hx htaps

theorem window_complete (seed : BitVec order) (hpos : 0 < order) (htaps : ∀ t ∈ taps, t < order) :
    Window (sequence taps seed) 0 (complete taps (seed.setWidth (order + 1))) := by
  intro j hj
  have hbit : ∀ i < order, (seed.setWidth (order + 1)).getLsbD i = sequence taps seed i := by
    intro i hi
    rw [BitVec.getLsbD_setWidth, decide_eq_true (Nat.lt_succ_of_lt hi), Bool.true_and, sequence_seed taps seed hi]
  rw [Nat.zero_add, complete, BitVec.getLsbD_xor, BitVec.getLsbD_shiftLeft, decide_eq_true (Nat.lt_succ_of_le hj),
    Bool.true_and]
  rcases Nat.lt_or_eq_of_le hj with hj | rfl
  · rw [decide_eq_true hj, Bool.not_true, Bool.false_and, Bool.xor_false, hbit j hj]
  · have htop := sequence_recurs taps seed hpos htaps 0
    rw [Nat.zero_add] at htop
    rw [BitVec.getLsbD_setWidth, BitVec.getLsbD_of_ge seed _ (Nat.le_refl _), Bool.and_false, Bool.false_xor,
      decide_eq_false (Nat.lt_irrefl _), Bool.not_false, Bool.true_and, Nat.sub_self, getLsbD_xorAll, htop]
    congr 1
    apply List.map_congr_left
    intro t ht
    simp only [BitVec.getLsbD_ushiftRight, Nat.add_zero, Nat.zero_add]
    exact hbit t (htaps t ht)

end Words

end EdgeSlice.WordRecurrence
