import Mathlib.Logic.Function.Iterate
import Mathlib.Data.Nat.Notation

/-! Division by a polynomial over two elements in a shift register, one bit at a time. -/

namespace EdgeSlice.ShiftRegister

open Function

variable {w : ℕ} (poly : BitVec w)

/-- One step without input. The leading coefficient of the divisor is left out of `poly`. -/
def shift (crc : BitVec w) : BitVec w := if crc.msb then crc <<< 1 ^^^ poly else crc <<< 1

def feed (crc : BitVec w) (bit : Bool) : BitVec w :=
  if (crc.msb ^^ bit) then crc <<< 1 ^^^ poly else crc <<< 1

def divide (crc : BitVec w) (bits : List Bool) : BitVec w := bits.foldl (feed poly) crc

/-- The word whose highest bits are `bits`, the first one highest. -/
def place : List Bool → BitVec w
  | [] => 0#w
  | bit :: bits => (BitVec.ofBool bit).setWidth w <<< (w - 1) ^^^ place bits >>> 1

/-- The `n` highest bits of a word, the highest first. -/
def highBits (n : ℕ) (x : BitVec w) : List Bool := (List.range n).map x.getMsbD

def HighClear (n : ℕ) (x : BitVec w) : Prop := ∀ i < n, x.getMsbD i = false

def LowClear (n : ℕ) (x : BitVec w) : Prop := ∀ i < n, x.getLsbD i = false

@[simp] theorem length_highBits (n : ℕ) (x : BitVec w) : (highBits n x).length = n := by
  simp [highBits]

theorem take_highBits {r n : ℕ} (h : r ≤ n) (x : BitVec w) : (highBits n x).take r = highBits r x := by
  simp [highBits, ← List.map_take, List.take_range, Nat.min_eq_left h]

theorem getD_highBits (n : ℕ) (x : BitVec w) (i : ℕ) :
    (highBits n x).getD i false = (decide (i < n) && x.getMsbD i) := by
  by_cases h : i < n <;> simp [highBits, List.getD_eq_getElem?_getD, h]

theorem highBits_succ (n : ℕ) (x : BitVec w) : highBits (n + 1) x = x.msb :: highBits n (x <<< 1) := by
  simp [highBits, List.range_succ_eq_map, BitVec.msb_eq_getMsbD_zero, Function.comp_def]

theorem divide_append (crc : BitVec w) (bits more : List Bool) :
    divide poly crc (bits ++ more) = divide poly (divide poly crc bits) more := by
  simp only [divide, List.foldl_append]

theorem shift_xor (x y : BitVec w) : shift poly (x ^^^ y) = shift poly x ^^^ shift poly y := by
  unfold shift
  simp only [BitVec.msb_xor, BitVec.shiftLeft_xor_distrib]
  cases x.msb <;> cases y.msb
  · simp
  · simp [BitVec.xor_assoc]
  · simp only [Bool.xor_false, if_true, Bool.false_eq_true, if_false]
    ac_rfl
  · simp only [Bool.xor_self, Bool.false_eq_true, if_false, if_true]
    have h : x <<< 1 ^^^ poly ^^^ (y <<< 1 ^^^ poly) = x <<< 1 ^^^ y <<< 1 ^^^ (poly ^^^ poly) := by ac_rfl
    simp [h]

theorem iterate_xor (n : ℕ) (x y : BitVec w) :
    (shift poly)^[n] (x ^^^ y) = (shift poly)^[n] x ^^^ (shift poly)^[n] y := by
  induction n generalizing x y with
  | zero => rfl
  | succ n ih => simp only [iterate_succ_apply, shift_xor, ih]

@[simp] theorem shift_zero : shift poly (0#w) = 0#w := by
  simp [shift]

theorem iterate_zero (n : ℕ) : (shift poly)^[n] (0#w) = 0#w :=
  iterate_fixed (shift_zero poly) n

/-- A word whose high bits are clear only moves up. -/
theorem iterate_of_highClear {n : ℕ} {x : BitVec w} (h : HighClear n x) : (shift poly)^[n] x = x <<< n := by
  induction n generalizing x with
  | zero => simp
  | succ n ih =>
    have hmsb : x.msb = false := by
      simpa only [BitVec.msb_eq_getMsbD_zero] using h 0 (by omega)
    have hnext : HighClear n (x <<< 1) := by
      intro i hi
      have := h (i + 1) (by omega)
      simp only [BitVec.getMsbD_shiftLeft, this]
    have hone : shift poly x = x <<< 1 := by simp [shift, hmsb]
    simp only [iterate_succ_apply, hone, ih hnext, ← BitVec.shiftLeft_add, Nat.add_comm 1 n]

theorem highClear_ushiftRight {n : ℕ} (hn : n ≤ w) (x : BitVec w) :
    HighClear n (x ^^^ (x >>> (w - n)) <<< (w - n)) := by
  intro i hi
  have hin : i + (w - n) < w := by omega
  have hback : ¬ i + (w - n) < w - n := by omega
  simp [BitVec.getMsbD_shiftLeft, BitVec.getMsbD_ushiftRight, hin, hback]

/-- The `n` highest bits are divided, the others move up. -/
theorem iterate_split {n : ℕ} (hn : n ≤ w) (x : BitVec w) :
    (shift poly)^[n] x = (shift poly)^[n] ((x >>> (w - n)) <<< (w - n)) ^^^ x <<< n := by
  have hrest := iterate_of_highClear poly (highClear_ushiftRight hn x)
  have hx : x = (x >>> (w - n)) <<< (w - n) ^^^ (x ^^^ (x >>> (w - n)) <<< (w - n)) := by
    rw [BitVec.xor_comm x, ← BitVec.xor_assoc, BitVec.xor_self, BitVec.zero_xor]
  have hhigh : (x >>> (w - n)) <<< (w - n) <<< n = 0#w := by
    rw [← BitVec.shiftLeft_add]
    exact BitVec.shiftLeft_eq_zero (by omega)
  calc (shift poly)^[n] x
      = (shift poly)^[n] ((x >>> (w - n)) <<< (w - n)) ^^^
          (shift poly)^[n] (x ^^^ (x >>> (w - n)) <<< (w - n)) := by
        rw [← iterate_xor, ← hx]
    _ = (shift poly)^[n] ((x >>> (w - n)) <<< (w - n)) ^^^ x <<< n := by
        rw [hrest, BitVec.shiftLeft_xor_distrib, hhigh, BitVec.xor_zero]

theorem getMsbD_place (bits : List Bool) (i : ℕ) (hi : i < w) :
    (place bits : BitVec w).getMsbD i = bits.getD i false := by
  induction bits generalizing i with
  | nil => simp [place]
  | cons bit bits ih =>
    simp only [place, BitVec.getMsbD_xor, BitVec.getMsbD_shiftLeft, BitVec.getMsbD_ushiftRight]
    cases i with
    | zero =>
      have hlast : w - 1 < w := by omega
      simp [BitVec.getMsbD, hi, hlast]
    | succ i =>
      have hlow : (BitVec.setWidth w (BitVec.ofBool bit)).getMsbD (i + 1 + (w - 1)) = false :=
        BitVec.getMsbD_of_ge _ _ (by omega)
      have hback := ih i (by omega)
      simp [hlow, hback, hi]

theorem place_highBits {n : ℕ} (hn : n ≤ w) (x : BitVec w) :
    (place (highBits n x) : BitVec w) = (x >>> (w - n)) <<< (w - n) := by
  apply BitVec.eq_of_getMsbD_eq
  intro i hi
  rw [getMsbD_place _ _ hi, getD_highBits]
  by_cases h : i < n
  · have hin : i + (w - n) < w := by omega
    have hback : ¬ i + (w - n) < w - n := by omega
    simp [BitVec.getMsbD_shiftLeft, BitVec.getMsbD_ushiftRight, h, hin, hback]
  · have hout : ¬ i + (w - n) < w := by omega
    simp [BitVec.getMsbD_shiftLeft, BitVec.getMsbD_ushiftRight, h, hout]

theorem feed_eq_shift (hw : 0 < w) (crc : BitVec w) (bit : Bool) (bits : List Bool) :
    shift poly (crc ^^^ place (bit :: bits)) =
      feed poly crc bit ^^^ (place bits >>> 1) <<< 1 := by
  have hmsb : (place (bit :: bits) : BitVec w).msb = bit := by
    rw [BitVec.msb_eq_getMsbD_zero, getMsbD_place _ _ hw]
    rfl
  have hup : (place (bit :: bits) : BitVec w) <<< 1 = (place bits >>> 1) <<< 1 := by
    rw [place, BitVec.shiftLeft_xor_distrib, ← BitVec.shiftLeft_add,
      BitVec.shiftLeft_eq_zero (by omega), BitVec.zero_xor]
  simp only [shift, feed, BitVec.msb_xor, hmsb, BitVec.shiftLeft_xor_distrib, hup]
  split
  · ac_rfl
  · rfl

/-- Feeding a block is adding it on top of the register and shifting it through. -/
theorem divide_eq_iterate {bits : List Bool} (h : bits.length ≤ w) (crc : BitVec w) :
    divide poly crc bits = (shift poly)^[bits.length] (crc ^^^ place bits) := by
  induction bits generalizing crc with
  | nil => simp [divide, place]
  | cons bit bits ih =>
    have hlen : bits.length + 1 ≤ w := by simpa using h
    have hback : ((place bits : BitVec w) >>> 1) <<< 1 = place bits := by
      apply BitVec.eq_of_getMsbD_eq
      intro i hi
      by_cases hlast : i + 1 < w
      · simp [BitVec.getMsbD_shiftLeft, BitVec.getMsbD_ushiftRight, hlast]
      · have hout : bits.getD i false = false := by
          rw [List.getD_eq_getElem?_getD, List.getElem?_eq_none (by omega)]
          rfl
        rw [getMsbD_place _ _ hi, hout, BitVec.getMsbD_shiftLeft]
        exact BitVec.getMsbD_of_ge _ _ (by omega)
    have hstep := feed_eq_shift poly (by omega) crc bit bits
    rw [hback] at hstep
    calc divide poly crc (bit :: bits)
        = divide poly (feed poly crc bit) bits := rfl
      _ = (shift poly)^[bits.length] (feed poly crc bit ^^^ place bits) := ih (by omega) _
      _ = (shift poly)^[bits.length + 1] (crc ^^^ place (bit :: bits)) := by
          rw [iterate_succ_apply, hstep]

variable {poly}

/-- A message followed by its own remainder leaves nothing. -/
theorem divide_place_self {bits : List Bool} (h : bits.length ≤ w) {crc : BitVec w} (hcrc : place bits = crc) :
    divide poly crc bits = 0#w := by
  rw [divide_eq_iterate poly h, hcrc, BitVec.xor_self, iterate_zero]

theorem LowClear.feed {n : ℕ} (hpoly : LowClear n poly) {x : BitVec w} (hx : LowClear n x) (bit : Bool) :
    LowClear n (feed poly x bit) := by
  have hup : LowClear n (x <<< 1) := by
    intro i hi
    have := hx (i - 1) (by omega)
    simp [BitVec.getLsbD_shiftLeft, this]
  unfold ShiftRegister.feed
  split
  · intro i hi
    simp [BitVec.getLsbD_xor, hup i hi, hpoly i hi]
  · exact hup

theorem LowClear.divide {n : ℕ} (hpoly : LowClear n poly) {x : BitVec w} (hx : LowClear n x)
    (bits : List Bool) : LowClear n (divide poly x bits) := by
  induction bits generalizing x with
  | nil => exact hx
  | cons bit bits ih => exact ih (hpoly.feed hx bit)

theorem LowClear.ushiftRight_shiftLeft {n : ℕ} {x : BitVec w} (hx : LowClear n x) :
    (x >>> n) <<< n = x := by
  apply BitVec.eq_of_getLsbD_eq
  intro i hi
  by_cases hn : i < n
  · simp [BitVec.getLsbD_shiftLeft, hn, hx i hn]
  · have hback : n + (i - n) = i := by omega
    simp [hi, hn, hback]

end EdgeSlice.ShiftRegister
