import EdgeSlice.BitField
import EdgeSlice.Coding.TurboInterleaver

/-! The turbo encoder, a byte at a time with tables and vector instructions, and the two shift registers that it
stands for. -/

namespace EdgeSlice.Coding

open BitField CountedLoop Function

/-- The register of a constituent encoder, the newest bit first. -/
structure Rsc where
  a1 : Bool
  a2 : Bool
  a3 : Bool

namespace Rsc

variable (s : Rsc) (x : ℕ → Bool)

def zero : Rsc := ⟨false, false, false⟩

/-- The feedback is `1 + D^2 + D^3`. -/
def feed (x : Bool) : Rsc := ⟨x ^^ s.a2 ^^ s.a3, s.a1, s.a2⟩

/-- The output is `1 + D + D^3` of what enters the register. -/
def parity (x : Bool) : Bool := (s.feed x).a1 ^^ s.a1 ^^ s.a3

def run : ℕ → Rsc
  | 0 => s
  | n + 1 => (run n).feed (x n)

/-- The bit for which a zero enters the register. -/
def tail : Bool := s.a2 ^^ s.a3

def drain : ℕ → Rsc
  | 0 => s
  | n + 1 => (drain n).feed (drain n).tail

def byte : UInt8 := (s.a1.toUInt8 <<< 2) ||| (s.a2.toUInt8 <<< 1) ||| s.a3.toUInt8

theorem run_add (m n : ℕ) : s.run x (m + n) = (s.run x m).run (fun i ↦ x (m + i)) n := by
  induction n with
  | zero => rfl
  | succ n ih => exact congrArg (feed · (x (m + n))) ih

variable {x} in
theorem run_congr {x' : ℕ → Bool} {n : ℕ} (h : ∀ i < n, x i = x' i) : s.run x n = s.run x' n := by
  induction n with
  | zero => rfl
  | succ n ih => rw [run, run, ih fun i hi ↦ h i (Nat.lt_succ_of_lt hi), h n (Nat.lt_succ_self n)]

/-- Three tail bits empty the register. -/
theorem drain_three : s.drain 3 = zero := by
  obtain ⟨a1, a2, a3⟩ := s
  cases a1 <;> cases a2 <;> cases a3 <;> rfl

end Rsc

/-- `threegpplte_rsc`: the output, and the new state. -/
def threegpplteRsc (input state : UInt8) : UInt8 × UInt8 :=
  ((input ^^^ (state >>> 2) ^^^ (state >>> 1)) &&& 1,
    (((input <<< 2) ^^^ (state >>> 1)) ^^^ ((state >>> 1) <<< 2) ^^^ (state <<< 2)) &&& 7)

/-- `threegpplte_rsc_termination`: `x`, `z` and the new state. -/
def threegpplteRscTermination (state : UInt8) : UInt8 × UInt8 × UInt8 :=
  ((state ^^^ (state >>> 1)) &&& 1, ((state >>> 2) ^^^ state) &&& 1, state >>> 1)

theorem threegpplteRsc_byte (s : Rsc) (x : Bool) :
    threegpplteRsc x.toUInt8 s.byte = ((s.parity x).toUInt8, (s.feed x).byte) := by
  obtain ⟨a1, a2, a3⟩ := s
  cases a1 <;> cases a2 <;> cases a3 <;> cases x <;> decide

theorem threegpplteRscTermination_byte (s : Rsc) :
    threegpplteRscTermination s.byte = (s.tail.toUInt8, (s.parity s.tail).toUInt8, (s.feed s.tail).byte) := by
  obtain ⟨a1, a2, a3⟩ := s
  cases a1 <;> cases a2 <;> cases a3 <;> decide

/-- `struct treillis`. While a table entry is made, `exitState` is the current state. -/
structure Treillis where
  systematicAndp1 : ℕ → UInt8
  parity2 : ℕ → UInt8
  exitState : UInt8

/-- One bit of the loop of `treillis_table_init`. -/
def treillisBit (j : UInt8) (b : ℕ) (t : Treillis) : Treillis :=
  let x := (j &&& UInt8.ofNat (2 ^ (7 - b))) >>> UInt8.ofNat (7 - b)
  let (v, state) := threegpplteRsc x t.exitState
  ⟨update (update t.systematicAndp1 (b * 3) x) (b * 3 + 1) v, update t.parity2 (b * 3 + 2) v, state⟩

/-- `all_treillis[i][j]` -/
def allTreillis (i j : UInt8) : Treillis := turns 8 (treillisBit j) ⟨fun _ ↦ 0, fun _ ↦ 0, i⟩

/-- Bit `b` of a byte, the highest first. -/
def msbFirst (j : UInt8) (b : ℕ) : Bool := j.toNat.testBit (7 - b)

theorem bit_eq_toUInt8 (j : UInt8) (b : ℕ) :
    (j &&& UInt8.ofNat (2 ^ (7 - b))) >>> UInt8.ofNat (7 - b) = (msbFirst j b).toUInt8 := by
  have hfield : ((j &&& UInt8.ofNat ((2 ^ 1 - 1) * 2 ^ (7 - b))) >>> UInt8.ofNat (7 - b)).toNat =
      j.toNat / 2 ^ (7 - b) % 2 ^ 1 := field_toNat j (by omega) (by omega)
  rw [Nat.pow_one, Nat.add_one_sub_one, Nat.one_mul] at hfield
  apply UInt8.toNat_inj.mp
  rw [hfield, msbFirst, Nat.testBit_eq_decide_div_mod_eq]
  rcases Nat.mod_two_eq_zero_or_one (j.toNat / 2 ^ (7 - b)) with h | h
  · rw [h]
    rfl
  · rw [h]
    rfl

variable (s s' : Rsc) (x x' : ℕ → Bool)

/-- Byte `q` of what an entry of the table adds for the first encoder. -/
def firstCell (q : ℕ) : UInt8 :=
  if q % 3 = 0 then (x (q / 3)).toUInt8
  else if q % 3 = 1 then ((s.run x (q / 3)).parity (x (q / 3))).toUInt8 else 0

def secondCell (q : ℕ) : UInt8 :=
  if q % 3 = 2 then ((s.run x (q / 3)).parity (x (q / 3))).toUInt8 else 0

theorem turns_treillisBit (j : UInt8) (k : ℕ) :
    turns k (treillisBit j) ⟨fun _ ↦ 0, fun _ ↦ 0, s.byte⟩ =
      ⟨fun q ↦ if q < 3 * k then firstCell s (msbFirst j) q else 0,
        fun q ↦ if q < 3 * k then secondCell s (msbFirst j) q else 0, (s.run (msbFirst j) k).byte⟩ := by
  induction k with
  | zero => rfl
  | succ k ih =>
    rw [turns_succ, ih, treillisBit]
    dsimp only
    rw [bit_eq_toUInt8, threegpplteRsc_byte]
    have hfirst : ∀ q, update (update (fun q ↦ if q < 3 * k then firstCell s (msbFirst j) q else 0) (k * 3)
        (msbFirst j k).toUInt8) (k * 3 + 1) ((s.run (msbFirst j) k).parity (msbFirst j k)).toUInt8 q =
          if q < 3 * (k + 1) then firstCell s (msbFirst j) q else 0 := by
      intro q
      rw [update_apply, update_apply]
      rcases (by omega : q < 3 * k ∨ q = k * 3 ∨ q = k * 3 + 1 ∨ q = k * 3 + 2 ∨ 3 * (k + 1) ≤ q) with
        h | rfl | rfl | rfl | h
      · rw [if_neg (by omega), if_neg (by omega), if_pos h, if_pos (by omega)]
      · rw [if_neg (by omega), if_pos rfl, if_pos (by omega), firstCell, if_pos (by omega),
          Nat.mul_div_cancel k (by decide)]
      · have hdiv : (k * 3 + 1) / 3 = k := by omega
        rw [if_pos rfl, if_pos (by omega), firstCell, if_neg (by omega), if_pos (by omega), hdiv]
      · rw [if_neg (by omega), if_neg (by omega), if_neg (by omega), if_pos (by omega), firstCell, if_neg (by omega),
          if_neg (by omega)]
      · rw [if_neg (by omega), if_neg (by omega), if_neg (by omega), if_neg (by omega)]
    have hsecond : ∀ q, update (fun q ↦ if q < 3 * k then secondCell s (msbFirst j) q else 0) (k * 3 + 2)
        ((s.run (msbFirst j) k).parity (msbFirst j k)).toUInt8 q =
          if q < 3 * (k + 1) then secondCell s (msbFirst j) q else 0 := by
      intro q
      rw [update_apply]
      rcases (by omega : q < 3 * k ∨ q = k * 3 + 2 ∨ q = k * 3 ∨ q = k * 3 + 1 ∨ 3 * (k + 1) ≤ q) with
        h | rfl | h | h | h
      · rw [if_neg (by omega), if_pos h, if_pos (by omega)]
      · have hdiv : (k * 3 + 2) / 3 = k := by omega
        rw [if_pos rfl, if_pos (by omega), secondCell, if_pos (by omega), hdiv]
      · rw [if_neg (by omega), if_neg (by omega), if_pos (by omega), secondCell, if_neg (by omega)]
      · rw [if_neg (by omega), if_neg (by omega), if_pos (by omega), secondCell, if_neg (by omega)]
      · rw [if_neg (by omega), if_neg (by omega), if_neg (by omega)]
    rw [funext hfirst, funext hsecond]
    rfl

/-- A table entry is eight bits of both encoders. -/
theorem allTreillis_byte (j : UInt8) :
    (∀ q < 24, (allTreillis s.byte j).systematicAndp1 q = firstCell s (msbFirst j) q) ∧
      (∀ q < 24, (allTreillis s.byte j).parity2 q = secondCell s (msbFirst j) q) ∧
      (allTreillis s.byte j).exitState = (s.run (msbFirst j) 8).byte := by
  rw [allTreillis, turns_treillisBit]
  exact ⟨fun q hq ↦ if_pos hq, fun q hq ↦ if_pos hq, rfl⟩

section Vectors

/-! The instructions on registers of 16 bytes that `interleave_compact_byte` is made of. -/

variable {a : ℕ → UInt8} {k : ℕ}

/-- `_mm_unpacklo_epi8` and the two for groups of two and four bytes. -/
def unpacklo (size : ℕ) (a b : ℕ → UInt8) (k : ℕ) : UInt8 :=
  (if k / size % 2 = 0 then a else b) (k / size / 2 * size + k % size)

def unpackhi (size : ℕ) (a b : ℕ → UInt8) (k : ℕ) : UInt8 :=
  (if k / size % 2 = 0 then a else b) (8 + k / size / 2 * size + k % size)

def andSi128 (a b : ℕ → UInt8) (k : ℕ) : UInt8 := a k &&& b k

def cmpeqEpi8 (a b : ℕ → UInt8) (k : ℕ) : UInt8 := if a k = b k then 0xFF else 0

/-- `_mm_movemask_epi8` for `w` bytes. -/
def movemaskEpi8 (a : ℕ → UInt8) : (w : ℕ) → BitVec w
  | 0 => 0#0
  | w + 1 => BitVec.cons (a w).toBitVec.msb (movemaskEpi8 a w)

def bitMask (k : ℕ) : UInt8 :=
  [0x80, 0x40, 0x20, 0x10, 0x08, 0x04, 0x02, 0x01, 0x80, 0x40, 0x20, 0x10, 0x08, 0x04, 0x02, 0x01].getD k 0

def storeSi128 (mem : ℕ → UInt8) (p : ℕ) (v : ℕ → UInt8) (q : ℕ) : UInt8 :=
  if p ≤ q ∧ q < p + 16 then v (q - p) else mem q

/-- The eight registers of bits for the 16 bytes in `tmp1`. -/
def expandBits (tmp1 : ℕ → UInt8) : List (ℕ → UInt8) :=
  let lo := unpacklo 1 tmp1 tmp1
  let hi := unpackhi 1 tmp1 tmp1
  [unpacklo 4 (unpacklo 2 lo lo) (unpacklo 2 lo lo), unpackhi 4 (unpacklo 2 lo lo) (unpacklo 2 lo lo),
    unpacklo 4 (unpackhi 2 lo lo) (unpackhi 2 lo lo), unpackhi 4 (unpackhi 2 lo lo) (unpackhi 2 lo lo),
    unpacklo 4 (unpacklo 2 hi hi) (unpacklo 2 hi hi), unpackhi 4 (unpacklo 2 hi hi) (unpacklo 2 hi hi),
    unpacklo 4 (unpackhi 2 hi hi) (unpackhi 2 hi hi), unpackhi 4 (unpackhi 2 hi hi) (unpackhi 2 hi hi)].map
      fun tmp4 ↦ cmpeqEpi8 (andSi128 tmp4 bitMask) bitMask

/-- The first loop: `expandInput` holds a byte for each bit of the input. -/
def expandLoop (input : ℕ → UInt8) (loop : ℕ) (expandInput : ℕ → UInt8) : ℕ → UInt8 :=
  turns loop (fun i mem ↦
    turns 8 (fun o mem ↦
      storeSi128 mem (16 * (8 * i + o)) ((expandBits fun k ↦ input (16 * i + k)).getD o fun _ ↦ 0)) mem) expandInput

/-- The order in which the bytes of a register are inserted. -/
def insertOrder : List ℕ := [7, 6, 5, 4, 3, 2, 1, 0, 8 + 7, 8 + 6, 8 + 5, 8 + 4, 8 + 3, 8 + 2, 8 + 1, 8 + 0]

/-- The second loop: 16 bits in the order of the interleaver become a short of `systematic2`. -/
def compactLoop (baseInterleaver : ℕ → ℕ) (expandInput : ℕ → UInt8) (words : ℕ) (tmp output : ℕ → UInt8) :
    (ℕ → UInt8) × (ℕ → UInt8) :=
  turns words (fun i (tmp, output) ↦
    let tmp := turns 16 (fun t tmp ↦
      update tmp (insertOrder.getD t 0) (expandInput (baseInterleaver (16 * i + t)))) tmp
    let mask := movemaskEpi8 tmp 16
    (tmp, update (update output (2 * i) (.ofBitVec (mask.extractLsb' 0 8))) (2 * i + 1)
      (.ofBitVec (mask.extractLsb' 8 8)))) (tmp, output)

/-- What is behind the block in `expandInput`, `tmp` and `output` is not set before. -/
def interleaveCompactByte (baseInterleaver : ℕ → ℕ) (input expandInput tmp output : ℕ → UInt8) (n : ℕ) : ℕ → UInt8 :=
  let loop := if n &&& 15 > 0 then (n >>> 4) + 1 else n >>> 4
  (compactLoop baseInterleaver (expandLoop input loop expandInput) (1 + ((n - 1) >>> 1)) tmp output).2

/-- Bit `k` of a string of bytes. -/
def bitAt (mem : ℕ → UInt8) (k : ℕ) : Bool := msbFirst (mem (k / 8)) (k % 8)

theorem unpacklo_self (size : ℕ) : unpacklo size a a k = a (k / size / 2 * size + k % size) := by
  rw [unpacklo, ite_self]

theorem unpackhi_self (size : ℕ) : unpackhi size a a k = a (8 + k / size / 2 * size + k % size) := by
  rw [unpackhi, ite_self]

theorem cmpeq_bitMask (j : UInt8) (hk : k < 16) :
    (if j &&& bitMask k = bitMask k then (0xFF : UInt8) else 0).toBitVec.msb = msbFirst j (k % 8) := by
  have hall : ∀ j : BitVec 8, ∀ k < 16,
      (if UInt8.ofBitVec j &&& bitMask k = bitMask k then (0xFF : UInt8) else 0).toBitVec.msb =
        msbFirst (UInt8.ofBitVec j) (k % 8) := by decide +kernel
  exact hall j.toBitVec k hk

/-- The `o`th register holds the bits of two bytes. -/
theorem expandBits_getD (tmp1 : ℕ → UInt8) {o : ℕ} (ho : o < 8) (hk : k < 16) :
    ((expandBits tmp1).getD o (fun _ ↦ 0) k).toBitVec.msb = msbFirst (tmp1 (2 * o + k / 8)) (k % 8) := by
  have hindex : ∀ p, (if tmp1 p &&& bitMask k = bitMask k then (0xFF : UInt8) else 0).toBitVec.msb =
      msbFirst (tmp1 p) (k % 8) := fun p ↦ cmpeq_bitMask (tmp1 p) hk
  rcases (by omega : o = 0 ∨ o = 1 ∨ o = 2 ∨ o = 3 ∨ o = 4 ∨ o = 5 ∨ o = 6 ∨ o = 7) with
    rfl | rfl | rfl | rfl | rfl | rfl | rfl | rfl
  all_goals
    simp only [expandBits, List.map_cons, List.getD_cons_zero, List.getD_cons_succ, cmpeqEpi8, andSi128,
      unpacklo_self, unpackhi_self, hindex]
    congr 2
    omega

theorem turns_storeSi128 (mem : ℕ → UInt8) (p : ℕ) (v : ℕ → ℕ → UInt8) (m q : ℕ) :
    turns m (fun o mem ↦ storeSi128 mem (16 * (p + o)) (v o)) mem q =
      if 16 * p ≤ q ∧ q < 16 * (p + m) then v ((q - 16 * p) / 16) ((q - 16 * p) % 16) else mem q := by
  induction m with
  | zero => rw [turns_zero, if_neg (by omega)]
  | succ m ih =>
    rw [turns_succ, storeSi128, ih]
    by_cases hin : 16 * (p + m) ≤ q ∧ q < 16 * (p + m) + 16
    · have hdiv : (q - 16 * p) / 16 = m := by omega
      have hmod : (q - 16 * p) % 16 = q - 16 * (p + m) := by omega
      rw [if_pos hin, if_pos (by omega), hdiv, hmod]
    · rw [if_neg hin]
      have hiff : 16 * p ≤ q ∧ q < 16 * (p + m) ↔ 16 * p ≤ q ∧ q < 16 * (p + (m + 1)) := by omega
      rw [if_congr hiff rfl rfl]

/-- After the first loop the sign of each byte is a bit of the input. -/
theorem expandLoop_msb (input : ℕ → UInt8) (loop : ℕ) (expandInput : ℕ → UInt8) {q : ℕ} (hq : q < 128 * loop) :
    (expandLoop input loop expandInput q).toBitVec.msb = bitAt input q := by
  induction loop with
  | zero => omega
  | succ loop ih =>
    rw [expandLoop, turns_succ, turns_storeSi128]
    by_cases hlast : 128 * loop ≤ q
    · have hbyte : 16 * loop + (2 * ((q - 16 * (8 * loop)) / 16) + (q - 16 * (8 * loop)) % 16 / 8) = q / 8 := by omega
      have hbit : (q - 16 * (8 * loop)) % 16 % 8 = q % 8 := by omega
      rw [if_pos (by omega), expandBits_getD _ (by omega) (Nat.mod_lt _ (by decide)), hbyte, hbit, bitAt]
    · rw [if_neg (by omega)]
      exact ih (by omega)

theorem getLsbD_movemaskEpi8 (w : ℕ) {m : ℕ} (hm : m < w) : (movemaskEpi8 a w).getLsbD m = (a m).toBitVec.msb := by
  induction w with
  | zero => exact absurd hm (Nat.not_lt_zero m)
  | succ w ih =>
    rw [movemaskEpi8, BitVec.getLsbD_cons]
    rcases Nat.lt_succ_iff_lt_or_eq.mp hm with hlt | rfl
    · rw [if_neg hlt.ne, ih hlt]
    · rw [if_pos rfl]

theorem msbFirst_extract (mask : BitVec 16) (o : ℕ) {t : ℕ} (ht : t < 8) :
    msbFirst (.ofBitVec (mask.extractLsb' o 8)) t = mask.getLsbD (o + (7 - t)) := by
  have hlt : 7 - t < 8 := by omega
  rw [msbFirst, UInt8.toNat_ofBitVec, BitVec.testBit_toNat, BitVec.getLsbD_extractLsb', decide_eq_true hlt,
    Bool.true_and]

theorem insert_msb (v : ℕ → UInt8) (tmp : ℕ → UInt8) {t : ℕ} (ht : t < 16) :
    turns 16 (fun t tmp ↦ update tmp (insertOrder.getD t 0) (v t)) tmp (insertOrder.getD t 0) = v t := by
  have hdistinct : ∀ t < 16, ∀ i < 16, t < i → insertOrder.getD i 0 ≠ insertOrder.getD t 0 := by decide
  exact turns_update_last tmp ht rfl fun i hti hi ↦ hdistinct t ht i hi hti

/-- Each byte of the second loop holds eight bits in the order of the interleaver, the first one highest. -/
theorem compactLoop_bits (baseInterleaver : ℕ → ℕ) (expandInput : ℕ → UInt8) (words : ℕ) (tmp output : ℕ → UInt8)
    {q t : ℕ} (hq : q < 2 * words) (ht : t < 8) :
    msbFirst ((compactLoop baseInterleaver expandInput words tmp output).2 q) t =
      (expandInput (baseInterleaver (8 * q + t))).toBitVec.msb := by
  induction words with
  | zero => omega
  | succ words ih =>
    rw [compactLoop] at ih ⊢
    rw [turns_succ]
    dsimp only
    have horder : ∀ t < 8, insertOrder.getD t 0 = 0 + (7 - t) ∧ insertOrder.getD (8 + t) 0 = 8 + (7 - t) := by decide
    obtain ⟨hlow, hhigh⟩ := horder t ht
    rw [update_apply, update_apply]
    by_cases hodd : q = 2 * words + 1
    · have hindex : 16 * words + (8 + t) = 8 * q + t := by omega
      rw [if_pos hodd, msbFirst_extract _ _ ht, getLsbD_movemaskEpi8 16 (by omega), ← hhigh,
        insert_msb (fun t ↦ expandInput (baseInterleaver (16 * words + t))) _ (by omega), hindex]
    · by_cases heven : q = 2 * words
      · have hindex : 16 * words + t = 8 * q + t := by omega
        rw [if_neg hodd, if_pos heven, msbFirst_extract _ _ ht, getLsbD_movemaskEpi8 16 (by omega), ← hlow,
          insert_msb (fun t ↦ expandInput (baseInterleaver (16 * words + t))) _ (by omega), hindex]
      · rw [if_neg hodd, if_neg heven]
        exact ih (by omega)

/-- The vector code interleaves the bits of a block. -/
theorem bitAt_interleaveCompactByte {baseInterleaver : ℕ → ℕ} (input expandInput tmp output : ℕ → UInt8) {n k : ℕ}
    (hk : k < 8 * n) (hin : baseInterleaver k < 8 * n) :
    bitAt (interleaveCompactByte baseInterleaver input expandInput tmp output n) k =
      bitAt input (baseInterleaver k) := by
  have hloop : 8 * n ≤ 128 * if n &&& 15 > 0 then (n >>> 4) + 1 else n >>> 4 := by
    rw [and_15, Nat.shiftRight_eq_div_pow]
    split
    · omega
    · omega
  have hwords : n ≤ 2 * (1 + ((n - 1) >>> 1)) := by
    rw [Nat.shiftRight_eq_div_pow]
    omega
  have hsplit : 8 * (k / 8) + k % 8 = k := Nat.div_add_mod k 8
  rw [bitAt, interleaveCompactByte, compactLoop_bits _ _ _ _ _ (by omega) (Nat.mod_lt k (by decide)), hsplit]
  exact expandLoop_msb _ _ _ (hin.trans_le hloop)

end Vectors

/-- The eight sums of a turn of the loop over `code_rate`. -/
def storePi8 (mem : ℕ → UInt8) (p : ℕ) (v : ℕ → UInt8) (q : ℕ) : UInt8 :=
  if p ≤ q ∧ q < p + 8 then v (q - p) else mem q

/-- One byte of both inputs. -/
def encodeByte (input systematic2 : ℕ → UInt8) (i : ℕ) (st : (ℕ → UInt8) × UInt8 × UInt8) :
    (ℕ → UInt8) × UInt8 × UInt8 :=
  let t0 := allTreillis st.2.1 (input i)
  let t1 := allTreillis st.2.2 (systematic2 i)
  (turns 3 (fun codeRate out ↦ storePi8 out (8 * (3 * i + codeRate)) fun k ↦
    t0.systematicAndp1 (8 * codeRate + k) + t1.parity2 (8 * codeRate + k)) st.1, t0.exitState, t1.exitState)

/-- Three calls of `threegpplte_rsc_termination` from `x` on. -/
def terminate (x : ℕ) (out : ℕ → UInt8) (state : UInt8) : (ℕ → UInt8) × UInt8 :=
  turns 3 (fun t st ↦
    let (tail, z, state) := threegpplteRscTermination st.2
    (update (update st.1 (x + 2 * t + 1) z) (x + 2 * t) tail, state)) (out, state)

/-- The output, and the states at the end. `uninit` is what the arrays on the stack hold before. -/
def encodeBlock (uninit : ℕ → UInt8) (baseInterleaver : ℕ → ℕ) (input output : ℕ → UInt8) (n : ℕ) :
    (ℕ → UInt8) × UInt8 × UInt8 :=
  let systematic2 := interleaveCompactByte baseInterleaver input uninit uninit uninit n
  let st := turns n (encodeByte input systematic2) (output, 0, 0)
  let first := terminate (8 * n * 3) st.1 st.2.1
  let second := terminate (8 * n * 3 + 6) first.1 st.2.2
  (second.1, first.2, second.2)

/-- The output of `threegpplte_turbo_encoder`. An illegal length leaves it as it was. -/
def threegpplteTurboEncoder (ilTb : ℕ → ℕ) (uninit input : ℕ → UInt8) (inputLengthBytes : ℕ) (output : ℕ → UInt8) :
    ℕ → UInt8 :=
  match f1f2mat.find? fun r ↦ r.nbBits = (inputLengthBytes <<< 3) % 65536 with
  | none => output
  | some r => (encodeBlock uninit (fun i ↦ ilTb (r.begIndex + i)) input output inputLengthBytes).1

theorem encodeByte_apply (input systematic2 : ℕ → UInt8) (i : ℕ) (out : ℕ → UInt8) (q : ℕ) :
    (encodeByte input systematic2 i (out, s.byte, s'.byte)).1 q =
      if 24 * i ≤ q ∧ q < 24 * i + 24 then
        firstCell s (msbFirst (input i)) (q - 24 * i) + secondCell s' (msbFirst (systematic2 i)) (q - 24 * i)
      else out q := by
  obtain ⟨hfirst, -, -⟩ := allTreillis_byte s (input i)
  obtain ⟨-, hsecond, -⟩ := allTreillis_byte s' (systematic2 i)
  simp only [encodeByte, turns_succ, turns_zero, storePi8]
  by_cases hin : 24 * i ≤ q ∧ q < 24 * i + 24
  · rw [if_pos hin, ← hfirst _ (by omega), ← hsecond _ (by omega)]
    rcases (by omega : 24 * i + 16 ≤ q ∨ (24 * i + 8 ≤ q ∧ q < 24 * i + 16) ∨ q < 24 * i + 8) with h | h | h
    · have hindex : 8 * 2 + (q - 8 * (3 * i + 2)) = q - 24 * i := by omega
      rw [if_pos (by omega), hindex]
    · have hindex : 8 * 1 + (q - 8 * (3 * i + 1)) = q - 24 * i := by omega
      rw [if_neg (by omega), if_pos (by omega), hindex]
    · have hindex : 8 * 0 + (q - 8 * (3 * i + 0)) = q - 24 * i := by omega
      rw [if_neg (by omega), if_neg (by omega), if_pos (by omega), hindex]
  · rw [if_neg hin, if_neg (by omega), if_neg (by omega), if_neg (by omega)]

/-- Byte `q` of the codeword before the tail. -/
def codeCell (q : ℕ) : UInt8 := firstCell Rsc.zero x q + secondCell Rsc.zero x' q

theorem firstCell_add (i : ℕ) {q : ℕ} (hq : 24 * i ≤ q) :
    firstCell (s.run x (8 * i)) (fun b ↦ x (8 * i + b)) (q - 24 * i) = firstCell s x q := by
  have hdiv : 8 * i + (q - 24 * i) / 3 = q / 3 := by omega
  have hmod : (q - 24 * i) % 3 = q % 3 := by omega
  rw [firstCell, firstCell, ← Rsc.run_add, hdiv, hmod]

theorem secondCell_add (i : ℕ) {q : ℕ} (hq : 24 * i ≤ q) :
    secondCell (s.run x (8 * i)) (fun b ↦ x (8 * i + b)) (q - 24 * i) = secondCell s x q := by
  have hdiv : 8 * i + (q - 24 * i) / 3 = q / 3 := by omega
  have hmod : (q - 24 * i) % 3 = q % 3 := by omega
  rw [secondCell, secondCell, ← Rsc.run_add, hdiv, hmod]

theorem firstCell_congr {y y' : ℕ → Bool} {q : ℕ} (h : ∀ b ≤ q / 3, y b = y' b) :
    firstCell s y q = firstCell s y' q := by
  rw [firstCell, firstCell, s.run_congr fun b hb ↦ h b hb.le, h _ le_rfl]

theorem secondCell_congr {y y' : ℕ → Bool} {q : ℕ} (h : ∀ b ≤ q / 3, y b = y' b) :
    secondCell s y q = secondCell s y' q := by
  rw [secondCell, secondCell, s.run_congr fun b hb ↦ h b hb.le, h _ le_rfl]

/-- The bits of byte `i`. -/
theorem bitAt_add (mem : ℕ → UInt8) (i : ℕ) {b : ℕ} (hb : b < 8) : bitAt mem (8 * i + b) = msbFirst (mem i) b := by
  have hdiv : (8 * i + b) / 8 = i := by omega
  have hmod : (8 * i + b) % 8 = b := by omega
  rw [bitAt, hdiv, hmod]

/-- The loop over the bytes. -/
theorem turns_encodeByte (input systematic2 output : ℕ → UInt8) (n : ℕ) :
    turns n (encodeByte input systematic2) (output, 0, 0) =
      (fun q ↦ if q < 24 * n then codeCell (bitAt input) (bitAt systematic2) q else output q,
        (Rsc.zero.run (bitAt input) (8 * n)).byte, (Rsc.zero.run (bitAt systematic2) (8 * n)).byte) := by
  induction n with
  | zero =>
    have hcells : (fun q ↦ if q < 24 * 0 then codeCell (bitAt input) (bitAt systematic2) q else output q) = output :=
      funext fun q ↦ if_neg (Nat.not_lt_zero q)
    have hzero : Rsc.zero.byte = 0 := by decide
    rw [turns_zero, hcells, Nat.mul_zero, Rsc.run, Rsc.run, hzero]
  | succ n ih =>
    have hstate : ∀ (mem : ℕ → UInt8) (t : Rsc), (t.run (msbFirst (mem n)) 8).byte =
        (t.run (fun b ↦ bitAt mem (8 * n + b)) 8).byte :=
      fun mem t ↦ congrArg Rsc.byte (t.run_congr fun b hb ↦ (bitAt_add mem n hb).symm)
    rw [turns_succ, ih]
    refine Prod.ext ?_ (Prod.ext ?_ ?_)
    · funext q
      rw [encodeByte_apply]
      by_cases hin : 24 * n ≤ q ∧ q < 24 * n + 24
      · have hlt : q < 24 * (n + 1) := by omega
        dsimp only
        rw [if_pos hin, if_pos hlt, codeCell, ← firstCell_add _ _ n hin.1, ← secondCell_add _ _ n hin.1]
        congr 1
        · exact firstCell_congr _ fun b hb ↦ (bitAt_add input n (by omega)).symm
        · exact secondCell_congr _ fun b hb ↦ (bitAt_add systematic2 n (by omega)).symm
      · have hiff : q < 24 * n ↔ q < 24 * (n + 1) := by omega
        rw [if_neg hin]
        exact if_congr hiff rfl rfl
    · exact (allTreillis_byte _ _).2.2.trans ((hstate input _).trans (congrArg Rsc.byte (Rsc.run_add _ _ _ _).symm))
    · exact (allTreillis_byte _ _).2.2.trans
        ((hstate systematic2 _).trans (congrArg Rsc.byte (Rsc.run_add _ _ _ _).symm))

/-- Byte `q` of the tail of a register. -/
def tailCell (q : ℕ) : UInt8 :=
  if q % 2 = 0 then (s.drain (q / 2)).tail.toUInt8
  else ((s.drain (q / 2)).parity (s.drain (q / 2)).tail).toUInt8

theorem terminate_byte (p : ℕ) (out : ℕ → UInt8) :
    terminate p out s.byte = (fun q ↦ if p ≤ q ∧ q < p + 6 then tailCell s (q - p) else out q, 0) := by
  have hturns : ∀ k, turns k (fun t (st : (ℕ → UInt8) × UInt8) ↦
      let (tail, z, state) := threegpplteRscTermination st.2
      (update (update st.1 (p + 2 * t + 1) z) (p + 2 * t) tail, state)) (out, s.byte) =
        (fun q ↦ if p ≤ q ∧ q < p + 2 * k then tailCell s (q - p) else out q, (s.drain k).byte) := by
    intro k
    induction k with
    | zero =>
      refine Prod.ext ?_ rfl
      funext q
      exact (if_neg (by omega)).symm
    | succ k ih =>
      rw [turns_succ, ih]
      dsimp only
      rw [threegpplteRscTermination_byte]
      refine Prod.ext ?_ rfl
      funext q
      dsimp only
      rw [update_apply, update_apply]
      rcases (by omega : q = p + 2 * k ∨ q = p + 2 * k + 1 ∨ (q ≠ p + 2 * k ∧ q ≠ p + 2 * k + 1)) with rfl | rfl | h
      · have heven : (p + 2 * k - p) % 2 = 0 := by omega
        have hhalf : (p + 2 * k - p) / 2 = k := by omega
        rw [if_pos rfl, if_pos (by omega), tailCell, if_pos heven, hhalf]
      · have hodd : (p + 2 * k + 1 - p) % 2 ≠ 0 := by omega
        have hhalf : (p + 2 * k + 1 - p) / 2 = k := by omega
        rw [if_neg (by omega), if_pos rfl, if_pos (by omega), tailCell, if_neg hodd, hhalf]
      · have hiff : p ≤ q ∧ q < p + 2 * k ↔ p ≤ q ∧ q < p + 2 * (k + 1) := by omega
        rw [if_neg h.1, if_neg h.2, if_congr hiff rfl rfl]
  rw [terminate, hturns 3, s.drain_three]
  rfl

/-- What the encoder makes of the bits `x` of a block: for each bit the bit itself, the output of the first register,
and that of the second register, which takes the bits in the order `π`. Then come the tail bits of both registers with
their outputs. -/
structure TurboCodeword (K : ℕ) (π : ℕ → ℕ) (cw : ℕ → UInt8) : Prop where
  systematic : ∀ k < K, cw (3 * k) = (x k).toUInt8
  parity1 : ∀ k < K, cw (3 * k + 1) = ((Rsc.zero.run x k).parity (x k)).toUInt8
  parity2 : ∀ k < K, cw (3 * k + 2) = ((Rsc.zero.run (x ∘ π) k).parity (x (π k))).toUInt8
  tail1 : ∀ q < 6, cw (3 * K + q) = tailCell (Rsc.zero.run x K) q
  tail2 : ∀ q < 6, cw (3 * K + 6 + q) = tailCell (Rsc.zero.run (x ∘ π) K) q

theorem encodeBlock_eq (uninit : ℕ → UInt8) (baseInterleaver : ℕ → ℕ) (input output : ℕ → UInt8) (n : ℕ) :
    encodeBlock uninit baseInterleaver input output n =
      let systematic2 := interleaveCompactByte baseInterleaver input uninit uninit uninit n
      (fun q ↦ if 24 * n + 6 ≤ q ∧ q < 24 * n + 12 then
          tailCell (Rsc.zero.run (bitAt systematic2) (8 * n)) (q - (24 * n + 6))
        else if 24 * n ≤ q ∧ q < 24 * n + 6 then tailCell (Rsc.zero.run (bitAt input) (8 * n)) (q - 24 * n)
        else if q < 24 * n then codeCell (bitAt input) (bitAt systematic2) q else output q, 0, 0) := by
  have hend : 8 * n * 3 = 24 * n := by ring
  rw [encodeBlock]
  dsimp only
  rw [turns_encodeByte, hend]
  dsimp only
  rw [terminate_byte, terminate_byte]

theorem codeCell_systematic (k : ℕ) : codeCell x x' (3 * k) = (x k).toUInt8 := by
  have hmod : 3 * k % 3 = 0 := Nat.mul_mod_right 3 k
  rw [codeCell, firstCell, secondCell, if_pos hmod, if_neg (by omega), Nat.mul_div_cancel_left k (by decide),
    UInt8.add_zero]

theorem codeCell_parity1 (k : ℕ) : codeCell x x' (3 * k + 1) = ((Rsc.zero.run x k).parity (x k)).toUInt8 := by
  have hdiv : (3 * k + 1) / 3 = k := by omega
  rw [codeCell, firstCell, secondCell, if_neg (by omega), if_pos (by omega), if_neg (by omega), hdiv, UInt8.add_zero]

theorem codeCell_parity2 (k : ℕ) : codeCell x x' (3 * k + 2) = ((Rsc.zero.run x' k).parity (x' k)).toUInt8 := by
  have hdiv : (3 * k + 2) / 3 = k := by omega
  rw [codeCell, firstCell, secondCell, if_neg (by omega), if_neg (by omega), if_pos (by omega), hdiv, UInt8.zero_add]

/-- The block is encoded as the two registers do it, and both are empty at the end. -/
theorem encodeBlock_codeword {baseInterleaver π : ℕ → ℕ} (uninit input output : ℕ → UInt8) {n : ℕ}
    (hbase : ∀ k < 8 * n, baseInterleaver k = π k) (hπ : ∀ k < 8 * n, π k < 8 * n) :
    TurboCodeword (bitAt input) (8 * n) π (encodeBlock uninit baseInterleaver input output n).1 ∧
      (∀ q, 24 * n + 12 ≤ q → (encodeBlock uninit baseInterleaver input output n).1 q = output q) ∧
      (encodeBlock uninit baseInterleaver input output n).2 = (0, 0) := by
  have hbits : ∀ k < 8 * n, bitAt (interleaveCompactByte baseInterleaver input uninit uninit uninit n) k =
      (bitAt input ∘ π) k := by
    intro k hk
    have hin : baseInterleaver k < 8 * n := (hbase k hk).trans_lt (hπ k hk)
    rw [bitAt_interleaveCompactByte input uninit uninit uninit hk hin, hbase k hk]
    rfl
  have hrun : ∀ k ≤ 8 * n, Rsc.zero.run
      (bitAt (interleaveCompactByte baseInterleaver input uninit uninit uninit n)) k =
        Rsc.zero.run (bitAt input ∘ π) k := fun k hk ↦ Rsc.zero.run_congr fun i hi ↦ hbits i (hi.trans_le hk)
  rw [encodeBlock_eq]
  dsimp only
  refine ⟨⟨?_, ?_, ?_, ?_, ?_⟩, ?_, rfl⟩
  · intro k hk
    rw [if_neg (by omega), if_neg (by omega), if_pos (by omega), codeCell_systematic]
  · intro k hk
    rw [if_neg (by omega), if_neg (by omega), if_pos (by omega), codeCell_parity1]
  · intro k hk
    rw [if_neg (by omega), if_neg (by omega), if_pos (by omega), codeCell_parity2, hrun k hk.le, hbits k hk]
    rfl
  · intro q hq
    have hindex : 3 * (8 * n) + q - 24 * n = q := by omega
    rw [if_neg (by omega), if_pos (by omega), hindex]
  · intro q hq
    have hindex : 3 * (8 * n) + 6 + q - (24 * n + 6) = q := by omega
    rw [if_pos (by omega), hindex, hrun _ le_rfl]
  · intro q hq
    rw [if_neg (by omega), if_neg (by omega), if_neg (by omega)]

/-- Two rows have different lengths. -/
theorem find_nbBits {r : Codebook} (hr : r ∈ f1f2mat) : f1f2mat.find? (fun r' ↦ r'.nbBits = r.nbBits) = some r := by
  have hunique : f1f2mat.Pairwise fun r r' ↦ r.nbBits ≠ r'.nbBits := by decide +kernel
  obtain ⟨before, after, hsplit⟩ := List.append_of_mem hr
  apply List.find?_eq_some_iff_append.mpr
  refine ⟨decide_eq_true rfl, before, after, hsplit, ?_⟩
  intro r' hr'
  rw [hsplit, List.pairwise_append] at hunique
  rw [Bool.not_eq_true', decide_eq_false_iff_not]
  exact hunique.2.2 r' hr' r List.mem_cons_self

/-- For each length of the table the encoder with tables and vector instructions makes the codeword of the two shift
registers, and it leaves the bytes behind the codeword as they were. -/
theorem threegpplteTurboEncoder_codeword {ilTb : ℕ → ℕ} (htable : Codebook.Tabulated ilTb) (r : Codebook)
    (hr : r ∈ f1f2mat) (uninit input output : ℕ → UInt8) :
    TurboCodeword (bitAt input) r.nbBits r.interleaved
        (threegpplteTurboEncoder ilTb uninit input (r.nbBits / 8) output) ∧
      ∀ q, 3 * r.nbBits + 12 ≤ q → threegpplteTurboEncoder ilTb uninit input (r.nbBits / 8) output q = output q := by
  have hvalid := Codebook.valid r hr
  have hbytes : 8 * (r.nbBits / 8) = r.nbBits := Nat.mul_div_cancel' (Nat.dvd_of_mod_eq_zero hvalid.eight_dvd)
  have hlength : ((r.nbBits / 8) <<< 3) % 65536 = r.nbBits := by
    have hle := hvalid.le
    rw [Nat.shiftLeft_eq]
    omega
  rw [threegpplteTurboEncoder, hlength, find_nbBits hr]
  dsimp only
  have hbase : ∀ k < 8 * (r.nbBits / 8), ilTb (r.begIndex + k) = r.interleaved k :=
    fun k hk ↦ htable r hr k (by omega)
  have hmaps : ∀ k < 8 * (r.nbBits / 8), r.interleaved k < 8 * (r.nbBits / 8) := by
    rw [hbytes]
    exact fun k hk ↦ hvalid.bijOn.mapsTo hk
  obtain ⟨hcodeword, hbehind, -⟩ := encodeBlock_codeword uninit input output hbase hmaps
  rw [hbytes] at hcodeword
  exact ⟨hcodeword, fun q hq ↦ hbehind q (by omega)⟩

theorem threegpplteTurboEncoder_codeword_shortest :
    TurboCodeword (bitAt fun _ ↦ 0xA5) shortest.nbBits shortest.interleaved
        (threegpplteTurboEncoder Codebook.ilTb (fun _ ↦ 0) (fun _ ↦ 0xA5) (shortest.nbBits / 8) fun _ ↦ 0xFF) ∧
      ∀ q, 3 * shortest.nbBits + 12 ≤ q →
        threegpplteTurboEncoder Codebook.ilTb (fun _ ↦ 0) (fun _ ↦ 0xA5) (shortest.nbBits / 8) (fun _ ↦ 0xFF) q =
          0xFF :=
  threegpplteTurboEncoder_codeword Codebook.tabulated_ilTb shortest List.mem_cons_self _ _ _

end EdgeSlice.Coding
