import EdgeSlice.WordRecurrence

/-! The pseudo-random sequence of the physical channels, which the source computes 32 bits at a time. -/

namespace EdgeSlice.Coding

open Function WordRecurrence

/-- Bit `n` of the sequence for `cInit`: two shift registers of 31 bits, of which the first 1600 bits are left out. -/
def goldBit (cInit : BitVec 31) (n : ℕ) : Bool :=
  sequence [0, 3] 1#31 (n + 1600) ^^ sequence [0, 1, 2, 3] cInit (n + 1600)

/-- What `x1` and `x2` point to. -/
structure Gold where
  x1 : BitVec 32
  x2 : BitVec 32

namespace Gold

variable (g : Gold)

def advance : Gold :=
  let x1 := (g.x1 >>> 1) ^^^ (g.x1 >>> 4)
  let x2 := (g.x2 >>> 1) ^^^ (g.x2 >>> 2) ^^^ (g.x2 >>> 3) ^^^ (g.x2 >>> 4)
  ⟨x1 ^^^ (x1 <<< 31) ^^^ (x1 <<< 28), x2 ^^^ (x2 <<< 31) ^^^ (x2 <<< 30) ^^^ (x2 <<< 29) ^^^ (x2 <<< 28)⟩

/-- The registers after the first 1600 bits. `x2` holds `c_init` before. -/
def restart : Gold :=
  advance^[49] ⟨1#32 + (1#32 <<< 31), g.x2 ^^^ ((g.x2 ^^^ (g.x2 >>> 1) ^^^ (g.x2 >>> 2) ^^^ (g.x2 >>> 3)) <<< 31)⟩

def lteGoldGeneric (reset : Bool) : Gold × BitVec 32 :=
  let g := (if reset then g.restart else g).advance
  (g, g.x1 ^^^ g.x2)

/-- A call that resets the generator, and `k` calls that do not. -/
def lteGoldCalls : ℕ → Gold × BitVec 32
  | 0 => g.lteGoldGeneric true
  | k + 1 => (lteGoldCalls k).1.lteGoldGeneric false

theorem advance_eq : g.advance = ⟨@leap 31 [0, 3] g.x1, @leap 31 [0, 1, 2, 3] g.x2⟩ := by
  simp only [advance, leap, xorAll, List.map_cons, List.map_nil, List.foldr_cons, List.foldr_nil, BitVec.xor_zero,
    BitVec.xor_assoc]

theorem iterate_advance (k : ℕ) :
    advance^[k] g = ⟨(@leap 31 [0, 3])^[k] g.x1, (@leap 31 [0, 1, 2, 3])^[k] g.x2⟩ := by
  induction k with
  | zero => rfl
  | succ k ih => rw [iterate_succ_apply', ih, advance_eq, iterate_succ_apply', iterate_succ_apply']

theorem lteGoldCalls_fst (k : ℕ) : (g.lteGoldCalls k).1 = advance^[k + 1] g.restart := by
  induction k with
  | zero => rfl
  | succ k ih =>
    rw [iterate_succ_apply', ← ih]
    rfl

theorem lteGoldCalls_snd (k : ℕ) :
    (g.lteGoldCalls k).2 = (g.lteGoldCalls k).1.x1 ^^^ (g.lteGoldCalls k).1.x2 := by
  cases k with
  | zero => rfl
  | succ k => rfl

/-- Both registers hold the bits of their sequences from bit 1600 on, 32 for each call. -/
theorem lteGoldCalls_windows (h : g.x2.getLsbD 31 = false) (k : ℕ) :
    @Window 31 (sequence [0, 3] 1#31) (1600 + 32 * k) (g.lteGoldCalls k).1.x1 ∧
      @Window 31 (sequence [0, 1, 2, 3] (g.x2.setWidth 31)) (1600 + 32 * k) (g.lteGoldCalls k).1.x2 := by
  have hx1 : 1#32 + (1#32 <<< 31) = @complete 31 [0, 3] ((1#31).setWidth 32) := by decide
  have hseed : (g.x2.setWidth 31).setWidth 32 = g.x2 := by
    apply BitVec.eq_of_getLsbD_eq
    intro i hi
    rw [BitVec.getLsbD_setWidth, BitVec.getLsbD_setWidth, decide_eq_true hi, Bool.true_and]
    rcases Nat.lt_or_eq_of_le (Nat.le_of_lt_succ hi) with hlt | rfl
    · rw [decide_eq_true hlt, Bool.true_and]
    · rw [h, Bool.and_false]
  have hx2 : g.x2 ^^^ ((g.x2 ^^^ (g.x2 >>> 1) ^^^ (g.x2 >>> 2) ^^^ (g.x2 >>> 3)) <<< 31) =
      @complete 31 [0, 1, 2, 3] ((g.x2.setWidth 31).setWidth 32) := by
    rw [hseed]
    simp only [complete, xorAll, List.map_cons, List.map_nil, List.foldr_cons, List.foldr_nil, BitVec.xor_zero,
      BitVec.xor_assoc, BitVec.ushiftRight_zero]
  have hfst : (g.lteGoldCalls k).1 = advance^[50 + k] ⟨1#32 + (1#32 <<< 31),
      g.x2 ^^^ ((g.x2 ^^^ (g.x2 >>> 1) ^^^ (g.x2 >>> 2) ^^^ (g.x2 >>> 3)) <<< 31)⟩ := by
    have hcount : 50 + k = k + 1 + 49 := by omega
    rw [hcount, iterate_add_apply _ (k + 1), lteGoldCalls_fst, restart]
  have hstart : 1600 + 32 * k = 0 + 32 * (50 + k) := by omega
  rw [hfst, iterate_advance, hx1, hx2, hstart]
  constructor
  · have htaps : ∀ t ∈ [0, 3], t < 31 := by decide
    apply Window.iterate
    · exact window_complete [0, 3] 1#31 (by decide) htaps
    · exact sequence_recurs [0, 3] 1#31 (by decide) htaps
    · decide
  · have htaps : ∀ t ∈ [0, 1, 2, 3], t < 31 := by decide
    apply Window.iterate
    · exact window_complete [0, 1, 2, 3] _ (by decide) htaps
    · exact sequence_recurs [0, 1, 2, 3] _ (by decide) htaps
    · decide

/-- Every word that `lte_gold_generic` returns holds the next 32 bits of the sequence for `c_init`. -/
theorem lteGoldCalls_getLsbD (h : g.x2.getLsbD 31 = false) (k : ℕ) {j : ℕ} (hj : j < 32) :
    (g.lteGoldCalls k).2.getLsbD j = goldBit (g.x2.setWidth 31) (32 * k + j) := by
  obtain ⟨hx1, hx2⟩ := g.lteGoldCalls_windows h k
  have hindex : 1600 + 32 * k + j = 32 * k + j + 1600 := by omega
  rw [lteGoldCalls_snd, BitVec.getLsbD_xor, hx1 j (Nat.le_of_lt_succ hj), hx2 j (Nat.le_of_lt_succ hj), hindex]
  rfl

/-- The first word for `c_init` 0x246813. -/
theorem lteGoldCalls_getLsbD_zero : ((⟨0, 0x246813⟩ : Gold).lteGoldCalls 0).2.getLsbD 5 =
    goldBit ((0x246813 : BitVec 32).setWidth 31) (32 * 0 + 5) :=
  lteGoldCalls_getLsbD ⟨0, 0x246813⟩ (by decide) 0 (by decide)

end Gold

end EdgeSlice.Coding
