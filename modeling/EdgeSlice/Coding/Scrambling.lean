import EdgeSlice.CountedLoop
import EdgeSlice.Coding.GoldSequence
import Mathlib.Algebra.Ring.Defs

/-! Scrambling of the coded bits of the downlink channels at the eNB, and of the soft bits at the UE. -/

namespace EdgeSlice.Coding

open CountedLoop

section Loops

variable {α : Type*} (f : ℕ → BitVec 32 → α → α) (g : Gold) (n : ℕ) (e : ℕ → α)

/-- The 32 elements from `p` on, each with its bit of `s`. -/
def scrambleWord (s : BitVec 32) (p : ℕ) : ℕ → α :=
  fun i ↦ if p ≤ i ∧ i < p + 32 then f i ((s >>> (i - p)) &&& 1#32) (e i) else e i

def wordStep (i : ℕ) (t : (ℕ → α) × Gold × BitVec 32) : (ℕ → α) × Gold × BitVec 32 :=
  (scrambleWord f t.1 t.2.2 (32 * i), t.2.1.lteGoldGeneric false)

/-- A loop that takes a word of the generator for each 32 elements. -/
def wordLoop : ℕ → α := (turns n (wordStep f) (e, g.lteGoldGeneric true)).1

/-- The generator is asked at every 32nd element only, and is reset at the first one. -/
def fetch (i : ℕ) (reset : Bool) (r : Gold × BitVec 32) : Bool × Gold × BitVec 32 :=
  if i &&& 0x1f = 0 then (false, r.1.lteGoldGeneric reset) else (reset, r)

def bitStep (i : ℕ) (t : (ℕ → α) × Bool × Gold × BitVec 32) : (ℕ → α) × Bool × Gold × BitVec 32 :=
  let r := fetch i t.2.1 t.2.2
  (Function.update t.1 i (f i ((r.2.2 >>> (i &&& 0x1f)) &&& 1#32) (t.1 i)), r)

/-- A loop over the elements that asks the generator when the bits of a word are used up. -/
def bitLoop : ℕ → α := (turns n (bitStep f) (e, true, g, 0#32)).1

theorem shiftRight_and_one (s : BitVec 32) (j : ℕ) :
    (s >>> j) &&& 1#32 = (BitVec.ofBool (s.getLsbD j)).setWidth 32 := by
  apply BitVec.eq_of_getLsbD_eq
  intro i hi
  rw [BitVec.getLsbD_and, BitVec.getLsbD_ushiftRight, BitVec.getLsbD_one, BitVec.getLsbD_setWidth,
    BitVec.getLsbD_ofBool, decide_eq_true hi, Bool.true_and, decide_eq_true (by decide), Bool.true_and]
  by_cases hzero : i = 0
  · rw [hzero, Nat.add_zero, decide_eq_true (Eq.refl 0), Bool.and_true, Bool.true_and]
  · rw [decide_eq_false hzero, Bool.and_false, Bool.false_and]

/-- The bit of the sequence that belongs to element `i`, as the source has it. -/
def goldWord (cInit : BitVec 32) (i : ℕ) : BitVec 32 := (BitVec.ofBool (goldBit (cInit.setWidth 31) i)).setWidth 32

variable {f g n e}

theorem word_eq (hg : g.x2.getLsbD 31 = false) {k j : ℕ} (hj : j < 32) :
    ((g.lteGoldCalls k).2 >>> j) &&& 1#32 = goldWord g.x2 (32 * k + j) := by
  rw [shiftRight_and_one, g.lteGoldCalls_getLsbD hg k hj, goldWord]

theorem wordLoop_turns (hg : g.x2.getLsbD 31 = false) (n : ℕ) :
    turns n (wordStep f) (e, g.lteGoldGeneric true) =
      (fun i ↦ if i < 32 * n then f i (goldWord g.x2 i) (e i) else e i, g.lteGoldCalls n) := by
  induction n with
  | zero =>
    rw [turns_zero]
    refine Prod.ext ?_ rfl
    funext i
    simp only [Nat.mul_zero, Nat.not_lt_zero, if_false]
  | succ n ih =>
    rw [turns_succ, ih]
    refine Prod.ext ?_ rfl
    funext i
    simp only [wordStep, scrambleWord]
    by_cases hlow : i < 32 * n
    · have hout : ¬(32 * n ≤ i ∧ i < 32 * n + 32) := by omega
      rw [if_neg hout, if_pos hlow, if_pos (by omega)]
    · by_cases hin : i < 32 * (n + 1)
      · have hindex : 32 * n + (i - 32 * n) = i := by omega
        rw [if_pos (by omega), if_neg hlow, if_pos hin, word_eq hg (by omega), hindex]
      · have hout : ¬(32 * n ≤ i ∧ i < 32 * n + 32) := by omega
        rw [if_neg hout, if_neg hlow, if_neg hin]

/-- Every element of the words takes its own bit of the sequence. -/
theorem wordLoop_apply (hg : g.x2.getLsbD 31 = false) (i : ℕ) :
    wordLoop f g n e i = if i < 32 * n then f i (goldWord g.x2 i) (e i) else e i := by
  rw [wordLoop, wordLoop_turns hg]

theorem and_31 (i : ℕ) : i &&& 0x1f = i % 32 := Nat.and_two_pow_sub_one_eq_mod i 5

theorem bitLoop_turns (hg : g.x2.getLsbD 31 = false) (n : ℕ) :
    turns n (bitStep f) (e, true, g, 0#32) =
      (fun i ↦ if i < n then f i (goldWord g.x2 i) (e i) else e i,
        if n = 0 then (true, g, 0#32) else (false, g.lteGoldCalls ((n - 1) / 32))) := by
  induction n with
  | zero =>
    rw [turns_zero]
    refine Prod.ext ?_ rfl
    funext i
    simp only [Nat.not_lt_zero, if_false]
  | succ n ih =>
    have hfetch : fetch n (if n = 0 then (true, g, 0#32) else (false, g.lteGoldCalls ((n - 1) / 32))).1
        (if n = 0 then (true, g, 0#32) else (false, g.lteGoldCalls ((n - 1) / 32))).2 =
          (false, g.lteGoldCalls (n / 32)) := by
      rw [fetch, and_31]
      by_cases hword : n % 32 = 0
      · rw [if_pos hword]
        by_cases hzero : n = 0
        · rw [hzero, if_pos rfl]
          rfl
        · have hlast : n / 32 = (n - 1) / 32 + 1 := by omega
          rw [if_neg hzero, hlast]
          rfl
      · have hzero : n ≠ 0 := by
          rintro rfl
          exact hword rfl
        have hlast : (n - 1) / 32 = n / 32 := by omega
        rw [if_neg hword, if_neg hzero, hlast]
    rw [turns_succ, ih]
    simp only [bitStep, hfetch, if_neg (Nat.succ_ne_zero n), Nat.add_sub_cancel]
    refine Prod.ext ?_ rfl
    funext i
    simp only [Function.update_apply]
    rcases Nat.lt_trichotomy i n with hlt | rfl | hgt
    · rw [if_neg (Nat.ne_of_lt hlt), if_pos hlt, if_pos (Nat.lt_succ_of_lt hlt)]
    · rw [if_pos rfl, if_pos (Nat.lt_succ_self i), if_neg (Nat.lt_irrefl i), and_31,
        word_eq hg (Nat.mod_lt i (by decide)), Nat.div_add_mod]
    · rw [if_neg (Nat.ne_of_gt hgt), if_neg (Nat.lt_asymm hgt), if_neg (by omega)]

theorem bitLoop_apply (hg : g.x2.getLsbD 31 = false) (i : ℕ) :
    bitLoop f g n e i = if i < n then f i (goldWord g.x2 i) (e i) else e i := by
  rw [bitLoop, bitLoop_turns hg]

end Loops

section Channels

/-- What an error-free channel makes of a bit: soft values of a size that may depend on the element, positive for 0. -/
def Received {w : ℕ} (amp : ℕ → BitVec w) (e : ℕ → UInt8) (llr : ℕ → BitVec w) (i : ℕ) : Prop :=
  llr i = if e i = 0 then amp i else -amp i

/-- The soft value tells the bit, positive for 1. -/
def Tells {w : ℕ} (amp : ℕ → BitVec w) (e : ℕ → UInt8) (llr : ℕ → BitVec w) (i : ℕ) : Prop :=
  llr i = if e i = 0 then -amp i else amp i

/-- `x2` in `dlsch_scrambling` and in `dlsch_unscrambling`. -/
def dlschCInit (mbsfn : Bool) (rnti : UInt16) (q ns : UInt8) (nidCell nidCellMbsfn : UInt16) : BitVec 32 :=
  if mbsfn then BitVec.ofNat 32 (((ns.toNat >>> 1) <<< 9) + nidCellMbsfn.toNat)
  else BitVec.ofNat 32 ((rnti.toNat <<< 14) + (q.toNat <<< 13) + ((ns.toNat >>> 1) <<< 9) + nidCell.toNat)

/-- `x1` is not set before the generator sets it. -/
def dlschScrambling (x1 cInit : BitVec 32) (G : ℕ) : (ℕ → UInt8) → ℕ → UInt8 :=
  wordLoop (fun _ c b ↦ b ^^^ UInt8.ofBitVec (c.setWidth 8)) ⟨x1, cInit⟩ (1 + (G >>> 5))

def dlschUnscrambling (x1 cInit : BitVec 32) (G : ℕ) : (ℕ → BitVec 16) → ℕ → BitVec 16 :=
  wordLoop (fun _ c llr ↦ ((2 * c - 1) * llr.signExtend 32).setWidth 16) ⟨x1, cInit⟩ (1 + (G >>> 5))

def pdcchCInit (subframe : UInt8) (nidCell : UInt16) : BitVec 32 :=
  BitVec.ofNat 32 ((subframe.toNat <<< 9) + nidCell.toNat)

def pdcchScrambling (x1 cInit : BitVec 32) (length : ℕ) : (ℕ → UInt8) → ℕ → UInt8 :=
  bitLoop (fun _ c b ↦ if b ≠ 2 then (b &&& 1) ^^^ UInt8.ofBitVec (c.setWidth 8) else b) ⟨x1, cInit⟩ length

def pdcchUnscrambling (x1 cInit : BitVec 32) (length : ℕ) : (ℕ → BitVec 8) → ℕ → BitVec 8 :=
  bitLoop (fun _ c llr ↦ if c = 0 then -llr else llr) ⟨x1, cInit⟩ length

def pbchCInit (nidCell : UInt16) : BitVec 32 := BitVec.ofNat 32 nidCell.toNat

def pbchScrambling (x1 cInit : BitVec 32) (length : ℕ) : (ℕ → UInt8) → ℕ → UInt8 :=
  bitLoop (fun _ c b ↦ (b &&& 1) ^^^ UInt8.ofBitVec (c.setWidth 8)) ⟨x1, cInit⟩ length

/-- Only the quarter of the frame is changed. -/
def pbchUnscrambling (x1 cInit : BitVec 32) (length frameMod4 : ℕ) : (ℕ → BitVec 8) → ℕ → BitVec 8 :=
  bitLoop (fun i c llr ↦
    if frameMod4 * (length >>> 2) ≤ i ∧ i < (1 + frameMod4) * (length >>> 2) then if c = 0 then -llr else llr
    else llr) ⟨x1, cInit⟩ length

theorem getLsbD_ofNat_31 {n : ℕ} (h : n < 2 ^ 31) : (BitVec.ofNat 32 n).getLsbD 31 = false := by
  rw [BitVec.getLsbD_ofNat, Nat.testBit_lt_two_pow h, Bool.and_false]

theorem dlschCInit_top (mbsfn : Bool) (rnti : UInt16) (q ns : UInt8) (nidCell nidCellMbsfn : UInt16) :
    (dlschCInit mbsfn rnti q ns nidCell nidCellMbsfn).getLsbD 31 = false := by
  have hrnti := rnti.toNat_lt
  have hq := q.toNat_lt
  have hns := ns.toNat_lt
  have hcell := nidCell.toNat_lt
  have hmbsfn := nidCellMbsfn.toNat_lt
  rw [dlschCInit]
  simp only [Nat.shiftLeft_eq, Nat.shiftRight_eq_div_pow]
  split
  · apply getLsbD_ofNat_31
    omega
  · apply getLsbD_ofNat_31
    omega

theorem pdcchCInit_top (subframe : UInt8) (nidCell : UInt16) : (pdcchCInit subframe nidCell).getLsbD 31 = false := by
  have hsubframe := subframe.toNat_lt
  have hcell := nidCell.toNat_lt
  apply getLsbD_ofNat_31
  rw [Nat.shiftLeft_eq]
  omega

theorem pbchCInit_top (nidCell : UInt16) : (pbchCInit nidCell).getLsbD 31 = false := by
  have hcell := nidCell.toNat_lt
  apply getLsbD_ofNat_31
  omega

variable {w : ℕ} {amp llr llr' : ℕ → BitVec w} {e e' : ℕ → UInt8} {i : ℕ}

/-- The sign is turned once by the bit of the sequence at the eNB, and once more by its complement at the UE. -/
theorem Received.tells {c : Bool} (h : Received amp e' llr i) (hbit : e i = 0 ∨ e i = 1)
    (he : e' i = e i ^^^ UInt8.ofBitVec (((BitVec.ofBool c).setWidth 32).setWidth 8))
    (hllr : llr' i = if c then llr i else -llr i) : Tells amp e llr' i := by
  have hone : UInt8.ofBitVec (((BitVec.ofBool true).setWidth 32).setWidth 8) = 1 := by decide
  have hzero : UInt8.ofBitVec (((BitVec.ofBool false).setWidth 32).setWidth 8) = 0 := by decide
  rw [Received] at h
  rw [Tells, hllr, h, he]
  cases c with
  | false =>
    rw [hzero, UInt8.xor_zero]
    rcases hbit with hbit | hbit
    · simp [hbit]
    · simp [hbit]
  | true =>
    rw [hone]
    rcases hbit with hbit | hbit
    · simp [hbit]
    · simp [hbit]

/-- The bit is turned just where the sequence is 1. -/
theorem xor_word_eq_iff (c : Bool) (b : UInt8) :
    b ^^^ UInt8.ofBitVec (((BitVec.ofBool c).setWidth 32).setWidth 8) = b ↔ c = false := by
  cases c with
  | false =>
    have hzero : UInt8.ofBitVec (((BitVec.ofBool false).setWidth 32).setWidth 8) = 0 := by decide
    rw [hzero, UInt8.xor_zero]
    exact iff_of_true rfl rfl
  | true =>
    have hone : UInt8.ofBitVec (((BitVec.ofBool true).setWidth 32).setWidth 8) = 1 := by decide
    refine iff_of_false ?_ Bool.true_eq_false_eq_False
    intro h
    rw [hone, UInt8.xor_comm] at h
    have hcancel := congrArg (· ^^^ b) h
    simp only [UInt8.xor_assoc, UInt8.xor_self, UInt8.xor_zero] at hcancel
    cases hcancel

theorem softBit_word (c : Bool) (x : BitVec 16) :
    ((2 * (BitVec.ofBool c).setWidth 32 - 1) * x.signExtend 32).setWidth 16 = if c then x else -x := by
  have hext : (x.signExtend 32).setWidth 16 = x := by
    apply BitVec.eq_of_getLsbD_eq
    intro j hj
    have hj' : j < 32 := by omega
    rw [BitVec.getLsbD_setWidth, BitVec.getLsbD_signExtend, decide_eq_true hj, decide_eq_true hj', if_pos hj,
      Bool.true_and, Bool.true_and]
  cases c with
  | false =>
    have hminus : 2 * (BitVec.ofBool false).setWidth 32 - 1 = -1#32 := by decide
    rw [hminus, BitVec.neg_mul, BitVec.one_mul, BitVec.setWidth_neg_of_le (by decide), hext]
    rfl
  | true =>
    have hplus : 2 * (BitVec.ofBool true).setWidth 32 - 1 = 1#32 := by decide
    rw [hplus, BitVec.one_mul, hext]
    rfl

theorem softBit_sign {w : ℕ} (c : Bool) (x : BitVec w) :
    (if (BitVec.ofBool c).setWidth 32 = 0 then -x else x) = if c then x else -x := by
  cases c with
  | false => rfl
  | true => rfl

/-- The eNB turns just the bits where the sequence for the subframe is 1, and the UE gets back all bits of the
codeword, whatever the registers held before. -/
theorem dlschUnscrambling_tells (x1 x1' : BitVec 32) (mbsfn : Bool) (rnti : UInt16) (q ns : UInt8)
    (nidCell nidCellMbsfn : UInt16) (G : ℕ) {e : ℕ → UInt8} {amp llr : ℕ → BitVec 16}
    (hbits : ∀ i < G, e i = 0 ∨ e i = 1)
    (hllr : ∀ i < G, Received amp
      (dlschScrambling x1 (dlschCInit mbsfn rnti q ns nidCell nidCellMbsfn) G e) llr i) :
    ∀ i < G,
      (dlschScrambling x1 (dlschCInit mbsfn rnti q ns nidCell nidCellMbsfn) G e i = e i ↔
        goldBit ((dlschCInit mbsfn rnti q ns nidCell nidCellMbsfn).setWidth 31) i = false) ∧
      Tells amp e (dlschUnscrambling x1' (dlschCInit mbsfn rnti q ns nidCell nidCellMbsfn) G llr) i := by
  intro i hi
  have htop := dlschCInit_top mbsfn rnti q ns nidCell nidCellMbsfn
  have hloop : i < 32 * (1 + (G >>> 5)) := by
    rw [Nat.shiftRight_eq_div_pow]
    omega
  have hscrambled := wordLoop_apply (f := fun _ c b ↦ b ^^^ UInt8.ofBitVec (c.setWidth 8)) (n := 1 + (G >>> 5))
    (e := e) (g := ⟨x1, dlschCInit mbsfn rnti q ns nidCell nidCellMbsfn⟩) htop i
  have hsoft := wordLoop_apply (f := fun _ c llr ↦ ((2 * c - 1) * llr.signExtend 32).setWidth 16)
    (n := 1 + (G >>> 5)) (e := llr) (g := ⟨x1', dlschCInit mbsfn rnti q ns nidCell nidCellMbsfn⟩) htop i
  rw [if_pos hloop] at hscrambled hsoft
  refine ⟨?_, (hllr i hi).tells (hbits i hi) hscrambled ?_⟩
  · rw [dlschScrambling, hscrambled, goldWord]
    exact xor_word_eq_iff _ _
  · rw [dlschUnscrambling, hsoft, goldWord, softBit_word]

/-- What an empty channel makes of the bits, with one soft value for all of them. -/
def unitSoftBits (w : ℕ) (e : ℕ → UInt8) (i : ℕ) : BitVec w := if e i = 0 then 1 else -1

/-- A codeword of zeros. -/
theorem dlschUnscrambling_tells_zeros :
    (dlschScrambling 0 (dlschCInit false 0x1234 0 2 7 0) 4 (fun _ ↦ 0) 3 = 0 ↔
      goldBit ((dlschCInit false 0x1234 0 2 7 0).setWidth 31) 3 = false) ∧
    Tells (fun _ ↦ 1) (fun _ ↦ 0) (dlschUnscrambling 5 (dlschCInit false 0x1234 0 2 7 0) 4
      (unitSoftBits 16 (dlschScrambling 0 (dlschCInit false 0x1234 0 2 7 0) 4 fun _ ↦ 0))) 3 :=
  dlschUnscrambling_tells 0 5 false 0x1234 0 2 7 0 4 (fun _ _ ↦ Or.inl rfl) (fun _ _ ↦ rfl) 3 (by decide)

/-- The control channel: NIL elements stay as they are, and the bits of the others come back. -/
theorem pdcchUnscrambling_tells (x1 x1' : BitVec 32) (subframe : UInt8) (nidCell : UInt16) (length : ℕ)
    {e : ℕ → UInt8} {amp llr : ℕ → BitVec 8} (hbits : ∀ i < length, e i ≠ 2 → e i = 0 ∨ e i = 1)
    (hllr : ∀ i < length, e i ≠ 2 →
      Received amp (pdcchScrambling x1 (pdcchCInit subframe nidCell) length e) llr i) :
    ∀ i < length,
      (e i = 2 → pdcchScrambling x1 (pdcchCInit subframe nidCell) length e i = 2) ∧
      (e i ≠ 2 →
        (pdcchScrambling x1 (pdcchCInit subframe nidCell) length e i = e i ↔
          goldBit ((pdcchCInit subframe nidCell).setWidth 31) i = false) ∧
        Tells amp e (pdcchUnscrambling x1' (pdcchCInit subframe nidCell) length llr) i) := by
  intro i hi
  have htop := pdcchCInit_top subframe nidCell
  have hscrambled := bitLoop_apply
    (f := fun _ c b ↦ if b ≠ 2 then (b &&& 1) ^^^ UInt8.ofBitVec (c.setWidth 8) else b) (n := length) (e := e)
    (g := ⟨x1, pdcchCInit subframe nidCell⟩) htop i
  have hsoft := bitLoop_apply (f := fun _ c llr ↦ if c = 0 then -llr else llr) (n := length) (e := llr)
    (g := ⟨x1', pdcchCInit subframe nidCell⟩) htop i
  rw [if_pos hi] at hscrambled hsoft
  constructor
  · intro hnil
    rw [pdcchScrambling, hscrambled, if_neg (not_not.mpr hnil), hnil]
  · intro hnil
    have hmask : e i &&& 1 = e i := by
      rcases hbits i hi hnil with hbit | hbit
      · rw [hbit, UInt8.zero_and]
      · rw [hbit, UInt8.and_self]
    rw [if_pos hnil, hmask] at hscrambled
    refine ⟨?_, (hllr i hi hnil).tells (hbits i hi hnil) hscrambled ?_⟩
    · rw [pdcchScrambling, hscrambled, goldWord]
      exact xor_word_eq_iff _ _
    · rw [pdcchUnscrambling, hsoft, goldWord, softBit_sign]

/-- A NIL element, and ones. -/
def nilAndOnes (i : ℕ) : UInt8 := if i = 0 then 2 else 1

theorem pdcchUnscrambling_tells_nilAndOnes :
    (nilAndOnes 1 = 2 → pdcchScrambling 0 (pdcchCInit 3 7) 2 nilAndOnes 1 = 2) ∧
    (nilAndOnes 1 ≠ 2 →
      (pdcchScrambling 0 (pdcchCInit 3 7) 2 nilAndOnes 1 = nilAndOnes 1 ↔
        goldBit ((pdcchCInit 3 7).setWidth 31) 1 = false) ∧
      Tells (fun _ ↦ 1) nilAndOnes (pdcchUnscrambling 5 (pdcchCInit 3 7) 2
        (unitSoftBits 8 (pdcchScrambling 0 (pdcchCInit 3 7) 2 nilAndOnes))) 1) := by
  have hbits : ∀ i < 2, nilAndOnes i ≠ 2 → nilAndOnes i = 0 ∨ nilAndOnes i = 1 := by decide
  exact pdcchUnscrambling_tells 0 5 3 7 2 hbits (fun _ _ _ ↦ rfl) 1 (by decide)

/-- The broadcast channel: in each frame the UE gets back the bits of one quarter, and leaves the others. -/
theorem pbchUnscrambling_tells (x1 x1' : BitVec 32) (nidCell : UInt16) {length : ℕ} (hlength : 4 ≤ length)
    (frameMod4 : ℕ) {e : ℕ → UInt8} {amp llr : ℕ → BitVec 8} (hbits : ∀ i < length, e i = 0 ∨ e i = 1)
    (hllr : ∀ i < length, i / (length / 4) = frameMod4 →
      Received amp (pbchScrambling x1 (pbchCInit nidCell) length e) llr i) :
    ∀ i < length,
      (i / (length / 4) = frameMod4 →
        Tells amp e (pbchUnscrambling x1' (pbchCInit nidCell) length frameMod4 llr) i) ∧
      (i / (length / 4) ≠ frameMod4 →
        pbchUnscrambling x1' (pbchCInit nidCell) length frameMod4 llr i = llr i) := by
  intro i hi
  have htop := pbchCInit_top nidCell
  have hquarter : frameMod4 * (length >>> 2) ≤ i ∧ i < (1 + frameMod4) * (length >>> 2) ↔
      i / (length / 4) = frameMod4 := by
    have hpos : 0 < length / 4 := Nat.div_pos hlength (by decide)
    have hfour : length >>> 2 = length / 4 := Nat.shiftRight_eq_div_pow length 2
    rw [hfour, Nat.add_comm 1, Nat.div_eq_iff hpos, Nat.add_mul, Nat.one_mul]
    omega
  have hscrambled := bitLoop_apply (f := fun _ c b ↦ (b &&& 1) ^^^ UInt8.ofBitVec (c.setWidth 8)) (n := length)
    (e := e) (g := ⟨x1, pbchCInit nidCell⟩) htop i
  have hsoft := bitLoop_apply (f := fun i c llr ↦
    if frameMod4 * (length >>> 2) ≤ i ∧ i < (1 + frameMod4) * (length >>> 2) then if c = 0 then -llr else llr
    else llr) (n := length) (e := llr) (g := ⟨x1', pbchCInit nidCell⟩) htop i
  rw [if_pos hi] at hscrambled hsoft
  have hmask : e i &&& 1 = e i := by
    rcases hbits i hi with hbit | hbit
    · rw [hbit, UInt8.zero_and]
    · rw [hbit, UInt8.and_self]
  rw [hmask] at hscrambled
  constructor
  · intro hframe
    refine (hllr i hi hframe).tells (hbits i hi) hscrambled ?_
    rw [pbchUnscrambling, hsoft, if_pos (hquarter.mpr hframe), goldWord, softBit_sign]
  · intro hframe
    rw [pbchUnscrambling, hsoft, if_neg (hquarter.not.mpr hframe)]

end Channels

end EdgeSlice.Coding
