import EdgeSlice.Mac.DlschBitmap
import Mathlib.Algebra.BigOperators.Ring.Finset
import Mathlib.Data.BitVec

namespace EdgeSlice.Mac

open Function Countdown

/-- The four words of a map of resource blocks. -/
abbrev RbMap := Fin 4 → BitVec 32

def RbMap.bit (w : RbMap) (p : ℕ) : Bool := (w (Fin.ofNat 4 (p / 32))).getLsbD (p % 32)

/-- The number of resource blocks of a map. -/
def RbMap.count (w : RbMap) : ℕ := (List.range 128).countP w.bit

def RbMap.orAt (w : RbMap) (word : ℕ) (mask : BitVec 32) : RbMap :=
  update w (Fin.ofNat 4 word) (w (Fin.ofNat 4 word) ||| mask)

/-- `for (i=n; i>0; i--)`. -/
def downFrom (n : ℕ) : List ℕ := (List.range n).map (n - ·)

/-- A loop that sets bits of the map for the bits of `rb_alloc`. -/
def setBits (rbAlloc : BitVec 32) (bitOf word : ℕ → ℕ) (mask : ℕ → BitVec 32) (is : List ℕ)
    (w : RbMap) : RbMap :=
  is.foldl (fun w i ↦ if rbAlloc.getLsbD (bitOf i) then w.orAt (word i) (mask i) else w) w

/-- `conv_rballoc`, `none` for a bandwidth that it refuses. -/
def convRballoc (raHeader : ℕ) (rbAlloc : BitVec 32) (nRbDl : ℕ) : Option RbMap :=
  match nRbDl with
  | 6 => some (update 0 0 (rbAlloc &&& 0x3f#32))
  | 25 =>
    if raHeader = 0 then
      let w := setBits rbAlloc id (fun _ ↦ 0) (fun i ↦ 3#32 <<< (2 * (12 - i))) (downFrom 12) 0
      some (if rbAlloc.getLsbD 0 then w.orAt 0 (1#32 <<< 24) else w)
    else
      let subset := rbAlloc &&& 1#32
      let shift := (rbAlloc >>> 1) &&& 1#32
      let w := setBits rbAlloc (· + 2) (fun _ ↦ 0) (fun i ↦ 1#32 <<< (2 * i)) (List.range 11) 0
      some (if shift = 0#32 ∧ subset = 1#32 then update w 0 (w 0 <<< 1)
        else if shift = 1#32 ∧ subset = 0#32 then update w 0 (w 0 <<< 4)
        else if shift = 1#32 ∧ subset = 1#32 then update w 0 (w 0 <<< 3)
        else w)
  | 50 =>
    if raHeader = 0 then
      let w := setBits rbAlloc id (fun i ↦ (3 * (16 - i)) >>> 5)
        (fun i ↦ 7#32 <<< (3 * (16 - i) % 32)) (downFrom 16) 0
      -- the third block of group 10 is in the next word
      let w := if w 0 >>> 31 = 1#32 then w.orAt 1 1#32 else w
      some (if rbAlloc.getLsbD 0 then w.orAt 1 (3#32 <<< 16) else w)
    else some 0
  | 100 =>
    if raHeader = 0 then
      some (setBits rbAlloc (24 - ·) (fun i ↦ (4 * i) >>> 5) (fun i ↦ 0xf#32 <<< (4 * i % 32))
        (List.range 25) 0)
    else some 0
  | _ => none

/-- A loop that counts the bits of `rb_alloc`, with a weight. -/
def addBits (rbAlloc : BitVec 32) (bitOf : ℕ → ℕ) (weight : ℕ) (is : List ℕ) (nprb : ℕ) : ℕ :=
  is.foldl (fun nprb i ↦ if rbAlloc.getLsbD (bitOf i) then nprb + weight else nprb) nprb

def convNprb (raHeader : ℕ) (rbAlloc : BitVec 32) (nRbDl : ℕ) : Option ℕ :=
  match nRbDl with
  | 6 => some (addBits rbAlloc id 1 (List.range 6) 0)
  | 25 =>
    if raHeader = 0 then
      let nprb := addBits rbAlloc id 2 (downFrom 12) 0
      some (if rbAlloc.getLsbD 0 then nprb + 1 else nprb)
    else some (addBits rbAlloc (· + 2) 1 (List.range 11) 0)
  | 50 =>
    if raHeader = 0 then
      let nprb := addBits rbAlloc (16 - ·) 3 (List.range 16) 0
      some (if rbAlloc.getLsbD 0 then nprb + 2 else nprb)
    else some (addBits rbAlloc (· + 2) 1 (List.range 17) 0)
  | 100 =>
    if raHeader = 0 then some (addBits rbAlloc (24 - ·) 4 (List.range 25) 0)
    else some (addBits rbAlloc (· + 2) 1 (List.range 25) 0)
  | _ => none

section Bits

variable {w : RbMap} {p : ℕ}

theorem bit_orAt (hp : p < 128) {word : ℕ} (hword : word < 4) (mask : BitVec 32) :
    (w.orAt word mask).bit p = true ↔
      w.bit p = true ∨ p / 32 = word ∧ mask.getLsbD (p % 32) = true := by
  have hindex : Fin.ofNat 4 (p / 32) = Fin.ofNat 4 word ↔ p / 32 = word := by
    rw [Fin.ext_iff]
    simp only [Fin.ofNat]
    omega
  rw [RbMap.bit, RbMap.orAt, update_apply]
  simp only [hindex]
  split
  · next heq =>
    rw [BitVec.getLsbD_or, Bool.or_eq_true, RbMap.bit, heq]
    simp
  · next hne => simp [hne, RbMap.bit]

theorem bit_setBits (hp : p < 128) (rbAlloc : BitVec 32) (bitOf word : ℕ → ℕ)
    (mask : ℕ → BitVec 32) (is : List ℕ) (hword : ∀ i ∈ is, word i < 4) :
    (setBits rbAlloc bitOf word mask is w).bit p = true ↔
      w.bit p = true ∨ ∃ i ∈ is, rbAlloc.getLsbD (bitOf i) = true ∧ p / 32 = word i ∧
        (mask i).getLsbD (p % 32) = true := by
  induction is generalizing w with
  | nil => simp [setBits]
  | cons i is ih =>
    obtain ⟨hi, his⟩ := List.forall_mem_cons.mp hword
    rw [setBits, List.foldl_cons, ← setBits, ih his]
    split
    · next hbit =>
      rw [bit_orAt hp hi, or_assoc]
      simp [hbit]
    · next hbit => simp [hbit]

/-- A mask of `k` ones from bit `n` on. -/
theorem ones_bit (k n q : ℕ) :
    (BitVec.ofNat 32 (2 ^ k - 1) <<< n).getLsbD q = true ↔ q < 32 ∧ n ≤ q ∧ q < n + k := by
  rw [BitVec.getLsbD_shiftLeft, BitVec.getLsbD_ofNat, Nat.testBit_two_pow_sub_one]
  simp only [Bool.and_eq_true, decide_eq_true_eq, Bool.not_eq_true', decide_eq_false_iff_not]
  omega

theorem bit_orAt_ones (hp : p < 128) {word : ℕ} (hword : word < 4) {mask : BitVec 32} {k n : ℕ}
    (hmask : mask = BitVec.ofNat 32 (2 ^ k - 1) <<< n) :
    (w.orAt word mask).bit p = true ↔
      w.bit p = true ∨ p / 32 = word ∧ n ≤ p % 32 ∧ p % 32 < n + k := by
  rw [bit_orAt hp hword, hmask, ones_bit]
  have hmod : p % 32 < 32 := Nat.mod_lt p (by omega)
  simp only [hmod, true_and]

/-- A loop that sets the bits of whole groups of `k` blocks, where `group p` is the turn that
covers a block, if any. -/
theorem bit_setBits_ones (hp : p < 128) (rbAlloc : BitVec 32) (group : ℕ)
    {bitOf word n : ℕ → ℕ} {mask : ℕ → BitVec 32} {k : ℕ} {is : List ℕ} {Q : Prop}
    (hmask : ∀ i, mask i = BitVec.ofNat 32 (2 ^ k - 1) <<< n i) (hword : ∀ i ∈ is, word i < 4)
    (hgroup : ∀ i, i ∈ is ∧ p / 32 = word i ∧ n i ≤ p % 32 ∧ p % 32 < n i + k ↔ Q ∧ i = group) :
    (setBits rbAlloc bitOf word mask is 0).bit p = true ↔
      Q ∧ rbAlloc.getLsbD (bitOf group) = true := by
  have hzero : (0 : RbMap).bit p = false := by simp [RbMap.bit]
  have hmod : p % 32 < 32 := Nat.mod_lt p (by omega)
  rw [bit_setBits hp rbAlloc bitOf word mask is hword]
  simp only [hzero, Bool.false_eq_true, false_or, hmask, ones_bit, hmod, true_and]
  constructor
  · intro h
    obtain ⟨i, hi, hbit, hplace⟩ := h
    obtain ⟨hQ, rfl⟩ := (hgroup i).mp ⟨hi, hplace⟩
    exact ⟨hQ, hbit⟩
  · intro h
    obtain ⟨hi, hplace⟩ := (hgroup group).mpr ⟨h.1, rfl⟩
    exact ⟨group, hi, h.2, hplace⟩

theorem mem_downFrom {n i : ℕ} : i ∈ downFrom n ↔ 0 < i ∧ i ≤ n := by
  rw [downFrom, List.mem_map]
  constructor
  · intro h
    obtain ⟨k, hk, rfl⟩ := h
    have := List.mem_range.mp hk
    omega
  · intro h
    exact ⟨n - i, List.mem_range.mpr (by omega), by omega⟩

/-- The last bit of `rb_alloc` stands for a shorter group. -/
theorem bit_last (hp : p < 128) {word k n : ℕ} (hword : word < 4) {mask : BitVec 32}
    (hmask : mask = BitVec.ofNat 32 (2 ^ k - 1) <<< n) (bit : Bool) :
    (if bit then w.orAt word mask else w).bit p = true ↔
      w.bit p = true ∨ bit = true ∧ p / 32 = word ∧ n ≤ p % 32 ∧ p % 32 < n + k := by
  cases bit with
  | false => simp
  | true => simpa using bit_orAt_ones hp hword hmask

/-- Whole groups, and a last one of which only the first blocks are there. -/
theorem groups_or_last {g : ℕ → Bool} {m n j p : ℕ} {R : Prop} (hmn : m ≤ n)
    (hR : R ↔ m ≤ p ∧ p < n) (hj : m ≤ p → p < n → j = 0) :
    (p < m ∧ g j = true) ∨ g 0 = true ∧ R ↔ p < n ∧ g j = true := by
  rw [hR]
  by_cases hp : p < m
  · have hnot : ¬m ≤ p := by omega
    simp only [hp, hnot, show p < n by omega, false_and, and_false, or_false, true_and]
  · by_cases hn : p < n
    · rw [hj (by omega) hn]
      simp only [hp, hn, show m ≤ p by omega, false_and, false_or, true_and, and_true]
    · simp only [hp, hn, false_and, and_false, or_false]

theorem conv25_bit (rbAlloc : BitVec 32) :
    ∃ w, convRballoc 0 rbAlloc 25 = some w ∧ ∀ p < 128,
      w.bit p = true ↔ p < 25 ∧ rbAlloc.getLsbD (12 - p / 2) = true := by
  refine ⟨_, rfl, fun p hp ↦ ?_⟩
  have hloop : (setBits rbAlloc id (fun _ ↦ 0) (fun i ↦ 3#32 <<< (2 * (12 - i)))
      (downFrom 12) 0).bit p = true ↔ p < 24 ∧ rbAlloc.getLsbD (12 - p / 2) = true :=
    bit_setBits_ones (k := 2) (n := fun i ↦ 2 * (12 - i)) hp rbAlloc (12 - p / 2) (fun _ ↦ rfl)
      (fun _ _ ↦ by omega) (fun i ↦ by rw [mem_downFrom]; omega)
  refine (bit_last (k := 1) (n := 24) hp (by omega) rfl _).trans ?_
  rw [hloop]
  exact groups_or_last (by omega) (by omega) (by omega)

theorem conv100_bit (rbAlloc : BitVec 32) :
    ∃ w, convRballoc 0 rbAlloc 100 = some w ∧ ∀ p < 128,
      w.bit p = true ↔ p < 100 ∧ rbAlloc.getLsbD (24 - p / 4) = true := by
  refine ⟨_, rfl, fun p hp ↦ ?_⟩
  refine bit_setBits_ones (k := 4) (n := fun i ↦ 4 * i % 32) hp rbAlloc (p / 4) (fun _ ↦ rfl)
    ?_ ?_
  · intro i hi
    have hlt := List.mem_range.mp hi
    rw [Nat.shiftRight_eq_div_pow]
    omega
  · intro i
    rw [List.mem_range, Nat.shiftRight_eq_div_pow]
    omega

theorem conv6_bit (rbAlloc : BitVec 32) :
    ∃ w, convRballoc 0 rbAlloc 6 = some w ∧ ∀ p < 128,
      w.bit p = true ↔ p < 6 ∧ rbAlloc.getLsbD p = true := by
  refine ⟨_, rfl, fun p hp ↦ ?_⟩
  have hword : Fin.ofNat 4 (p / 32) = 0 ↔ p < 32 := by
    rw [Fin.ext_iff]
    simp only [Fin.ofNat, Fin.val_zero]
    omega
  rw [RbMap.bit, update_apply]
  simp only [hword]
  split
  · next hlt =>
    have hmask : (0x3f#32).getLsbD p = true ↔ p < 6 := by
      have h := ones_bit 6 0 p
      rw [BitVec.shiftLeft_zero] at h
      exact h.trans (by omega)
    rw [Nat.mod_eq_of_lt hlt, BitVec.getLsbD_and, Bool.and_eq_true, hmask, and_comm]
  · next hge =>
    have hnot : ¬p < 6 := by omega
    simp [hnot]

theorem shiftRight_last (x : BitVec 32) : x >>> 31 = 1#32 ↔ x.getLsbD 31 = true := by
  have hlt := x.isLt
  rw [BitVec.getLsbD, Nat.testBit_eq_decide_div_mod_eq, decide_eq_true_eq, ← BitVec.toNat_inj,
    BitVec.toNat_ushiftRight, Nat.shiftRight_eq_div_pow]
  show x.toNat / 2 ^ 31 = 1 ↔ x.toNat / 2 ^ 31 % 2 = 1
  omega

theorem conv50_bit (rbAlloc : BitVec 32) :
    ∃ w, convRballoc 0 rbAlloc 50 = some w ∧ ∀ p < 128,
      w.bit p = true ↔ p < 50 ∧ rbAlloc.getLsbD (16 - p / 3) = true := by
  refine ⟨_, rfl, fun p hp ↦ ?_⟩
  set w := setBits rbAlloc id (fun i ↦ (3 * (16 - i)) >>> 5)
    (fun i ↦ 7#32 <<< (3 * (16 - i) % 32)) (downFrom 16) 0 with hw
  -- the loop cuts group 10 off at the end of the first word
  have hloop (q : ℕ) (hq : q < 128) :
      w.bit q = true ↔ (q < 48 ∧ q ≠ 32) ∧ rbAlloc.getLsbD (16 - q / 3) = true := by
    refine bit_setBits_ones (k := 3) (n := fun i ↦ 3 * (16 - i) % 32) hq rbAlloc (16 - q / 3)
      (fun _ ↦ rfl) ?_ ?_
    · intro i hi
      rw [Nat.shiftRight_eq_div_pow]
      omega
    · intro i
      rw [mem_downFrom, Nat.shiftRight_eq_div_pow]
      omega
  have hcarry : w 0 >>> 31 = 1#32 ↔ rbAlloc.getLsbD 6 = true :=
    (shiftRight_last (w 0)).trans ((hloop 31 (by omega)).trans (by simp))
  have hword : (if w 0 >>> 31 = 1#32 then w.orAt 1 1#32 else w).bit p = true ↔
      p < 48 ∧ rbAlloc.getLsbD (16 - p / 3) = true := by
    simp only [hcarry]
    refine (bit_last (k := 1) (n := 0) hp (by omega) rfl _).trans ?_
    rw [hloop p hp]
    by_cases hp32 : p = 32
    · simp [hp32]
    · have hother : ¬(p / 32 = 1 ∧ 0 ≤ p % 32 ∧ p % 32 < 0 + 1) := by omega
      simp only [hp32, hother, ne_eq, not_false_eq_true, and_true, and_false, or_false]
  refine (bit_last (k := 2) (n := 16) hp (by omega) rfl _).trans ?_
  rw [hword]
  exact groups_or_last (by omega) (by omega) (by omega)

end Bits

section Count

variable {g : ℕ → Bool}

theorem addBits_eq (rbAlloc : BitVec 32) (bitOf : ℕ → ℕ) (weight : ℕ) (is : List ℕ) (nprb : ℕ) :
    addBits rbAlloc bitOf weight is nprb =
      nprb + weight * is.countP (fun i ↦ rbAlloc.getLsbD (bitOf i)) := by
  induction is generalizing nprb with
  | nil => rfl
  | cons i is ih =>
    rw [addBits, List.foldl_cons, ← addBits, ih, List.countP_cons]
    split
    · ring
    · rfl

theorem countP_part (g : ℕ → Bool) {k : ℕ} (n : ℕ) {r : ℕ} (hr : r ≤ k) :
    (List.range (k * n + r)).countP (fun p ↦ g (p / k)) =
      (List.range (k * n)).countP (fun p ↦ g (p / k)) + if g n then r else 0 := by
  induction r with
  | zero => simp
  | succ r ih =>
    have hdiv : (k * n + r) / k = n := by
      rw [Nat.mul_add_div (by omega), Nat.div_eq_of_lt (by omega), Nat.add_zero]
    rw [← Nat.add_assoc, List.range_succ, List.countP_append, ih (by omega), List.countP_singleton,
      hdiv]
    split <;> omega

/-- A block counts as its group does. -/
theorem countP_groups (g : ℕ → Bool) {k : ℕ} (n : ℕ) {r : ℕ} (hr : r ≤ k) :
    (List.range (k * n + r)).countP (fun p ↦ g (p / k)) =
      k * (List.range n).countP g + if g n then r else 0 := by
  have hwhole : (List.range (k * n)).countP (fun p ↦ g (p / k)) = k * (List.range n).countP g := by
    induction n with
    | zero => simp
    | succ n ih =>
      rw [Nat.mul_succ, countP_part g n le_rfl, ih, List.range_succ, List.countP_append,
        List.countP_singleton]
      split <;> ring
  rw [countP_part g n hr, hwhole]

theorem add_ite_zero (c : Bool) (n r : ℕ) :
    (if c then n + r else n) = n + if c then r else 0 := by
  split <;> rfl

theorem count_eq {w : RbMap} {n : ℕ} (hn : n ≤ 128)
    (h : ∀ p < 128, w.bit p = true ↔ p < n ∧ g p = true) : w.count = (List.range n).countP g := by
  obtain ⟨m, hm⟩ := Nat.exists_eq_add_of_le hn
  rw [RbMap.count, hm, List.range_add, List.countP_append]
  have hinside : (List.range n).countP w.bit = (List.range n).countP g := by
    refine List.countP_congr (fun p hp ↦ ?_)
    have hlt := List.mem_range.mp hp
    rw [h p (by omega)]
    simp [hlt]
  have houtside : ((List.range m).map (n + ·)).countP w.bit = 0 := by
    refine List.countP_eq_zero.mpr (fun p hp ↦ ?_)
    obtain ⟨k, hk, rfl⟩ := List.mem_map.mp hp
    have hlt := List.mem_range.mp hk
    rw [h (n + k) (by omega)]
    omega
  rw [hinside, houtside, Nat.add_zero]

end Count

/-- The bandwidths that `allocate_prbs_sub`, `conv_rballoc` and `conv_nprb` all know. -/
def Bandwidth.Mapped (b : Bandwidth) : Prop := b ≠ .rb15 ∧ b ≠ .rb75

/-- The bit of `rb_alloc` that a resource block is allocated by. -/
def Bandwidth.allocBit (b : Bandwidth) (p : ℕ) : ℕ :=
  if b = .rb6 then p else b.nRbg - 1 - p / b.rbgSize

/-- The map and the count of the PHY, for type 0. -/
theorem convRballoc_spec {b : Bandwidth} (hb : b.Mapped) (rbAlloc : BitVec 32) :
    ∃ w, convRballoc 0 rbAlloc b.nRbDl = some w ∧
      (∀ p < 128, w.bit p = true ↔ p < b.nRbDl ∧ rbAlloc.getLsbD (b.allocBit p) = true) ∧
      convNprb 0 rbAlloc b.nRbDl = some w.count := by
  cases b with
  | rb15 => exact absurd rfl hb.1
  | rb75 => exact absurd rfl hb.2
  | rb6 =>
    obtain ⟨w, hw, hbit⟩ := conv6_bit rbAlloc
    refine ⟨w, hw, hbit, ?_⟩
    rw [count_eq (by omega) hbit]
    show some (addBits rbAlloc id 1 (List.range 6) 0) = _
    rw [addBits_eq, Nat.zero_add, Nat.one_mul]
    rfl
  | rb25 =>
    obtain ⟨w, hw, hbit⟩ := conv25_bit rbAlloc
    refine ⟨w, hw, hbit, ?_⟩
    have hcount := countP_groups (k := 2) (r := 1) (fun j ↦ rbAlloc.getLsbD (12 - j)) 12 (by omega)
    have hnprb := addBits_eq rbAlloc id 2 (downFrom 12) 0
    rw [downFrom, List.countP_map] at hnprb
    rw [count_eq (by omega) hbit, hcount, ← add_ite_zero]
    exact congrArg (fun n ↦ some (if rbAlloc.getLsbD 0 then n + 1 else n)) (hnprb.trans (by simp; rfl))
  | rb50 =>
    obtain ⟨w, hw, hbit⟩ := conv50_bit rbAlloc
    refine ⟨w, hw, hbit, ?_⟩
    have hcount := countP_groups (k := 3) (r := 2) (fun j ↦ rbAlloc.getLsbD (16 - j)) 16 (by omega)
    have hnprb := addBits_eq rbAlloc (16 - ·) 3 (List.range 16) 0
    rw [count_eq (by omega) hbit, hcount, ← add_ite_zero]
    exact congrArg (fun n ↦ some (if rbAlloc.getLsbD 0 then n + 2 else n))
      (hnprb.trans (Nat.zero_add _))
  | rb100 =>
    obtain ⟨w, hw, hbit⟩ := conv100_bit rbAlloc
    refine ⟨w, hw, hbit, ?_⟩
    have hcount := countP_groups (k := 4) (r := 0) (fun j ↦ rbAlloc.getLsbD (24 - j)) 25 (by omega)
    have hnprb := addBits_eq rbAlloc (24 - ·) 4 (List.range 25) 0
    rw [count_eq (by omega) hbit, hcount, ite_self]
    exact congrArg some (hnprb.trans (Nat.zero_add _))

section Agreement

variable (b : Bandwidth) (rballoc : ℕ → ℕ) (nbRb : ℤ)

def markedGroups : List ℕ := (List.range b.nRbg).filter (fun check ↦ rballoc check == 1)

/-- The groups for which the loop of `allocate_prbs_sub` sets a bit, in its order. -/
def consumedGroups : List ℕ :=
  walk (fun left : ℤ ↦ decide (0 < left)) (fun left check ↦ left - b.dciSize check)
    (fun check ↦ rballoc check == 1) (fun ks check ↦ ks ++ [check]) (List.range b.nRbg) nbRb []

/-- The word that the MAC hands to the PHY. -/
def rbAllocDci : BitVec 32 := BitVec.ofNat 32 (allocatePrbsSub b nbRb rballoc)

/-- The PHY uses and counts the resource blocks of the groups that the MAC has taken, and no
others, and the MAC takes the groups that are paid for. -/
def RbgAgreement : Prop :=
  (∃ w, convRballoc 0 (rbAllocDci b rballoc nbRb) b.nRbDl = some w ∧
    (∀ p < 128, w.bit p = true ↔ ∃ k ∈ consumedGroups b rballoc nbRb,
      k * b.rbgSize ≤ p ∧ p < min ((k + 1) * b.rbgSize) b.nRbDl) ∧
    (∀ p < 128, b.nRbDl ≤ p → w.bit p = false) ∧
    convNprb 0 (rbAllocDci b rballoc nbRb) b.nRbDl = some w.count) ∧
  ∀ m, nbRb = b.blocks ((markedGroups b rballoc).take m) →
    consumedGroups b rballoc nbRb = (markedGroups b rballoc).take m

/-- The groups that `allocate_prbs_sub` takes of six lie symmetrically: only then does it
make no difference that `conv_rballoc` does not turn the bitmap round for six blocks. -/
def SymmetricSix : Prop :=
  ∀ k < 6, k ∈ (markedGroups b rballoc).take nbRb.toNat ↔
    5 - k ∈ (markedGroups b rballoc).take nbRb.toNat

variable {b rballoc nbRb}

theorem foldl_concat (ks : List ℕ) (start : List ℕ) :
    ks.foldl (fun ks check ↦ ks ++ [check]) start = start ++ ks := by
  induction ks generalizing start with
  | nil => simp
  | cons k ks ih => rw [List.foldl_cons, ih, List.append_assoc, List.singleton_append]

theorem consumedGroups_eq : consumedGroups b rballoc nbRb =
    paid (fun left : ℤ ↦ decide (0 < left)) (fun left check ↦ left - b.dciSize check)
      (markedGroups b rballoc) nbRb := by
  rw [consumedGroups, walk_eq, foldl_concat, List.nil_append]
  rfl

theorem consumedGroups_lt {k : ℕ} (hk : k ∈ consumedGroups b rballoc nbRb) : k < b.nRbg := by
  rw [consumedGroups_eq] at hk
  exact List.mem_range.mp (List.mem_filter.mp ((paid_start _ _).mem hk)).1

/-- The bits of the word are those of the groups taken, the first group at the top. -/
theorem rbAllocDci_bit {k : ℕ} (hk : k < b.nRbg) :
    (rbAllocDci b rballoc nbRb).getLsbD (b.nRbg - 1 - k) = true ↔
      k ∈ consumedGroups b rballoc nbRb := by
  have hnRbg := b.nRbg_le
  rw [nRbgMax] at hnRbg
  have hwidth : b.nRbg - 1 - k < 32 := by omega
  have hbits := foldl_or_testBit b.nRbg (consumedGroups b rballoc nbRb)
    (fun _ ↦ consumedGroups_lt) 0 hk
  rw [rbAllocDci, BitVec.getLsbD_ofNat, allocatePrbsSub, walk_eq, ← markedGroups,
    ← consumedGroups_eq]
  simpa [hwidth] using hbits

theorem mapped_of_mem (hb : b.nRbDl ∈ [6, 25, 50, 100]) : b.Mapped := by
  constructor
  · rintro rfl
    revert hb
    decide
  · rintro rfl
    revert hb
    decide

theorem Bandwidth.Mapped.dciSize_eq (hb : b.Mapped) (j : ℕ) : b.dciSize j = b.rbSize j := by
  have hlast : ((j : ℤ) = b.nRbg - 1) ↔ j = b.nRbg - 1 := by
    cases b <;> (rw [Bandwidth.nRbg]; omega)
  rw [Bandwidth.rbSize]
  simp only [hlast]
  cases b with
  | rb15 => exact absurd rfl hb.1
  | rb75 => exact absurd rfl hb.2
  | rb6 => exact (ite_self _).symm ▸ rfl
  | rb25 =>
    rw [Bandwidth.dciSize, Nat.cast_ite]
    rfl
  | rb50 =>
    rw [Bandwidth.dciSize, Nat.cast_ite]
    rfl
  | rb100 => exact (ite_self _).symm ▸ rfl

/-- A counter that holds the resource blocks of the first marked groups takes these. -/
theorem Bandwidth.Mapped.consumed_exact (hb : b.Mapped) {m : ℕ}
    (hnb : nbRb = b.blocks ((markedGroups b rballoc).take m)) :
    consumedGroups b rballoc nbRb = (markedGroups b rballoc).take m := by
  have hsum : (((markedGroups b rballoc).take m).map b.dciSize).sum = nbRb := by
    rw [hnb, Bandwidth.blocks, Nat.cast_list_sum, List.map_map]
    exact congrArg List.sum (List.map_congr_left fun j _ ↦ hb.dciSize_eq j)
  have hpos : ∀ j ∈ (markedGroups b rballoc).take m, 0 < b.dciSize j := by
    intro j _
    rw [hb.dciSize_eq]
    exact_mod_cast b.rbSize_pos j
  have hpaid := paid_front _ ((markedGroups b rballoc).drop m) hpos
  rwa [hsum, List.take_append_drop, ← consumedGroups_eq] at hpaid

theorem consumed_six : consumedGroups .rb6 rballoc nbRb =
    (markedGroups .rb6 rballoc).take nbRb.toNat := by
  rw [consumedGroups_eq]
  exact paid_unit _ (fun _ _ ↦ rfl) _

/-- The blocks of a group are those that lead to its number. -/
theorem covered_iff {ks : List ℕ} {size n p : ℕ} (hsize : 0 < size) :
    (∃ k ∈ ks, k * size ≤ p ∧ p < min ((k + 1) * size) n) ↔ p < n ∧ p / size ∈ ks := by
  constructor
  · intro h
    obtain ⟨k, hk, hle, hlt⟩ := h
    obtain ⟨hlt, hn⟩ := lt_min_iff.mp hlt
    obtain rfl : p / size = k := Nat.div_eq_of_lt_le hle hlt
    exact ⟨hn, hk⟩
  · intro h
    refine ⟨_, h.2, Nat.div_mul_le_self p size, lt_min ?_ h.1⟩
    exact Nat.lt_mul_of_div_lt (Nat.lt_succ_self _) hsize

/-- The map of the PHY has the blocks of the groups taken; for six blocks it is turned
round. -/
theorem Bandwidth.Mapped.allocBit_iff (hb : b.Mapped) {p : ℕ} (hp : p < b.nRbDl) :
    (rbAllocDci b rballoc nbRb).getLsbD (b.allocBit p) = true ↔
      (if b = .rb6 then 5 - p else p / b.rbgSize) ∈ consumedGroups b rballoc nbRb := by
  rw [Bandwidth.allocBit]
  split
  · next hsix =>
    subst hsix
    have hlt : p < 6 := hp
    have hbit : p = Bandwidth.rb6.nRbg - 1 - (5 - p) := by
      show p = 6 - 1 - (5 - p)
      omega
    have hgroup : 5 - p < Bandwidth.rb6.nRbg := by
      show 5 - p < 6
      omega
    conv_lhs => rw [hbit]
    exact rbAllocDci_bit hgroup
  · next hsix =>
    apply rbAllocDci_bit
    cases b <;> first | exact absurd rfl hsix | exact absurd rfl hb.1 | exact absurd rfl hb.2 |
      (simp only [Bandwidth.nRbDl, Bandwidth.rbgSize, Bandwidth.nRbg] at hp ⊢; omega)

/-- The MAC and the PHY agree, except that the bitmap for six resource blocks is read from the
wrong end. -/
theorem agreement_iff (hb : b.nRbDl ∈ [6, 25, 50, 100]) :
    RbgAgreement b rballoc nbRb ↔ (b = .rb6 → SymmetricSix b rballoc nbRb) := by
  have hmapped := mapped_of_mem hb
  have hsize : 0 < b.rbgSize := by cases b <;> decide
  obtain ⟨w, hw, hbit, hcount⟩ := convRballoc_spec hmapped (rbAllocDci b rballoc nbRb)
  have hblock : ∀ p < 128, w.bit p = true ↔
      p < b.nRbDl ∧ (if b = .rb6 then 5 - p else p / b.rbgSize) ∈ consumedGroups b rballoc nbRb := by
    intro p hp
    rw [hbit p hp]
    exact and_congr_right hmapped.allocBit_iff
  have hcovers : (∀ p < 128, w.bit p = true ↔ ∃ k ∈ consumedGroups b rballoc nbRb,
      k * b.rbgSize ≤ p ∧ p < min ((k + 1) * b.rbgSize) b.nRbDl) ↔
      (b = .rb6 → SymmetricSix b rballoc nbRb) := by
    simp only [covered_iff hsize]
    by_cases hsix : b = .rb6
    · subst hsix
      simp only [if_true, Bandwidth.rbgSize, Nat.div_one, Bandwidth.nRbDl] at hblock ⊢
      rw [SymmetricSix, ← consumed_six]
      constructor
      · intro h _ k hk
        have hk' := (hblock k (by omega)).symm.trans (h k (by omega))
        simpa [hk] using hk'.symm
      · intro h p hp
        rw [hblock p hp]
        exact and_congr_right fun hlt ↦ (h trivial p hlt).symm
    · simp only [hsix, if_false] at hblock
      exact iff_of_true hblock fun heq ↦ absurd heq hsix
  have hinside : ∀ p < 128, b.nRbDl ≤ p → w.bit p = false := by
    intro p hp hle
    rw [← Bool.not_eq_true, hbit p hp]
    omega
  constructor
  · intro h
    obtain ⟨⟨w', hw', hall, -⟩, -⟩ := h
    obtain rfl : w = w' := Option.some.inj (hw.symm.trans hw')
    exact hcovers.mp hall
  · intro h
    exact ⟨⟨w, hw, hcovers.mpr h, hinside, hcount⟩, fun m hm ↦ hmapped.consumed_exact hm⟩

theorem agreement_twenty_five :
    RbgAgreement .rb25 (fun check ↦ check % 2) 6 ↔
      (Bandwidth.rb25 = .rb6 → SymmetricSix .rb25 (fun check ↦ check % 2) 6) :=
  agreement_iff (by decide)

/-- With the first of six groups marked, the PHY uses the last resource block. -/
theorem not_agreement_six :
    ¬ ∀ (b : Bandwidth) (rballoc : ℕ → ℕ) (nbRb : ℤ), b.nRbDl ∈ [6, 25, 50, 100] →
      RbgAgreement b rballoc nbRb := by
  intro hall
  obtain ⟨⟨w, hw, hbits, -⟩, -⟩ := hall .rb6 (fun check ↦ if check = 0 then 1 else 0) 1 (by decide)
  have hmap : (convRballoc 0 (rbAllocDci .rb6 (fun check ↦ if check = 0 then 1 else 0) 1) 6).map
      (fun w ↦ w.bit 0) = some false := by decide +kernel
  have hzero : w.bit 0 = false := by
    have h := congrArg (Option.map (fun w ↦ w.bit 0)) hw
    exact Option.some.inj (h.symm.trans hmap)
  have hgroup : 0 ∈ consumedGroups .rb6 (fun check ↦ if check = 0 then 1 else 0) 1 := by
    decide +kernel
  have hone := (hbits 0 (by omega)).mpr ⟨0, hgroup, by decide, by decide⟩
  exact Bool.noConfusion (hzero.symm.trans hone)

end Agreement

end EdgeSlice.Mac
