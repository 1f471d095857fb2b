import EdgeSlice.ShiftRegister
import Mathlib.Algebra.Group.Nat.Defs

/-! The cyclic redundancy checks of the transport channels, bit by bit and by tables. -/

namespace EdgeSlice.Coding.CrcByte

open EdgeSlice.ShiftRegister Function

def poly24a : BitVec 32 := 0x864cfb00#32

def poly24b : BitVec 32 := 0x80006300#32

def poly16 : BitVec 32 := 0x10210000#32

def poly12 : BitVec 32 := 0x80F00000#32

def poly8 : BitVec 32 := 0x9B000000#32

/-- The loops over the octets: where the pointer stands after them, and the register. A read past
the data has no result. -/
def octets (step : BitVec 8 → BitVec 32 → Option (BitVec 32)) :
    ℕ → List (BitVec 8) → BitVec 32 → Option (List (BitVec 8) × BitVec 32)
  | 0, inptr, crc => some (inptr, crc)
  | _ + 1, [], _ => none
  | octetlen + 1, octet :: inptr, crc =>
    (step octet crc).bind fun crc ↦ octets step octetlen inptr crc

/-- The inner loop of `crcbit`, with `i` bits left on top of `c`. -/
def crcbitOctet (poly : BitVec 32) : ℕ → BitVec 32 → BitVec 32 → BitVec 32
  | 0, _, crc => crc
  | i + 1, c, crc =>
    if (1#32 <<< 31) &&& (c ^^^ crc) ≠ 0#32 then
      crcbitOctet poly i (c <<< 1) (crc <<< 1 ^^^ poly)
    else
      crcbitOctet poly i (c <<< 1) (crc <<< 1)

def crcbit (inputptr : List (BitVec 8)) (octetlen : ℕ) (poly : BitVec 32) : Option (BitVec 32) :=
  (octets (fun octet crc ↦ some (crcbitOctet poly 8 (octet.setWidth 32 <<< 24) crc)) octetlen inputptr 0#32).map
    Prod.snd

structure CrcTables where
  crc24aTable : Vector (BitVec 32) 256
  crc24bTable : Vector (BitVec 32) 256
  crc16Table : Vector (BitVec 16) 256
  crc12Table : Vector (BitVec 16) 256
  crc8Table : Vector (BitVec 8) 256

/-- The body of the loop of `crcTableInit`. -/
def crcTableEntry (t : CrcTables) (c : BitVec 8) : Option CrcTables := do
  let crc24a ← crcbit [c] 1 poly24a
  let crc24b ← crcbit [c] 1 poly24b
  let crc16 ← crcbit [c] 1 poly16
  let crc12 ← crcbit [c] 1 poly12
  let crc8 ← crcbit [c] 1 poly8
  some { crc24aTable := t.crc24aTable.set c.toNat crc24a c.isLt
         crc24bTable := t.crc24bTable.set c.toNat crc24b c.isLt
         crc16Table := t.crc16Table.set c.toNat ((crc16 >>> 16).setWidth 16) c.isLt
         crc12Table := t.crc12Table.set c.toNat ((crc12 >>> 16).setWidth 16) c.isLt
         crc8Table := t.crc8Table.set c.toNat ((crc8 >>> 24).setWidth 8) c.isLt }

theorem toNat_add_one {c : BitVec 8} (h : c + 1#8 ≠ 0#8) : (c + 1#8).toNat = c.toNat + 1 := by
  have hlt := c.isLt
  have hne : (c + 1#8).toNat ≠ 0 := fun hzero ↦ h (BitVec.eq_of_toNat_eq hzero)
  simp only [BitVec.toNat_add, BitVec.toNat_ofNat] at hne ⊢
  omega

theorem crcTable_decreasing {c : BitVec 8} (h : c + 1#8 ≠ 0#8) : 255 - (c + 1#8).toNat < 255 - c.toNat := by
  have hnext := toNat_add_one h
  have hlt := (c + 1#8).isLt
  omega

/-- The loop of `crcTableInit` from the entry of `c`: it ends where `++c` wraps to 0. -/
def crcTableInitFrom (t : CrcTables) (c : BitVec 8) : Option CrcTables :=
  (crcTableEntry t c).bind fun t ↦
    if _h : c + 1#8 ≠ 0#8 then crcTableInitFrom t (c + 1#8) else some t
termination_by 255 - c.toNat
decreasing_by exact crcTable_decreasing ‹_›

def crcTableInit (t : CrcTables) : Option CrcTables := crcTableInitFrom t 0#8

/-- The shape that the table-driven functions share: whole octets, then the remaining bits. -/
def crcTabled (step : BitVec 8 → BitVec 32 → Option (BitVec 32)) (table : BitVec 32 → Option (BitVec 32))
    (inptr : List (BitVec 8)) (bitlen : ℕ) : Option (BitVec 32) :=
  let octetlen := bitlen / 8
  let resbit := bitlen % 8
  (octets step octetlen inptr 0#32).bind fun (inptr, crc) ↦
    if resbit > 0 then do
      let octet ← inptr.head?
      let entry ← table ((octet >>> (8 - resbit)).setWidth 32 ^^^ crc >>> (32 - resbit))
      some (crc <<< resbit ^^^ entry)
    else some crc

def shiftingStep (table : BitVec 32 → Option (BitVec 32)) (octet : BitVec 8) (crc : BitVec 32) :
    Option (BitVec 32) :=
  (table (octet.setWidth 32 ^^^ crc >>> 24)).map fun entry ↦ crc <<< 8 ^^^ entry

/-- The step of `crc8` leaves out the shift of the register. -/
def replacingStep (table : BitVec 32 → Option (BitVec 32)) (octet : BitVec 8) (crc : BitVec 32) :
    Option (BitVec 32) :=
  table (octet.setWidth 32 ^^^ crc >>> 24)

/-- An entry of a table of `width`-bit numbers, moved up by `left` places. -/
def lookup {width : ℕ} (table : Vector (BitVec width) 256) (left : ℕ) (i : BitVec 32) : Option (BitVec 32) :=
  (table[i.toNat]?).map fun entry ↦ (entry.setWidth 32).shiftLeft left

def crc24a (t : CrcTables) : List (BitVec 8) → ℕ → Option (BitVec 32) :=
  crcTabled (shiftingStep (lookup t.crc24aTable 0)) (lookup t.crc24aTable 0)

def crc24b (t : CrcTables) : List (BitVec 8) → ℕ → Option (BitVec 32) :=
  crcTabled (shiftingStep (lookup t.crc24bTable 0)) (lookup t.crc24bTable 0)

def crc16 (t : CrcTables) : List (BitVec 8) → ℕ → Option (BitVec 32) :=
  crcTabled (shiftingStep (lookup t.crc16Table 16)) (lookup t.crc16Table 16)

def crc12 (t : CrcTables) : List (BitVec 8) → ℕ → Option (BitVec 32) :=
  crcTabled (shiftingStep (lookup t.crc12Table 16)) (lookup t.crc12Table 16)

def crc8 (t : CrcTables) : List (BitVec 8) → ℕ → Option (BitVec 32) :=
  crcTabled (replacingStep (lookup t.crc8Table 24)) (lookup t.crc8Table 24)

end EdgeSlice.Coding.CrcByte

/-! The table-driven checks divide the bits of the data as `crcbit` does. -/

namespace EdgeSlice.Coding.CrcByte

open EdgeSlice.ShiftRegister Function

/-- The bits of the data, the most significant one of each octet first. -/
def messageBits (inptr : List (BitVec 8)) : List Bool := inptr.flatMap (highBits 8)

/-- The remainder of the division that `crcbit` makes. -/
def remainder (poly : BitVec 32) (bits : List Bool) : BitVec 32 := divide poly 0#32 bits

theorem bit31_ne_zero (x : BitVec 32) : ((1#32 <<< 31) &&& x ≠ 0#32) ↔ x.msb = true := by
  have htop : 1#32 <<< 31 = BitVec.twoPow 32 31 := by decide
  have hne : BitVec.twoPow 32 31 ≠ 0#32 := by decide
  rw [htop, BitVec.twoPow_and, BitVec.msb_eq_getLsbD_last]
  cases x.getLsbD 31 <;> simp [hne]

theorem crcbitOctet_eq_divide (poly : BitVec 32) (i : ℕ) (c crc : BitVec 32) :
    crcbitOctet poly i c crc = divide poly crc (highBits i c) := by
  induction i generalizing c crc with
  | zero => rfl
  | succ i ih =>
    have hstep : divide poly crc (highBits (i + 1) c) = divide poly (feed poly crc c.msb) (highBits i (c <<< 1)) := by
      rw [highBits_succ]
      rfl
    rw [hstep, crcbitOctet, feed]
    simp only [bit31_ne_zero, BitVec.msb_xor, Bool.xor_comm c.msb]
    split <;> apply ih

theorem lowClear_shiftLeft {w : ℕ} (n : ℕ) (x : BitVec w) : LowClear n (x <<< n) := by
  intro i hi
  simp [BitVec.getLsbD_shiftLeft, hi]

theorem highBits_octet (octet : BitVec 8) : highBits 8 (octet.setWidth 32 <<< 24) = highBits 8 octet := by
  apply List.map_congr_left
  intro i hi
  have hlt : i < 8 := List.mem_range.1 hi
  simp [BitVec.getMsbD_setWidth, BitVec.getMsbD_shiftLeft]

theorem length_messageBits (inptr : List (BitVec 8)) : (messageBits inptr).length = 8 * inptr.length := by
  induction inptr with
  | nil => rfl
  | cons octet inptr ih =>
    simp only [messageBits, List.flatMap_cons, List.length_append, length_highBits, List.length_cons] at ih ⊢
    omega

theorem take_messageBits {bitlen : ℕ} {inptr : List (BitVec 8)} (h : bitlen ≤ 8 * inptr.length) :
    (messageBits inptr).take bitlen =
      messageBits (inptr.take (bitlen / 8)) ++ (messageBits (inptr.drop (bitlen / 8))).take (bitlen % 8) := by
  have hwhole : (messageBits (inptr.take (bitlen / 8))).length = 8 * (bitlen / 8) := by
    rw [length_messageBits, List.length_take]
    omega
  have hrest : bitlen - 8 * (bitlen / 8) = bitlen % 8 := by omega
  have happend : messageBits inptr = messageBits (inptr.take (bitlen / 8)) ++ messageBits (inptr.drop (bitlen / 8)) := by
    rw [messageBits, messageBits, messageBits, ← List.flatMap_append, List.take_append_drop]
  rw [happend, List.take_append, hwhole, hrest, List.take_of_length_le (by omega)]

theorem octets_eq_divide {poly : BitVec 32} {f : BitVec 8 → BitVec 32 → Option (BitVec 32)} {n : ℕ}
    (hpoly : LowClear n poly)
    (hstep : ∀ octet crc, LowClear n crc → f octet crc = some (divide poly crc (highBits 8 octet)))
    {octetlen : ℕ} {inptr : List (BitVec 8)} (h : octetlen ≤ inptr.length) {crc : BitVec 32} (hcrc : LowClear n crc) :
    octets f octetlen inptr crc =
      some (inptr.drop octetlen, divide poly crc (messageBits (inptr.take octetlen))) := by
  induction octetlen generalizing inptr crc with
  | zero => simp [octets, messageBits, divide]
  | succ octetlen ih =>
    cases inptr with
    | nil => simp at h
    | cons octet inptr =>
      have hlen : octetlen ≤ inptr.length := by simpa using h
      have hnext := ih hlen (hpoly.divide hcrc (highBits 8 octet))
      rw [octets, hstep octet crc hcrc, Option.bind_some, hnext, ← divide_append]
      simp [messageBits]

theorem crcbit_eq_remainder {inputptr : List (BitVec 8)} {octetlen : ℕ} (h : octetlen ≤ inputptr.length)
    (poly : BitVec 32) :
    crcbit inputptr octetlen poly = some (remainder poly (messageBits (inputptr.take octetlen))) := by
  have hclear : ∀ x : BitVec 32, LowClear 0 x := fun x i hi ↦ absurd hi (Nat.not_lt_zero i)
  have hloop := octets_eq_divide (f := fun octet crc ↦
    some (crcbitOctet poly 8 (octet.setWidth 32 <<< 24) crc)) (hclear poly) (fun octet crc _ ↦ by
      rw [crcbitOctet_eq_divide, highBits_octet]) h (hclear 0#32)
  rw [crcbit, hloop]
  rfl

/-- What the table of a polynomial holds at the number `i`: the remainder of the octet `i`. -/
def entryOf (poly i : BitVec 32) : BitVec 32 := (shift poly)^[8] (i <<< 24)

theorem entryOf_octet (poly : BitVec 32) (c : BitVec 8) :
    entryOf poly (c.setWidth 32) = remainder poly (highBits 8 c) := by
  have hplace : (place (highBits 8 c) : BitVec 32) = c.setWidth 32 <<< 24 := by
    rw [← highBits_octet, place_highBits (by decide)]
    exact LowClear.ushiftRight_shiftLeft (lowClear_shiftLeft 24 _)
  rw [remainder, divide_eq_iterate poly (by simp), BitVec.zero_xor, hplace, length_highBits, entryOf]

theorem crcbit_octet (poly : BitVec 32) (c : BitVec 8) :
    crcbit [c] 1 poly = some (entryOf poly (c.setWidth 32)) := by
  have hbits : messageBits ([c].take 1) = highBits 8 c := by simp [messageBits]
  rw [crcbit_eq_remainder (by simp), hbits, entryOf_octet]

/-- A table lookup gives the entry of the polynomial at every number of an octet. -/
def Tabulates (poly : BitVec 32) (table : BitVec 32 → Option (BitVec 32)) : Prop :=
  ∀ i : BitVec 32, i.toNat < 256 → table i = some (entryOf poly i)

/-- The first `r` bits of an octet as a number. -/
theorem place_highBits_octet {r : ℕ} (hr : r ≤ 8) (octet : BitVec 8) :
    (place (highBits r octet) : BitVec 32) = (octet >>> (8 - r)).setWidth 32 <<< (32 - r) := by
  apply BitVec.eq_of_getMsbD_eq
  intro i hi
  rw [getMsbD_place _ _ hi, getD_highBits, BitVec.getMsbD_shiftLeft, BitVec.getMsbD_setWidth]
  by_cases h : i < r
  · have hback : i + (32 - r) - (32 - 8) = i + (8 - r) := by omega
    have hin : 32 - 8 ≤ i + (32 - r) := by omega
    have hlt : ¬ i + (8 - r) < 8 - r := by omega
    have hlt8 : i + (8 - r) < 8 := by omega
    simp [h, hback, hin, BitVec.getMsbD_ushiftRight, hlt, hlt8]
  · have hout : ¬ i + (32 - r) - (32 - 8) < 8 := by omega
    simp [h, hout, BitVec.getMsbD_ushiftRight]

theorem number_of_first_bits {r : ℕ} (hr : r ≤ 8) (octet : BitVec 8) :
    ((octet >>> (8 - r)).setWidth 32 <<< (32 - r)) >>> (32 - r) = (octet >>> (8 - r)).setWidth 32 := by
  apply BitVec.eq_of_getLsbD_eq
  intro i hi
  by_cases h : i < r
  · have hin : 32 - r + i < 32 := by omega
    simp [BitVec.getLsbD_ushiftRight, hin]
  · have hout : octet.getLsbD (8 - r + i) = false := BitVec.getLsbD_of_ge _ _ (by omega)
    simp [BitVec.getLsbD_shiftLeft, BitVec.getLsbD_ushiftRight, hout]

/-- Eight steps on a number of `r` bits: the first `8 - r` only move it up. -/
theorem entryOf_of_lt {r : ℕ} (hr : r ≤ 8) {i : BitVec 32} (hi : i.toNat < 2 ^ r) (poly : BitVec 32) :
    entryOf poly i = (shift poly)^[r] (i <<< (32 - r)) := by
  have hclear : HighClear (8 - r) (i <<< 24) := by
    intro k hk
    have hbound : i.toNat < 2 ^ (7 - k) := Nat.lt_of_lt_of_le hi (Nat.pow_le_pow_right (by decide) (by omega))
    have hplace : 32 - 1 - (k + 24) = 7 - k := by omega
    rw [BitVec.getMsbD_shiftLeft, BitVec.getMsbD_eq_getLsbD, hplace, ← BitVec.testBit_toNat,
      Nat.testBit_lt_two_pow hbound, Bool.and_false]
  have hsum : r + (8 - r) = 8 := by omega
  have hplaces : 24 + (8 - r) = 32 - r := by omega
  rw [entryOf, ← hsum, iterate_add_apply, iterate_of_highClear poly hclear, ← BitVec.shiftLeft_add, hplaces]

/-- A lookup at the next `r` bits and the top of the register. -/
theorem entryOf_eq_divide {r : ℕ} (hr : r ≤ 8) (poly : BitVec 32) (octet : BitVec 8) (crc : BitVec 32) :
    ((octet >>> (8 - r)).setWidth 32 ^^^ crc >>> (32 - r)).toNat < 2 ^ r ∧
      crc <<< r ^^^ entryOf poly ((octet >>> (8 - r)).setWidth 32 ^^^ crc >>> (32 - r)) =
        divide poly crc (highBits r octet) := by
  have hindex : (octet >>> (8 - r)).setWidth 32 ^^^ crc >>> (32 - r) =
      (crc ^^^ place (highBits r octet)) >>> (32 - r) := by
    rw [place_highBits_octet hr, BitVec.ushiftRight_xor_distrib, number_of_first_bits hr, BitVec.xor_comm]
  have hlt : ((crc ^^^ place (highBits r octet)) >>> (32 - r)).toNat < 2 ^ r := by
    rw [BitVec.toNat_ushiftRight, Nat.shiftRight_eq_div_pow]
    apply Nat.div_lt_of_lt_mul
    rw [← Nat.pow_add]
    have : 32 - r + r = 32 := by omega
    rw [this]
    exact BitVec.isLt _
  have hlow : (place (highBits r octet) : BitVec 32) <<< r = 0#32 := by
    rw [place_highBits_octet hr, ← BitVec.shiftLeft_add]
    exact BitVec.shiftLeft_eq_zero (by omega)
  rw [hindex]
  refine ⟨hlt, ?_⟩
  rw [entryOf_of_lt hr hlt, divide_eq_iterate poly (by simp; omega), length_highBits,
    iterate_split poly (by omega) (crc ^^^ place (highBits r octet)), BitVec.shiftLeft_xor_distrib, hlow,
    BitVec.xor_zero, BitVec.xor_comm]

/-- The index that one lookup uses stays in the table, and the lookup divides the next `r` bits. -/
theorem Tabulates.lookup {poly : BitVec 32} {table : BitVec 32 → Option (BitVec 32)} (h : Tabulates poly table)
    {r : ℕ} (hr : r ≤ 8) (octet : BitVec 8) (crc : BitVec 32) :
    (table ((octet >>> (8 - r)).setWidth 32 ^^^ crc >>> (32 - r))).map (fun entry ↦ crc <<< r ^^^ entry) =
      some (divide poly crc (highBits r octet)) := by
  obtain ⟨hlt, hdivide⟩ := entryOf_eq_divide hr poly octet crc
  have hbound : 2 ^ r ≤ 2 ^ 8 := Nat.pow_le_pow_right (by decide) hr
  rw [h _ (Nat.lt_of_lt_of_le hlt hbound), Option.map_some, hdivide]

theorem shiftingStep_eq_divide {poly : BitVec 32} {table : BitVec 32 → Option (BitVec 32)}
    (h : Tabulates poly table) (octet : BitVec 8) (crc : BitVec 32) :
    shiftingStep table octet crc = some (divide poly crc (highBits 8 octet)) := by
  simpa [shiftingStep] using h.lookup (Nat.le_refl 8) octet crc

/-- Where the register has no more than its eight highest bits, leaving out the shift changes nothing. -/
theorem replacingStep_eq_divide {poly : BitVec 32} {table : BitVec 32 → Option (BitVec 32)}
    (h : Tabulates poly table) (octet : BitVec 8) {crc : BitVec 32} (hcrc : LowClear 24 crc) :
    replacingStep table octet crc = some (divide poly crc (highBits 8 octet)) := by
  have hup : crc <<< 8 = 0#32 := by
    rw [← hcrc.ushiftRight_shiftLeft, ← BitVec.shiftLeft_add]
    exact BitVec.shiftLeft_eq_zero (by decide)
  simpa [replacingStep, hup] using h.lookup (Nat.le_refl 8) octet crc

theorem crcTabled_eq_remainder {poly : BitVec 32} {step : BitVec 8 → BitVec 32 → Option (BitVec 32)}
    {table : BitVec 32 → Option (BitVec 32)} (htable : Tabulates poly table) {n : ℕ} (hpoly : LowClear n poly)
    (hstep : ∀ octet crc, LowClear n crc → step octet crc = some (divide poly crc (highBits 8 octet)))
    {inptr : List (BitVec 8)} {bitlen : ℕ} (h : bitlen ≤ 8 * inptr.length) :
    crcTabled step table inptr bitlen = some (remainder poly ((messageBits inptr).take bitlen)) := by
  have hzero : LowClear n 0#32 := fun i _ ↦ by simp
  have hlen : bitlen / 8 ≤ inptr.length := by omega
  have hloop := octets_eq_divide hpoly hstep hlen hzero
  rw [crcTabled]
  simp only [hloop, Option.bind_some]
  rw [remainder, take_messageBits h, divide_append]
  by_cases hres : bitlen % 8 > 0
  · rw [if_pos hres]
    cases hrest : inptr.drop (bitlen / 8) with
    | nil =>
      have : inptr.length - bitlen / 8 = 0 := by rw [← List.length_drop, hrest]; rfl
      omega
    | cons octet rest =>
      have hbits : (messageBits (octet :: rest)).take (bitlen % 8) = highBits (bitlen % 8) octet := by
        have hle : bitlen % 8 ≤ (highBits 8 octet).length := by rw [length_highBits]; omega
        rw [messageBits, List.flatMap_cons, List.take_append_of_le_length hle, take_highBits (by omega)]
      have hlookup := htable.lookup (r := bitlen % 8) (by omega) octet
        (divide poly 0#32 (messageBits (inptr.take (bitlen / 8))))
      rw [hbits, ← hlookup]
      simp only [List.head?_cons, Option.bind_eq_bind, Option.bind_some, Option.map_eq_bind]
      rfl
  · have hwhole : bitlen % 8 = 0 := by omega
    simp [hwhole, divide]

/-- The entries below `c` are those of `crcbit`. -/
def FilledBelow (n : ℕ) (t : CrcTables) : Prop :=
  ∀ (i : ℕ) (h : i < 256), i < n →
    t.crc24aTable[i] = entryOf poly24a (BitVec.ofNat 32 i) ∧
    t.crc24bTable[i] = entryOf poly24b (BitVec.ofNat 32 i) ∧
    t.crc16Table[i] = (entryOf poly16 (BitVec.ofNat 32 i) >>> 16).setWidth 16 ∧
    t.crc12Table[i] = (entryOf poly12 (BitVec.ofNat 32 i) >>> 16).setWidth 16 ∧
    t.crc8Table[i] = (entryOf poly8 (BitVec.ofNat 32 i) >>> 24).setWidth 8

theorem crcTableEntry_filled {t : CrcTables} {c : BitVec 8} (h : FilledBelow c.toNat t) :
    ∃ t', crcTableEntry t c = some t' ∧ FilledBelow (c.toNat + 1) t' := by
  have hc : c.setWidth 32 = BitVec.ofNat 32 c.toNat := by
    apply BitVec.eq_of_toNat_eq
    simp
  simp only [crcTableEntry, crcbit_octet, hc, Option.bind_eq_bind, Option.bind_some]
  refine ⟨_, rfl, ?_⟩
  intro i hi hlt
  by_cases heq : c.toNat = i
  · subst heq
    simp only [Vector.getElem_set_self, and_self]
  · have hold := h i hi (by omega)
    simp only [Vector.getElem_set_ne _ _ heq]
    exact hold

theorem crcTableInitFrom_filled {t : CrcTables} {c : BitVec 8} (h : FilledBelow c.toNat t) :
    ∃ t', crcTableInitFrom t c = some t' ∧ FilledBelow 256 t' := by
  induction t, c using crcTableInitFrom.induct with
  | case1 t c ih =>
    obtain ⟨next, hentry, hfilled⟩ := crcTableEntry_filled h
    rw [crcTableInitFrom, hentry, Option.bind_some]
    by_cases hlast : c + 1#8 ≠ 0#8
    · have hnext : (c + 1#8).toNat = c.toNat + 1 := toNat_add_one hlast
      simp only [hlast, ne_eq, not_false_eq_true, dite_true]
      exact ih next hlast (hnext ▸ hfilled)
    · have hend : c.toNat + 1 = 256 := by
        have hc : c = 255#8 := by
          have hzero : c + 1#8 = 0#8 := not_not.1 hlast
          calc c = c + 1#8 - 1#8 := by rw [BitVec.add_sub_cancel]
            _ = 255#8 := by rw [hzero]; decide
        rw [hc]
        decide
      simp only [hlast, dite_false]
      exact ⟨next, rfl, hend ▸ hfilled⟩

theorem tabulates_lookup {poly : BitVec 32} {width left : ℕ} {table : Vector (BitVec width) 256}
    (hpoly : LowClear left poly) (hwidth : width + left = 32)
    (h : ∀ (i : ℕ) (hi : i < 256), table[i] = (entryOf poly (BitVec.ofNat 32 i) >>> left).setWidth width) :
    Tabulates poly (CrcByte.lookup table left) := by
  intro i hi
  have hoctet : (i.setWidth 8).setWidth 32 = i := by
    apply BitVec.eq_of_toNat_eq
    simp only [BitVec.toNat_setWidth]
    omega
  have hself : BitVec.ofNat 32 i.toNat = i := by simp
  have hclear : LowClear left (entryOf poly i) := by
    rw [← hoctet, entryOf_octet]
    exact hpoly.divide (fun k _ ↦ by simp) _
  have hback : ((entryOf poly i >>> left).setWidth width).setWidth 32 <<< left = entryOf poly i := by
    apply BitVec.eq_of_getLsbD_eq
    intro k hk
    by_cases hlow : k < left
    · simp [BitVec.getLsbD_shiftLeft, hlow, hclear k hlow]
    · have hin : k - left < width := by omega
      have hplace : left + (k - left) = k := by omega
      have h32 : k - left < 32 := by omega
      simp [hk, hlow, hin, hplace, h32]
  rw [CrcByte.lookup, Vector.getElem?_eq_getElem hi, Option.map_some, h i.toNat hi, hself]
  exact congrArg some hback

/-- The octets of the left-aligned remainder, the most significant one first. -/
def crcOctets (n : ℕ) (crc : BitVec 32) : List (BitVec 8) :=
  (List.range n).map fun k ↦ (crc >>> (24 - 8 * k)).setWidth 8

theorem messageBits_crcOctets {n : ℕ} (hn : n ≤ 4) (crc : BitVec 32) :
    messageBits (crcOctets n crc) = highBits (8 * n) crc := by
  induction n with
  | zero => rfl
  | succ n ih =>
    have hoctet : highBits 8 ((crc >>> (24 - 8 * n)).setWidth 8) =
        (List.range 8).map fun i ↦ crc.getMsbD (8 * n + i) := by
      apply List.map_congr_left
      intro i hi
      have hlt : i < 8 := List.mem_range.1 hi
      have h32 : 8 * n + i < 32 := by omega
      have hseven : 8 - 1 - i < 8 := by omega
      have hplace : 24 - 8 * n + (8 - 1 - i) = 32 - 1 - (8 * n + i) := by omega
      simp only [BitVec.getMsbD_eq_getLsbD, BitVec.getLsbD_setWidth, BitVec.getLsbD_ushiftRight, hlt, h32, hseven,
        hplace, decide_true, Bool.true_and]
    have hbefore := ih (by omega)
    rw [messageBits] at hbefore ⊢
    rw [crcOctets, List.range_succ, List.map_append, List.flatMap_append, ← crcOctets, hbefore]
    rw [Nat.mul_succ, highBits, highBits, List.range_add, List.map_append]
    simpa [Function.comp_def] using hoctet

/-- The function computes the remainder by `poly` at every length, and a message followed by its `n`
octets of remainder leaves nothing. -/
structure Computes (poly : BitVec 32) (n : ℕ) (crc : List (BitVec 8) → ℕ → Option (BitVec 32)) : Prop where
  remainder : ∀ inptr bitlen, bitlen ≤ 8 * inptr.length →
    crc inptr bitlen = some (remainder poly ((messageBits inptr).take bitlen))
  crcbit : ∀ inptr octetlen, octetlen ≤ inptr.length → crc inptr (8 * octetlen) = crcbit inptr octetlen poly
  appended : ∀ inptr c, crc inptr (8 * inptr.length) = some c →
    crc (inptr ++ crcOctets n c) (8 * (inptr.length + n)) = some 0#32

theorem remainder_appended {poly : BitVec 32} {n : ℕ} (hn : n ≤ 4) (hpoly : LowClear (32 - 8 * n) poly)
    (inptr : List (BitVec 8)) :
    remainder poly (messageBits (inptr ++ crcOctets n (remainder poly (messageBits inptr)))) = 0#32 := by
  have hclear : LowClear (32 - 8 * n) (remainder poly (messageBits inptr)) := hpoly.divide (fun i _ ↦ by simp) _
  have happend : messageBits (inptr ++ crcOctets n (remainder poly (messageBits inptr))) =
      messageBits inptr ++ highBits (8 * n) (remainder poly (messageBits inptr)) := by
    rw [← messageBits_crcOctets hn, messageBits, List.flatMap_append, messageBits, messageBits]
  have hplace : place (highBits (8 * n) (remainder poly (messageBits inptr))) = remainder poly (messageBits inptr) := by
    rw [place_highBits (by omega), hclear.ushiftRight_shiftLeft]
  rw [happend, CrcByte.remainder, divide_append]
  exact divide_place_self (by rw [length_highBits]; omega) hplace

theorem Computes.of_remainder {poly : BitVec 32} {n : ℕ} (hn : n ≤ 4) (hpoly : LowClear (32 - 8 * n) poly)
    {crc : List (BitVec 8) → ℕ → Option (BitVec 32)}
    (h : ∀ inptr bitlen, bitlen ≤ 8 * inptr.length →
      crc inptr bitlen = some (CrcByte.remainder poly ((messageBits inptr).take bitlen))) :
    Computes poly n crc where
  remainder := h
  crcbit inptr octetlen hlen := by
    have htake := take_messageBits (by omega : 8 * octetlen ≤ 8 * inptr.length)
    have hdiv : 8 * octetlen / 8 = octetlen := by omega
    have hmod : 8 * octetlen % 8 = 0 := by omega
    rw [hdiv, hmod, List.take_zero, List.append_nil] at htake
    rw [h _ _ (by omega), crcbit_eq_remainder hlen, htake]
  appended inptr c hc := by
    have hwhole : ∀ data : List (BitVec 8), crc data (8 * data.length) =
        some (CrcByte.remainder poly (messageBits data)) := by
      intro data
      rw [h _ _ (Nat.le_refl _), List.take_of_length_le (Nat.le_of_eq (length_messageBits data))]
    have hcrc : CrcByte.remainder poly (messageBits inptr) = c := Option.some_inj.1 ((hwhole inptr).symm.trans hc)
    have hlen : inptr.length + n = (inptr ++ crcOctets n c).length := by simp [crcOctets]
    rw [hlen, hwhole, ← hcrc, remainder_appended hn hpoly]

/-- Shared by the functions that shift the register. -/
theorem computes_shifting {poly : BitVec 32} {n width left : ℕ} {table : Vector (BitVec width) 256} (hn : n ≤ 4)
    (hpoly : LowClear (32 - 8 * n) poly) (hleft : LowClear left poly) (hwidth : width + left = 32)
    (h : ∀ (i : ℕ) (hi : i < 256), table[i] = (entryOf poly (BitVec.ofNat 32 i) >>> left).setWidth width) :
    Computes poly n (crcTabled (shiftingStep (CrcByte.lookup table left)) (CrcByte.lookup table left)) := by
  have htable := tabulates_lookup hleft hwidth h
  apply Computes.of_remainder hn hpoly
  intro inptr bitlen hlen
  exact crcTabled_eq_remainder htable hpoly (fun octet crc _ ↦ shiftingStep_eq_divide htable octet crc) hlen

theorem crc_computes (tables : CrcTables) : ∃ t, crcTableInit tables = some t ∧
    Computes poly24a 3 (crc24a t) ∧ Computes poly24b 3 (crc24b t) ∧ Computes poly16 2 (crc16 t) ∧
    Computes poly12 2 (crc12 t) ∧ Computes poly8 1 (crc8 t) := by
  obtain ⟨t, hinit, hfilled⟩ := crcTableInitFrom_filled (t := tables) (c := 0#8)
    (fun i _ hlt ↦ absurd hlt (Nat.not_lt_zero i))
  refine ⟨t, hinit, ?_, ?_, ?_, ?_, ?_⟩
  · apply computes_shifting (by decide) (by unfold LowClear; decide) (by unfold LowClear; decide) rfl
    intro i hi
    simpa using (hfilled i hi hi).1
  · apply computes_shifting (by decide) (by unfold LowClear; decide) (by unfold LowClear; decide) rfl
    intro i hi
    simpa using (hfilled i hi hi).2.1
  · apply computes_shifting (by decide) (by unfold LowClear; decide) (by unfold LowClear; decide) rfl
    intro i hi
    exact (hfilled i hi hi).2.2.1
  · apply computes_shifting (by decide) (by unfold LowClear; decide) (by unfold LowClear; decide) rfl
    intro i hi
    exact (hfilled i hi hi).2.2.2.1
  · have hpoly : LowClear 24 poly8 := by unfold LowClear; decide
    have htable := tabulates_lookup hpoly rfl (fun i hi ↦ (hfilled i hi hi).2.2.2.2)
    apply Computes.of_remainder (by decide) hpoly
    intro inptr bitlen hlen
    exact crcTabled_eq_remainder htable hpoly (fun octet crc hcrc ↦ replacingStep_eq_divide htable octet hcrc) hlen

end EdgeSlice.Coding.CrcByte
