import EdgeSlice.BitStream
import EdgeSlice.BitField
import EdgeSlice.Rlc.AmStatus

namespace EdgeSlice.Rlc

open BitStream

theorem shiftRight_mask : ∀ k ≤ 8, 0xFF >>> k = 2 ^ (8 - k) - 1 := by decide

namespace BitCursor

/-- The number of bits before the cursor. -/
def pos (c : BitCursor) : ℕ := 8 * c.bytePos + c.bitPos

variable {c : BitCursor} {data : ℕ → UInt8} {value w : ℕ}

theorem pos_div : c.pos / 8 = c.bytePos := by
  have hbit := c.bitPos_lt
  unfold pos
  omega

theorem pos_mod : c.pos % 8 = c.bitPos := by
  have hbit := c.bitPos_lt
  unfold pos
  omega

/-- The number of bytes that have been begun, as it is counted when a PDU is written. -/
theorem bytes_written : (c.bytePos + if 0 < c.bitPos then 1 else 0) = (c.pos + 7) / 8 := by
  have hbit := c.bitPos_lt
  unfold pos
  split <;> omega

/-- The number of bytes that have been begun, as it is counted when a PDU is read. -/
theorem bytes_read : c.bytePos + (c.bitPos + 7) / 8 = (c.pos + 7) / 8 := by
  unfold pos
  omega

theorem pos_nextByte : c.nextByte.pos = c.pos + (8 - c.bitPos) := by
  have hbit := c.bitPos_lt
  simp only [pos, nextByte]
  omega

/-- The first `w` of the bits that are left in a byte. -/
theorem rest_shiftRight (data : ℕ → UInt8) (hw : w ≤ 8 - c.bitPos) :
    ((data c.bytePos).toNat &&& (0xFF >>> c.bitPos)) >>> (8 - c.bitPos - w) = field data c.pos w := by
  have hbit := c.bitPos_lt
  have hsum : 8 - c.bitPos = w + (8 - c.bitPos - w) := by omega
  rw [shiftRight_mask _ (by omega), Nat.and_two_pow_sub_one_eq_mod, Nat.shiftRight_eq_div_pow,
    field_in_byte (by rw [pos_mod]; omega), pos_div, pos_mod]
  conv_lhs => rw [hsum, Nat.add_comm, pow_add]
  rw [← Nat.mod_mul_right_div_self]
  congr 3
  omega

theorem rest_eq : (data c.bytePos).toNat &&& (0xFF >>> c.bitPos) = field data c.pos (8 - c.bitPos) := by
  have hrest := rest_shiftRight data (Nat.le_refl (8 - c.bitPos))
  rwa [Nat.sub_self] at hrest

theorem join_eq {f : ℕ} (hf : f < 2 ^ w) (hvalue : value * 2 ^ w + 2 ^ w ≤ 2 ^ 16) :
    ((value <<< w) ||| f) % 2 ^ 16 = value * 2 ^ w + f := by
  rw [← Nat.shiftLeft_add_eq_or_of_lt hf, Nat.shiftLeft_eq, Nat.mod_eq_of_lt (by omega)]

theorem readLoop_eq (data : ℕ → UInt8) (c : BitCursor) (hvalue : value * 2 ^ w + 2 ^ w ≤ 2 ^ 16) :
    (c.readLoop data value w).1 = value * 2 ^ w + field data c.pos w ∧
      (c.readLoop data value w).2.pos = c.pos + w := by
  fun_induction readLoop data c value w with
  | case1 c value w rest bitsRead h =>
    constructor
    · simp only [rest, bitsRead]
      rw [rest_shiftRight data (by omega), join_eq field_lt hvalue]
    · simp [pos, Nat.add_assoc]
  | case2 c value rest bitsRead h =>
    have hrest : rest = field data c.pos bitsRead := rest_eq
    constructor
    · simp only
      rw [hrest, join_eq field_lt hvalue]
    · exact pos_nextByte
  | case3 c value w rest bitsRead h hne ih =>
    have hrest : rest = field data c.pos bitsRead := rest_eq
    obtain ⟨r, rfl⟩ : ∃ r, w = bitsRead + r := ⟨w - bitsRead, by omega⟩
    have hlt : field data c.pos bitsRead < 2 ^ bitsRead := field_lt
    have hone : 1 ≤ 2 ^ r := Nat.one_le_two_pow
    have hsplit : (value + 1) * 2 ^ bitsRead * 2 ^ r ≤ 2 ^ 16 := by
      rw [Nat.mul_assoc, ← pow_add, Nat.add_mul, Nat.one_mul]
      exact hvalue
    have hjoin : value * 2 ^ bitsRead + 2 ^ bitsRead ≤ 2 ^ 16 := by
      rw [← Nat.succ_mul]
      exact (Nat.le_mul_of_pos_right _ hone).trans hsplit
    rw [hrest, join_eq hlt hjoin, Nat.add_sub_cancel_left] at ih ⊢
    have hnext : c.nextByte.pos = c.pos + bitsRead := pos_nextByte
    have hbound : (value * 2 ^ bitsRead + field data c.pos bitsRead) * 2 ^ r + 2 ^ r ≤ 2 ^ 16 := by
      rw [← Nat.succ_mul]
      refine (Nat.mul_le_mul_right _ ?_).trans hsplit
      rw [Nat.add_mul]
      omega
    obtain ⟨hvalue', hpos⟩ := ih hbound
    constructor
    · rw [hvalue', hnext, field_add, pow_add]
      ring
    · rw [hpos, hnext, Nat.add_assoc]

theorem readBitField_eq (data : ℕ → UInt8) (c : BitCursor) (hw : w ≤ 16) :
    ∃ c', c.readBitField data w = (field data c.pos w, c') ∧ c'.pos = c.pos + w := by
  have hbound : 0 * 2 ^ w + 2 ^ w ≤ 2 ^ 16 := by
    rw [Nat.zero_mul, Nat.zero_add]
    exact Nat.pow_le_pow_right (by omega) hw
  obtain ⟨hvalue, hpos⟩ := readLoop_eq data c hbound
  rw [Nat.zero_mul, Nat.zero_add] at hvalue
  exact ⟨_, Prod.ext hvalue rfl, hpos⟩

end BitCursor

namespace BitWriter

/-- What a field of `w` bits with the value `v` does to a buffer in which nothing follows. -/
structure Puts (s s' : BitWriter) (w v : ℕ) : Prop where
  wrote : Wrote s.data s'.data s.cursor.pos w v
  pos : s'.cursor.pos = s.cursor.pos + w

variable {s s' s'' : BitWriter} {v v' w w' : ℕ} {value : UInt8}

def Blank (s : BitWriter) : Prop := BitStream.Blank s.data s.cursor.pos

theorem Puts.blank (h : s.Puts s' w v) : s'.Blank := by
  rw [Blank, h.pos]
  exact h.wrote.blank

theorem Puts.refl (h : s.Blank) : s.Puts s 0 0 := ⟨⟨fun _ _ ↦ rfl, rfl, h⟩, rfl⟩

theorem Puts.append (h : s.Puts s' w v) (h' : s'.Puts s'' w' v') : s.Puts s'' (w + w') (v * 2 ^ w' + v') where
  wrote := h.wrote.append (h.pos ▸ h'.wrote)
  pos := by rw [h'.pos, h.pos, Nat.add_assoc]

/-- What is before a field stays as it is. -/
theorem Puts.field_eq (h : s.Puts s' w v) {p k : ℕ} (hk : p + k ≤ s.cursor.pos) :
    field s'.data p k = field s.data p k := field_congr fun _ _ hlt ↦ h.wrote.before _ (by omega)

theorem wrote_orByte (h : s.Blank) (hw : w ≤ 8 - s.cursor.bitPos) (hv : v < 2 ^ w) :
    Wrote s.data (s.orByte (v <<< (8 - s.cursor.bitPos - w))) s.cursor.pos w v := by
  have hbit := s.cursor.bitPos_lt
  have hwrote := wrote_or h (by rw [BitCursor.pos_mod]; omega) hv
  rwa [BitCursor.pos_div, BitCursor.pos_mod] at hwrote

/-- A field that ends in the byte in which it begins. -/
theorem write8BitField_in_byte (value : UInt8) (h : s.Blank) (hw : w ≤ 8 - s.cursor.bitPos)
    (hv : value.toNat < 2 ^ w ∨ s.cursor.bitPos = 0) :
    s.Puts (s.write8BitField w value) w (value.toNat % 2 ^ w) := by
  have hbit := s.cursor.bitPos_lt
  have hwrote := wrote_orByte h hw (Nat.mod_lt value.toNat (Nat.two_pow_pos w))
  rcases hw.lt_or_eq with hlt | heq
  · have hmask : value.toNat &&& (0xFF >>> (8 - s.cursor.bitPos - w)) = value.toNat % 2 ^ w := by
      rw [shiftRight_mask _ (by omega), Nat.and_two_pow_sub_one_eq_mod]
      rcases hv with hv | hv
      · have hle : 2 ^ w ≤ 2 ^ (8 - (8 - s.cursor.bitPos - w)) := Nat.pow_le_pow_right (by omega) (by omega)
        rw [Nat.mod_eq_of_lt (hv.trans_le hle), Nat.mod_eq_of_lt hv]
      · congr 2
        omega
    rw [write8BitField, dif_pos hlt, hmask]
    exact ⟨hwrote, by simp [BitCursor.pos, Nat.add_assoc]⟩
  · have hmask : value.toNat &&& (0xFF >>> (8 - w)) = value.toNat % 2 ^ w := by
      rw [shiftRight_mask _ (by omega), Nat.and_two_pow_sub_one_eq_mod]
      congr 2
      omega
    have hshift : 8 - s.cursor.bitPos - w = 0 := by omega
    rw [hshift, Nat.shiftLeft_zero] at hwrote
    rw [write8BitField, dif_neg (by omega), if_pos heq.symm, hmask]
    exact ⟨hwrote, heq ▸ BitCursor.pos_nextByte⟩

theorem write8BitField_puts (h : s.Blank) (hw : w ≤ 8) (hv : value.toNat < 2 ^ w) :
    s.Puts (s.write8BitField w value) w value.toNat := by
  have hbit := s.cursor.bitPos_lt
  by_cases hle : w ≤ 8 - s.cursor.bitPos
  · have hputs := write8BitField_in_byte value h hle (.inl hv)
    rwa [Nat.mod_eq_of_lt hv] at hputs
  · -- the second round begins with a byte of its own, so it takes only the low bits
    obtain ⟨r, rfl⟩ : ∃ r, w = 8 - s.cursor.bitPos + r := ⟨w - (8 - s.cursor.bitPos), by omega⟩
    rw [write8BitField, dif_neg (by omega), if_neg (by omega), Nat.add_sub_cancel_left]
    have hhigh : value.toNat >>> r < 2 ^ (8 - s.cursor.bitPos) := by
      rw [Nat.shiftRight_eq_div_pow]
      exact Nat.div_lt_of_lt_mul (by rwa [← pow_add, Nat.add_comm])
    have hfirst := wrote_orByte h (Nat.le_refl _) hhigh
    rw [Nat.sub_self, Nat.shiftLeft_zero] at hfirst
    have hputs : s.Puts ⟨s.orByte (value.toNat >>> r), s.cursor.nextByte⟩ (8 - s.cursor.bitPos)
        (value.toNat >>> r) := ⟨hfirst, BitCursor.pos_nextByte⟩
    have hrest := write8BitField_in_byte (w := r) value hputs.blank
      (by simp [BitCursor.nextByte]; omega) (.inr rfl)
    have hsum : value.toNat >>> r * 2 ^ r + value.toNat % 2 ^ r = value.toNat := by
      rw [Nat.shiftRight_eq_div_pow, Nat.div_add_mod']
    have hboth := hputs.append hrest
    rwa [hsum] at hboth

theorem write16BitField_puts {w : Fin 17} (h : s.Blank) (hv : v < 2 ^ w.val) :
    s.Puts (s.write16BitField w v) w v := by
  have hlow : (UInt8.ofNat (v &&& 0x00FF)).toNat = v % 2 ^ 8 := by
    have hmask : v &&& 0x00FF = v % 2 ^ 8 := Nat.and_two_pow_sub_one_eq_mod v 8
    rw [hmask]
    exact BitField.ofNat_toNat (Nat.mod_lt v (Nat.two_pow_pos 8))
  by_cases hw : w.val > 8
  · obtain ⟨r, hr⟩ : ∃ r, w.val = r + 8 := ⟨w.val - 8, by omega⟩
    have hhigh : v >>> 8 < 2 ^ r := by
      rw [Nat.shiftRight_eq_div_pow]
      rw [hr, pow_add] at hv
      exact Nat.div_lt_of_lt_mul (by rwa [Nat.mul_comm])
    have hr8 : r ≤ 8 := by omega
    have hbyte : (UInt8.ofNat (v >>> 8)).toNat = v >>> 8 :=
      BitField.ofNat_toNat (hhigh.trans_le (Nat.pow_le_pow_right (by omega) hr8))
    have hfirst := write8BitField_puts h hr8 (hbyte.symm ▸ hhigh)
    have hsecond := write8BitField_puts hfirst.blank (Nat.le_refl 8) (hlow ▸ Nat.mod_lt _ (by decide))
    have hboth := hfirst.append hsecond
    have hsum : v >>> 8 * 2 ^ 8 + v % 2 ^ 8 = v := by rw [Nat.shiftRight_eq_div_pow, Nat.div_add_mod']
    rw [hlow, hbyte, hsum] at hboth
    rw [write16BitField, if_pos hw]
    simpa only [hr, Nat.add_sub_cancel] using hboth
  · have hsmall : v % 2 ^ 8 = v := Nat.mod_eq_of_lt (hv.trans_le (Nat.pow_le_pow_right (by omega) (by omega)))
    rw [hsmall] at hlow
    have hputs := write8BitField_puts h (by omega) (hlow.symm ▸ hv)
    rw [write16BitField, if_neg hw]
    rwa [hlow] at hputs

end BitWriter

namespace Nack

/-- A NACK as its receiver has it. -/
def received (n : Nack) : Nack :=
  if n.e2 then n
  else ⟨n.nackSn, n.e1, n.e2, 0, 0x7FFF, n.nackSn_lt, noBytes_lt, allBytes_lt⟩

/-- The number of bits of a NACK. -/
def width (n : Nack) : ℕ := if n.e2 then 42 else 12

/-- The bits from the `p`th on are those of the NACK. -/
structure Written (data : ℕ → UInt8) (p : ℕ) (n : Nack) : Prop where
  nackSn : field data p 10 = n.nackSn
  e1 : field data (p + 10) 1 = n.e1.toNat
  e2 : field data (p + 11) 1 = n.e2.toNat
  so : n.e2 = true → field data (p + 12) 15 = n.soStart ∧ field data (p + 27) 15 = n.soEnd

open BitWriter

variable {data data' : ℕ → UInt8} {p : ℕ} {n : Nack} {s : BitWriter} {c : BitCursor}

theorem le_width (n : Nack) : 12 ≤ n.width := by
  rw [width]
  split <;> omega

theorem Written.congr (h : Written data p n) (hsame : ∀ k < p + n.width, bitAt data' k = bitAt data k) :
    Written data' p n where
  nackSn := by
    have hwidth := n.le_width
    rw [field_congr fun k _ hk ↦ hsame k (by omega), h.nackSn]
  e1 := by
    have hwidth := n.le_width
    rw [field_congr fun k _ hk ↦ hsame k (by omega), h.e1]
  e2 := by
    have hwidth := n.le_width
    rw [field_congr fun k _ hk ↦ hsame k (by omega), h.e2]
  so he2 := by
    have hwidth : n.width = 42 := if_pos he2
    rw [field_congr fun k _ hk ↦ hsame k (by omega), field_congr (p := p + 27) fun k _ hk ↦ hsame k (by omega)]
    exact h.so he2

theorem toNat_ofBool (b : Bool) : (UInt8.ofNat b.toNat).toNat = b.toNat := by cases b <;> rfl

/-- What a NACK does to a buffer in which nothing follows. -/
theorem write_written (h : s.Blank) :
    Written (write s n).data s.cursor.pos n ∧ ∃ v, s.Puts (write s n) n.width v := by
  have he (b : Bool) : (UInt8.ofNat b.toNat).toNat < 2 ^ 1 := by cases b <;> decide
  have hsn : s.Puts (s.write16BitField 10 n.nackSn) 10 n.nackSn :=
    write16BitField_puts (w := 10) h n.nackSn_lt
  have he1 := write8BitField_puts (w := 1) hsn.blank (by omega) (he n.e1)
  have he2 := write8BitField_puts (w := 1) he1.blank (by omega) (he n.e2)
  rw [toNat_ofBool] at he1 he2
  have hpos₁ := hsn.pos
  have hpos₂ := he1.pos
  have hpos₃ := he2.pos
  have hhead := (hsn.append he1).append he2
  have hsn₃ := ((he2.field_eq (by omega)).trans (he1.field_eq (by omega))).trans hsn.wrote.value
  have he1₃ := (he2.field_eq (by omega)).trans he1.wrote.value
  have he2₃ := he2.wrote.value
  rw [hpos₁] at he1₃
  rw [hpos₂, hpos₁, Nat.add_assoc] at he2₃
  by_cases hn : n.e2 = true
  · have hstart : Puts _ _ 15 n.soStart := write16BitField_puts (w := 15) he2.blank n.soStart_lt
    have hend : Puts _ _ 15 n.soEnd := write16BitField_puts (w := 15) hstart.blank n.soEnd_lt
    have hpos₄ := hstart.pos
    have hso {p k : ℕ} (hp : p + k ≤ s.cursor.pos + 12) :=
      (hend.field_eq (p := p) (k := k) (by omega)).trans (hstart.field_eq (by omega))
    have hstart₅ := (hend.field_eq (by omega)).trans hstart.wrote.value
    have hend₅ := hend.wrote.value
    rw [hpos₃, hpos₂, hpos₁] at hstart₅
    rw [hpos₄, hpos₃, hpos₂, hpos₁] at hend₅
    rw [Nack.write, if_pos hn, width, if_pos hn]
    exact ⟨⟨(hso (by omega)).trans hsn₃, (hso (by omega)).trans he1₃, (hso (by omega)).trans he2₃,
      fun _ ↦ ⟨hstart₅, hend₅⟩⟩, _, (hhead.append hstart).append hend⟩
  · rw [Nack.write, if_neg hn, width, if_neg hn]
    exact ⟨⟨hsn₃, he1₃, he2₃, fun hn' ↦ absurd hn' hn⟩, _, hhead⟩

theorem eq_of_fields {m n : Nack} (hsn : m.nackSn = n.nackSn) (he1 : m.e1 = n.e1) (he2 : m.e2 = n.e2)
    (hstart : m.soStart = n.soStart) (hend : m.soEnd = n.soEnd) : m = n := by
  cases m
  cases n
  simp only [Nack.mk.injEq]
  exact ⟨hsn, he1, he2, hstart, hend⟩

theorem mod_two_toNat (b : Bool) : (b.toNat % 2 ≠ 0) = (b = true) := by cases b <;> simp

/-- A NACK is read as it has been written. -/
theorem read_eq (h : Written data c.pos n) :
    (read data c).1 = n.received ∧ (read data c).2.pos = c.pos + n.width := by
  obtain ⟨c₁, hsn, hpos₁⟩ := c.readBitField_eq data (w := 10) (by omega)
  obtain ⟨c₂, he1, hpos₂⟩ := c₁.readBitField_eq data (w := 1) (by omega)
  obtain ⟨c₃, he2, hpos₃⟩ := c₂.readBitField_eq data (w := 1) (by omega)
  obtain ⟨c₄, hstart, hpos₄⟩ := c₃.readBitField_eq data (w := 15) (by omega)
  obtain ⟨c₅, hend, hpos₅⟩ := c₄.readBitField_eq data (w := 15) (by omega)
  rw [h.nackSn] at hsn
  rw [hpos₁, h.e1] at he1
  rw [hpos₂, hpos₁, Nat.add_assoc, h.e2] at he2
  simp only [read, hsn, he1, he2, hstart, hend, mod_two_toNat]
  by_cases hn : n.e2 = true
  · obtain ⟨hso, hso'⟩ := h.so hn
    have hstart' : c₃.pos = c.pos + 12 := by omega
    have hend' : c₄.pos = c.pos + 27 := by omega
    have hfirst : field data c₃.pos 15 % 2 ^ 15 = n.soStart := by
      rw [hstart', hso, Nat.mod_eq_of_lt n.soStart_lt]
    have hlast : field data c₄.pos 15 % 2 ^ 15 = n.soEnd := by
      rw [hend', hso', Nat.mod_eq_of_lt n.soEnd_lt]
    rw [if_pos hn]
    constructor
    · rw [received, if_pos hn]
      exact eq_of_fields (Nat.mod_eq_of_lt n.nackSn_lt) (by simp) hn.symm hfirst hlast
    · simp [width, hn]
      omega
  · rw [if_neg hn]
    constructor
    · rw [received, if_neg hn]
      exact eq_of_fields (Nat.mod_eq_of_lt n.nackSn_lt) (by simp) (by simpa using hn) rfl rfl
    · simp [width, hn]
      omega

@[simp] theorem received_e1 (n : Nack) : n.received.e1 = n.e1 := by
  rw [received]
  split <;> rfl

/-- The bits from the `p`th on are those of the NACKs. -/
def AllWritten (data : ℕ → UInt8) : ℕ → List Nack → Prop
  | _, [] => True
  | p, n :: ns => Written data p n ∧ AllWritten data (p + n.width) ns

/-- E1 tells of each NACK whether another one follows. -/
def Extended : List Nack → Prop
  | [] => True
  | n :: ns => n.e1 = !ns.isEmpty ∧ Extended ns

variable {ns : List Nack}

theorem foldl_write_written (ns : List Nack) (h : s.Blank) :
    AllWritten (ns.foldl write s).data s.cursor.pos ns ∧
      ∃ v, s.Puts (ns.foldl write s) (ns.map width).sum v := by
  induction ns generalizing s with
  | nil => exact ⟨trivial, 0, Puts.refl h⟩
  | cons n ns ih =>
    obtain ⟨hn, v, hputs⟩ := write_written (n := n) h
    obtain ⟨hns, v', hputs'⟩ := ih hputs.blank
    rw [hputs.pos] at hns
    refine ⟨⟨hn.congr fun k hk ↦ hputs'.wrote.before k (by rw [hputs.pos]; exact hk), hns⟩, ?_⟩
    exact ⟨_, by simpa using hputs.append hputs'⟩

/-- NACKs are read as they have been written. -/
theorem readAll_eq (c : BitCursor) (free : ℕ) (h : AllWritten data c.pos ns) (hne : ns ≠ []) (hext : Extended ns)
    (hfree : ns.length ≤ free) :
    ∃ c', readAll data free c = (ns.map received, c', false) ∧ c'.pos = c.pos + (ns.map width).sum := by
  induction ns generalizing c free with
  | nil => exact absurd rfl hne
  | cons n ns ih =>
    obtain ⟨free, rfl⟩ : ∃ k, free = k + 1 := ⟨free - 1, by simp at hfree; omega⟩
    obtain ⟨hread, hpos⟩ := read_eq h.1
    have he1 := hext.1
    cases ns with
    | nil =>
      refine ⟨(read data c).2, ?_, by simpa using hpos⟩
      simp [readAll, hread, he1]
    | cons m ms =>
      obtain ⟨c', hrest, hpos'⟩ := ih (read data c).2 free (hpos ▸ h.2) (by simp) hext.2 (by simpa using hfree)
      refine ⟨c', ?_, by rw [hpos', hpos]; simp [Nat.add_assoc]⟩
      simp [readAll, hread, he1, hrest]

end Nack

namespace ControlPduInfo

open Nack BitWriter

/-- What the first two bytes of a STATUS PDU say. -/
theorem header_eq {data : ℕ → UInt8} {ackSn : ℕ} {e : Bool} (htype : field data 0 4 = 0)
    (hack : field data 4 10 = ackSn) (he : field data 14 1 = e.toNat) :
    data 0 >>> 7 = 0 ∧ (data 0 >>> 4) &&& 0x07 = 0 ∧
      ((data 1 >>> 2) &&& 0x3F).toNat ||| ((data 0 &&& 0x0F).toNat <<< 6) = ackSn ∧
      ((data 1 >>> 1) &&& 0x01 ≠ 0 ↔ e = true) := by
  have hfirst : field data 0 4 = (data 0).toNat / 2 ^ 4 % 2 ^ 4 := field_in_byte (by decide)
  have hhigh : field data 4 4 = (data 0).toNat / 2 ^ 0 % 2 ^ 4 := field_in_byte (by decide)
  have hlow : field data 8 6 = (data 1).toNat / 2 ^ 2 % 2 ^ 6 := field_in_byte (by decide)
  have hlast : field data 14 1 = (data 1).toNat / 2 ^ 1 % 2 ^ 1 := field_in_byte (by decide)
  have hsplit : field data 4 10 = field data 4 4 * 2 ^ 6 + field data 8 6 := field_add 4 6
  have hbyte := (data 0).toNat_lt
  have hdc : (data 0 >>> 7).toNat = (data 0).toNat / 2 ^ 7 :=
    BitField.shiftRight_toNat (data 0) (k := 7) (by decide)
  have hcpt : ((data 0 >>> 4) &&& 0x07).toNat = (data 0).toNat / 2 ^ 4 % 2 ^ 3 :=
    BitField.shifted_toNat (data 0) (k := 4) (w := 3) (by decide) (by decide)
  have hsn : ((data 1 >>> 2) &&& 0x3F).toNat = (data 1).toNat / 2 ^ 2 % 2 ^ 6 :=
    BitField.shifted_toNat (data 1) (k := 2) (w := 6) (by decide) (by decide)
  have hsn' : (data 0 &&& 0x0F).toNat = (data 0).toNat % 2 ^ 4 := BitField.low_toNat (data 0) (w := 4) (by decide)
  have hext : ((data 1 >>> 1) &&& 0x01).toNat = (data 1).toNat / 2 ^ 1 % 2 ^ 1 :=
    BitField.shifted_toNat (data 1) (k := 1) (w := 1) (by decide) (by decide)
  refine ⟨?_, ?_, ?_, ?_⟩
  · apply UInt8.toNat_inj.mp
    rw [hdc, UInt8.toNat_zero]
    omega
  · apply UInt8.toNat_inj.mp
    rw [hcpt, UInt8.toNat_zero]
    omega
  · rw [hsn, hsn', Nat.or_comm, ← Nat.shiftLeft_add_eq_or_of_lt (Nat.mod_lt _ (by decide)), Nat.shiftLeft_eq]
    omega
  · rw [← not_iff_not, not_not, ← UInt8.toNat_inj, hext, ← hlast, he]
    cases e <;> simp

/-- What a STATUS PDU is that has been written into a zeroed buffer. -/
theorem writeStatusPdu_written (info : ControlPduInfo) :
    ∃ data, writeStatusPdu (fun _ ↦ 0) info = (data, (15 + (info.nackList.map width).sum + 7) / 8) ∧
      field data 0 4 = 0 ∧ field data 4 10 = info.ackSn ∧ field data 14 1 = (!info.nackList.isEmpty).toNat ∧
      AllWritten data 15 info.nackList := by
  let start : BitWriter := ⟨fun _ ↦ 0, 0, 4, Nat.lt_add_of_pos_right (Nat.succ_pos 3)⟩
  have hack : start.Puts (start.write16BitField 10 info.ackSn) 10 info.ackSn :=
    write16BitField_puts (w := 10) blank_zero info.ackSn_lt
  have he (e : UInt8) (b : Bool) (h : e.toNat = b.toNat) :
      (start.write16BitField 10 info.ackSn).Puts ((start.write16BitField 10 info.ackSn).write8BitField 1 e) 1
        b.toNat := by
    rw [← h]
    exact write8BitField_puts hack.blank (by omega) (by cases b <;> simp [h])
  obtain ⟨s, hs, hext⟩ : ∃ s, s = (if 0 < info.nackList.length
      then (start.write16BitField 10 info.ackSn).write8BitField 1 1
      else (start.write16BitField 10 info.ackSn).write8BitField 1 0) ∧
      (start.write16BitField 10 info.ackSn).Puts s 1 (!info.nackList.isEmpty).toNat := by
    refine ⟨_, rfl, ?_⟩
    cases hnacks : info.nackList with
    | nil => exact he 0 false rfl
    | cons n ns => exact he 1 true rfl
  obtain ⟨hall, v, hputs⟩ := foldl_write_written info.nackList hext.blank
  have hpos₁ : (start.write16BitField 10 info.ackSn).cursor.pos = 14 := hack.pos
  have hpos₂ : s.cursor.pos = 15 := by rw [hext.pos, hpos₁]
  have hpos₃ : (info.nackList.foldl Nack.write s).cursor.pos = 15 + (info.nackList.map width).sum := by
    rw [hputs.pos, hpos₂]
  have hsize := (info.nackList.foldl Nack.write s).cursor.bytes_written
  have hkept {p k : ℕ} (hp : p + k ≤ 14) :=
    (hputs.field_eq (p := p) (k := k) (by omega)).trans (hext.field_eq (by omega))
  refine ⟨(info.nackList.foldl Nack.write s).data, ?_, ?_, ?_, ?_, ?_⟩
  · rw [← hpos₃, ← hsize, hs]
    rfl
  · exact (hkept (by omega)).trans ((hack.field_eq (Nat.le_refl 4)).trans (field_of_blank blank_zero))
  · exact (hkept (by omega)).trans hack.wrote.value
  · have hvalue := hext.wrote.value
    rw [hpos₁] at hvalue
    exact (hputs.field_eq (by omega)).trans hvalue
  · exact hpos₂ ▸ hall

/-- What is read of a STATUS PDU that holds the NACKs `ns`. -/
theorem getControlPduInfos_fields {data : ℕ → UInt8} {ackSn : ℕ} {ns : List Nack} (totalSize : ℤ)
    (hackSn : ackSn < 2 ^ 10) (htype : field data 0 4 = 0) (hack : field data 4 10 = ackSn)
    (he : field data 14 1 = (!ns.isEmpty).toNat) (hnacks : AllWritten data 15 ns)
    (hlength : ns.length ≤ rlcAmMaxNackInStatusPdu) (hext : Extended ns) :
    getControlPduInfos data totalSize =
      (.ok ⟨ackSn, !ns.isEmpty, ns.map received, hackSn⟩,
        totalSize - ((15 + (ns.map width).sum + 7) / 8 : ℕ)) := by
  obtain ⟨hdc, hcpt, hsn, hmore⟩ := header_eq htype hack he
  rw [getControlPduInfos, if_neg (not_not_intro hdc), if_neg (not_not_intro hcpt)]
  simp only [hsn]
  by_cases hempty : ns = []
  · rw [if_neg (by simp [hmore, hempty])]
    simpa [hempty] using hackSn
  · rw [if_pos (by simp [hmore, hempty])]
    obtain ⟨c, hread, hpos⟩ := readAll_eq ⟨1, 7, Nat.lt_succ_self 7⟩ rlcAmMaxNackInStatusPdu hnacks hempty hext hlength
    simp only [hread, BitCursor.bytes_read, hpos]
    simpa [hempty, BitCursor.pos] using hackSn

/-- A STATUS PDU is read as it has been written, and all its bytes are used. -/
theorem getControlPduInfos_writeStatusPdu (info : ControlPduInfo)
    (hlength : info.nackList.length < rlcAmMaxNackInStatusPdu) (hext : Extended info.nackList) :
    getControlPduInfos (writeStatusPdu (fun _ ↦ 0) info).1 (writeStatusPdu (fun _ ↦ 0) info).2 =
      (.ok ⟨info.ackSn, !info.nackList.isEmpty, info.nackList.map received, info.ackSn_lt⟩, 0) := by
  obtain ⟨data, hwrite, htype, hack, he, hnacks⟩ := writeStatusPdu_written info
  rw [hwrite, getControlPduInfos_fields _ info.ackSn_lt htype hack he hnacks hlength.le hext, sub_self]

/-- A report that asks for a PDU and for a part of another one. -/
def twoNacks : ControlPduInfo :=
  ⟨20 % 2 ^ 10, true, clearLastE1 [.ofPdu 7, .ofPart 9 100 rlcAmStatusPduSoEndAllBytes], mod_snBits_lt 20⟩

theorem getControlPduInfos_twoNacks :
    getControlPduInfos (writeStatusPdu (fun _ ↦ 0) twoNacks).1 (writeStatusPdu (fun _ ↦ 0) twoNacks).2 =
      (.ok ⟨20 % 2 ^ 10, true, twoNacks.nackList.map received, mod_snBits_lt 20⟩, 0) :=
  getControlPduInfos_writeStatusPdu twoNacks (by decide) ⟨rfl, rfl, trivial⟩

end ControlPduInfo

end EdgeSlice.Rlc
