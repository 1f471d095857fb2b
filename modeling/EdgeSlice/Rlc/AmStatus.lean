import EdgeSlice.Rlc.AmPdu
import EdgeSlice.Rlc.AmTransmitter
import Mathlib.Algebra.Group.Int.Defs
import Mathlib.Logic.Function.Basic

namespace EdgeSlice.Rlc

def rlcAmSnBits : ℕ := 10

def rlcAmPduDCBits : ℕ := 1

def rlcAmPduEBits : ℕ := 1

def rlcAmStatusPduCptLength : ℕ := 3

def rlcAmStatusPduSoLength : ℕ := 15

/-- `rlc_am_rx_pdu_management_t`. -/
structure AmRxPdu where
  pduInfo : AmPduInfo
  allSegmentsReceived : Bool
  deriving DecidableEq, Repr

/-- `rlc_am_entity_t`, as far as STATUS PDUs are built from it. -/
structure AmReceiver where
  receiverBuffer : List AmRxPdu
  vrR : ℕ
  vrMs : ℕ
  nbBytesRequestedByMac : ℕ
  deriving DecidableEq, Repr

theorem mod_snBits_lt (sn : ℕ) : sn % 2 ^ 10 < 2 ^ 10 := Nat.mod_lt _ (Nat.two_pow_pos 10)

theorem mod_soBits_lt (so : ℤ) : (so % 2 ^ 15).toNat < 2 ^ 15 := by
  have hpos : (0 : ℤ) < 2 ^ 15 := by decide
  have hlt := Int.emod_lt_of_pos so hpos
  omega

namespace Nack

/-- The NACK of a PDU of which nothing has been received. -/
def ofPdu (sn : ℕ) : Nack :=
  ⟨sn % 2 ^ 10, true, false, 0, 0x7FFF, mod_snBits_lt sn, Nat.two_pow_pos 15, allBytes_lt⟩

/-- The NACK of a part of a PDU. -/
def ofPart (sn : ℕ) (soStart soEnd : ℤ) : Nack :=
  ⟨sn % 2 ^ 10, true, true, (soStart % 2 ^ 15).toNat, (soEnd % 2 ^ 15).toNat, mod_snBits_lt sn,
    mod_soBits_lt soStart, mod_soBits_lt soEnd⟩

/-- The bits of NACK_SN, E1 and E2. -/
def pduBits : ℕ := rlcAmSnBits + (rlcAmPduEBits <<< 1)

/-- The bits of NACK_SN, E1, E2, SOstart and SOend. -/
def partBits : ℕ := rlcAmSnBits + (rlcAmPduEBits <<< 1) + (rlcAmStatusPduSoLength <<< 1)

/-- The E1 bit of the last entry is cleared. -/
def clearLastE1 : List Nack → List Nack
  | [] => []
  | [n] => [{ n with e1 := false }]
  | n :: m :: nacks => n :: clearLastE1 (m :: nacks)

end Nack

/-- A STATUS PDU that is being built. -/
structure StatusReport where
  nackList : List Nack
  nbBitsTransmitted : ℕ
  /-- `ack_sn`, once `status_report_completed` is set. -/
  completed : Option ℕ

namespace StatusReport

/-- The next entry of `nack_list`; `none` behind its end. -/
def push (n : Nack) (bits : ℕ) (r : StatusReport) : Option StatusReport :=
  if r.nackList.length < rlcAmMaxNackInStatusPdu then
    some { r with nackList := r.nackList ++ [n], nbBitsTransmitted := r.nbBitsTransmitted + bits }
  else none

end StatusReport

namespace AmReceiver

/-- The loop over the PDUs from `sn_nack` to `sn_cursor`, with the `sn_nack` it ends with; `none` if
`nack_list` overflows or the loop does not end. -/
def nackPdus (nbBitsToTransmit snCursor : ℕ) (e : AmReceiver) :
    ℕ → ℕ → StatusReport → Option (StatusReport × ℕ)
  | 0, _, _ => none
  | fuel + 1, snNack, r =>
    if snNack ≠ snCursor ∧ amDiffSn snNack e.vrR < amDiffSn e.vrMs e.vrR then
      if r.nbBitsTransmitted + Nack.pduBits ≤ nbBitsToTransmit then do
        let r ← r.push (.ofPdu snNack) Nack.pduBits
        e.nackPdus nbBitsToTransmit snCursor fuel (amNextSn snNack) r
      else some ({ r with completed := some snNack }, snNack)
    else some (r, snNack)

/-- The loop over the further segments of `sn_cursor`, with the list that is left; `none` if
`nack_list` overflows. -/
def nackSegments (nbBitsToTransmit snCursor : ℕ) :
    List AmRxPdu → Bool → ℤ → StatusReport → Option (StatusReport × List AmRxPdu)
  | cursor, true, _, r => some (r, cursor)
  | [], false, waitedSo, r =>
    if r.nbBitsTransmitted + Nack.partBits ≤ nbBitsToTransmit then do
      let r ← r.push (.ofPart snCursor waitedSo rlcAmStatusPduSoEndAllBytes) Nack.partBits
      some (r, [])
    else some ({ r with completed := some snCursor }, [])
  | pdu :: cursor, false, waitedSo, r =>
    if pdu.pduInfo.sn = snCursor then
      if waitedSo < pdu.pduInfo.so then
        if r.nbBitsTransmitted + Nack.partBits ≤ nbBitsToTransmit then do
          let r ← r.push (.ofPart snCursor waitedSo (pdu.pduInfo.so - 1)) Nack.partBits
          nackSegments nbBitsToTransmit snCursor cursor pdu.pduInfo.lsf waitedSo r
        else some ({ r with completed := some snCursor }, pdu :: cursor)
      else
        nackSegments nbBitsToTransmit snCursor cursor pdu.pduInfo.lsf (waitedSo + pdu.pduInfo.payloadSize) r
    else if r.nbBitsTransmitted + Nack.partBits ≤ nbBitsToTransmit then do
      let r ← r.push (.ofPart snCursor waitedSo rlcAmStatusPduSoEndAllBytes) Nack.partBits
      some (r, pdu :: cursor)
    else some ({ r with completed := some snCursor }, pdu :: cursor)

/-- A PDU that has been received in part, from its first segment on. -/
def nackParts (nbBitsToTransmit snNack : ℕ) (pdu : AmRxPdu) (cursor : List AmRxPdu) (r : StatusReport) :
    Option (StatusReport × List AmRxPdu) :=
  let snCursor := pdu.pduInfo.sn
  if r.nbBitsTransmitted + Nack.partBits ≤ nbBitsToTransmit then
    if pdu.pduInfo.so ≠ 0 then do
      let r ← r.push (.ofPart snCursor 0 (pdu.pduInfo.so - 1)) Nack.partBits
      nackSegments nbBitsToTransmit snCursor cursor pdu.pduInfo.lsf
        (pdu.pduInfo.so + pdu.pduInfo.payloadSize) r
    else nackSegments nbBitsToTransmit snCursor cursor pdu.pduInfo.lsf pdu.pduInfo.payloadSize r
  else some ({ r with completed := some snNack }, pdu :: cursor)

/-- The main loop, with `sn_nack` and `all_segments_received` at its end; `none` if an assertion
fails, `nack_list` overflows or a loop does not end. -/
def nackLoop (nbBitsToTransmit : ℕ) (e : AmReceiver) :
    ℕ → List AmRxPdu → ℕ → Bool → StatusReport → Option (StatusReport × ℕ × Bool)
  | 0, _, _, _, _ => none
  | _ + 1, [], snNack, all, r => some (r, snNack, all)
  | fuel + 1, pdu :: cursor, snNack, all, r =>
    if r.completed.isNone ∧ amDiffSn snNack e.vrR < amDiffSn e.vrMs e.vrR ∧
        r.nbBitsTransmitted ≤ nbBitsToTransmit then do
      let snCursor := pdu.pduInfo.sn
      let all := pdu.allSegmentsReceived
      let (r, snNack) ← e.nackPdus nbBitsToTransmit snCursor 1025 snNack r
      if snNack = e.vrMs then some (r, snNack, all)
      else
        let (r, cursor) ←
          if r.completed.isNone ∧ ¬all ∧ snCursor ≠ e.vrMs then
            if snNack = snCursor then nackParts nbBitsToTransmit snNack pdu cursor r else none
          else some (r, cursor.dropWhile fun pdu ↦ pdu.pduInfo.sn = snCursor)
        let snNack :=
          if amDiffSn snCursor e.vrR < amDiffSn e.vrMs e.vrR then amNextSn snCursor else e.vrMs
        e.nackLoop nbBitsToTransmit fuel cursor snNack all r
    else some (r, snNack, all)

/-- The size of the header in bits. -/
def statusHeaderBits : ℕ := rlcAmPduDCBits + rlcAmStatusPduCptLength + rlcAmSnBits + rlcAmPduEBits

/-- The STATUS PDU is written and sent; `none` if the assertion about its size fails. -/
def putStatus (ackSn : ℕ) (e1 : Bool) (nackList : List Nack) (nbBitsTransmitted : ℕ) (e : AmReceiver) :
    Option (AmReceiver × ControlPduInfo) :=
  let pduSize := (nbBitsTransmitted + 7) >>> 3
  if pduSize ≤ e.nbBytesRequestedByMac then
    some ({ e with nbBytesRequestedByMac := e.nbBytesRequestedByMac - pduSize },
      ⟨ackSn % 2 ^ 10, e1, nackList, mod_snBits_lt ackSn⟩)
  else none

/-- `rlc_am_send_status_pdu`, with the content of the PDU; `none` if an assertion fails, `nack_list`
overflows or a loop does not end. -/
def sendStatusPdu (e : AmReceiver) : Option (AmReceiver × ControlPduInfo) :=
  let nbBitsToTransmit := e.nbBytesRequestedByMac <<< 3
  if e.vrR = e.vrMs then e.putStatus e.vrMs false [] statusHeaderBits
  else if ¬e.receiverBuffer.isEmpty ∧ statusHeaderBits + Nack.pduBits ≤ nbBitsToTransmit then do
    let (r, snNack, all) ← e.nackLoop nbBitsToTransmit (e.receiverBuffer.length + 1) e.receiverBuffer e.vrR
      false ⟨[], statusHeaderBits, none⟩
    if r.nackList ≠ [] ∨ ¬all then
      e.putStatus (r.completed.getD snNack) true (Nack.clearLastE1 r.nackList) r.nbBitsTransmitted
    else none
  else e.putStatus e.vrR false [] statusHeaderBits

end AmReceiver

end EdgeSlice.Rlc

namespace EdgeSlice.Rlc

open Function

/-- `byte_pos` and `bit_pos`, which ranges from 0, the most significant bit, to 7. -/
structure BitCursor where
  bytePos : ℕ
  bitPos : ℕ
  bitPos_lt : bitPos < 8

namespace BitCursor

def nextByte (c : BitCursor) : BitCursor := ⟨c.bytePos + 1, 0, Nat.succ_pos 7⟩

/-- The loop of `rlc_am_read_bit_field`, behind the bits that make `value`. -/
def readLoop (data : ℕ → UInt8) (c : BitCursor) (value bitsToRead : ℕ) : ℕ × BitCursor :=
  let rest := (data c.bytePos).toNat &&& (0x00FF >>> c.bitPos)
  let bitsRead := 8 - c.bitPos
  if h : bitsToRead < bitsRead then
    (((value <<< bitsToRead) ||| (rest >>> (bitsRead - bitsToRead))) % 2 ^ 16,
      ⟨c.bytePos, c.bitPos + bitsToRead, by omega⟩)
  else if bitsRead = bitsToRead then (((value <<< bitsToRead) ||| rest) % 2 ^ 16, c.nextByte)
  else readLoop data c.nextByte (((value <<< bitsRead) ||| rest) % 2 ^ 16) (bitsToRead - bitsRead)
termination_by bitsToRead
decreasing_by
  have hbit := c.bitPos_lt
  omega

/-- `rlc_am_read_bit_field` -/
def readBitField (data : ℕ → UInt8) (bitsToRead : ℕ) (c : BitCursor) : ℕ × BitCursor :=
  c.readLoop data 0 bitsToRead

end BitCursor

/-- A buffer with the place in it where the next field begins. -/
structure BitWriter where
  data : ℕ → UInt8
  cursor : BitCursor

namespace BitWriter

/-- `**data_ppP = **data_ppP | x` -/
def orByte (x : ℕ) (s : BitWriter) : ℕ → UInt8 :=
  update s.data s.cursor.bytePos (s.data s.cursor.bytePos ||| UInt8.ofNat x)

/-- `rlc_am_write8_bit_field` -/
def write8BitField (bitsToWrite : ℕ) (value : UInt8) (s : BitWriter) : BitWriter :=
  let availableBits := 8 - s.cursor.bitPos
  if h : bitsToWrite < availableBits then
    ⟨s.orByte ((value.toNat &&& (0xFF >>> (availableBits - bitsToWrite))) <<< (availableBits - bitsToWrite)),
      s.cursor.bytePos, s.cursor.bitPos + bitsToWrite, by omega⟩
  else if availableBits = bitsToWrite then
    ⟨s.orByte (value.toNat &&& (0xFF >>> (8 - bitsToWrite))), s.cursor.nextByte⟩
  else
    write8BitField (bitsToWrite - availableBits) value
      ⟨s.orByte (value.toNat >>> (bitsToWrite - availableBits)), s.cursor.nextByte⟩
termination_by bitsToWrite
decreasing_by
  have hbit := s.cursor.bitPos_lt
  omega

/-- `rlc_am_write16_bit_field`, with the bound that it asserts. -/
def write16BitField (bitsToWrite : Fin 17) (value : ℕ) (s : BitWriter) : BitWriter :=
  if bitsToWrite.val > 8 then
    (s.write8BitField (bitsToWrite - 8) (UInt8.ofNat (value >>> 8))).write8BitField 8
      (UInt8.ofNat (value &&& 0x00FF))
  else s.write8BitField bitsToWrite (UInt8.ofNat (value &&& 0x00FF))

end BitWriter

namespace Nack

theorem noBytes_lt : 0 < 2 ^ 15 := Nat.two_pow_pos 15

def write (s : BitWriter) (n : Nack) : BitWriter :=
  let s := s.write16BitField 10 n.nackSn
  let s := s.write8BitField 1 (UInt8.ofNat n.e1.toNat)
  let s := s.write8BitField 1 (UInt8.ofNat n.e2.toNat)
  if n.e2 then (s.write16BitField 15 n.soStart).write16BitField 15 n.soEnd else s

def read (data : ℕ → UInt8) (c : BitCursor) : Nack × BitCursor :=
  let (nackSn, c) := c.readBitField data 10
  let (e1, c) := c.readBitField data 1
  let (e2, c) := c.readBitField data 1
  if e2 % 2 ≠ 0 then
    let (soStart, c) := c.readBitField data 15
    let (soEnd, c) := c.readBitField data 15
    (⟨nackSn % 2 ^ 10, e1 % 2 ≠ 0, true, soStart % 2 ^ 15, soEnd % 2 ^ 15, Nat.mod_lt _ (Nat.two_pow_pos 10),
      Nat.mod_lt _ (Nat.two_pow_pos 15), Nat.mod_lt _ (Nat.two_pow_pos 15)⟩, c)
  else
    (⟨nackSn % 2 ^ 10, e1 % 2 ≠ 0, false, 0, 0x7FFF, Nat.mod_lt _ (Nat.two_pow_pos 10), noBytes_lt,
      allBytes_lt⟩, c)

/-- The loop over the NACKs of a STATUS PDU, with `free` entries of `nack_list` left, and whether it ends since there
are none. -/
def readAll (data : ℕ → UInt8) : ℕ → BitCursor → List Nack × BitCursor × Bool
  | 0, c => ([], c, true)
  | free + 1, c =>
    let (n, c) := read data c
    if ¬ n.e1 then ([n], c, false)
    else
      let (ns, c, full) := readAll data free c
      (n :: ns, c, full)

end Nack

/-- Why `rlc_am_get_control_pdu_infos` has no result. -/
inductive ControlPduError
  | dataPdu
  | tooManyNacks
  | controlPduType
  deriving DecidableEq, Repr

namespace ControlPduInfo

/-- `rlc_am_write_status_pdu`, with the number of bytes that it returns. -/
def writeStatusPdu (data : ℕ → UInt8) (info : ControlPduInfo) : (ℕ → UInt8) × ℕ :=
  let s : BitWriter := ⟨data, 0, 4, Nat.lt_add_of_pos_right (Nat.succ_pos 3)⟩
  let s := s.write16BitField 10 info.ackSn
  let s := if 0 < info.nackList.length then s.write8BitField 1 1 else s.write8BitField 1 0
  let s := info.nackList.foldl Nack.write s
  (s.data, s.cursor.bytePos + if 0 < s.cursor.bitPos then 1 else 0)

/-- `rlc_am_get_control_pdu_infos`, with what it leaves of the size. -/
def getControlPduInfos (header : ℕ → UInt8) (totalSize : ℤ) : Except ControlPduError ControlPduInfo × ℤ :=
  let b1 := header 0
  let b2 := header 1
  if b1 >>> 7 ≠ 0 then (.error .dataPdu, totalSize)
  else if (b1 >>> 4) &&& 0x07 ≠ 0 then (.error .controlPduType, totalSize)
  else
    let ackSn := ((b2 >>> 2) &&& 0x3F).toNat ||| ((b1 &&& 0x0F).toNat <<< 6)
    if (b2 >>> 1) &&& 0x01 ≠ 0 then
      let (nackList, c, full) := Nack.readAll header rlcAmMaxNackInStatusPdu ⟨1, 7, Nat.lt_succ_self 7⟩
      let consumed := c.bytePos + (c.bitPos + 7) / 8
      (if full then .error .tooManyNacks
        else .ok ⟨ackSn % 2 ^ 10, true, nackList, Nat.mod_lt _ (Nat.two_pow_pos 10)⟩, totalSize - consumed)
    else (.ok ⟨ackSn % 2 ^ 10, false, [], Nat.mod_lt _ (Nat.two_pow_pos 10)⟩, totalSize - 2)

end ControlPduInfo

end EdgeSlice.Rlc
