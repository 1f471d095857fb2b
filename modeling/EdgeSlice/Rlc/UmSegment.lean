import EdgeSlice.ByteMemory

namespace EdgeSlice.Rlc

open ByteMemory Function

abbrev Bytes := List UInt8

/-- `rlc_um_tx_sdu_management_t` and the SDU behind it. -/
structure TxSdu where
  data : Bytes
  sduRemainingSize : ℕ
  sduSegmentedSize : ℕ
  sduSize : ℕ
  size_eq : data.length = sduSize
  sizes_add : sduSegmentedSize + sduRemainingSize = sduSize

namespace TxSdu

/-- An SDU as `rlc_um_data_req` puts it into the queue. -/
def ofData (data : Bytes) : TxSdu := ⟨data, data.length, 0, data.length, rfl, Nat.zero_add _⟩

/-- What `data_sdu_p` points to. -/
def rest (sdu : TxSdu) : Bytes := sdu.data.drop sdu.sduSegmentedSize

def advance (sdu : TxSdu) (n : ℕ) (h : n ≤ sdu.sduRemainingSize) : TxSdu :=
  { sdu with
    sduRemainingSize := sdu.sduRemainingSize - n
    sduSegmentedSize := sdu.sduSegmentedSize + n
    sizes_add := by
      have hsizes := sdu.sizes_add
      omega }

end TxSdu

/-- `rlc_um_entity_t`, as far as segmentation and reassembly use it. -/
structure UmEntity where
  isDataPlane : Bool
  vtUs : UInt16
  vrUh : ℕ
  rxSnLength : ℕ
  txHeaderMinLengthInBytes : ℕ
  rxSnModulo : ℕ
  inputSdus : List TxSdu
  bufferOccupancy : ℕ
  nbBytesRequestedByMac : ℕ
  outputSduInConstruction : Option Bytes
  outputSduSizeToWrite : ℕ
  darBuffer : ℕ → Option Bytes
  lastReassembliedSn : ℕ
  reassemblyMissingSnDetected : Bool
  /-- What `rlc_data_ind` got. -/
  dataInd : List Bytes

/-- The variables of the pass that computes how many SDUs fill a PDU. -/
structure DryPass where
  pduRemainingSize : ℕ
  dataPduSize : ℕ
  testPduRemainingSize : ℕ
  testLiLengthInBytes : ℕ
  testNumLi : ℕ
  numFillSdu : ℕ
  testRemainingSizeToSubstract : ℕ
  testRemainingNumLiToSubstract : ℕ

namespace DryPass

/-- The last SDU of the PDU, which is made smaller by some bytes. -/
def stop (d : DryPass) (reduced : ℕ) : DryPass :=
  { d with
    pduRemainingSize := d.pduRemainingSize - reduced
    dataPduSize := d.dataPduSize - reduced
    testPduRemainingSize := 0
    numFillSdu := d.numFillSdu + 1
    testRemainingSizeToSubstract := 0
    testRemainingNumLiToSubstract := 0 }

def addLi (d : DryPass) (sduRemainingSize : ℕ) : DryPass :=
  { d with
    testPduRemainingSize := d.testPduRemainingSize - (sduRemainingSize + (d.testLiLengthInBytes ^^^ 3))
    testLiLengthInBytes := d.testLiLengthInBytes ^^^ 3
    testNumLi := d.testNumLi + 1
    numFillSdu := d.numFillSdu + 1
    testRemainingSizeToSubstract := d.testLiLengthInBytes ^^^ 3
    testRemainingNumLiToSubstract := 1 }

/-- The next length indicator has `d.testLiLengthInBytes ^^^ 3` bytes, two and one in turn. -/
def loop : List TxSdu → DryPass → DryPass
  | [], d => d
  | sdu :: sdus, d =>
    if sdu.sduRemainingSize > d.testPduRemainingSize then d.stop 0
    else if sdu.sduRemainingSize = d.testPduRemainingSize then d.stop 0
    else if sdu.sduRemainingSize + (d.testLiLengthInBytes ^^^ 3) = d.testPduRemainingSize then
      d.stop (d.testLiLengthInBytes ^^^ 3)
    else if sdu.sduRemainingSize + (d.testLiLengthInBytes ^^^ 3) < d.testPduRemainingSize then
      loop sdus (d.addLi sdu.sduRemainingSize)
    else d.stop 1

/-- There is a length indicator that is not necessary. -/
def dropLi (d : DryPass) : DryPass :=
  if d.testRemainingNumLiToSubstract > 0 then
    { d with
      testNumLi := d.testNumLi - 1
      pduRemainingSize := d.pduRemainingSize - d.testRemainingSizeToSubstract }
  else d

/-- The pass for a PDU of so many bytes, one of them its header. -/
def run (dataPduSize headerSize : ℕ) (inputSdus : List TxSdu) : DryPass :=
  dropLi (loop inputSdus
    { pduRemainingSize := dataPduSize - headerSize
      dataPduSize := dataPduSize
      testPduRemainingSize := dataPduSize - headerSize
      testLiLengthInBytes := 1
      testNumLi := 0
      numFillSdu := 0
      testRemainingSizeToSubstract := 0
      testRemainingNumLiToSubstract := 0 })

end DryPass

/-- The first byte of an `rlc_um_e_li_t`. -/
def eLiB1 (more : Bool) (li : ℕ) : UInt8 :=
  (if more then (0x80 : UInt8) else 0) ||| UInt8.ofNat (li >>> 4)

def eLiB2 (li : ℕ) : UInt8 := UInt8.ofNat (li <<< 4)

/-- The second byte when the second length indicator is added to it. -/
def eLiB2' (b2 : UInt8) (more : Bool) (li : ℕ) : UInt8 :=
  (if more then b2 ||| 0x08 else b2) ||| UInt8.ofNat (li >>> 8)

def eLiB3 (li : ℕ) : UInt8 := UInt8.ofNat (li &&& 0xFF)

/-- The variables of the pass that fills a PDU; `pdu` is the memory from `pdu_p` on, and `data`
and `eLi` are the offsets of the two pointers into it. -/
structure Filling where
  pdu : ℕ → UInt8
  data : ℕ
  eLi : ℕ
  pduRemainingSize : ℕ
  liLengthInBytes : ℕ
  fillNumLi : ℕ
  fiLastBytePduIsLastByteSdu : Bool
  bufferOccupancy : ℕ

namespace Filling

/-- `memcpy` of `n` bytes of an SDU. -/
def copy (f : Filling) (sdu : TxSdu) (n : ℕ) : Filling :=
  { f with
    pdu := store f.pdu f.data (sdu.rest.take n)
    bufferOccupancy := f.bufferOccupancy - n }

def writeLi (testNumLi size : ℕ) (f : Filling) : Filling :=
  if f.liLengthInBytes = 2 then
    { f with
      pdu := store f.pdu f.eLi [eLiB1 (f.fillNumLi ≠ testNumLi) size, eLiB2 size] }
  else
    { f with
      pdu := store f.pdu (f.eLi + 1)
        [eLiB2' (f.pdu (f.eLi + 1)) (f.fillNumLi ≠ testNumLi) size, eLiB3 size]
      eLi := f.eLi + 3 }

/-- An SDU that ends in the PDU, with its length indicator. -/
def addSdu (testNumLi : ℕ) (sdu : TxSdu) (f : Filling) : Filling :=
  let copied := f.copy sdu sdu.sduRemainingSize
  writeLi testNumLi sdu.sduRemainingSize
    { copied with
      data := f.data + sdu.sduRemainingSize
      liLengthInBytes := f.liLengthInBytes ^^^ 3
      fillNumLi := f.fillNumLi + 1
      pduRemainingSize := f.pduRemainingSize - (sdu.sduRemainingSize + (f.liLengthInBytes ^^^ 3)) }

def loop (testNumLi : ℕ) : List TxSdu → Filling → Filling × List TxSdu
  | [], f => (f, [])
  | sdu :: sdus, f =>
    if h : sdu.sduRemainingSize > f.pduRemainingSize then
      let copied := f.copy sdu f.pduRemainingSize
      ({ copied with pduRemainingSize := 0, fiLastBytePduIsLastByteSdu := false },
        sdu.advance f.pduRemainingSize (Nat.le_of_lt h) :: sdus)
    else if sdu.sduRemainingSize = f.pduRemainingSize then
      let copied := f.copy sdu f.pduRemainingSize
      ({ copied with pduRemainingSize := 0, fiLastBytePduIsLastByteSdu := true }, sdus)
    else if sdu.sduRemainingSize + (f.liLengthInBytes ^^^ 3) < f.pduRemainingSize then
      loop testNumLi sdus (f.addSdu testNumLi sdu)
    else
      let copied := f.copy sdu sdu.sduRemainingSize
      ({ copied with
          pduRemainingSize := f.pduRemainingSize - sdu.sduRemainingSize
          fiLastBytePduIsLastByteSdu := true }, sdus)

end Filling

/-- A PDU as it is handed to MAC, cut to its `tb_size`, and the number of SDUs that have bytes
in it. -/
structure TxPdu where
  data : Bytes
  numFillSdu : ℕ

namespace UmEntity

def maxLiOverhead (nbElements : ℕ) : ℕ :=
  if nbElements ≤ 1 then 0 else (nbElements - 1) * 3 / 2 + (nbElements - 1) % 2

/-- The size that is allocated for a PDU. -/
def dataPduSize (s : UmEntity) : ℕ :=
  let all := s.bufferOccupancy + s.txHeaderMinLengthInBytes + maxLiOverhead s.inputSdus.length
  if s.nbBytesRequestedByMac ≥ all then all else s.nbBytesRequestedByMac

def framingInfo (fiFirst fiLast : Bool) : UInt8 := (if fiFirst then 0 else 2) + (if fiLast then 0 else 1)

/-- The first byte of a PDU with a sequence number of five bits. -/
def pduB1 (fi : UInt8) (li : Bool) (vtUs : UInt16) : UInt8 :=
  (fi <<< 6) ||| (if li then 0x20 else 0) ||| (vtUs &&& 0x1F).toUInt8

/-- `memset` of `pdu_p` in a new memory block. -/
def clearBlock (block : ℕ → UInt8) (size : ℕ) : ℕ → UInt8 := store block 0 (List.replicate size 0)

/-- The variables before the pass that fills a PDU. -/
def startFilling (block : ℕ → UInt8) (testNumLi pduRemainingSize bufferOccupancy : ℕ) : Filling where
  pdu := clearBlock block 4
  data := 1 + ((testNumLi * 3 + 1) >>> 1)
  eLi := 1
  pduRemainingSize := pduRemainingSize
  liLengthInBytes := 1
  fillNumLi := 0
  fiLastBytePduIsLastByteSdu := false
  bufferOccupancy := bufferOccupancy

/-- `block` is what the new memory block holds. The loop of the source ends after one PDU. -/
def segment5 (block : ℕ → UInt8) (s : UmEntity) : UmEntity × Option TxPdu :=
  if s.nbBytesRequestedByMac < 2 then (s, none)
  else
    match s.inputSdus with
    | [] => (s, none)
    | sdu :: sdus =>
      let dry := DryPass.run s.dataPduSize 1 (sdu :: sdus)
      let (f, inputSdus) := Filling.loop dry.testNumLi (sdu :: sdus)
        (startFilling block dry.testNumLi dry.pduRemainingSize s.bufferOccupancy)
      let fi := framingInfo (sdu.sduRemainingSize = sdu.sduSize) f.fiLastBytePduIsLastByteSdu
      let b1 := pduB1 fi (f.fillNumLi > 0) s.vtUs
      let tbSize := dry.dataPduSize - f.pduRemainingSize
      ({ s with
          inputSdus := inputSdus
          bufferOccupancy := f.bufferOccupancy
          vtUs := s.vtUs + 1 },
        some ⟨load (store f.pdu 0 [b1]) 0 tbSize, dry.numFillSdu⟩)

end UmEntity

end EdgeSlice.Rlc

namespace EdgeSlice.Rlc

open ByteMemory

namespace DryPass

/-- The last SDU of the PDU; unlike `stop` this leaves the size of the PDU as it is. -/
def stop10 (d : DryPass) (reduced : ℕ) : DryPass :=
  { d with
    pduRemainingSize := d.pduRemainingSize - reduced
    testPduRemainingSize := 0
    numFillSdu := d.numFillSdu + 1
    testRemainingSizeToSubstract := 0
    testRemainingNumLiToSubstract := 0 }

def loop10 : List TxSdu → DryPass → DryPass
  | [], d => d
  | sdu :: sdus, d =>
    if sdu.sduRemainingSize > d.testPduRemainingSize then d.stop10 0
    else if sdu.sduRemainingSize = d.testPduRemainingSize then d.stop10 0
    else if sdu.sduRemainingSize + (d.testLiLengthInBytes ^^^ 3) = d.testPduRemainingSize then
      d.stop10 (d.testLiLengthInBytes ^^^ 3)
    else if sdu.sduRemainingSize + (d.testLiLengthInBytes ^^^ 3) < d.testPduRemainingSize then
      loop10 sdus (d.addLi sdu.sduRemainingSize)
    else d.stop10 1

/-- The pass for a PDU of so many bytes, two of them its header. -/
def run10 (dataPduSize headerSize : ℕ) (inputSdus : List TxSdu) : DryPass :=
  dropLi (loop10 inputSdus
    { pduRemainingSize := dataPduSize - headerSize
      dataPduSize := dataPduSize
      testPduRemainingSize := dataPduSize - headerSize
      testLiLengthInBytes := 1
      testNumLi := 0
      numFillSdu := 0
      testRemainingSizeToSubstract := 0
      testRemainingNumLiToSubstract := 0 })

end DryPass

namespace UmEntity

/-- The first byte of a PDU with a sequence number of ten bits. -/
def pdu10B1 (fi : UInt8) (li : Bool) (vtUs : UInt16) : UInt8 :=
  ((fi <<< 3) ||| (if li then (0x04 : UInt8) else 0)) ||| ((vtUs >>> 8) &&& 0x03).toUInt8

def pdu10B2 (vtUs : UInt16) : UInt8 := (vtUs &&& 0xFF).toUInt8

def startFilling10 (block : ℕ → UInt8) (testNumLi pduRemainingSize bufferOccupancy : ℕ) : Filling where
  pdu := clearBlock block 4
  data := 2 + ((testNumLi * 3 + 1) >>> 1)
  eLi := 2
  pduRemainingSize := pduRemainingSize
  liLengthInBytes := 1
  fillNumLi := 0
  fiLastBytePduIsLastByteSdu := false
  bufferOccupancy := bufferOccupancy

def segment10 (block : ℕ → UInt8) (s : UmEntity) : UmEntity × Option TxPdu :=
  if s.nbBytesRequestedByMac < 3 then (s, none)
  else
    match s.inputSdus with
    | [] => (s, none)
    | sdu :: sdus =>
      let dry := DryPass.run10 s.dataPduSize 2 (sdu :: sdus)
      let (f, inputSdus) := Filling.loop dry.testNumLi (sdu :: sdus)
        (startFilling10 block dry.testNumLi dry.pduRemainingSize s.bufferOccupancy)
      let fi := framingInfo (sdu.sduRemainingSize = sdu.sduSize) f.fiLastBytePduIsLastByteSdu
      let b1 := pdu10B1 fi (f.fillNumLi > 0) s.vtUs
      let tbSize := dry.dataPduSize - f.pduRemainingSize
      ({ s with
          inputSdus := inputSdus
          bufferOccupancy := f.bufferOccupancy
          vtUs := s.vtUs + 1 },
        some ⟨load (store f.pdu 0 [b1, pdu10B2 s.vtUs]) 0 tbSize, dry.numFillSdu⟩)

/-- The entity with sequence numbers of ten bits, for a PDU that is larger by the second byte of
its header. -/
def sn10 (s : UmEntity) : UmEntity :=
  { s with
    rxSnLength := 10
    txHeaderMinLengthInBytes := s.txHeaderMinLengthInBytes + 1
    rxSnModulo := 1024
    nbBytesRequestedByMac := s.nbBytesRequestedByMac + 1 }

end UmEntity

end EdgeSlice.Rlc
