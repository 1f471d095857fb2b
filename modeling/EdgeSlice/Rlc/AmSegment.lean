import EdgeSlice.Rlc.AmRxList
import EdgeSlice.Rlc.AmTransmitter
import EdgeSlice.Rlc.UmSegment
import Mathlib.Algebra.Group.Int.Defs

namespace EdgeSlice.Rlc

open ByteMemory

def rlcAmMaxSduFragments : ℕ := 32

def rlcAmPollPduInfinite : ℕ := 0xFFFF

def rlcAmPollByteInfinite : ℕ := 0xFFFFFFFF

/-- An `int8_t`. -/
def int8 (x : ℤ) : ℤ := (x + 128) % 256 - 128

/-- `struct rlc_am_data_req` and the SDU behind it. -/
structure AmDataReq where
  mui : ℕ
  data : Bytes
  data_ne_nil : data ≠ []
  data_length_lt : data.length < 2 ^ 16

namespace AmTxSdu

/-- What `data_sdu_p` points to. -/
def rest (sdu : AmTxSdu) : Bytes := (sdu.memBlock.getD []).drop sdu.sduSegmentedSize

def advance (n : ℕ) (sdu : AmTxSdu) : AmTxSdu :=
  { sdu with
    sduRemainingSize := sdu.sduRemainingSize - n
    sduSegmentedSize := sdu.sduSegmentedSize + n }

/-- One more PDU lists the SDU. -/
def list (sdu : AmTxSdu) : AmTxSdu := { sdu with nbPdus := sdu.nbPdus + 1 }

/-- The data of a fully segmented SDU is freed. -/
def freeData (sdu : AmTxSdu) : AmTxSdu := { sdu with memBlock := none, sduRemainingSize := 0 }

/-- An SDU that has just been accepted. -/
def ofReq (req : AmDataReq) : AmTxSdu :=
  { zero with
    memBlock := some req.data
    mui := req.mui
    sduRemainingSize := req.data.length
    sduSize := req.data.length }

end AmTxSdu

namespace DryPass

/-- The variables before the pass. -/
def startAm (dataPduSize : ℕ) : DryPass where
  pduRemainingSize := dataPduSize - rlcAmHeaderMinSize
  dataPduSize := dataPduSize
  testPduRemainingSize := dataPduSize - rlcAmHeaderMinSize
  testLiLengthInBytes := 1
  testNumLi := 0
  numFillSdu := 0
  testRemainingSizeToSubstract := 0
  testRemainingNumLiToSubstract := 0

/-- The pass over the remaining sizes of the SDUs, with `nb_sdus` before and after it. -/
def loopAm : List ℕ → ℕ → DryPass → DryPass × ℕ
  | [], nbSdus, d => (d, nbSdus)
  | size :: sizes, nbSdus, d =>
    if size > d.testPduRemainingSize then (d.stop10 0, nbSdus + 1)
    else if size = d.testPduRemainingSize then (d.stop10 0, nbSdus + 1)
    else if size + (d.testLiLengthInBytes ^^^ 3) = d.testPduRemainingSize then
      (d.stop10 (d.testLiLengthInBytes ^^^ 3), nbSdus + 1)
    else if size + (d.testLiLengthInBytes ^^^ 3) < d.testPduRemainingSize then
      if nbSdus ≥ rlcAmMaxSduInPdu - 1 then ({ d.stop10 1 with numFillSdu := d.numFillSdu }, nbSdus + 1)
      else loopAm sizes (nbSdus + 1) (d.addLi size)
    else (d.stop10 1, nbSdus + 1)

end DryPass

/-- The variables of the pass that fills a PDU. -/
structure AmFilling extends Filling where
  payloadSize : ℕ

namespace AmFilling

/-- `memcpy` of `n` bytes of an SDU. -/
def copy (f : AmFilling) (sdu : AmTxSdu) (n : ℕ) : AmFilling :=
  { f with
    pdu := store f.pdu f.data (sdu.rest.take n)
    bufferOccupancy := f.bufferOccupancy - n
    payloadSize := f.payloadSize + n }

/-- An SDU that ends in the PDU, with its length indicator. -/
def addSdu (testNumLi : ℕ) (sdu : AmTxSdu) (f : AmFilling) : AmFilling :=
  let copied := f.copy sdu sdu.sduRemainingSize
  { toFilling := Filling.writeLi testNumLi sdu.sduRemainingSize
      { copied.toFilling with
        data := f.data + sdu.sduRemainingSize
        liLengthInBytes := f.liLengthInBytes ^^^ 3
        fillNumLi := f.fillNumLi + 1
        pduRemainingSize := f.pduRemainingSize - (sdu.sduRemainingSize + (f.liLengthInBytes ^^^ 3)) }
    payloadSize := copied.payloadSize }

end AmFilling

namespace AmTransmitter

/-- `rlc_am_data_req`; nothing sets `flags.segmented`. -/
def dataReq (req : AmDataReq) (s : AmTransmitter) : AmTransmitter :=
  if (s.inputSdus s.nextSduIndex).memBlock.isNone ∧
      (s.nextSduIndex + 1) % rlcAmSduControlBufferSize ≠ s.currentSduIndex then
    { s with
      sduBufferOccupancy := s.sduBufferOccupancy + req.data.length
      nbSdu := s.nbSdu + 1
      nbSduNoSegmented := s.nbSduNoSegmented + 1
      nextSduIndex := (s.nextSduIndex + 1) % rlcAmSduControlBufferSize }.setSdu s.nextSduIndex (.ofReq req)
  else s

def startTimerPollRetransmit (now : ℕ) (s : AmTransmitter) : AmTransmitter :=
  let s := s.stopAndResetTimerPollRetransmit
  if s.tPollRetransmit.msDuration > 0 then
    { s with tPollRetransmit :=
      { s.tPollRetransmit with
        running := true
        msTimeOut := (now + s.tPollRetransmit.msDuration) % 2 ^ 32
        msStart := now } }
  else s

/-- The counters of `rlc_am_pdu_polling` for a new PDU. -/
def countPdu (payloadSize : ℕ) (s : AmTransmitter) : AmTransmitter :=
  { s with
    cPduWithoutPoll :=
      if s.pollPdu ≠ rlcAmPollPduInfinite then s.cPduWithoutPoll + 1 else s.cPduWithoutPoll
    cByteWithoutPoll :=
      if s.pollByte ≠ rlcAmPollByteInfinite then s.cByteWithoutPoll + payloadSize else s.cByteWithoutPoll }

/-- The condition for a poll. -/
def mustPoll (isNewPdu : Bool) (s : AmTransmitter) : Prop :=
  isNewPdu ∧ (s.cPduWithoutPoll ≥ s.pollPdu ∨ s.cByteWithoutPoll ≥ s.pollByte) ∨
    s.sduBufferOccupancy = 0 ∧ s.retransNumBytesToRetransmit = 0 ∨ s.vtS = s.vtMs ∨ s.forcePoll

instance (isNewPdu : Bool) (s : AmTransmitter) : Decidable (s.mustPoll isNewPdu) :=
  inferInstanceAs (Decidable (_ ∨ _))

def poll (now : ℕ) (s : AmTransmitter) : AmTransmitter :=
  startTimerPollRetransmit now
    { s with
      forcePoll := false
      cPduWithoutPoll := 0
      cByteWithoutPoll := 0
      pollSn := amPrevSn s.vtS }

/-- `rlc_am_pdu_polling`, with the P field of the PDU. -/
def pduPolling (now payloadSize : ℕ) (isNewPdu : Bool) (s : AmTransmitter) : AmTransmitter × Bool :=
  let s := if isNewPdu then s.countPdu payloadSize else s
  if s.mustPoll isNewPdu then (s.poll now, true) else (s, false)

/-- The indices of the SDUs that are not fully segmented, from `current_sdu_index` on. -/
def queue (s : AmTransmitter) : List ℕ :=
  ((List.range rlcAmSduControlBufferSize).map
    fun k ↦ (s.currentSduIndex + k) % rlcAmSduControlBufferSize).takeWhile
      fun i ↦ (s.inputSdus i).memBlock.isSome

def maxLiOverhead (s : AmTransmitter) : ℕ :=
  if s.nbSduNoSegmented ≤ 1 then 0 else amHeaderLiLength (s.nbSduNoSegmented - 1).toNat

/-- The size that is allocated for a PDU. -/
def dataPduSize (s : AmTransmitter) : ℕ :=
  let all := s.sduBufferOccupancy + rlcAmHeaderMinSize + s.maxLiOverhead
  if s.nbBytesRequestedByMac ≥ all then all else s.nbBytesRequestedByMac

/-- What the first pass finds, and `nb_sdus` of the PDU. -/
def dryPass (s : AmTransmitter) : DryPass × ℕ :=
  let (d, nbSdus) := DryPass.loopAm (s.queue.map fun i ↦ (s.inputSdus i).sduRemainingSize) 0
    (.startAm s.dataPduSize)
  (d.dropLi, nbSdus)

/-- An SDU that the PDU lists; `none` if the assertion fails. -/
def listSdu (index : ℕ) (s : AmTransmitter) : Option AmTransmitter :=
  let sdu := (s.inputSdus index).list
  if sdu.nbPdus.toNat < rlcAmMaxSduFragments then some (s.setSdu index sdu) else none

/-- `rlc_am_free_in_sdu_data`. -/
def freeInSduData (index : ℕ) (s : AmTransmitter) : AmTransmitter :=
  if index ≤ rlcAmSduControlBufferSize ∧ (s.inputSdus index).memBlock.isSome then
    { s with nbSduNoSegmented := s.nbSduNoSegmented - 1 }.setSdu index (s.inputSdus index).freeData
  else s

/-- The current SDU is fully segmented. -/
def endSdu (s : AmTransmitter) : AmTransmitter :=
  { s.freeInSduData s.currentSduIndex with
    currentSduIndex := (s.currentSduIndex + 1) % rlcAmSduControlBufferSize }

/-- The pass that fills the PDU; `none` if it does not end. -/
def fillLoop (testNumLi : ℕ) : ℕ → AmFilling → AmTransmitter → Option (AmFilling × AmTransmitter)
  | 0, _, _ => none
  | fuel + 1, f, s =>
    let sdu := s.inputSdus s.currentSduIndex
    if sdu.memBlock.isSome then
      if sdu.sduRemainingSize > f.pduRemainingSize then
        let copied := f.copy sdu f.pduRemainingSize
        some ({ copied with pduRemainingSize := 0, fiLastBytePduIsLastByteSdu := false },
          s.setSdu s.currentSduIndex (sdu.advance f.pduRemainingSize))
      else if sdu.sduRemainingSize = f.pduRemainingSize then
        let copied := f.copy sdu f.pduRemainingSize
        some ({ copied with pduRemainingSize := 0, fiLastBytePduIsLastByteSdu := true }, s.endSdu)
      else if sdu.sduRemainingSize + (f.liLengthInBytes ^^^ 3) < f.pduRemainingSize then
        if f.fillNumLi = rlcAmMaxSduInPdu - 1 then
          let copied := f.copy sdu sdu.sduRemainingSize
          some ({ copied with pduRemainingSize := 0, fiLastBytePduIsLastByteSdu := true }, s.endSdu)
        else fillLoop testNumLi fuel (f.addSdu testNumLi sdu) s.endSdu
      else
        let copied := f.copy sdu sdu.sduRemainingSize
        some ({ copied with
            pduRemainingSize := f.pduRemainingSize - sdu.sduRemainingSize
            fiLastBytePduIsLastByteSdu := true }, s.endSdu)
    else some (f, s)

/-- The variables before the pass that fills a PDU. -/
def startFilling (block : ℕ → UInt8) (testNumLi pduRemainingSize bufferOccupancy : ℕ) : AmFilling where
  pdu := UmEntity.clearBlock block 4
  data := 2 + ((testNumLi * 3 + 1) >>> 1)
  eLi := 2
  pduRemainingSize := pduRemainingSize
  liLengthInBytes := 1
  fillNumLi := 0
  fiLastBytePduIsLastByteSdu := false
  bufferOccupancy := bufferOccupancy
  payloadSize := 0

/-- The first byte of an AMD PDU. -/
def pduB1 (fi : UInt8) (li : Bool) (sn : ℕ) (poll : Bool) : UInt8 :=
  (0x80 : UInt8) ||| (if poll then (0x20 : UInt8) else 0) ||| (fi <<< 3) |||
    (if li then (0x04 : UInt8) else 0) ||| UInt8.ofNat (sn >>> 8)

def pduB2 (sn : ℕ) : UInt8 := UInt8.ofNat (sn &&& 0xFF)

/-- The new PDU in its slot and as it is handed to MAC, once its block is filled; `fiFirst` says that it
begins with the first byte of an SDU. -/
def sendPdu (now : ℕ) (fiFirst : Bool) (dataPduSize : ℕ) (sdusIndex : List ℕ) (f : AmFilling) (payload : ℕ)
    (s : AmTransmitter) : Option (AmTransmitter × Bytes) :=
  let sn := s.vtS
  let tbSize := dataPduSize - f.pduRemainingSize
  if tbSize < rlcSduMaxSize then
    let (s, poll) := pduPolling now f.payloadSize true
      { s with sduBufferOccupancy := f.bufferOccupancy, vtS := amNextSn sn }
    let fi := UmEntity.framingInfo fiFirst f.fiLastBytePduIsLastByteSdu
    let pdu := store f.pdu 0 [pduB1 fi (f.fillNumLi > 0) sn poll, pduB2 sn]
    some (s.setPdu sn
      { AmTxPdu.zero with
        memBlock := some (load pdu 0 dataPduSize)
        payload := payload
        sdusIndex := sdusIndex
        headerAndPayloadSize := tbSize
        payloadSize := f.payloadSize
        sn := sn
        nbSdus := int8 sdusIndex.length
        transmitted := true }, load pdu 0 tbSize)
  else none

/-- `rlc_am_segment_10` for a request of more than two bytes; `none` if an assertion fails. `block` is what
the new memory block holds. -/
def segment10 (now : ℕ) (block : ℕ → UInt8) (s : AmTransmitter) : Option (AmTransmitter × Option Bytes) :=
  let sdu := s.inputSdus s.currentSduIndex
  if s.sduBufferOccupancy = 0 ∨ sdu.memBlock.isNone then some (s, none)
  else do
    let (dry, nbSdus) := s.dryPass
    let sdusIndex := s.queue.take nbSdus
    let t ← sdusIndex.foldlM (fun s index ↦ s.listSdu index) s
    let filling := startFilling block dry.testNumLi dry.pduRemainingSize s.sduBufferOccupancy
    let (f, t) ← t.fillLoop dry.testNumLi (rlcAmSduControlBufferSize + 1) filling
    let fiFirst := sdu.sduRemainingSize = sdu.sduSize
    let (t, pdu) ← t.sendPdu now fiFirst s.dataPduSize sdusIndex f filling.data
    return (t, some pdu)

end AmTransmitter

end EdgeSlice.Rlc
