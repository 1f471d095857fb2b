import EdgeSlice.Rlc.AmTransmitter
import EdgeSlice.Rlc.AmResegment
import EdgeSlice.Rlc.AmRxReceive

namespace EdgeSlice.Rlc

/-- What the transmitting side of an entity reacts to. -/
inductive AmTxEvent
  | dataReq (req : AmDataReq)
  | getPdus (now nbBytesRequestedByMac : ℕ) (block : ℕ → UInt8)
  | status (info : ControlPduInfo)
  | timer (now : ℕ)

namespace AmTransmitter

/-- The P field in the first byte of a copy. -/
def setPoll (poll : Bool) : Bytes → Bytes
  | [] => []
  | b1 :: bytes => (if poll then b1 ||| 0x20 else b1 &&& 0xDF) :: bytes

/-- `rlc_am_retransmit_get_copy`; `none` if the assertion fails. -/
def retransmitGetCopy (sn : ℕ) (s : AmTransmitter) : Option Bytes :=
  let p := s.txDataPduBuffer (sn % rlcAmWindowSize)
  p.memBlock.map fun block ↦ block.take p.headerAndPayloadSize

/-- The PDU of which `size` bytes are retransmitted is accounted for, polled with and written back. -/
def retransmitted (now sn size : ℕ) (p : AmTxPdu) (pdu : Bytes) (s : AmTransmitter) : AmTransmitter × Option Bytes :=
  let all := size = p.retxPayloadSize
  let p := { p with retxPayloadSize := p.retxPayloadSize - size, retransmit := p.retransmit ∧ ¬all }
  let (s, poll) := pduPolling now p.payloadSize false
    { s with
      retransNumBytesToRetransmit := s.retransNumBytesToRetransmit - size
      retransNumPdus := if all then s.retransNumPdus - 1 else s.retransNumPdus }
  (s.setPdu sn { p with retxCount := p.retxCountNext }, some (setPoll poll pdu))

/-- What is done with a PDU that is flagged for retransmission; `none` if an assertion fails. -/
def retransmitPdu (maxRetxThreshold now sn : ℕ) (s : AmTransmitter) : Option (AmTransmitter × Option Bytes) :=
  let p := s.txDataPduBuffer (sn % rlcAmWindowSize)
  if p.retxPayloadSize = p.payloadSize ∧ s.nbBytesRequestedByMac ≥ p.headerAndPayloadSize then
    if p.retxCountNext ≤ maxRetxThreshold then do
      let pdu ← s.retransmitGetCopy sn
      return s.retransmitted now sn p.retxPayloadSize p pdu
    else some (s.setPdu sn { p with maxRetransmit := true }, none)
  else if s.nbBytesRequestedByMac ≥ 5 then
    if p.retxCountNext ≤ maxRetxThreshold then do
      let (p, pdu, size) ← p.getAmSegment s.nbBytesRequestedByMac
      if size ≤ p.retxPayloadSize ∧ size ≤ s.retransNumBytesToRetransmit then
        some (s.retransmitted now sn size p pdu)
      else none
    else some (s.setPdu sn { p with maxRetransmit := true }, none)
  else some (s, none)

/-- One round of the loop of `rlc_am_get_pdu_to_retransmit`; `none` if an assertion fails. -/
def retransmitFlagged (maxRetxThreshold now sn : ℕ) (s : AmTransmitter) : Option (AmTransmitter × Option Bytes) :=
  let p := s.txDataPduBuffer (sn % rlcAmWindowSize)
  if p.retransmit ∧ ¬p.maxRetransmit then
    if p.sn = sn ∧ p.transmitted ∧ p.retxPayloadSize > 0 then s.retransmitPdu maxRetxThreshold now sn
    else none
  else some (s, none)

/-- The loop of `rlc_am_get_pdu_to_retransmit`; `none` if an assertion fails or it does not end. -/
def retransmitLoop (maxRetxThreshold now : ℕ) : ℕ → ℕ → AmTransmitter → Option (AmTransmitter × Option Bytes)
  | 0, _, _ => none
  | fuel + 1, sn, s => do
    let (s, pdu) ← s.retransmitFlagged maxRetxThreshold now sn
    if pdu.isSome then some (s, pdu)
    else if amNextSn sn ≠ s.vtS ∧ s.retransNumPdus > 0 then
      retransmitLoop maxRetxThreshold now fuel (amNextSn sn) s
    else some (s, none)

/-- `rlc_am_get_pdu_to_retransmit`; `none` if an assertion fails. -/
def getPduToRetransmit (maxRetxThreshold now : ℕ) (s : AmTransmitter) : Option (AmTransmitter × Option Bytes) :=
  if s.retransNumPdus > 0 ∧ s.vtA ≠ s.vtS then s.retransmitLoop maxRetxThreshold now 1025 s.vtA else none

/-- The search of `rlc_am_check_timer_poll_retransmit` for a PDU to send again; `none` if the assertion
fails or the search does not end. -/
def pollRetransmitLoop (snEnd : ℕ) : ℕ → ℕ → AmTransmitter → Option AmTransmitter
  | 0, _, _ => none
  | fuel + 1, sn, s =>
    if sn ≠ snEnd then
      let p := s.txDataPduBuffer (sn % rlcAmWindowSize)
      if p.memBlock.isNone then none
      else if ¬p.ack ∧ ¬p.maxRetransmit then
        some ({ s with
          retransNumPdus := s.retransNumPdus + 1
          retransNumBytesToRetransmit := s.retransNumBytesToRetransmit + p.payloadSize }.setPdu sn
            { p with
              retransmit := true
              retxPayloadSize := p.payloadSize
              retxCountNext :=
                if p.retxCount = p.retxCountNext then p.retxCountNext + 1 else p.retxCountNext })
      else pollRetransmitLoop snEnd fuel (amPrevSn sn) s
    else some s

/-- What is sent again when t-PollRetransmit expires; `none` if an assertion fails. -/
def pollRetransmit (s : AmTransmitter) : Option AmTransmitter :=
  if s.sduBufferOccupancy = 0 ∧ s.retransNumBytesToRetransmit = 0 ∨ s.vtS = s.vtMs then
    s.pollRetransmitLoop (amPrevSn s.vtA) 1025 (amPrevSn s.vtS)
  else some s

/-- `rlc_am_check_timer_poll_retransmit`; `none` if an assertion fails. -/
def checkTimerPollRetransmit (now : ℕ) (s : AmTransmitter) : Option AmTransmitter :=
  if s.tPollRetransmit.running ∧ s.tPollRetransmit.expired now then do
    let s := { s with tPollRetransmit := { s.tPollRetransmit with running := false, timedOut := true } }
    let s ← s.pollRetransmit
    return { s with forcePoll := true }
  else some s

/-- The retransmission that goes before new data; `none` if an assertion fails. -/
def getRetransmission (maxRetxThreshold now : ℕ) (s : AmTransmitter) : Option (AmTransmitter × Option Bytes) :=
  if s.retransNumBytesToRetransmit ≠ 0 ∧ s.nbBytesRequestedByMac > 2 then
    s.getPduToRetransmit maxRetxThreshold now
  else some (s, none)

/-- `rlc_am_get_pdus` once no STATUS PDU is to be sent; `none` if an assertion fails. -/
def getPdus (maxRetxThreshold now : ℕ) (block : ℕ → UInt8) (s : AmTransmitter) :
    Option (AmTransmitter × Option Bytes) := do
  let (s, pdu) ← s.getRetransmission maxRetxThreshold now
  if pdu.isSome then some (s, pdu)
  else if s.nbBytesRequestedByMac > 2 ∧ s.sduBufferOccupancy ≠ 0 ∧ s.vtS ≠ s.vtMs then s.segment10 now block
  else some (s, none)

/-- What an entity with nothing to send or to confirm is like. -/
def start (pollPdu pollByte msDuration : ℕ) : AmTransmitter :=
  { init with
    pollPdu := pollPdu
    pollByte := pollByte
    tPollRetransmit := ⟨0, 0, msDuration, false, false⟩ }

def step (maxRetxThreshold : ℕ) : AmTxEvent → AmTransmitter → Option AmTransmitter
  | .dataReq req, s => some (s.dataReq req)
  | .getPdus now nbBytesRequestedByMac block, s =>
    (getPdus maxRetxThreshold now block { s with nbBytesRequestedByMac := nbBytesRequestedByMac }).map Prod.fst
  | .status info, s => s.receiveProcessControlPdu (some info)
  | .timer now, s => s.checkTimerPollRetransmit now

end AmTransmitter

end EdgeSlice.Rlc
