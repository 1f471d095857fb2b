import EdgeSlice.Rlc.UmSegment
import Mathlib.Algebra.Group.Nat.Defs
import Mathlib.Data.Int.Notation

namespace EdgeSlice.Rlc

open Function

def rlcAmWindowSize : ℕ := 512

def rlcAmSduControlBufferSize : ℕ := 1024

def rlcAmMaxNackInStatusPdu : ℕ := 1023

def rlcAmMaxHolesReportPerPdu : ℕ := 16

def rlcAmStatusPduSoEndAllBytes : ℕ := 0x7FFF

/-- `RLC_SN_UNDEFINED`. -/
def rlcSnUndefined : ℕ := 0xFFFF

/-- `RLC_AM_NEXT_SN`. -/
def amNextSn (sn : ℕ) : ℕ := (sn + 1) &&& 0x3FF

/-- `RLC_AM_PREV_SN`. -/
def amPrevSn (sn : ℕ) : ℕ := (sn + 1024 - 1) &&& 0x3FF

/-- `RLC_AM_DIFF_SN`. -/
def amDiffSn (sn snref : ℕ) : ℕ := (sn + 1024 - snref) &&& (1024 - 1)

/-- `rlc_am_timer_t`. -/
structure AmTimer where
  msTimeOut : ℕ
  msStart : ℕ
  msDuration : ℕ
  running : Bool
  timedOut : Bool
  deriving DecidableEq, Repr

/-- `rlc_am_tx_sdu_management_t`. -/
structure AmTxSdu where
  memBlock : Option Bytes
  mui : ℕ
  sduRemainingSize : ℕ
  sduSegmentedSize : ℕ
  sduSize : ℕ
  nbPdus : UInt8
  nbPdusAck : UInt8
  transmittedSuccessfully : Bool

/-- `memset` of a slot. -/
def AmTxSdu.zero : AmTxSdu := ⟨none, 0, 0, 0, 0, 0, 0, false⟩

/-- `rlc_am_tx_data_pdu_management_t`. -/
structure AmTxPdu where
  memBlock : Option Bytes
  payload : ℕ
  sdusIndex : List ℕ
  /-- The first `num_holes` of `hole_so_start` and `hole_so_stop`. -/
  holes : List (ℕ × ℕ)
  retxHoleIndex : ℕ
  headerAndPayloadSize : ℕ
  payloadSize : ℕ
  retxPayloadSize : ℕ
  sn : ℕ
  nackSoStart : ℕ
  nackSoStop : ℕ
  nbSdus : ℤ
  retxCount : ℕ
  retxCountNext : ℕ
  transmitted : Bool
  ack : Bool
  nack : Bool
  retransmit : Bool
  maxRetransmit : Bool

/-- `memset` of a slot. -/
def AmTxPdu.zero : AmTxPdu :=
  ⟨none, 0, [], [], 0, 0, 0, 0, 0, 0, 0, 0, 0, 0, false, false, false, false, false⟩

/-- `rlc_am_entity_t`, as far as its transmitting side uses it. -/
structure AmTransmitter where
  sduBufferOccupancy : ℕ
  inputSdus : ℕ → AmTxSdu
  nbSdu : ℤ
  nbSduNoSegmented : ℤ
  nextSduIndex : ℕ
  currentSduIndex : ℕ
  txDataPduBuffer : ℕ → AmTxPdu
  retransNumPdus : ℤ
  retransNumBytesToRetransmit : ℤ
  forcePoll : Bool
  vtA : ℕ
  vtMs : ℕ
  vtS : ℕ
  pollSn : ℕ
  tPollRetransmit : AmTimer
  cPduWithoutPoll : ℕ
  cByteWithoutPoll : ℕ
  pollPdu : ℕ
  pollByte : ℕ
  nbBytesRequestedByMac : ℕ
  /-- The sequence numbers that `rlc_am_ack_pdu` got. -/
  acked : List ℕ
  /-- What `rlc_data_conf` got. -/
  dataConf : List ℕ

/-- `rlc_am_init`. -/
def AmTransmitter.init : AmTransmitter :=
  ⟨0, fun _ ↦ .zero, 0, 0, 0, 0, fun _ ↦ .zero, 0, 0, false, 0, rlcAmWindowSize, 0, 0,
    ⟨0, 0, 0, false, false⟩, 0, 0, 0, 0, 0, [], []⟩

/-- `nack_sn_t`, with the widths of its fields. -/
structure Nack where
  nackSn : ℕ
  e1 : Bool
  e2 : Bool
  soStart : ℕ
  soEnd : ℕ
  nackSn_lt : nackSn < 2 ^ 10
  soStart_lt : soStart < 2 ^ 15
  soEnd_lt : soEnd < 2 ^ 15
  deriving DecidableEq, Repr

/-- `memset` of an entry of `nack_list`. -/
def Nack.zero : Nack := ⟨0, false, false, 0, 0, by decide, by decide, by decide⟩

theorem Nack.allBytes_lt : 0x7FFF < 2 ^ 15 := by decide

/-- `rlc_am_control_pdu_info_t` of a STATUS PDU, with the first `num_nack` of `nack_list`. -/
structure ControlPduInfo where
  ackSn : ℕ
  e1 : Bool
  nackList : List Nack
  ackSn_lt : ackSn < 2 ^ 10
  deriving DecidableEq, Repr

/-- What `rlc_am_nack_pdu` does to the slot of a PDU. -/
inductive NackOutcome
  /-- An assertion fails. -/
  | abort
  | refused
  | accepted (pdu : AmTxPdu) (increment : Bool) (pduDataToRetx : ℕ)

namespace AmTxPdu

/-- `again` says that the NACK before was for the same PDU. -/
def takeNack (again : Bool) (soStart soEnd : ℕ) (p : AmTxPdu) : NackOutcome :=
  if p.memBlock.isNone then .refused
  else if ¬soStart ≤ soEnd then .abort
  else if soStart = 0 ∧ soEnd = rlcAmStatusPduSoEndAllBytes then
    if ¬again ∧ ¬p.ack ∧ ¬p.maxRetransmit then
      if 0 < p.payloadSize then
        .accepted
          { p with nackSoStart := 0, holes := [], retxHoleIndex := 0, nackSoStop := p.payloadSize - 1 }
          (¬p.retransmit ∨ p.nackSoStart ≠ 0) p.payloadSize
      else .abort
    else .refused
  else if ¬p.maxRetransmit then
    let soEnd := if soEnd = rlcAmStatusPduSoEndAllBytes then p.payloadSize - 1 else soEnd
    if soStart ≤ soEnd ∧ soEnd < p.payloadSize then
      if ¬again then
        .accepted
          { p with
            holes := [(soStart, soEnd)]
            retxHoleIndex := 0
            nackSoStart := soStart
            nackSoStop := soEnd }
          (¬p.retransmit ∨ soStart < p.nackSoStart) (soEnd - soStart + 1)
      else
        match p.holes.getLast? with
        | some (_, stop) =>
          if p.holes.length < rlcAmMaxHolesReportPerPdu ∧ stop < soStart then
            .accepted { p with holes := p.holes ++ [(soStart, soEnd)], nackSoStop := soEnd } false
              (soEnd - soStart + 1)
          else .refused
        | none => .refused
    else .refused
  else .refused

/-- The slot of a PDU that is to be sent again, the bytes that are added to
`retrans_num_bytes_to_retransmit`, and the PDUs that are added to `retrans_num_pdus`. -/
def schedule (again increment : Bool) (pduDataToRetx : ℕ) (p : AmTxPdu) : AmTxPdu × ℤ × ℤ :=
  let p :=
    { p with
      nack := true
      retxCountNext :=
        if increment ∧ p.retxCount = p.retxCountNext then p.retxCountNext + 1 else p.retxCountNext }
  if p.retransmit then
    if ¬again then ({ p with retxPayloadSize := pduDataToRetx }, pduDataToRetx - p.retxPayloadSize, 0)
    else if p.holes.length > 1 then
      ({ p with retxPayloadSize := p.retxPayloadSize + pduDataToRetx }, pduDataToRetx, 0)
    else (p, 0, 0)
  else ({ p with retransmit := true, retxPayloadSize := pduDataToRetx }, pduDataToRetx, 1)

end AmTxPdu

namespace AmTransmitter

def setPdu (sn : ℕ) (p : AmTxPdu) (s : AmTransmitter) : AmTransmitter :=
  { s with txDataPduBuffer := update s.txDataPduBuffer (sn % rlcAmWindowSize) p }

def setSdu (index : ℕ) (sdu : AmTxSdu) (s : AmTransmitter) : AmTransmitter :=
  { s with inputSdus := update s.inputSdus index sdu }

/-- `rlc_am_nack_pdu`; `none` if an assertion fails. -/
def nackPdu (sn prevNackSn soStart soEnd : ℕ) (s : AmTransmitter) : Option (AmTransmitter × Bool) :=
  match (s.txDataPduBuffer (sn % rlcAmWindowSize)).takeNack (prevNackSn = sn) soStart soEnd with
  | .abort => none
  | .refused => some (s, false)
  | .accepted p increment pduDataToRetx =>
    let (p, bytes, pdus) := p.schedule (prevNackSn = sn) increment pduDataToRetx
    some ({ s with
      retransNumBytesToRetransmit := s.retransNumBytesToRetransmit + bytes
      retransNumPdus := s.retransNumPdus + pdus }.setPdu sn p, true)

/-- `rlc_am_ack_pdu`; `none` if an assertion fails. -/
def ackPdu (sn : ℕ) (freePdu : Bool) (s : AmTransmitter) : Option AmTransmitter :=
  let p := s.txDataPduBuffer (sn % rlcAmWindowSize)
  let s := { s with acked := s.acked ++ [sn] }
  let acknowledged := { p with ack := true, transmitted := false, retransmit := false }
  if p.memBlock.isSome then
    let acknowledged := if freePdu then { acknowledged with memBlock := none } else acknowledged
    if p.retxPayloadSize ≠ 0 then
      if p.ack then none
      else
        some ({ s with
          retransNumBytesToRetransmit := s.retransNumBytesToRetransmit - p.retxPayloadSize
          retransNumPdus := s.retransNumPdus - 1 }.setPdu sn
            { acknowledged with retxPayloadSize := 0, holes := [] })
    else some (s.setPdu sn acknowledged)
  else some (s.setPdu sn acknowledged)

/-- The loop that moves `current_sdu_index` over SDUs that have been transmitted. -/
def skipTransmitted : ℕ → AmTransmitter → Option AmTransmitter
  | 0, _ => none
  | fuel + 1, s =>
    if s.currentSduIndex ≠ s.nextSduIndex ∧ (s.inputSdus s.currentSduIndex).transmittedSuccessfully then
      skipTransmitted fuel
        { s with currentSduIndex := (s.currentSduIndex + 1) % rlcAmSduControlBufferSize }
    else some s

/-- `rlc_am_free_in_sdu`; `none` if its assertion fails or its loop does not end. -/
def freeInSdu (index : ℕ) (s : AmTransmitter) : Option AmTransmitter :=
  if index ≤ rlcAmSduControlBufferSize then
    if (s.inputSdus index).memBlock.isSome then none
    else
      let s := { s with nbSdu := s.nbSdu - 1 }.setSdu index
        { AmTxSdu.zero with transmittedSuccessfully := true }
      let s := if s.currentSduIndex = index then
          { s with currentSduIndex := (s.currentSduIndex + 1) % rlcAmSduControlBufferSize }
        else s
      s.skipTransmitted (rlcAmSduControlBufferSize + 1)
  else some s

/-- An SDU that has a segment in an acknowledged PDU. -/
def confirmSegment (index : ℕ) (s : AmTransmitter) : Option AmTransmitter :=
  if index < rlcAmSduControlBufferSize then
    let sdu := s.inputSdus index
    let sdu := { sdu with nbPdusAck := sdu.nbPdusAck + 1 }
    let s := s.setSdu index sdu
    if sdu.nbPdusAck = sdu.nbPdus ∧ sdu.sduRemainingSize = 0 then
      { s with dataConf := s.dataConf ++ [sdu.mui] }.freeInSdu index
    else some s
  else none

/-- `rlc_am_pdu_sdu_data_cnf`; `none` if an assertion fails. -/
def pduSduDataCnf (sn : ℕ) (s : AmTransmitter) : Option AmTransmitter :=
  let p := s.txDataPduBuffer (sn % rlcAmWindowSize)
  (p.sdusIndex.take p.nbSdus.toNat).foldlM (fun s index ↦ s.confirmSegment index) s

def stopAndResetTimerPollRetransmit (s : AmTransmitter) : AmTransmitter :=
  { s with tPollRetransmit := ⟨0, 0, s.tPollRetransmit.msDuration, false, false⟩ }

end AmTransmitter

end EdgeSlice.Rlc

namespace EdgeSlice.Rlc.AmTransmitter

/-- The loop that acknowledges the PDUs before `target`; `none` if an assertion fails or the loop
does not end. -/
def ackUpTo (target : ℕ) : ℕ → ℕ → AmTransmitter → Option AmTransmitter
  | 0, _, _ => none
  | fuel + 1, snCursor, s =>
    if snCursor ≠ target then do
      let s ← s.ackPdu snCursor true
      ackUpTo target fuel (amNextSn snCursor) s
    else some s

/-- The loop from the first NACK_SN to ACK_SN with the NACKs from `nack_index` on. -/
def nackLoop (ackSn : ℕ) : ℕ → ℕ → ℕ → ℕ → List Nack → AmTransmitter → Option (AmTransmitter × Bool)
  | 0, _, _, _, _, _ => none
  | fuel + 1, snCursor, nackSn, prevNackSn, nacks, s =>
    if snCursor ≠ ackSn then
      if snCursor ≠ nackSn then do
        let s ← s.ackPdu snCursor false
        let snCursor := if prevNackSn ≠ nackSn then (snCursor + 1) &&& 0x3FF else snCursor
        nackLoop ackSn fuel snCursor nackSn prevNackSn nacks s
      else do
        let nack := nacks.headD .zero
        let (s, status) ← s.nackPdu nackSn prevNackSn nack.soStart nack.soEnd
        if ¬status then some (s, false)
        else
          let prevNackSn := nackSn
          match nacks.tail with
          | next :: nacks =>
            let nackSn := next.nackSn
            let snCursor := if prevNackSn ≠ nackSn then (snCursor + 1) &&& 0x3FF else snCursor
            nackLoop ackSn fuel snCursor nackSn prevNackSn (next :: nacks) s
          | [] =>
            if nackSn ≠ ackSn then
              let snCursor := if prevNackSn ≠ ackSn then (snCursor + 1) &&& 0x3FF else snCursor
              nackLoop ackSn fuel snCursor ackSn prevNackSn [] s
            else some (s, true)
    else some (s, true)

/-- The loop that confirms the SDUs of the PDUs before `target`. -/
def confirmUpTo (target : ℕ) : ℕ → ℕ → AmTransmitter → Option AmTransmitter
  | 0, _, _ => none
  | fuel + 1, snCursor, s =>
    if snCursor ≠ target then do
      let s ← s.pduSduDataCnf snCursor
      confirmUpTo target fuel (amNextSn snCursor) s
    else some s

/-- `sn_data_cnf` and `data_cnf_so_stop` for the first NACK_SN. -/
def lastConfirmed (nackSn : ℕ) (s : AmTransmitter) : ℕ × ℕ :=
  let p := s.txDataPduBuffer (nackSn % rlcAmWindowSize)
  if p.retxPayloadSize = p.payloadSize then (amPrevSn nackSn, 0x7FFF)
  else if p.nackSoStart ≠ 0 then (nackSn, p.nackSoStart - 1)
  else (amPrevSn nackSn, 0x7FFF)

/-- The poll is answered if `ack_sn` is behind it. -/
def stopPoll (ackSn : ℕ) (s : AmTransmitter) : AmTransmitter :=
  if s.pollSn ≠ rlcSnUndefined ∧ amDiffSn ackSn s.vtA > amDiffSn s.pollSn s.vtA then
    { s.stopAndResetTimerPollRetransmit with pollSn := rlcSnUndefined }
  else s

/-- The confirmation of SDUs for a report. -/
def confirmSdus (snDataCnf dataCnfSoStop : ℕ) (s : AmTransmitter) : Option AmTransmitter :=
  let p := s.txDataPduBuffer (snDataCnf % rlcAmWindowSize)
  if p.transmitted ∧ p.sn = snDataCnf then do
    let s ← s.confirmUpTo snDataCnf 1025 s.vtA
    if dataCnfSoStop = 0x7FFF then s.pduSduDataCnf snDataCnf else some s
  else some s

/-- What is done with a STATUS PDU that has been accepted. -/
def acceptStatus (ackSn vtANew snDataCnf dataCnfSoStop : ℕ) (s : AmTransmitter) : Option AmTransmitter := do
  let s ← (s.stopPoll ackSn).confirmSdus snDataCnf dataCnfSoStop
  return { s with vtA := vtANew, vtMs := (vtANew + rlcAmWindowSize) &&& 0x3FF }

/-- `rlc_am_receive_process_control_pdu` for what `rlc_am_get_control_pdu_infos` has decoded;
`none` if an assertion fails or a loop does not end. -/
def receiveProcessControlPdu (info : Option ControlPduInfo) (s : AmTransmitter) : Option AmTransmitter :=
  match info with
  | none => some s
  | some info =>
    if ¬info.nackList.length < rlcAmMaxNackInStatusPdu then none
    else if amDiffSn s.vtS s.vtA ≥ amDiffSn info.ackSn s.vtA then
      match info.nackList with
      | [] => do
        let s ← s.ackUpTo info.ackSn 1025 s.vtA
        s.acceptStatus info.ackSn info.ackSn (amPrevSn info.ackSn) 0x7FFF
      | nack :: nacks => do
        let s ← s.ackUpTo nack.nackSn 1025 s.vtA
        let (snDataCnf, dataCnfSoStop) := s.lastConfirmed nack.nackSn
        let (s, status) ← s.nackLoop info.ackSn (1025 + (nack :: nacks).length) nack.nackSn nack.nackSn
          0x3FFF (nack :: nacks)
        if status then s.acceptStatus info.ackSn nack.nackSn snDataCnf dataCnfSoStop else some s
    else some s

end EdgeSlice.Rlc.AmTransmitter
