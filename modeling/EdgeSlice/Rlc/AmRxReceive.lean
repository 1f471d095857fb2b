import EdgeSlice.Rlc.AmRxList
import Mathlib.Data.List.DropRight

namespace EdgeSlice.Rlc

/-- `RLC_AM_STATUS_TRIGGERED_POLL`, `RLC_AM_STATUS_TRIGGERED_T_REORDERING`, `RLC_AM_STATUS_TRIGGERED_DELAYED`. -/
def rlcAmStatusTriggeredPoll : ℕ := 0x01

def rlcAmStatusTriggeredTReordering : ℕ := 0x02

def rlcAmStatusTriggeredDelayed : ℕ := 0x10

/-- `RLC_AM_SN_IN_WINDOW`. -/
def amSnInWindow (sn snref : ℕ) : Bool := amDiffSn sn snref < 1024 >>> 1

/-- `RLC_AM_DIFF_SN` for an `rlc_sn_t`. -/
def amDiffSignedSn (sn : ℤ) (snref : ℕ) : ℕ := ((sn + 1024 - snref) % 1024).toNat

/-- `RLC_SN_UNDEFINED` as an `rlc_sn_t`. -/
def signedSnUndefined : ℤ := int16 rlcSnUndefined

/-- `RLC_AM_GET_STATUS`. -/
def getStatus (x event : ℕ) : Bool := x &&& event ≠ 0

/-- `RLC_AM_CLEAR_STATUS`. -/
def clearStatus (x event : ℕ) : ℕ := x ^^^ (x &&& event)

namespace AmTimer

/-- The times at which a timer is found to have expired. -/
def expired (now : ℕ) (t : AmTimer) : Prop :=
  t.msStart < t.msTimeOut ∧ (now ≥ t.msTimeOut ∨ now < t.msStart) ∨
    t.msStart > t.msTimeOut ∧ now < t.msStart ∧ now ≥ t.msTimeOut

instance (now : ℕ) (t : AmTimer) : Decidable (t.expired now) :=
  inferInstanceAs (Decidable (_ ∨ _))

/-- `rlc_am_stop_and_reset_timer_reordering`. -/
def stopAndReset (t : AmTimer) : AmTimer := ⟨0, 0, t.msDuration, false, false⟩

/-- `rlc_am_start_timer_reordering`. -/
def start (now : ℕ) (t : AmTimer) : AmTimer :=
  if t.running = false ∧ t.msDuration > 0 then
    { t with
      timedOut := false
      running := true
      msTimeOut := (now + t.msDuration) % 2 ^ 32
      msStart := now }
  else { t with timedOut := false }

end AmTimer

namespace AmRxBlock

/-- The block with `all_segments_received` set. -/
def mark (p : AmRxBlock) : AmRxBlock := { p with allSegmentsReceived := true }

/-- `rlc_am_rx_mark_all_segments_received`. -/
def markAllSegmentsReceived (sn : ℕ) (cursor : List AmRxBlock) : List AmRxBlock :=
  (cursor.takeWhile fun p ↦ p.sn = sn).map mark ++ cursor.dropWhile fun p ↦ p.sn = sn

/-- The loop of `rlc_am_rx_check_all_byte_segments` behind the first segment. -/
def allByteSegments (sn : ℕ) : ℤ → ℤ → List AmRxBlock → Bool
  | _, _, [] => false
  | nextWaitedSo, lastEndSo, p :: cursor =>
    if p.sn = sn ∧ p.pduInfo.rf ∧ p.so ≤ lastEndSo ∧ p.so = nextWaitedSo then
      if p.pduInfo.lsf then true
      else allByteSegments sn (nextWaitedSo + p.pduInfo.payloadSize) p.stop cursor
    else false

/-- `rlc_am_rx_check_all_byte_segments` for a block in the list. -/
def checkAllByteSegments (before : List AmRxBlock) (tb : AmRxBlock) (after : List AmRxBlock) :
    List AmRxBlock × AmRxBlock × List AmRxBlock :=
  if tb.pduInfo.rf = false then (before, tb.mark, after)
  else
    let previous := before.rtakeWhile fun p ↦ p.sn = tb.sn
    let first := previous.head?.getD tb
    let cursor := (previous ++ tb :: after).tail
    if first.so = 0 ∧ allByteSegments tb.sn first.pduInfo.payloadSize first.pduInfo.payloadSize cursor then
      (before.rdropWhile (fun p ↦ p.sn = tb.sn) ++ previous.map mark, tb.mark,
        markAllSegmentsReceived tb.sn after)
    else (before, tb, after)

/-- `rlc_am_rx_update_vr_ms`. -/
def updateVrMs (vrH : ℕ) : ℕ → List AmRxBlock → ℕ
  | vrMs, [] => vrMs
  | vrMs, p :: cursor =>
    if p.allSegmentsReceived = false ∨ vrMs ≠ p.sn then vrMs
    else if amNextSn p.sn ≠ vrH then updateVrMs vrH (amNextSn p.sn) cursor
    else amNextSn p.sn

/-- `rlc_am_rx_update_vr_r`. -/
def updateVrR : ℕ → List AmRxBlock → ℕ
  | vrR, [] => vrR
  | vrR, p :: cursor =>
    if p.allSegmentsReceived = false ∨ vrR ≠ p.sn then vrR
    else if p.pduInfo.rf = false ∨ p.pduInfo.lsf then updateVrR ((vrR + 1) &&& 0x3FF) cursor
    else updateVrR vrR cursor

/-- The loop that selects the first segments of a PDU for reassembly, and whether one of them is new. -/
def setPending (sn : ℕ) : ℤ → List AmRxBlock → List AmRxBlock × Bool
  | _, [] => ([], false)
  | nextWaitedSo, p :: cursor =>
    if p.sn = sn ∧ p.so = nextWaitedSo then
      let (cursor, reassemble) := setPending sn (nextWaitedSo + p.pduInfo.payloadSize) cursor
      if p.segmentReassembled = .no then ({ p with segmentReassembled := .pending } :: cursor, true)
      else (p :: cursor, reassemble)
    else (p :: cursor, false)

/-- `rlc_am_rx_check_vr_reassemble`; `none` if an assertion fails. -/
def rxCheckVrReassemble (vrR : ℕ) (receiverBuffer : List AmRxBlock) : Option (List AmRxBlock × Bool) :=
  match receiverBuffer with
  | [] => some ([], false)
  | head :: _ =>
    if head.sn ≠ vrR then
      if head.pduInfo.rf ∧ head.allSegmentsReceived = false then none
      else
        let list := if head.pduInfo.rf then (setPending head.sn 0 receiverBuffer).1 else receiverBuffer
        let (passed, cursor) := list.span fun p ↦ amDiffSn p.sn head.sn < amDiffSn vrR head.sn
        match cursor with
        | [] => some (list, true)
        | p :: _ =>
          if p.sn = vrR then
            if p.allSegmentsReceived then none else some (passed ++ (setPending vrR 0 cursor).1, true)
          else some (list, true)
    else if head.allSegmentsReceived then none
    else some (setPending vrR 0 receiverBuffer)

/-- The condition of the loop of `rlc_am_rx_list_reassemble_rlc_sdus`. -/
def goesOn (old p : AmRxBlock) : Bool :=
  amDiffSn p.sn old.sn < 2 ∧ old.allSegmentsReceived ∨ p.sn = old.sn ∧ p.segmentReassembled ≠ .no

/-- The loop of `rlc_am_rx_list_reassemble_rlc_sdus`, with the blocks before the cursor, the list from
there on and the blocks that `rlc_am_reassemble_pdu` gets. -/
def reassembleLoop : ℕ → List AmRxBlock → List AmRxBlock → List AmRxBlock → List AmRxBlock × List AmRxBlock
  | 0, passed, rest, reassembled => (passed ++ rest, reassembled)
  | _, passed, [], reassembled => (passed, reassembled)
  | fuel + 1, passed, p :: rest, reassembled =>
    if p.allSegmentsReceived then
      -- the head of the list is removed, wherever the cursor is
      let head := passed.head?.getD p
      let list := (passed ++ p :: rest).tail
      if list.head?.all fun q ↦ goesOn p q = false then (list, reassembled ++ [head])
      else reassembleLoop fuel [] list (reassembled ++ [head])
    else if p.segmentReassembled = .no then (passed ++ p :: rest, reassembled)
    else
      let reassembled := if p.segmentReassembled = .pending then reassembled ++ [p] else reassembled
      let p := { p with segmentReassembled := .reassembled }
      if rest.head?.all fun q ↦ goesOn p q = false then (passed ++ p :: rest, reassembled)
      else reassembleLoop fuel (passed ++ [p]) rest reassembled

/-- `rlc_am_rx_list_reassemble_rlc_sdus`. -/
def rxListReassembleRlcSdus (receiverBuffer : List AmRxBlock) : List AmRxBlock × List AmRxBlock :=
  let turns := (receiverBuffer.length + 1) * (receiverBuffer.length + 1)
  match receiverBuffer with
  | [] => ([], [])
  | head :: _ =>
    if head.allSegmentsReceived ∧ head.pduInfo.rf then
      let cursor := receiverBuffer.dropWhile fun p ↦ p.segmentReassembled = .reassembled ∧ p.sn = head.sn
      match cursor with
      | [] => ([], [])
      | p :: _ => if amDiffSn p.sn head.sn > 1 then (cursor, []) else reassembleLoop turns [] cursor []
    else reassembleLoop turns [] receiverBuffer []

end AmRxBlock

namespace AmRxEntity

open AmRxBlock

/-- The part of `rlc_am_receive_process_data_pdu` that requests STATUS PDUs. -/
def triggerStatus (tb : AmRxBlock) (pduStatus : AmRxPduStatus) (e : AmRxEntity) : AmRxEntity :=
  let clear (e : AmRxEntity) : AmRxEntity :=
    { e with
      statusRequested := clearStatus e.statusRequested rlcAmStatusTriggeredDelayed
      snStatusTriggeredDelayed := signedSnUndefined }
  let e :=
    if tb.pduInfo.p ∧ (pduStatus ≠ .bufferFull ∧ pduStatus ≠ .headerError) ∧
        (getStatus e.statusRequested rlcAmStatusTriggeredDelayed ∨
          ¬getStatus e.statusRequested (rlcAmStatusTriggeredPoll ||| rlcAmStatusTriggeredTReordering)) then
      let e := { e with statusRequested := e.statusRequested ||| rlcAmStatusTriggeredPoll }
      if pduStatus ≠ .ok ∨ ¬amSnInWindow tb.sn e.vrR ∨ amDiffSn tb.sn e.vrR < amDiffSn e.vrMs e.vrR then clear e
      else if e.snStatusTriggeredDelayed = rlcSnUndefined then
        { e with
          statusRequested := e.statusRequested ||| rlcAmStatusTriggeredDelayed
          snStatusTriggeredDelayed := tb.sn }
      else e
    else e
  if getStatus e.statusRequested rlcAmStatusTriggeredDelayed ∧ pduStatus = .ok ∧
      (¬amDiffSignedSn e.snStatusTriggeredDelayed e.vrR < 1024 >>> 1 ∨
        amDiffSignedSn e.snStatusTriggeredDelayed e.vrR < amDiffSn e.vrMs e.vrR) then
    clear e
  else e

/-- A STATUS PDU is requested without delay. -/
def requestReport (e : AmRxEntity) : AmRxEntity :=
  { e with
    statusRequested :=
      clearStatus (e.statusRequested ||| rlcAmStatusTriggeredTReordering) rlcAmStatusTriggeredDelayed
    snStatusTriggeredDelayed := signedSnUndefined }

/-- t-Reordering is stopped and started, as `rlc_am_receive_process_data_pdu` does it. -/
def reorder (now : ℕ) (e : AmRxEntity) : AmRxEntity :=
  let e :=
    if (e.tReordering.running ∨ e.tReordering.msDuration = 0 ∧ e.vrX ≠ rlcSnUndefined) ∧
        (e.vrX = e.vrR ∨ ¬amSnInWindow e.vrX e.vrR ∧ e.vrX ≠ e.vrMr) then
      { e with tReordering := e.tReordering.stopAndReset, vrX := rlcSnUndefined }
    else e
  if e.tReordering.running = false ∧ e.vrH ≠ e.vrR then
    if e.tReordering.msDuration ≠ 0 then { e with vrX := e.vrH, tReordering := e.tReordering.start now }
    else requestReport { e with vrX := e.vrH, vrMs := e.vrH }
  else e

/-- `rlc_am_receive_process_data_pdu` behind the check of all byte segments of `tb`, with the blocks that
follow `tb`; `none` if an assertion fails. -/
def accept (now : ℕ) (tb : AmRxBlock) (next receiverBuffer : List AmRxBlock) (e : AmRxEntity) :
    Option AmRxEntity :=
  let vrH := if amDiffSn tb.sn e.vrR ≥ amDiffSn e.vrH e.vrR then amNextSn tb.sn else e.vrH
  let vrMs :=
    if tb.sn = e.vrMs ∧ tb.allSegmentsReceived then updateVrMs vrH e.vrMs (tb :: next) else e.vrMs
  if tb.sn = e.vrR then
    let (vrR, vrMr) :=
      if tb.allSegmentsReceived then
        let vrR := updateVrR e.vrR (tb :: next)
        (vrR, (vrR + rlcAmWindowSize) &&& 0x3FF)
      else (e.vrR, e.vrMr)
    (rxCheckVrReassemble vrR receiverBuffer).map fun (list, reassemble) ↦
      let e := { e with receiverBuffer := list, vrH := vrH, vrMs := vrMs, vrR := vrR, vrMr := vrMr }
      let e := (e.reorder now).triggerStatus tb .ok
      if reassemble then
        let (list, reassembled) := rxListReassembleRlcSdus e.receiverBuffer
        { e with receiverBuffer := list, reassembled := e.reassembled ++ reassembled }
      else e
  else
    some (({ e with receiverBuffer := receiverBuffer, vrH := vrH, vrMs := vrMs }.reorder now).triggerStatus tb .ok)

/-- `rlc_am_receive_process_data_pdu` for a block with a decoded header, at the time `now`; `none` if an
assertion fails. -/
def receiveProcessDataPdu (now : ℕ) (tb : AmRxBlock) (e : AmRxEntity) : Option AmRxEntity :=
  let tb := { tb with allSegmentsReceived := false }
  if amSnInWindow tb.sn e.vrR then
    match e.rxListCheckDuplicateInsertPdu tb with
    | none => none
    | some (.refused status) => some (e.triggerStatus tb status)
    | some (.placed before tb after) =>
      let (before, tb, after) := checkAllByteSegments before tb after
      e.accept now tb after (before ++ tb :: after)
    | some (.copied list) =>
      -- what is done to the block from here on is done to a freed one, which no other block follows
      e.accept now (if tb.pduInfo.rf = false then tb.mark else tb) [] list
  else some (e.triggerStatus tb .snOutsideWindow)

/-- The loop of `rlc_am_check_timer_reordering` that looks for the first PDU that is not complete. -/
def skipComplete (vrH : ℕ) : ℕ → List AmRxBlock → ℕ
  | vrMsNew, [] => vrMsNew
  | vrMsNew, p :: cursor =>
    if vrMsNew ≠ vrH ∧ p.sn = vrMsNew ∧ p.allSegmentsReceived then
      skipComplete vrH (if p.pduInfo.rf = false ∨ p.pduInfo.lsf then amNextSn vrMsNew else vrMsNew) cursor
    else vrMsNew

/-- `rlc_am_check_timer_reordering` at the time `now`; `none` if an assertion fails. -/
def checkTimerReordering (now : ℕ) (e : AmRxEntity) : Option AmRxEntity :=
  if e.tReordering.running ∧ e.tReordering.expired now then
    if e.vrX = rlcSnUndefined ∨ e.receiverBuffer = [] then none
    else
      let cursor := e.receiverBuffer.dropWhile fun p ↦ amDiffSn p.sn e.vrR < amDiffSn e.vrX e.vrR
      let vrMs := skipComplete e.vrH e.vrX cursor
      let tReordering := { e.tReordering with running := false, timedOut := true }
      let e :=
        if vrMs ≠ e.vrH then
          { e with
            vrMs := vrMs
            vrX := e.vrH
            tReordering := { tReordering with msTimeOut := (now + tReordering.msDuration) % 2 ^ 32 } }
        else { e with vrMs := vrMs, tReordering := tReordering }
      some e.requestReport
  else some e

end AmRxEntity

end EdgeSlice.Rlc
