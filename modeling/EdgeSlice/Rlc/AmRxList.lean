import EdgeSlice.CInteger
import EdgeSlice.Rlc.AmStatus

namespace EdgeSlice.Rlc

/-- `RLC_AM_HEADER_LI_LENGTH`. -/
def amHeaderLiLength (li : ℕ) : ℕ := li + (li >>> 1) + (li &&& 1)

def rlcAmPduSegmentHeaderMinSize : ℕ := 4

/-- `RLC_AM_PDU_SEGMENT_HEADER_SIZE`. -/
def amPduSegmentHeaderSize (numLis : ℕ) : ℕ := rlcAmPduSegmentHeaderMinSize + amHeaderLiLength numLis

/-- `rlc_am_rx_segment_reassemble_info_t`. -/
inductive AmReassembleInfo
  | no
  | pending
  | reassembled
  deriving DecidableEq, Repr

/-- `rlc_am_rx_pdu_status_t`. -/
inductive AmRxPduStatus
  | ok
  | snOutsideWindow
  | snDuplicate
  | amSegmentDuplicate
  | bufferFull
  | headerError
  deriving DecidableEq, Repr

/-- A block of the receive list. -/
structure AmRxBlock extends AmRxPdu where
  segmentReassembled : AmReassembleInfo
  /-- The bytes `payload` points to. -/
  data : Bytes
  deriving DecidableEq, Repr

/-- `rlc_am_entity_t`, as far as its receiving side uses it. -/
structure AmRxEntity where
  receiverBuffer : List AmRxBlock
  vrR : ℕ
  vrMr : ℕ
  vrX : ℕ
  vrMs : ℕ
  vrH : ℕ
  tReordering : AmTimer
  statusRequested : ℕ
  /-- An `rlc_sn_t`, which is signed. -/
  snStatusTriggeredDelayed : ℤ
  /-- What `rlc_am_reassemble_pdu` got. -/
  reassembled : List AmRxBlock

/-- What becomes of a received block. -/
inductive AmInsertion
  | placed (before : List AmRxBlock) (tb : AmRxBlock) (after : List AmRxBlock)
  /-- A part of it has been copied to the list, and it is freed. -/
  | copied (receiverBuffer : List AmRxBlock)
  | refused (status : AmRxPduStatus)
  deriving DecidableEq, Repr

namespace AmRxBlock

def sn (p : AmRxBlock) : ℕ := p.pduInfo.sn

/-- The offset of the first byte. -/
def so (p : AmRxBlock) : ℤ := p.pduInfo.so

/-- The offset behind the last byte. -/
def stop (p : AmRxBlock) : ℤ := p.pduInfo.so + p.pduInfo.payloadSize

/-- The loop over the LIs before `so_offset`, with `li_sum` and the LIs that are left. -/
def skipLis (soOffset : ℕ) : ℕ → List ℕ → ℕ × List ℕ
  | liSum, [] => (liSum, [])
  | liSum, li :: lis => if liSum + li ≤ soOffset then skipLis soOffset (liSum + li) lis else (liSum, li :: lis)

/-- The loop over the further LIs, with the remaining size and the LIs that fit. -/
def takeLis : ℤ → List ℕ → ℤ × List ℕ
  | remainingSize, [] => (remainingSize, [])
  | remainingSize, li :: lis =>
    if remainingSize ≥ li then
      let (remainingSize, newLis) := takeLis (remainingSize - li) lis
      (remainingSize, li :: newLis)
    else (remainingSize, [])

/-- `create_new_segment_from_pdu`. -/
def createNewSegmentFromPdu (tb : AmRxBlock) (soOffset : ℕ) (dataLengthToCopy : ℤ) : AmRxBlock :=
  let info := tb.pduInfo
  let fiStart := (info.fi &&& 0x2) >>> 1 = 0
  let fiEnd := info.fi &&& 0x1 = 0
  let atEnd := soOffset + dataLengthToCopy = info.payloadSize
  let lsf := (info.lsf ∨ ¬info.rf) ∧ atEnd
  let (fiStart, fiEnd, newLiList) :=
    if info.liList = [] then (decide (fiStart ∧ soOffset = 0), decide (fiEnd ∧ atEnd), [])
    else
      let (liSum, lis) := skipLis soOffset 0 info.liList
      let fiStart := fiStart ∨ lis.length < info.liList.length ∧ soOffset = liSum
      match lis with
      | [] => (decide fiStart, decide fiEnd, [])
      | li :: lis =>
        let first := liSum + li - soOffset
        if dataLengthToCopy ≤ first then (decide fiStart, decide fiEnd, [])
        else
          let (remainingSize, newLis) := takeLis (dataLengthToCopy - first) lis
          (decide fiStart, decide (fiEnd ∨ remainingSize = 0), first :: newLis)
  let headerSize := if info.liList = [] then rlcAmPduSegmentHeaderMinSize else amPduSegmentHeaderSize newLiList.length
  { pduInfo :=
      { dC := info.dC
        rf := true
        p := info.p
        fi := (if fiStart then 0 else 2) ||| if fiEnd then 0 else 1
        e := newLiList ≠ []
        sn := info.sn
        lsf := lsf
        so := (info.so + soOffset) % 2 ^ 15
        liList := newLiList
        hiddenSize := int16 (dataLengthToCopy - newLiList.sum)
        payload := headerSize
        payloadSize := int16 dataLengthToCopy
        headerSize := headerSize }
    allSegmentsReceived := false
    segmentReassembled := .no
    data := (tb.data.drop soOffset).take dataLengthToCopy.toNat }

/-- The loop over the segments that follow one another from `soEnd` on, with their end and the list
behind them. -/
def spanContiguous (wrap : ℤ → ℤ) (sn : ℕ) : ℤ → List AmRxBlock → ℤ × List AmRxBlock × List AmRxBlock
  | soEnd, [] => (soEnd, [], [])
  | soEnd, p :: cursor =>
    if p.sn = sn ∧ p.so = soEnd then
      let (soEnd, run, rest) := spanContiguous wrap sn (wrap (soEnd + p.pduInfo.payloadSize)) cursor
      (soEnd, p :: run, rest)
    else (soEnd, [], p :: cursor)

/-- The loop that removes the segments that end at `soEnd` or before. -/
def discardEmbedded (sn soEnd : ℕ) (cursor : List AmRxBlock) : List AmRxBlock :=
  cursor.dropWhile fun p ↦ p.sn = sn ∧ p.stop - 1 ≤ soEnd

/-- The end of a segment without the bytes that the list holds. -/
def trimEnd (sn soEnd : ℕ) : List AmRxBlock → ℕ
  | [] => soEnd
  | p :: _ => if p.sn = sn ∧ p.so ≤ soEnd then uint16 (p.so - 1) else soEnd

/-- `list2_insert_after_element`, or `list2_insert_before_element` at the head; `none` if the assertion
that there is such an element fails. -/
def link (tb : AmRxBlock) (before after : List AmRxBlock) : Option AmInsertion :=
  if before = [] ∧ after = [] then none else some (.placed before tb after)

/-- The last step for a segment of which duplicate bytes have been removed; `none` if an assertion
fails. -/
def linkTruncated (tb : AmRxBlock) (soStart soEnd : ℕ) (before after : List AmRxBlock) : Option AmInsertion :=
  if tb.so ≠ soStart ∨ soEnd ≠ tb.stop - 1 then
    if before = [] ∧ after = [] then none
    else
      some (.copied (before ++
        tb.createNewSegmentFromPdu (uint16 (soStart - tb.so)) (soEnd - soStart + 1) :: after))
  else none

/-- The segment has duplicate bytes only at its end. -/
def insertBefore (tb : AmRxBlock) (before cursor : List AmRxBlock) : Option AmInsertion :=
  let soStart := tb.pduInfo.so
  let soEnd := uint16 (tb.stop - 1)
  let cursor := discardEmbedded tb.sn soEnd cursor
  let soEnd := trimEnd tb.sn soEnd cursor
  if soStart ≤ soEnd ∧ soEnd ≤ tb.stop - 1 then tb.linkTruncated soStart soEnd before cursor else none

/-- The segment does not begin before the first one of its PDU. -/
def insertBehind (tb : AmRxBlock) (before : List AmRxBlock) (first : AmRxBlock) (next : List AmRxBlock) :
    Option AmInsertion :=
  let soStart := tb.pduInfo.so
  let soEnd := uint16 (tb.stop - 1)
  let earlier (p : AmRxBlock) : Bool := p.sn = tb.sn ∧ p.stop ≤ soStart
  let passed := (first :: next).takeWhile earlier
  let cursor := (first :: next).dropWhile earlier
  let (upTo, rest) := if passed.isEmpty then ([first], next) else (passed, cursor)
  if cursor.head?.all fun p ↦ p.sn ≠ tb.sn ∨ (soEnd : ℤ) < p.so then tb.link (before ++ upTo) rest
  else
    let previous := upTo.getLast?.getD first
    let (contiguousEnd, run, rest) := spanContiguous (fun x ↦ uint16 x) tb.sn (uint16 previous.stop) rest
    if previous.so ≤ soStart ∧ soEnd ≤ contiguousEnd - 1 then some (.refused .amSegmentDuplicate)
    else
      let previous := run.getLast?.getD previous
      let cursor := discardEmbedded tb.sn soEnd rest
      let soStart :=
        if (soStart : ℤ) < previous.so then uint16 previous.stop
        else if soStart < previous.stop then uint16 previous.stop
        else soStart
      let soEnd := trimEnd tb.sn soEnd cursor
      if soStart ≤ soEnd ∧ tb.so ≤ soStart ∧ soEnd ≤ tb.stop - 1 then
        tb.linkTruncated soStart soEnd (before ++ (upTo ++ run)) cursor
      else none

end AmRxBlock

namespace AmRxEntity

open AmRxBlock

def offset (e : AmRxEntity) (sn : ℕ) : ℕ := amDiffSn sn e.vrR

/-- The list before the first block whose SN is not before `sn`, and the list from there on. -/
def split (sn : ℕ) (e : AmRxEntity) : List AmRxBlock × List AmRxBlock :=
  e.receiverBuffer.span fun p ↦ e.offset p.sn < e.offset sn

/-- `rlc_am_rx_list_handle_pdu_segment`; `none` if an assertion fails. -/
def rxListHandlePduSegment (tb : AmRxBlock) (e : AmRxEntity) : Option AmInsertion :=
  let soStart := tb.pduInfo.so
  let soEnd := uint16 (tb.stop - 1)
  let (before, cursor) := e.split tb.sn
  match cursor with
  | [] => tb.link before []
  | first :: next =>
    if first.sn ≠ tb.sn then tb.link before cursor
    else if first.allSegmentsReceived then some (.refused .amSegmentDuplicate)
    else if (cursor.takeWhile fun p ↦ p.sn = tb.sn).any fun p ↦ p.so ≤ soStart ∧ soEnd ≤ p.stop - 1 then
      some (.refused .amSegmentDuplicate)
    else if first.so = 0 then tb.insertBehind before first next
    else if soEnd < first.so then tb.link before cursor
    else if soStart < first.so then tb.insertBefore before cursor
    else tb.insertBehind before first next

/-- `rlc_am_rx_list_handle_pdu`; `none` if an assertion fails. -/
def rxListHandlePdu (tb : AmRxBlock) (e : AmRxEntity) : Option AmInsertion :=
  let (before, cursor) := e.split tb.sn
  match cursor with
  | [] => tb.link before []
  | first :: _ =>
    if first.sn ≠ tb.sn then tb.link before cursor
    else if first.allSegmentsReceived then some (.refused .snDuplicate)
    else if tb.sn ≠ e.vrR ∨ first.so ≠ 0 then tb.link before (cursor.dropWhile fun p ↦ p.sn = tb.sn)
    else if first.pduInfo.rf then
      let (nextWaitedSo, run, rest) := spanContiguous id tb.sn 0 cursor
      some (.copied (before ++ (run ++
        tb.createNewSegmentFromPdu (uint16 nextWaitedSo) (tb.pduInfo.payloadSize - nextWaitedSo) ::
          rest.dropWhile fun p ↦ p.sn = tb.sn)))
    else none

/-- `rlc_am_rx_list_check_duplicate_insert_pdu`; `none` if an assertion fails. -/
def rxListCheckDuplicateInsertPdu (tb : AmRxBlock) (e : AmRxEntity) : Option AmInsertion :=
  let tb := { tb with segmentReassembled := .no }
  if e.receiverBuffer = [] then some (.placed [] tb [])
  else if tb.pduInfo.rf then e.rxListHandlePduSegment tb
  else e.rxListHandlePdu tb

end AmRxEntity

end EdgeSlice.Rlc
