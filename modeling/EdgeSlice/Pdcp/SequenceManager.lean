import EdgeSlice.SplitCounter

namespace EdgeSlice.Pdcp

/-- `rlc_mode_t`. -/
inductive RlcMode
  | none | am | um | tm
  deriving DecidableEq

/-- `pdcp_t`, as far as numbering and security read it. -/
structure Entity where
  isUe : Bool
  cipheringAlgorithm : UInt8
  integrityProtAlgorithm : UInt8
  kUPenc : List UInt8
  kRRCint : List UInt8
  kRRCenc : List UInt8
  securityActivated : UInt8
  rlcMode : RlcMode
  seqNumSize : UInt8
  nextPdcpTxSn : UInt16
  nextPdcpRxSn : UInt16
  nextPdcpRxSnBeforeIntegrity : UInt16
  txHfn : UInt32
  rxHfn : UInt32
  rxHfnOffset : Int16
  lastSubmittedPdcpRxSn : UInt16
  deriving DecidableEq

/-- The difference of two sequence numbers, an `int`. -/
def diff (a b : UInt16) : ℤ := a.toNat - b.toNat

def calculateMaxSeqNumForGivenSize (seqNumSize : UInt8) : UInt16 :=
  UInt16.ofNat (2 ^ seqNumSize.toNat) - 1

def isSeqNumValid (seqNum : UInt16) (seqNumSize : UInt8) : Bool :=
  seqNum ≤ calculateMaxSeqNumForGivenSize seqNumSize

def reorderingWindowSn7bit : UInt16 := 64

def reorderingWindowSn12bit : UInt16 := 2048

/-- `PDCP_Config__rlc_UM__pdcp_SN_Size_len7bits`, the first value of
`ENUMERATED {len7bits, len12bits}`. -/
def snSizeLen7bits : UInt8 := 0

namespace Entity

/-- An entity that is allocated with `calloc`. -/
def calloc : Entity where
  isUe := false
  cipheringAlgorithm := 0
  integrityProtAlgorithm := 0
  kUPenc := []
  kRRCint := []
  kRRCenc := []
  securityActivated := 0
  rlcMode := .none
  seqNumSize := 0
  nextPdcpTxSn := 0
  nextPdcpRxSn := 0
  nextPdcpRxSnBeforeIntegrity := 0
  txHfn := 0
  rxHfn := 0
  rxHfnOffset := 0
  lastSubmittedPdcpRxSn := 0

def initSeqNumbers (p : Entity) : Entity :=
  { p with
    nextPdcpTxSn := 0
    nextPdcpRxSn := 0
    txHfn := 0
    rxHfn := 0
    lastSubmittedPdcpRxSn := 4095 }

def isSeqNumSizeValid (p : Entity) : Bool :=
  p.seqNumSize == 5 || p.seqNumSize == 7 || p.seqNumSize == 12

def getNextTxSeqNumber (p : Entity) : UInt16 × Entity :=
  if p.isSeqNumSizeValid then
    if p.nextPdcpTxSn = calculateMaxSeqNumForGivenSize p.seqNumSize then
      (p.nextPdcpTxSn, { p with nextPdcpTxSn := 0, txHfn := p.txHfn + 1 })
    else (p.nextPdcpTxSn, { p with nextPdcpTxSn := p.nextPdcpTxSn + 1 })
  else (65535, p)

def advanceRxWindow (p : Entity) : Entity :=
  if p.isSeqNumSizeValid then
    if p.nextPdcpRxSn = calculateMaxSeqNumForGivenSize p.seqNumSize then
      { p with nextPdcpRxSn := 0, rxHfn := p.rxHfn + 1 }
    else { p with nextPdcpRxSn := p.nextPdcpRxSn + 1 }
  else p

/-- The branch of `pdcp_is_rx_seq_number_valid` for SRBs. -/
def srbWindow (seqNum : UInt16) (p : Entity) : Bool × Entity :=
  let p := if seqNum < p.nextPdcpRxSn then { p with rxHfn := p.rxHfn + 1, rxHfnOffset := 0 }
    else { p with rxHfnOffset := 0 }
  let p := { p with nextPdcpRxSnBeforeIntegrity := p.nextPdcpRxSn }
  (true, { p with nextPdcpRxSn := seqNum }.advanceRxWindow)

/-- The case `RLC_MODE_AM`. -/
def amWindow (seqNum reorderingWindow : UInt16) (p : Entity) : Bool × Entity :=
  let window : ℤ := reorderingWindow.toNat
  if diff seqNum p.lastSubmittedPdcpRxSn > window ∨
      (0 ≤ diff p.lastSubmittedPdcpRxSn seqNum ∧ diff p.lastSubmittedPdcpRxSn seqNum < window) then
    if seqNum > p.nextPdcpRxSn then (false, { p with rxHfnOffset := -1 })
    else (false, { p with rxHfnOffset := 0 })
  else if diff p.nextPdcpRxSn seqNum > window then
    (true, { p with rxHfn := p.rxHfn + 1, rxHfnOffset := 0, nextPdcpRxSn := p.nextPdcpRxSn + 1 })
  else if diff seqNum p.nextPdcpRxSn ≥ window then
    (true, { p with rxHfnOffset := -1 })
  else if seqNum ≥ p.nextPdcpRxSn then
    (true, { p with rxHfnOffset := 0, nextPdcpRxSn := seqNum }.advanceRxWindow)
  else if seqNum < p.nextPdcpRxSn then
    (true, { p with rxHfnOffset := 0 })
  else (true, p)

/-- The case `RLC_MODE_UM`. -/
def umWindow (seqNum : UInt16) (p : Entity) : Bool × Entity :=
  let p := if seqNum < p.nextPdcpRxSn then { p with rxHfn := p.rxHfn + 1 } else p
  (true, { p with nextPdcpRxSn := seqNum }.advanceRxWindow)

def isRxSeqNumberValid (seqNum : UInt16) (p : Entity) (srbFlag : Bool) : Bool × Entity :=
  if !p.isSeqNumSizeValid || !isSeqNumValid seqNum p.seqNumSize then (false, p)
  else if srbFlag then srbWindow seqNum p
  else
    let reorderingWindow :=
      if p.seqNumSize = 7 then reorderingWindowSn7bit else reorderingWindowSn12bit
    match p.rlcMode with
    | .am => amWindow seqNum reorderingWindow p
    | .um => umWindow seqNum p
    | .tm | .none => (false, p)

/-- HFN and SN in one number, by the plane and the configured size. -/
def count (p : Entity) (srbFlag : Bool) (hfn : UInt32) (pdcpSn : UInt16) : UInt32 :=
  if srbFlag then (hfn <<< 5) ||| (pdcpSn &&& 0x001F).toUInt32
  else if p.seqNumSize = snSizeLen7bits then (hfn <<< 7) ||| (pdcpSn &&& 0x007F).toUInt32
  else (hfn <<< 12) ||| (pdcpSn &&& 0x0FFF).toUInt32

def getNextCountTx (p : Entity) (srbFlag : Bool) (pdcpSn : UInt16) : UInt32 :=
  p.count srbFlag p.txHfn pdcpSn

def getNextCountRx (p : Entity) (srbFlag : Bool) (pdcpSn : UInt16) : UInt32 × Entity :=
  (p.count srbFlag (p.rxHfn + p.rxHfnOffset.toInt32.toUInt32) pdcpSn, { p with rxHfnOffset := 0 })

end Entity

end EdgeSlice.Pdcp
