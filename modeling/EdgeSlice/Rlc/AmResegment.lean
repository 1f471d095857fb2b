import EdgeSlice.Rlc.AmSegment

namespace EdgeSlice.Rlc

open ByteMemory

/-- The variables with which the sizes of the SDU parts of a PDU are read from its header. -/
structure LiCursor where
  header : ℕ
  liBitOffset : ℕ
  liJumpOffset : ℕ
  sduSize : ℕ
  dataSize : ℕ
  sduIndex : ℕ

namespace LiCursor

def start : LiCursor := ⟨2, 4, 1, 0, 0, 0⟩

def readLi (block : Bytes) (c : LiCursor) : LiCursor :=
  let tempRead := ((block.getD c.header 0).toNat <<< 8) ||| (block.getD (c.header + 1) 0).toNat
  let sduSize := (tempRead >>> c.liBitOffset) &&& 0x7FF
  { header := c.header + c.liJumpOffset
    liBitOffset := c.liBitOffset ^^^ 4
    liJumpOffset := c.liJumpOffset ^^^ 3
    sduSize := sduSize
    dataSize := c.dataSize + sduSize
    sduIndex := c.sduIndex + 1 }

/-- The next SDU part, of which only the end is of interest. -/
def pass (block : Bytes) (p : AmTxPdu) (c : LiCursor) : LiCursor :=
  if (c.sduIndex : ℤ) < p.nbSdus - 1 then c.readLi block
  else { c with dataSize := p.payloadSize, sduIndex := c.sduIndex + 1 }

/-- The next SDU part, of which the size is taken. -/
def next (block : Bytes) (p : AmTxPdu) (c : LiCursor) : LiCursor :=
  if (c.sduIndex : ℤ) < p.nbSdus - 1 then c.readLi block
  else
    { c with
      sduSize := p.payloadSize - c.dataSize
      dataSize := p.payloadSize
      sduIndex := c.sduIndex + 1 }

/-- The loop on the SDU parts before `so_start`. -/
def seek (block : Bytes) (p : AmTxPdu) (soStart : ℕ) : ℕ → LiCursor → LiCursor
  | 0, c => c
  | fuel + 1, c =>
    if c.dataSize < soStart + 1 ∧ (c.sduIndex : ℤ) < p.nbSdus then seek block p soStart fuel (c.pass block p)
    else c

/-- The loop on the SDU parts up to `so_stop`, with the sizes of the parts. -/
def collect (block : Bytes) (p : AmTxPdu) (soStop : ℕ) : ℕ → LiCursor → List ℕ → LiCursor × List ℕ
  | 0, c, sizes => (c, sizes)
  | fuel + 1, c, sizes =>
    if (c.sduIndex : ℤ) < p.nbSdus ∧ c.dataSize < soStop + 1 then
      let c := c.next block p
      collect block p soStop fuel c (sizes ++ [c.sduSize])
    else (c, sizes)

end LiCursor

/-- The sizes of the SDU parts that fit into a request of so many bytes; `none` if the assertion fails. -/
def fitSizes (nbBytesRequestedByMac : ℕ) : ℕ → ℕ → List ℕ → Option (List ℕ)
  | _, _, [] => some []
  | index, payloadSize, size :: sizes =>
    let headerSize := amPduSegmentHeaderSize index
    if nbBytesRequestedByMac > payloadSize + headerSize then
      if size > 0 then
        let size :=
          if headerSize + payloadSize + size ≤ nbBytesRequestedByMac then size
          else nbBytesRequestedByMac - headerSize - payloadSize
        (fitSizes nbBytesRequestedByMac (index + 1) (payloadSize + size) sizes).map (size :: ·)
      else none
    else some []

/-- What is decided about a PDU segment before it is written. -/
structure AmSegment where
  soStart : ℕ
  payloadSize : ℕ
  fiStart : Bool
  fiEnd : Bool
  /-- The first `num_LIs_pdu_segment` of `sdus_segment_size`. -/
  lis : List ℕ
  headerLength : ℕ
  deriving DecidableEq, Repr

namespace AmTxPdu

/-- The whole PDU is a hole if there are none; `none` if the assertion fails. -/
def initHoles (p : AmTxPdu) : Option AmTxPdu :=
  if p.holes = [] then
    if p.retxPayloadSize = p.payloadSize then
      some { p with retxHoleIndex := 0, holes := [(0, p.payloadSize - 1)] }
    else none
  else some p

/-- `retx_so_start` and `retx_so_stop`. -/
def hole (p : AmTxPdu) : ℕ × ℕ := p.holes.getD p.retxHoleIndex (0, 0)

/-- The case of no length indicator. -/
def segmentOfSdu (nbBytesRequestedByMac : ℕ) (fiStart fiEnd : Bool) (p : AmTxPdu) : AmSegment :=
  let (soStart, soStop) := p.hole
  let soStop :=
    if soStop - soStart + 1 + rlcAmPduSegmentHeaderMinSize > nbBytesRequestedByMac then
      soStart + nbBytesRequestedByMac - rlcAmPduSegmentHeaderMinSize - 1
    else soStop
  { soStart := soStart
    payloadSize := soStop - soStart + 1
    fiStart := fiStart ∧ soStart = 0
    fiEnd := fiEnd ∧ ¬soStop < p.payloadSize - 1
    lis := []
    headerLength := rlcAmPduSegmentHeaderMinSize }

/-- The SDU part with `so_start`, and FI Start; `none` if the assertion fails. -/
def findStart (block : Bytes) (soStart : ℕ) (fiStart : Bool) (p : AmTxPdu) : Option (LiCursor × Bool) :=
  let c := (LiCursor.start.readLi block).seek block p soStart p.nbSdus.toNat
  if soStart = c.dataSize then
    if (c.sduIndex : ℤ) < p.nbSdus then some (c.pass block p, true) else none
  else some (c, if soStart ≠ 0 then false else fiStart)

/-- The sizes of the SDU parts of the segment; `none` if an assertion fails. -/
def segmentSizes (nbBytesRequestedByMac : ℕ) (block : Bytes) (c : LiCursor) (p : AmTxPdu) : Option (List ℕ) :=
  let (soStart, soStop) := p.hole
  let first := min (c.dataSize - soStart) (soStop - soStart + 1)
  if first + rlcAmPduSegmentHeaderMinSize ≥ nbBytesRequestedByMac then
    some [nbBytesRequestedByMac - rlcAmPduSegmentHeaderMinSize]
  else if c.dataSize - soStart ≥ soStop - soStart + 1 then some [first]
  else
    let (c, sizes) := c.collect block p soStop p.nbSdus.toNat []
    let sizes := first :: sizes
    let sizes :=
      if c.dataSize > soStop + 1 then sizes.dropLast ++ [soStop - (c.dataSize - c.sduSize) + 1] else sizes
    if (sizes.length : ℤ) ≤ p.nbSdus then fitSizes nbBytesRequestedByMac 0 0 sizes else none

/-- FI End for the sizes of the SDU parts of a segment that ends at `so_stop`. -/
def endsSdu (soStop : ℕ) (fiEnd : Bool) (sizes : List ℕ) (p : AmTxPdu) : Bool :=
  (fiEnd ∧ soStop = p.payloadSize - 1) ∨
    ∃ i < sizes.length - 1, soStop + 1 = (sizes.take (i + 1)).sum

/-- The case of length indicators; `none` if an assertion fails. -/
def segmentOfSdus (nbBytesRequestedByMac : ℕ) (block : Bytes) (fiStart fiEnd : Bool) (p : AmTxPdu) :
    Option AmSegment := do
  let soStart := p.hole.1
  let (c, fiStart) ← p.findStart block soStart fiStart
  let sizes ← p.segmentSizes nbBytesRequestedByMac block c
  let payloadSize := sizes.sum
  let soStop := soStart + payloadSize - 1
  let headerLength := amPduSegmentHeaderSize (sizes.length - 1)
  if soStop ≤ p.payloadSize - 1 ∧ soStop - soStart + 1 < p.payloadSize ∧
      headerLength + payloadSize ≤ p.headerAndPayloadSize + 2 then
    some
      { soStart := soStart
        payloadSize := payloadSize
        fiStart := fiStart
        fiEnd := p.endsSdu soStop fiEnd sizes
        lis := sizes.dropLast
        headerLength := headerLength }
  else none

/-- The segment that begins with the next hole; FI is taken from the PDU at first. -/
def nextSegment (nbBytesRequestedByMac : ℕ) (block : Bytes) (p : AmTxPdu) : Option AmSegment :=
  let fiStart := block.getD 0 0 &&& 0x10 = 0
  let fiEnd := block.getD 0 0 &&& 0x08 = 0
  if p.nbSdus = 1 then some (p.segmentOfSdu nbBytesRequestedByMac fiStart fiEnd)
  else p.segmentOfSdus nbBytesRequestedByMac block fiStart fiEnd

/-- The holes once so many bytes have been put into a segment. -/
def advanceHole (payloadSize : ℕ) (p : AmTxPdu) : AmTxPdu :=
  let (soStart, soStop) := p.hole
  if payloadSize = soStop - soStart + 1 then
    if p.retxHoleIndex + 1 < p.holes.length then
      { p with
        retxHoleIndex := p.retxHoleIndex + 1
        nackSoStart := (p.holes.getD (p.retxHoleIndex + 1) (0, 0)).1 }
    else { p with holes := [], retxHoleIndex := 0, nackSoStart := 0 }
  else
    { p with
      holes := p.holes.set p.retxHoleIndex (soStart + payloadSize, soStop)
      nackSoStart := soStart + payloadSize }

end AmTxPdu

namespace AmSegment

/-- The first byte of a PDU segment. -/
def b1 (sn : ℕ) (g : AmSegment) : UInt8 :=
  (0x80 : UInt8) ||| (0x40 : UInt8) ||| (if g.fiStart then (0 : UInt8) else 0x10) |||
    (if g.fiEnd then (0 : UInt8) else 0x08) ||| UInt8.ofNat ((sn >>> 8) &&& 0x3) |||
    (if g.lis ≠ [] then (0x04 : UInt8) else 0)

/-- The SO field with the last segment flag in front of it. -/
def soPart (lsf : Bool) (g : AmSegment) : ℕ := g.soStart ||| (if lsf then 0x8000 else 0)

def header (sn : ℕ) (lsf : Bool) (g : AmSegment) : Bytes :=
  [g.b1 sn, UInt8.ofNat (sn &&& 0xFF), UInt8.ofNat (g.soPart lsf >>> 8), UInt8.ofNat (g.soPart lsf &&& 0xFF)]

/-- The loop that writes the length indicators, from the offset `p` on. -/
def writeLis : List ℕ → ℕ → ℕ → ℕ → ℕ → (ℕ → UInt8) → ℕ → UInt8
  | [], _, _, _, _, mem => mem
  | li :: lis, p, liBitOffset, liJumpOffset, temp, mem =>
    let temp := if lis ≠ [] then temp ||| (1 <<< (liBitOffset + 11)) else temp
    let temp := temp ||| ((li &&& 0x7FF) <<< liBitOffset)
    let mem := store mem p [UInt8.ofNat (temp >>> 8), UInt8.ofNat (temp &&& 0xFF)]
    let p := p + liJumpOffset
    writeLis lis p (liBitOffset ^^^ 4) (liJumpOffset ^^^ 3)
      (((mem p).toNat <<< 8) ||| (mem (p + 1)).toNat) mem

/-- The segment as it is handed to MAC. -/
def write (block : Bytes) (p : AmTxPdu) (g : AmSegment) : Bytes :=
  let data := (block.drop (p.payload + g.soStart)).take g.payloadSize
  let lsf := g.soStart + g.payloadSize = p.payloadSize
  let mem := store (fun _ ↦ (0 : UInt8)) g.headerLength data
  let mem := store mem 0 (g.header p.sn lsf)
  load (writeLis g.lis rlcAmPduSegmentHeaderMinSize 4 1 0 mem) 0 (g.headerLength + g.payloadSize)

end AmSegment

namespace AmTxPdu

/-- `rlc_am_retransmit_get_am_segment`, with the size of the payload; `none` if an assertion fails. -/
def getAmSegment (nbBytesRequestedByMac : ℕ) (p : AmTxPdu) : Option (AmTxPdu × Bytes × ℕ) := do
  let block ← p.memBlock
  if p.payload + p.payloadSize = p.headerAndPayloadSize then do
    let p ← p.initHoles
    if p.hole.1 ≤ p.hole.2 ∧ p.hole.2 - p.hole.1 + 1 ≤ p.payloadSize then do
      let g ← p.nextSegment nbBytesRequestedByMac block
      return (p.advanceHole g.payloadSize, g.write block p, g.payloadSize)
    else none
  else none

end AmTxPdu

end EdgeSlice.Rlc
