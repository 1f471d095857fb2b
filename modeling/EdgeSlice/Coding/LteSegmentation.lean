import EdgeSlice.ByteMemory
import EdgeSlice.CountedLoop
import EdgeSlice.Coding.Crc

/-! Segmentation of a transport block into code blocks for the turbo code. -/

namespace EdgeSlice.Coding.LteSegmentation

open EdgeSlice.ByteMemory EdgeSlice.CountedLoop EdgeSlice.Coding.CrcByte Function

def MAX_NUM_DLSCH_SEGMENTS : UInt32 := 16

/-- The numbers that `lte_segmentation` returns through its pointers. -/
structure Sizes where
  C : UInt32
  Cplus : UInt32
  Cminus : UInt32
  Kplus : UInt32
  Kminus : UInt32
  F : UInt32
  deriving DecidableEq

def crcLength (B : UInt32) : UInt32 := if B ≤ 6144 then 0 else 24

def segmentCount (B : UInt32) : UInt32 :=
  if B ≤ 6144 then 1
  else
    let L := crcLength B
    let C := B / (6144 - L)
    if (6144 - L) * C < B then C + 1 else C

def bprime (B : UInt32) : UInt32 := if B ≤ 6144 then B else B + segmentCount B * crcLength B

/-- `Kplus` and `Kminus` in the size regions with steps of 2, 4 and 8 octets. -/
def roundedUp (step : UInt32) (shift : UInt32) (bprimeByC : UInt32) : UInt32 × UInt32 :=
  let Kplus := (bprimeByC >>> shift) <<< shift
  let Kplus := if Kplus < bprimeByC then Kplus + step else Kplus
  (Kplus, Kplus - step)

/-- Find K+. -/
def blockSizes (bprimeByC : UInt32) : Option (UInt32 × UInt32) :=
  if bprimeByC ≤ 40 then some (40, 0)
  else if bprimeByC ≤ 512 then some ((bprimeByC >>> 3) <<< 3, bprimeByC - 8)
  else if bprimeByC ≤ 1024 then some (roundedUp 16 4 bprimeByC)
  else if bprimeByC ≤ 2048 then some (roundedUp 32 5 bprimeByC)
  else if bprimeByC ≤ 6144 then some (roundedUp 64 6 bprimeByC)
  else none

/-- The numbers, or the return of -1. -/
def sizes (B : UInt32) : Option Sizes :=
  let C := segmentCount B
  let Bprime := bprime B
  if C > MAX_NUM_DLSCH_SEGMENTS then none
  else
    (blockSizes (Bprime / C)).map fun (Kplus, Kminus) ↦
      let Kminus := if C = 1 then 0 else Kminus
      let Cminus := if C = 1 then 0 else (C * Kplus - Bprime) / (Kplus - Kminus)
      let Cplus := if C = 1 then C else C - Cminus
      { C, Cplus, Cminus, Kplus, Kminus, F := Cplus * Kplus + Cminus * Kminus - Bprime }

/-- `Kr`: the first `Cminus` segments have the size `Kminus`. -/
def Sizes.segmentSize (z : Sizes) (r : ℕ) : UInt32 := if r < z.Cminus.toNat then z.Kminus else z.Kplus

/-- The state of the loop over the segments: the output buffers, the place in the segment and the
place in the input. -/
structure Copying where
  output_buffers : ℕ → ℕ → BitVec 8
  k : ℕ
  s : ℕ

/-- The `while` loop that fills segment `r` up to `limit`. -/
def copyWhile (input_buffer : ℕ → BitVec 8) (limit : ℕ) (segment : ℕ → BitVec 8) (k s : ℕ) :
    (ℕ → BitVec 8) × ℕ × ℕ :=
  if k < limit then copyWhile input_buffer limit (update segment k (input_buffer s)) (k + 1) (s + 1)
  else (segment, k, s)
termination_by limit - k

/-- The octets 2, 1 and 0 of the check of the first `bitlen` bits of the segment, behind them. -/
def addCrc (t : CrcTables) (bitlen : ℕ) (segment : ℕ → BitVec 8) : ℕ → BitVec 8 :=
  let crc := (crc24b t (load segment 0 ((bitlen + 7) / 8)) bitlen).getD 0#32 >>> 8
  store segment (bitlen / 8) [(crc >>> 16).setWidth 8, (crc >>> 8).setWidth 8, crc.setWidth 8]

def copySegment (t : CrcTables) (input_buffer : ℕ → BitVec 8) (L : UInt32) (z : Sizes) (r : ℕ) (st : Copying) :
    Copying :=
  let Kr := z.segmentSize r
  let (segment, _, s) := copyWhile input_buffer ((Kr - L) >>> 3).toNat (st.output_buffers r) st.k st.s
  let segment := if z.C > 1 then addCrc t (Kr - 24).toNat segment else segment
  { output_buffers := update st.output_buffers r segment, k := 0, s }

/-- The filler octets of segment 0, then the loop over the segments. -/
def copySegments (t : CrcTables) (input_buffer : ℕ → BitVec 8) (output_buffers : ℕ → ℕ → BitVec 8) (L : UInt32)
    (z : Sizes) : ℕ → ℕ → BitVec 8 :=
  let fillers := (z.F >>> 3).toNat
  let first := turns fillers (fun k segment ↦ update segment k 0#8) (output_buffers 0)
  (turns z.C.toNat (copySegment t input_buffer L z)
    { output_buffers := update output_buffers 0 first, k := fillers, s := 0 }).output_buffers

/-- `none` is the return of -1; a null buffer is `none` too. -/
def lte_segmentation (t : CrcTables) (input_buffer : Option (ℕ → BitVec 8))
    (output_buffers : Option (ℕ → ℕ → BitVec 8)) (B : UInt32) : Option (Sizes × Option (ℕ → ℕ → BitVec 8)) :=
  (sizes B).map fun z ↦
    match input_buffer, output_buffers with
    | some input_buffer, some output_buffers =>
      (z, some (copySegments t input_buffer output_buffers (crcLength B) z))
    | _, _ => (z, output_buffers)

end EdgeSlice.Coding.LteSegmentation
