import EdgeSlice.Rlc.UmSegment
import Mathlib.Data.Int.Notation

namespace EdgeSlice.Rlc

open Function

def rlcUmSegmentNbMaxLiPerPdu : ℕ := 128

/-- `JUMBO_FRAME` is defined. -/
def rlcSduMaxSize : ℕ := 9000

def rlcSduMaxSizeDataPlane : ℕ := 9000

def rlcSduMaxSizeControlPlane : ℕ := 2000

/-- `li_array` up to `num_li`, and what is left of the size. -/
structure LengthIndicators where
  liArray : List ℕ
  dataSize : ℤ

namespace LengthIndicators

def add (r : LengthIndicators) (li size : ℕ) : LengthIndicators :=
  ⟨r.liArray ++ [li], r.dataSize - li - size⟩

/-- The bytes from `e_liP` on; the loop is left after at most 65 rounds. -/
def loop : ℕ → Bytes → LengthIndicators → Option LengthIndicators
  | 0, _, _ => none
  | fuel + 1, eLi, r =>
    let b1 := eLi.getD 0 0
    let b2 := eLi.getD 1 0
    let e1 := (b1 &&& 0x80) >>> 7
    let li1 := ((b1 &&& 0x7F).toNat <<< 4) + ((b2 &&& 0xF0) >>> 4).toNat
    let r := r.add li1 2
    if e1 ≠ 0 then
      let b3 := eLi.getD 2 0
      let e2 := (b2 &&& 0x08) >>> 3
      let li2 := ((b2 &&& 0x07).toNat <<< 8) + (b3 &&& 0xFF).toNat
      let r := r.add li2 1
      if r.liArray.length > rlcUmSegmentNbMaxLiPerPdu then none
      else if e2 = 0 then some r
      else loop fuel (eLi.drop 3) r
    else if r.liArray.length > rlcUmSegmentNbMaxLiPerPdu then none
    else some r

end LengthIndicators

/-- The length indicators and the size of the last SDU, or `none` for the answer -1. -/
def readLengthIndicators (eLi : Bytes) (dataSize : ℕ) : Option (List ℕ × ℕ) :=
  match LengthIndicators.loop rlcUmSegmentNbMaxLiPerPdu eLi ⟨[], dataSize⟩ with
  | none => none
  | some r => if r.dataSize > 0 then some (r.liArray, r.dataSize.toNat) else none

namespace UmEntity

def clearRxSdu (r : UmEntity) : UmEntity := { r with outputSduSizeToWrite := 0 }

def sduMaxSize (r : UmEntity) : ℕ :=
  if r.isDataPlane then rlcSduMaxSizeDataPlane else rlcSduMaxSizeControlPlane

/-- The first `length` bytes of `src` are added to the SDU in construction; an SDU that grows
too large is erased. -/
def reassembly (src : Bytes) (length : ℕ) (r : UmEntity) : UmEntity :=
  if length = 0 then r
  else
    let (block, written) :=
      match r.outputSduInConstruction with
      | some block => (block, r.outputSduSizeToWrite)
      | none => ([], 0)
    if written + length ≤ r.sduMaxSize then
      { r with
        outputSduInConstruction :=
          some (block.take written ++ src.take length ++ block.drop (written + length))
        outputSduSizeToWrite := written + length }
    else
      { r with
        outputSduInConstruction := some block
        outputSduSizeToWrite := 0 }

def sendSdu (r : UmEntity) : UmEntity :=
  match r.outputSduInConstruction with
  | none => r
  | some block =>
    if r.outputSduSizeToWrite > 0 then
      { r with
        dataInd := r.dataInd ++ [block.take r.outputSduSizeToWrite]
        outputSduInConstruction := none
        outputSduSizeToWrite := 0 }
    else { r with outputSduSizeToWrite := 0 }

def setMissing (r : UmEntity) (detected : Bool) : UmEntity :=
  { r with reassemblyMissingSnDetected := detected }

/-- The SDUs that end at a length indicator, and the data behind them. -/
def reassembleSdus : List ℕ → Bytes → UmEntity → UmEntity × Bytes
  | [], data, r => (r, data)
  | li :: lis, data, r => reassembleSdus lis (data.drop li) (r.reassembly data li).sendSdu

/-- A hole before the PDU leaves nothing to add its first segment to. -/
def skipFirst (r : UmEntity) (lis : List ℕ) (data : Bytes) : List ℕ × Bytes :=
  if r.reassemblyMissingSnDetected then (lis.drop 1, data.drop (lis.getD 0 0)) else (lis, data)

/-- `e`, `fi` and the length of the fixed part of the header. -/
def header (r : UmEntity) (pdu : Bytes) : UInt8 × UInt8 × ℕ :=
  let b1 := pdu.getD 0 0
  if r.rxSnLength = 10 then ((b1 &&& 0x04) >>> 2, (b1 &&& 0x18) >>> 3, 2)
  else ((b1 &&& 0x20) >>> 5, (b1 &&& 0xC0) >>> 6, 1)

/-- A PDU without length indicators. -/
def reassembleData (fi : UInt8) (data : Bytes) (r : UmEntity) : UmEntity :=
  let size := data.length
  if fi = 0 then ((r.clearRxSdu.reassembly data size).sendSdu).setMissing false
  else if fi = 1 then (r.clearRxSdu.reassembly data size).setMissing false
  else if fi = 2 then
    if r.reassemblyMissingSnDetected then r.setMissing false
    else ((r.reassembly data size).sendSdu).setMissing false
  else if r.reassemblyMissingSnDetected then r.setMissing true
  else r.reassembly data size

/-- A PDU with length indicators; `size` is that of the data behind the last one. -/
def reassembleLis (fi : UInt8) (lis : List ℕ) (data : Bytes) (size : ℕ) (r : UmEntity) : UmEntity :=
  if fi = 0 then
    let (r, data) := reassembleSdus lis data r.clearRxSdu
    ((r.reassembly data size).sendSdu).setMissing false
  else if fi = 1 then
    let (r, data) := reassembleSdus lis data r.clearRxSdu
    (r.reassembly data size).setMissing false
  else
    let (lis, data) := r.skipFirst lis data
    let (r, data) := reassembleSdus lis data r
    if fi = 2 then ((r.reassembly data size).sendSdu).setMissing false
    else (r.reassembly data size).setMissing false

def reassemblePdu (pdu : Bytes) (r : UmEntity) : UmEntity :=
  let (e, fi, headerSize) := r.header pdu
  let data := pdu.drop headerSize
  if e = 0 then r.reassembleData fi data
  else
    match readLengthIndicators data data.length with
    | none => r.setMissing true
    | some (lis, size) => r.reassembleLis fi lis (data.drop ((lis.length * 3 + 1) >>> 1)) size

/-- What is done for one sequence number: its PDU is taken out of the buffer, or it is missing. -/
def reassembleSn (sn : ℕ) (r : UmEntity) : UmEntity :=
  match r.darBuffer sn with
  | some pdu =>
    let r := if (r.lastReassembliedSn + 1) % r.rxSnModulo ≠ sn then r.clearRxSdu else r
    let r := { r with lastReassembliedSn := sn }.reassemblePdu pdu
    { r with darBuffer := update r.darBuffer sn none }
  | none => (r.setMissing true).clearRxSdu

def tryReassemblyLoop (endSn : ℤ) : ℕ → ℕ → UmEntity → UmEntity
  | 0, _, r => r
  | fuel + 1, sn, r =>
    let r := r.reassembleSn sn
    let sn := (sn + 1) % r.rxSnModulo
    if sn = r.vrUh ∨ sn = endSn then r else tryReassemblyLoop endSn fuel sn r

/-- With an end within the modulus the loop is left after at most one turn through it. -/
def tryReassembly (startSn endSn : ℤ) (r : UmEntity) : UmEntity :=
  let endSn := if endSn < 0 then endSn + r.rxSnModulo else endSn
  let startSn := if startSn < 0 then startSn + r.rxSnModulo else startSn
  if startSn = endSn then r else tryReassemblyLoop endSn r.rxSnModulo startSn.toNat r

end UmEntity

end EdgeSlice.Rlc

namespace EdgeSlice.Rlc

open Function

namespace UmEntity

variable {P : UmEntity → Prop} {r : UmEntity}

/-- What the operations on the SDU in construction keep. -/
structure Kept (P : UmEntity → Prop) : Prop where
  clearRxSdu : ∀ r, P r → P r.clearRxSdu
  setMissing : ∀ r detected, P r → P (r.setMissing detected)
  reassembly : ∀ r src length, P r → P (r.reassembly src length)
  sendSdu : ∀ r, P r → P r.sendSdu

namespace Kept

theorem reassembleSdus (h : Kept P) (lis : List ℕ) (data : Bytes) (hr : P r) :
    P (reassembleSdus lis data r).1 := by
  induction lis generalizing r data with
  | nil => exact hr
  | cons li lis ih => exact ih _ (h.sendSdu _ (h.reassembly _ data li hr))

theorem reassembleData (h : Kept P) (fi : UInt8) (data : Bytes) (hr : P r) :
    P (r.reassembleData fi data) := by
  have hcleared := h.clearRxSdu r hr
  simp only [UmEntity.reassembleData]
  split_ifs
  · exact h.setMissing _ _ (h.sendSdu _ (h.reassembly _ _ _ hcleared))
  · exact h.setMissing _ _ (h.reassembly _ _ _ hcleared)
  · exact h.setMissing _ _ hr
  · exact h.setMissing _ _ (h.sendSdu _ (h.reassembly _ _ _ hr))
  · exact h.setMissing _ _ hr
  · exact h.reassembly _ _ _ hr

theorem reassembleLis (h : Kept P) (fi : UInt8) (lis : List ℕ) (data : Bytes) (size : ℕ) (hr : P r) :
    P (r.reassembleLis fi lis data size) := by
  have hcleared := h.reassembleSdus lis data (h.clearRxSdu r hr)
  simp only [UmEntity.reassembleLis]
  split_ifs
  · exact h.setMissing _ _ (h.sendSdu _ (h.reassembly _ _ _ hcleared))
  · exact h.setMissing _ _ (h.reassembly _ _ _ hcleared)
  · exact h.setMissing _ _ (h.sendSdu _ (h.reassembly _ _ _ (h.reassembleSdus _ _ hr)))
  · exact h.setMissing _ _ (h.reassembly _ _ _ (h.reassembleSdus _ _ hr))

/-- It is kept for any PDU. -/
theorem reassemblePdu (h : Kept P) (pdu : Bytes) (hr : P r) : P (r.reassemblePdu pdu) := by
  simp only [UmEntity.reassemblePdu]
  split_ifs
  · exact h.reassembleData _ _ hr
  · split
    · exact h.setMissing _ _ hr
    · exact h.reassembleLis _ _ _ _ hr

end Kept

/-- What the reassembly of a PDU leaves as it is. -/
structure SameWindow (r r' : UmEntity) : Prop where
  vrUh : r'.vrUh = r.vrUh
  rxSnModulo : r'.rxSnModulo = r.rxSnModulo
  rxSnLength : r'.rxSnLength = r.rxSnLength
  darBuffer : r'.darBuffer = r.darBuffer

theorem kept_sameWindow (r : UmEntity) : Kept r.SameWindow where
  clearRxSdu := fun _ h ↦ ⟨h.1, h.2, h.3, h.4⟩
  setMissing := fun _ _ h ↦ ⟨h.1, h.2, h.3, h.4⟩
  reassembly := fun r' src length h ↦ by
    simp only [UmEntity.reassembly]
    split_ifs
    · exact h
    · exact ⟨h.1, h.2, h.3, h.4⟩
    · exact ⟨h.1, h.2, h.3, h.4⟩
  sendSdu := fun r' h ↦ by
    rw [UmEntity.sendSdu]
    split
    · exact h
    · split_ifs
      · exact ⟨h.1, h.2, h.3, h.4⟩
      · exact ⟨h.1, h.2, h.3, h.4⟩

/-- A sequence number that is done with leaves the buffer, whether its PDU was there or not. -/
theorem reassembleSn_window (sn : ℕ) (r : UmEntity) :
    (r.reassembleSn sn).vrUh = r.vrUh ∧ (r.reassembleSn sn).rxSnModulo = r.rxSnModulo ∧
      (r.reassembleSn sn).rxSnLength = r.rxSnLength ∧
      (r.reassembleSn sn).darBuffer = update r.darBuffer sn none := by
  rw [reassembleSn]
  split
  · rename_i pdu _
    have hstart : SameWindow r
        { if (r.lastReassembliedSn + 1) % r.rxSnModulo ≠ sn then r.clearRxSdu else r with
          lastReassembliedSn := sn } := by
      split_ifs
      · exact ⟨rfl, rfl, rfl, rfl⟩
      · exact ⟨rfl, rfl, rfl, rfl⟩
    have hend := r.kept_sameWindow.reassemblePdu pdu hstart
    exact ⟨hend.vrUh, hend.rxSnModulo, hend.rxSnLength, by simp only [hend.darBuffer]⟩
  · rename_i hnone
    refine ⟨rfl, rfl, rfl, ?_⟩
    rw [← hnone, update_eq_self]
    rfl

end UmEntity

end EdgeSlice.Rlc
