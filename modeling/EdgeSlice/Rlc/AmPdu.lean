import EdgeSlice.Rlc.UmReassembly
import Mathlib.Algebra.Group.Nat.Defs

namespace EdgeSlice.Rlc

def rlcAmMaxSduInPdu : ℕ := 128

def rlcAmHeaderMinSize : ℕ := 2

/-- `rlc_am_pdu_info_t`. -/
structure AmPduInfo where
  dC : Bool
  rf : Bool
  p : Bool
  fi : UInt8
  e : Bool
  sn : ℕ
  lsf : Bool
  so : ℕ
  /-- `li_list` up to `num_li`. -/
  liList : List ℕ
  hiddenSize : ℤ
  /-- Where the data begins in the PDU. -/
  payload : ℕ
  payloadSize : ℤ
  headerSize : ℕ
  deriving DecidableEq, Repr

/-- Why `rlc_am_get_data_pdu_infos` has no result. -/
inductive AmPduError
  /-- The assertion about the D/C field fails. -/
  | controlPdu
  | tooManyLis
  deriving DecidableEq, Repr

/-- An `int16_t`. -/
def int16 (x : ℤ) : ℤ := (x + 32768) % 65536 - 32768

namespace AmPduInfo

/-- `rlc_am_e_li_t` from `e_li` on; the loop is left after at most 65 rounds. -/
def readLis : ℕ → Bytes → List ℕ → Option (List ℕ)
  | 0, _, _ => none
  | fuel + 1, eLi, lis =>
    let b1 := eLi.getD 0 0
    let b2 := eLi.getD 1 0
    let lis := lis ++ [((b1.toNat <<< 4) &&& 0x07F0) ||| ((b2 >>> 4) &&& 0x0F).toNat]
    if lis.length > rlcAmMaxSduInPdu then none
    else if b1 &&& 0x80 ≠ 0 then
      let b3 := eLi.getD 2 0
      let lis := lis ++ [((b2.toNat <<< 8) &&& 0x0700) ||| b3.toNat]
      if lis.length > rlcAmMaxSduInPdu then none
      else if b2 &&& 0x08 ≠ 0 then readLis fuel (eLi.drop 3) lis
      else some lis
    else some lis

/-- `rlc_am_get_data_pdu_infos`. -/
def getDataPduInfos (pdu : Bytes) (totalSize : ℕ) : Except AmPduError AmPduInfo :=
  let b1 := pdu.getD 0 0
  let b2 := pdu.getD 1 0
  if b1 >>> 7 = 0 then .error .controlPdu
  else
    let rf := (b1 >>> 6) &&& 0x01 ≠ 0
    let e := (b1 >>> 2) &&& 0x01 ≠ 0
    let eLi := if rf then 4 else 2
    let data0 := pdu.getD 2 0
    let data1 := pdu.getD 3 0
    match if e then readLis rlcAmMaxSduInPdu (pdu.drop eLi) [] else some [] with
    | none => .error .tooManyLis
    | some lis =>
      let headerSize := eLi + ((lis.length * 3 + 1) >>> 1)
      let payloadSize := int16 (int16 totalSize - headerSize)
      let sumLi := lis.foldl (fun sum li ↦ int16 (sum + li)) 0
      .ok
        { dC := true
          rf := rf
          p := (b1 >>> 5) &&& 0x01 ≠ 0
          fi := (b1 >>> 3) &&& 0x03
          e := e
          sn := b2.toNat + ((b1 &&& 0x03).toNat <<< 8)
          lsf := rf ∧ (data0 >>> 7) &&& 0x01 ≠ 0
          so := if rf then data1.toNat + ((data0 &&& 0x7F).toNat <<< 8) else 0
          liList := lis
          hiddenSize := if payloadSize > sumLi then int16 (payloadSize - sumLi) else 0
          payload := headerSize
          payloadSize := payloadSize
          headerSize := headerSize }

end AmPduInfo

end EdgeSlice.Rlc
