import EdgeSlice.OctetReader

/-! The codes of the functions that read and write information elements, and their common start. -/

namespace EdgeSlice.Nas

open OctetReader

def TLV_DECODE_UNEXPECTED_IEI : ℤ := -1

def TLV_DECODE_VALUE_DOESNT_MATCH : ℤ := -3

def TLV_DECODE_PROTOCOL_NOT_SUPPORTED : ℤ := -11

def TLV_DECODE_BUFFER_TOO_SHORT : ℤ := -12

def TLV_DECODE_MAC_MISMATCH : ℤ := -14

def TLV_ENCODE_BUFFER_TOO_SHORT : ℤ := -13

/-- `CHECK_IEI_DECODER` where an identifier is expected, the length octet and `CHECK_LENGTH_DECODER`. -/
def decodeLength (iei : UInt8) (buffer : List UInt8) (len : ℕ) : Except Stop (ℕ × UInt8) :=
  if iei > 0 then do
    let b ← octet buffer 0
    if iei ≠ b then throw (.code TLV_DECODE_UNEXPECTED_IEI) else decodeLengthAt buffer len 1
  else decodeLengthAt buffer len 0
where
  decodeLengthAt (buffer : List UInt8) (len decoded : ℕ) : Except Stop (ℕ × UInt8) := do
    let ielen ← octet buffer decoded
    if uint32Sub len (decoded + 1) < ielen.toNat then throw (.code TLV_DECODE_BUFFER_TOO_SHORT)
    else return (decoded + 1, ielen)

end EdgeSlice.Nas
