import EdgeSlice.Nas.Tlv

/-! The message ATTACH ACCEPT and its list of emergency numbers. -/

namespace EdgeSlice.Nas

open OctetReader Function

def EMERGENCY_NUMBER_LIST_MAX_2DIGITS : ℕ := 6

def EMERGENCY_NUMBER_LIST_MAX_NUMBER_INFORMATION : ℕ := 2

def EPS_ATTACH_RESULT_MINIMUM_LENGTH : ℕ := 1

def GPRS_TIMER_MINIMUM_LENGTH : ℕ := 2

def TRACKING_AREA_IDENTITY_LIST_MINIMUM_LENGTH : ℕ := 8

def ESM_MESSAGE_CONTAINER_MINIMUM_LENGTH : ℕ := 2

def ATTACH_ACCEPT_MINIMUM_LENGTH : ℕ :=
  EPS_ATTACH_RESULT_MINIMUM_LENGTH + GPRS_TIMER_MINIMUM_LENGTH +
    TRACKING_AREA_IDENTITY_LIST_MINIMUM_LENGTH + ESM_MESSAGE_CONTAINER_MINIMUM_LENGTH

/-- An entry of `emergency_number_information`. -/
structure EmergencyNumber where
  lengthofemergency : UInt8
  emergencyservicecategoryvalue : BitVec 5
  bcdDigits : ℕ → UInt8

structure EmergencyNumberList where
  numEmergencyElements : UInt8
  emergencyNumberInformation : ℕ → EmergencyNumber

/-- The loop over the digits that are left, and the one that fills up the array. -/
def decodeDigits (buffer : List UInt8) : ℕ → ℕ → ℕ → (ℕ → UInt8) → Except Stop (ℕ × (ℕ → UInt8))
  | 0, digitIndex, decoded, bcdDigits =>
    return (decoded, fun i ↦
      if digitIndex ≤ i ∧ i < EMERGENCY_NUMBER_LIST_MAX_2DIGITS then 0xFF else bcdDigits i)
  | remaining + 1, digitIndex, decoded, bcdDigits => do
    let digits ← octet buffer decoded
    let bcdDigits ← assign EMERGENCY_NUMBER_LIST_MAX_2DIGITS bcdDigits digitIndex digits
    decodeDigits buffer remaining (digitIndex + 1) (decoded + 1) bcdDigits

/-- The loop over the numbers, with the entries that are left. The length octet is compared with the
position in the element, its own octet included. -/
def decodeNumbers (buffer : List UInt8) (ielen : UInt8) :
    ℕ → ℕ → ℕ → EmergencyNumberList → Except Stop (ℕ × EmergencyNumberList)
  | 0, _, decoded, list => return (decoded, list)
  | n + 1, i, decoded, list =>
    if decoded < ielen.toNat then do
      let lengthofemergency ← octet buffer decoded
      let category ← octet buffer (decoded + 1)
      let (decoded, bcdDigits) ← decodeDigits buffer (lengthofemergency.toNat - 1) 0 (decoded + 2)
        (list.emergencyNumberInformation i).bcdDigits
      decodeNumbers buffer ielen n (i + 1) decoded { list with
        emergencyNumberInformation := update list.emergencyNumberInformation i
          ⟨lengthofemergency, BitVec.ofNat 5 (category &&& 0x1f).toNat, bcdDigits⟩ }
    else return (decoded, list)

def decodeEmergencyNumberList (iei : UInt8) (buffer : List UInt8) (len : ℕ) (list : EmergencyNumberList) :
    Except Stop (ℕ × EmergencyNumberList) := do
  let (decoded, ielen) ← decodeLength iei buffer len
  decodeNumbers buffer ielen EMERGENCY_NUMBER_LIST_MAX_NUMBER_INFORMATION 0 decoded list

/-- The elements of the message that other functions decode. -/
inductive AttachAcceptElement
  | t3412Value
  | tailist
  | esmMessageContainer
  | guti
  | locationAreaIdentification
  | msIdentity
  | emmCause
  | t3402Value
  | t3423Value
  | equivalentPlmns
  | epsNetworkFeatureSupport
  | additionalUpdateResult
  deriving DecidableEq

namespace AttachAcceptElement

def mandatory : List AttachAcceptElement := [t3412Value, tailist, esmMessageContainer]

def optional : List AttachAcceptElement :=
  [guti, locationAreaIdentification, msIdentity, emmCause, t3402Value, t3423Value, equivalentPlmns,
    epsNetworkFeatureSupport, additionalUpdateResult]

def iei : AttachAcceptElement → UInt8
  | t3412Value | tailist | esmMessageContainer => 0
  | guti => 0x50
  | locationAreaIdentification => 0x13
  | msIdentity => 0x23
  | emmCause => 0x53
  | t3402Value => 0x17
  | t3423Value => 0x59
  | equivalentPlmns => 0x4A
  | epsNetworkFeatureSupport => 0x64
  | additionalUpdateResult => 0xF0

def present : AttachAcceptElement → UInt32
  | t3412Value | tailist | esmMessageContainer => 0
  | guti => (1 : UInt32) <<< 0
  | locationAreaIdentification => (1 : UInt32) <<< 1
  | msIdentity => (1 : UInt32) <<< 2
  | emmCause => (1 : UInt32) <<< 3
  | t3402Value => (1 : UInt32) <<< 4
  | t3423Value => (1 : UInt32) <<< 5
  | equivalentPlmns => (1 : UInt32) <<< 6
  | epsNetworkFeatureSupport => (1 : UInt32) <<< 8
  | additionalUpdateResult => (1 : UInt32) <<< 9

end AttachAcceptElement

def ATTACH_ACCEPT_EMERGENCY_NUMBER_LIST_IEI : UInt8 := 0x34

def ATTACH_ACCEPT_EMERGENCY_NUMBER_LIST_PRESENT : UInt32 := (1 : UInt32) <<< 7

/-- The values that other functions decode are of type `ν`. -/
structure AttachAcceptMsg (ν : Type) where
  epsattachresult : UInt8
  presencemask : UInt32
  value : AttachAcceptElement → ν
  emergencynumberlist : EmergencyNumberList

/-- What a function returns for the octets that it may read, and the value that it stores. -/
abbrev ElementDecoder (ν : Type) := AttachAcceptElement → List UInt8 → ℤ × ν

/-- The function respects its length argument. -/
def Respects {ν : Type} (decoder : ElementDecoder ν) : Prop :=
  ∀ e octets, (decoder e octets).1 ≤ octets.length

def int32 (n : ℕ) : ℤ :=
  if n % 4294967296 < 2147483648 then n % 4294967296 else n % 4294967296 - 4294967296

/-- Of an identifier of four bits, the octet without the value. -/
def ieiDecoded (b : UInt8) : UInt8 := if b ≥ 0x80 then b &&& 0xf0 else b

variable {ν : Type}

def decodeMandatory (decoder : ElementDecoder ν) (buffer : List UInt8) (len : ℕ) :
    List AttachAcceptElement → ℕ → AttachAcceptMsg ν → Except Stop (ℕ × AttachAcceptMsg ν)
  | [], decoded, msg => return (decoded, msg)
  | e :: es, decoded, msg =>
    let (result, value) := decoder e ((buffer.drop decoded).take (uint32Sub len decoded))
    if result < 0 then throw (.code result)
    else decodeMandatory decoder buffer len es (decoded + result.toNat)
      { msg with value := update msg.value e value }

/-- The loop over the optional elements; every turn takes an octet at least. -/
def decodeElements (decoder : ElementDecoder ν) (buffer : List UInt8) (len : ℕ) :
    ℕ → ℕ → AttachAcceptMsg ν → Except Stop (ℕ × AttachAcceptMsg ν)
  | 0, decoded, msg => if int32 len - int32 decoded > 0 then throw .running else return (decoded, msg)
  | fuel + 1, decoded, msg =>
    if int32 len - int32 decoded > 0 then do
      let b ← octet buffer decoded
      let rest := buffer.drop decoded
      let left := uint32Sub len decoded
      match AttachAcceptElement.optional.find? (·.iei = ieiDecoded b) with
      | some e =>
        let (result, value) := decoder e (rest.take left)
        if result ≤ 0 then throw (.code result)
        else decodeElements decoder buffer len fuel (decoded + result.toNat) { msg with
          value := update msg.value e value
          presencemask := msg.presencemask ||| e.present }
      | none =>
        if ieiDecoded b = ATTACH_ACCEPT_EMERGENCY_NUMBER_LIST_IEI then do
          let (result, list) ← decodeEmergencyNumberList ATTACH_ACCEPT_EMERGENCY_NUMBER_LIST_IEI rest left
            msg.emergencynumberlist
          if result ≤ 0 then throw (.code result)
          else decodeElements decoder buffer len fuel (decoded + result) { msg with
            emergencynumberlist := list
            presencemask := msg.presencemask ||| ATTACH_ACCEPT_EMERGENCY_NUMBER_LIST_PRESENT }
        else throw .abort
    else return (decoded, msg)

def decodeAttachAccept (decoder : ElementDecoder ν) (buffer : List UInt8) (len : ℕ)
    (msg : AttachAcceptMsg ν) : Except Stop (ℕ × AttachAcceptMsg ν) :=
  if len < ATTACH_ACCEPT_MINIMUM_LENGTH then throw (.code TLV_DECODE_BUFFER_TOO_SHORT)
  else do
    let b ← octet buffer 0
    let (decoded, msg) ← decodeMandatory decoder buffer len AttachAcceptElement.mandatory 1
      { msg with epsattachresult := b &&& 0x7 }
    decodeElements decoder buffer len buffer.length decoded msg

end EdgeSlice.Nas
