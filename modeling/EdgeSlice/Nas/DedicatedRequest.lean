import EdgeSlice.Nas.TrafficFlowTemplate

/-! The message ACTIVATE DEDICATED EPS BEARER CONTEXT REQUEST. -/

namespace EdgeSlice.Nas

open ByteMemory OctetReader Function

def EPS_QUALITY_OF_SERVICE_MINIMUM_LENGTH : ℕ := 2

def PROTOCOL_CONFIGURATION_OPTIONS_MINIMUM_LENGTH : ℕ := 3

def PROTOCOL_CONFIGURATION_OPTIONS_MAXIMUM_PROTOCOL_ID_OR_CONTAINER_ID : ℕ := 16

def ACTIVATE_DEDICATED_EPS_BEARER_CONTEXT_REQUEST_MINIMUM_LENGTH : ℕ :=
  EPS_QUALITY_OF_SERVICE_MINIMUM_LENGTH + TRAFFIC_FLOW_TEMPLATE_MINIMUM_LENGTH

structure EpsQosBitRates where
  maxBitRateForUL : UInt8
  maxBitRateForDL : UInt8
  guarBitRateForUL : UInt8
  guarBitRateForDL : UInt8
  deriving DecidableEq

structure EpsQualityOfService where
  bitRatesPresent : Bool
  bitRatesExtPresent : Bool
  qci : UInt8
  bitRates : EpsQosBitRates
  bitRatesExt : EpsQosBitRates
  deriving DecidableEq

/-- `OctetString`; the empty list is the null string of length 0. -/
abbrev OctetString := List UInt8

structure ProtocolConfigurationOptions where
  configurationprotol : BitVec 3
  numProtocolIdOrContainerId : UInt8
  protocolid : ℕ → UInt16
  lengthofprotocolid : ℕ → UInt8
  protocolidcontents : ℕ → OctetString

/-- The optional elements before the protocol configuration options. -/
inductive OptionalElement
  | transactionIdentifier
  | negotiatedQos
  | negotiatedLlcSapi
  | radioPriority
  | packetFlowIdentifier
  deriving DecidableEq

/-- The values of the other optional elements are of type `ν`. -/
structure ActivateDedicatedEpsBearerContextRequest (ν : Type) where
  linkedepsbeareridentity : UInt8
  epsqos : EpsQualityOfService
  tft : TrafficFlowTemplate
  presencemask : UInt32
  other : OptionalElement → ν
  protocolconfigurationoptions : ProtocolConfigurationOptions

/-- The functions that read and write the other optional elements. -/
structure OptionalElements (ν : Type) where
  decode : OptionalElement → List UInt8 → ℕ → Except Stop (ℕ × ν)
  encode : OptionalElement → ν → (ℕ → UInt8) → ℕ → ℕ → Except ℤ ((ℕ → UInt8) × ℕ)

namespace OptionalElement

def all : List OptionalElement :=
  [transactionIdentifier, negotiatedQos, negotiatedLlcSapi, radioPriority, packetFlowIdentifier]

def iei : OptionalElement → UInt8
  | transactionIdentifier => 0x5D
  | negotiatedQos => 0x30
  | negotiatedLlcSapi => 0x32
  | radioPriority => 0x80
  | packetFlowIdentifier => 0x34

def present : OptionalElement → UInt32
  | transactionIdentifier => (1 : UInt32) <<< 0
  | negotiatedQos => (1 : UInt32) <<< 1
  | negotiatedLlcSapi => (1 : UInt32) <<< 2
  | radioPriority => (1 : UInt32) <<< 3
  | packetFlowIdentifier => (1 : UInt32) <<< 4

end OptionalElement

def PROTOCOL_CONFIGURATION_OPTIONS_IEI : UInt8 := 0x27

def PROTOCOL_CONFIGURATION_OPTIONS_PRESENT : UInt32 := (1 : UInt32) <<< 5

def decodeEpsQosBitRates (buffer : List UInt8) : Except Stop (ℕ × EpsQosBitRates) := do
  let bs ← octets buffer 0 4
  return (4, ⟨bs.getD 0 0, bs.getD 1 0, bs.getD 2 0, bs.getD 3 0⟩)

/-- The bit rates at `buffer + decoded`, where they are present. -/
def decodePresentBitRates (present : Bool) (buffer : List UInt8) (decoded : ℕ)
    (bitRates : EpsQosBitRates) : Except Stop (ℕ × EpsQosBitRates) :=
  if present then do
    let (n, bitRates) ← decodeEpsQosBitRates (buffer.drop decoded)
    return (decoded + n, bitRates)
  else return (decoded, bitRates)

def decodeEpsQualityOfService (iei : UInt8) (buffer : List UInt8) (len : ℕ) (qos : EpsQualityOfService) :
    Except Stop (ℕ × EpsQualityOfService) := do
  let (decoded, ielen) ← decodeLength iei buffer len
  let qci ← octet buffer decoded
  -- in the source the conditional takes the whole comparison
  let present : Bool := ielen.toNat > 2 + (if iei > 0 then 1 else 0)
  let presentExt : Bool := ielen.toNat > 6 + (if iei > 0 then 1 else 0)
  let (decoded, bitRates) ← decodePresentBitRates present buffer (decoded + 1) qos.bitRates
  let (decoded, bitRatesExt) ← decodePresentBitRates presentExt buffer decoded qos.bitRatesExt
  return (decoded, ⟨present, presentExt, qci, bitRates, bitRatesExt⟩)

def EpsQosBitRates.octets (r : EpsQosBitRates) : List UInt8 :=
  [r.maxBitRateForUL, r.maxBitRateForDL, r.guarBitRateForUL, r.guarBitRateForDL]

def encodeEpsQosBitRates (r : EpsQosBitRates) (mem : ℕ → UInt8) (buffer : ℕ) : (ℕ → UInt8) × ℕ :=
  (store mem buffer r.octets, 4)

def encodeEpsQualityOfService (qos : EpsQualityOfService) (iei : UInt8) (mem : ℕ → UInt8)
    (buffer len : ℕ) : Except ℤ ((ℕ → UInt8) × ℕ) :=
  if len < EPS_QUALITY_OF_SERVICE_MINIMUM_LENGTH then throw TLV_ENCODE_BUFFER_TOO_SHORT
  else
    let (mem, start) := encodeIei iei mem buffer
    let lenPtr := buffer + start
    let mem := update mem (buffer + start + 1) qos.qci
    let encoded := start + 2
    let (mem, n) :=
      if qos.bitRatesPresent then encodeEpsQosBitRates qos.bitRates mem (buffer + encoded) else (mem, 0)
    let encoded := encoded + n
    let (mem, n) :=
      if qos.bitRatesExtPresent then encodeEpsQosBitRates qos.bitRatesExt mem (buffer + encoded)
      else (mem, 0)
    let encoded := encoded + n
    return (update mem lenPtr (UInt8.ofNat (encoded - 1 - start)), encoded)

def decodeOctetString (pdulen : ℕ) (buffer : List UInt8) (buflen : ℕ) : Except Stop (ℕ × OctetString) :=
  if buflen < pdulen then throw (.code (-1))
  else do
    let value ← octets buffer 0 pdulen
    return (pdulen, value)

def encodeOctetString (octetstring : OctetString) (mem : ℕ → UInt8) (buffer buflen : ℕ) :
    Except ℤ ((ℕ → UInt8) × ℕ) :=
  if octetstring.length > 0 then
    if buflen < octetstring.length then throw TLV_ENCODE_BUFFER_TOO_SHORT
    else return (store mem buffer octetstring, octetstring.length)
  else return (mem, 0)

namespace ProtocolConfigurationOptions

/-- A container is stored in the next entries of the three arrays. -/
def put (pco : ProtocolConfigurationOptions) (protocolid : ℕ → UInt16) (length : UInt8)
    (contents : OctetString) : ProtocolConfigurationOptions where
  configurationprotol := pco.configurationprotol
  numProtocolIdOrContainerId := pco.numProtocolIdOrContainerId + 1
  protocolid := protocolid
  lengthofprotocolid := update pco.lengthofprotocolid pco.numProtocolIdOrContainerId.toNat length
  protocolidcontents := update pco.protocolidcontents pco.numProtocolIdOrContainerId.toNat contents

end ProtocolConfigurationOptions

/-- The loop over the containers; every turn takes an octet at least. The first assignment stands for the
three arrays, which have one size. -/
def decodeContainers (buffer : List UInt8) (len : ℕ) :
    ℕ → ℕ → ProtocolConfigurationOptions → Except Stop (ℕ × ProtocolConfigurationOptions)
  | 0, decoded, pco => if uint32Sub len decoded > 0 then throw .running else return (decoded, pco)
  | fuel + 1, decoded, pco =>
    if uint32Sub len decoded > 0 then do
      let bs ← octets buffer decoded 2
      let protocolid ← assign PROTOCOL_CONFIGURATION_OPTIONS_MAXIMUM_PROTOCOL_ID_OR_CONTAINER_ID
        pco.protocolid pco.numProtocolIdOrContainerId.toNat (decodeU16 bs 0)
      let length ← octet buffer (decoded + 2)
      let decoded := decoded + 3
      if length > 0 then do
        let (n, contents) ← decodeOctetString length.toNat (buffer.drop decoded) (uint32Sub len decoded)
        decodeContainers buffer len fuel (decoded + n) (pco.put protocolid length contents)
      else decodeContainers buffer len fuel decoded (pco.put protocolid length [])
    else return (decoded, pco)

def decodeProtocolConfigurationOptions (iei : UInt8) (buffer : List UInt8) (len : ℕ)
    (pco : ProtocolConfigurationOptions) : Except Stop (ℕ × ProtocolConfigurationOptions) := do
  let (decoded, _) ← decodeLength iei buffer len
  let b ← octet buffer decoded
  if (b >>> 7) &&& 0x1 ≠ 1 then throw (.code TLV_DECODE_VALUE_DOESNT_MATCH)
  else if (b &&& 0x78) >>> 3 ≠ 0 then throw (.code TLV_DECODE_VALUE_DOESNT_MATCH)
  else decodeContainers buffer len buffer.length (decoded + 1) { pco with
    configurationprotol := BitVec.ofNat 3 ((b >>> 1) &&& 0x7).toNat
    numProtocolIdOrContainerId := 0 }

def encodeContainers (pco : ProtocolConfigurationOptions) (buffer len : ℕ) :
    ℕ → ℕ → (ℕ → UInt8) → ℕ → Except ℤ ((ℕ → UInt8) × ℕ)
  | 0, _, mem, encoded => return (mem, encoded)
  | n + 1, i, mem, encoded => do
    let mem := store mem (buffer + encoded)
      (beBytes 2 (pco.protocolid i).toNat ++ [pco.lengthofprotocolid i])
    let encoded := encoded + 3
    let (mem, size) ←
      encodeOctetString (pco.protocolidcontents i) mem (buffer + encoded) (uint32Sub len encoded)
    encodeContainers pco buffer len n (i + 1) mem (encoded + size)

def encodeProtocolConfigurationOptions (pco : ProtocolConfigurationOptions) (iei : UInt8)
    (mem : ℕ → UInt8) (buffer len : ℕ) : Except ℤ ((ℕ → UInt8) × ℕ) :=
  if len < PROTOCOL_CONFIGURATION_OPTIONS_MINIMUM_LENGTH then throw TLV_ENCODE_BUFFER_TOO_SHORT
  else do
    let (mem, start) := encodeIei iei mem buffer
    let lenPtr := buffer + start
    let mem := update mem (buffer + start + 1)
      ((1 : UInt8) <<< 7 ||| UInt8.ofNat pco.configurationprotol.toNat)
    let (mem, encoded) ←
      encodeContainers pco buffer len pco.numProtocolIdOrContainerId.toNat 0 mem (start + 2)
    return (update mem lenPtr (UInt8.ofNat (encoded - 1 - start)), encoded)

variable {ν : Type}

/-- The loop over the optional elements; every turn takes an octet at least. -/
def decodeOptional (others : OptionalElements ν) (buffer : List UInt8) (len : ℕ) :
    ℕ → ℕ → ActivateDedicatedEpsBearerContextRequest ν →
      Except Stop (ℕ × ActivateDedicatedEpsBearerContextRequest ν)
  | 0, decoded, msg => if uint32Sub len decoded > 0 then throw .running else return (decoded, msg)
  | fuel + 1, decoded, msg =>
    if uint32Sub len decoded > 0 then do
      let b ← octet buffer decoded
      let ieiDecoded := if b ≥ 0x80 then b &&& 0xf0 else b
      let rest := buffer.drop decoded
      let left := uint32Sub len decoded
      match OptionalElement.all.find? (·.iei = ieiDecoded) with
      | some e => do
        let (n, value) ← others.decode e rest left
        if n = 0 then throw (.code 0)
        else decodeOptional others buffer len fuel (decoded + n) { msg with
          other := update msg.other e value
          presencemask := msg.presencemask ||| e.present }
      | none =>
        if ieiDecoded = PROTOCOL_CONFIGURATION_OPTIONS_IEI then do
          let (n, pco) ← decodeProtocolConfigurationOptions PROTOCOL_CONFIGURATION_OPTIONS_IEI rest left
            msg.protocolconfigurationoptions
          if n = 0 then throw (.code 0)
          else decodeOptional others buffer len fuel (decoded + n) { msg with
            protocolconfigurationoptions := pco
            presencemask := msg.presencemask ||| PROTOCOL_CONFIGURATION_OPTIONS_PRESENT }
        else throw (.code TLV_DECODE_UNEXPECTED_IEI)
    else return (decoded, msg)

def decodeActivateDedicatedEpsBearerContextRequest (others : OptionalElements ν) (buffer : List UInt8)
    (len : ℕ) (msg : ActivateDedicatedEpsBearerContextRequest ν) :
    Except Stop (ℕ × ActivateDedicatedEpsBearerContextRequest ν) :=
  if len < ACTIVATE_DEDICATED_EPS_BEARER_CONTEXT_REQUEST_MINIMUM_LENGTH then
    throw (.code TLV_DECODE_BUFFER_TOO_SHORT)
  else do
    let b ← octet buffer 0
    let decoded := 1
    let (n, epsqos) ←
      decodeEpsQualityOfService 0 (buffer.drop decoded) (uint32Sub len decoded) msg.epsqos
    let decoded := decoded + n
    let (n, tft) ← decodeTrafficFlowTemplate 0 (buffer.drop decoded) (uint32Sub len decoded) msg.tft
    let decoded := decoded + n
    decodeOptional others buffer len buffer.length decoded { msg with
      linkedepsbeareridentity := b &&& 0xf
      epsqos
      tft }

/-- The optional elements that the mask names, in their order. -/
def encodeOptional (others : OptionalElements ν) (msg : ActivateDedicatedEpsBearerContextRequest ν)
    (len : ℕ) : List OptionalElement → (ℕ → UInt8) → ℕ → Except ℤ ((ℕ → UInt8) × ℕ)
  | [], mem, encoded => return (mem, encoded)
  | e :: es, mem, encoded =>
    if msg.presencemask &&& e.present = e.present then do
      let (mem, n) ← others.encode e (msg.other e) mem encoded (uint32Sub len encoded)
      encodeOptional others msg len es mem (encoded + n)
    else encodeOptional others msg len es mem encoded

/-- Returns what has been written to the buffer, and how many octets. -/
def encodeActivateDedicatedEpsBearerContextRequest (others : OptionalElements ν)
    (msg : ActivateDedicatedEpsBearerContextRequest ν) (mem : ℕ → UInt8) (len : ℕ) :
    Except ℤ ((ℕ → UInt8) × ℕ) :=
  if len < ACTIVATE_DEDICATED_EPS_BEARER_CONTEXT_REQUEST_MINIMUM_LENGTH then
    throw TLV_ENCODE_BUFFER_TOO_SHORT
  else do
    let mem := update mem 0 (msg.linkedepsbeareridentity &&& 0x0f)
    let encoded := 1
    let (mem, n) ← encodeEpsQualityOfService msg.epsqos 0 mem encoded (uint32Sub len encoded)
    let encoded := encoded + n
    let (mem, n) ← encodeTrafficFlowTemplate msg.tft 0 mem encoded (uint32Sub len encoded)
    let encoded := encoded + n
    let (mem, encoded) ← encodeOptional others msg len OptionalElement.all mem encoded
    if msg.presencemask &&& PROTOCOL_CONFIGURATION_OPTIONS_PRESENT =
        PROTOCOL_CONFIGURATION_OPTIONS_PRESENT then do
      let (mem, n) ← encodeProtocolConfigurationOptions msg.protocolconfigurationoptions
        PROTOCOL_CONFIGURATION_OPTIONS_IEI mem encoded (uint32Sub len encoded)
      return (mem, encoded + n)
    else return (mem, encoded)

end EdgeSlice.Nas
