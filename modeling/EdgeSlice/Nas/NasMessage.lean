import EdgeSlice.BigEndian
import EdgeSlice.KeyStream
import EdgeSlice.Nas.Tlv
import Mathlib.Data.Int.Notation

/-! The security protection of NAS messages. -/

namespace EdgeSlice.Nas

/-- `struct count_s` of a security context. -/
structure Count where
  overflow : UInt16
  seqNum : UInt8
  deriving DecidableEq

/-- `SECU_DIRECTION_UPLINK` and `SECU_DIRECTION_DOWNLINK`. -/
inductive SecuDirection
  | uplink
  | downlink
  deriving DecidableEq

/-- `emm_security_context_t`, of which the last two fields are `selected_algorithms`. -/
structure EmmSecurityContext where
  knasEnc : List UInt8
  knasInt : List UInt8
  dlCount : Count
  ulCount : Count
  encryption : UInt8
  integrity : UInt8
  deriving DecidableEq

/-- `nas_stream_cipher_t` without the message and its length. -/
structure NasStreamCipher where
  key : List UInt8
  count : UInt32
  bearer : UInt8
  direction : SecuDirection

/-- The key streams and the codes behind `nas_stream_encrypt_eea1` and its siblings. -/
structure NasStream where
  eea1 : NasStreamCipher → ℕ → UInt8
  eea2 : NasStreamCipher → ℕ → UInt8
  eia1 : NasStreamCipher → List UInt8 → UInt32
  eia2 : NasStreamCipher → List UInt8 → UInt32

/-- `NAS_MME`, and whether one of `NAS_BUILT_IN_EPC` and `NAS_BUILT_IN_UE` is defined. -/
structure Build where
  nasMme : Bool
  builtIn : Bool
  deriving DecidableEq

/-- `nas_message_security_header_t`. -/
structure NasMessageSecurityHeader where
  protocolDiscriminator : UInt8
  securityHeaderType : UInt8
  messageAuthenticationCode : UInt32
  sequenceNumber : UInt8
  deriving DecidableEq

def NAS_MESSAGE_SECURITY_HEADER_SIZE : ℕ := 6

def EPS_MOBILITY_MANAGEMENT_MESSAGE : UInt8 := 7

def EPS_SESSION_MANAGEMENT_MESSAGE : UInt8 := 2

def SECURITY_HEADER_TYPE_NOT_PROTECTED : UInt8 := 0b0000

def SECURITY_HEADER_TYPE_INTEGRITY_PROTECTED : UInt8 := 0b0001

def SECURITY_HEADER_TYPE_INTEGRITY_PROTECTED_CYPHERED : UInt8 := 0b0010

def SECURITY_HEADER_TYPE_INTEGRITY_PROTECTED_NEW : UInt8 := 0b0011

def SECURITY_HEADER_TYPE_INTEGRITY_PROTECTED_CYPHERED_NEW : UInt8 := 0b0100

def SECURITY_HEADER_TYPE_SERVICE_REQUEST : UInt8 := 0b1100

def NAS_SECURITY_ALGORITHMS_EEA0 : UInt8 := 0

def NAS_SECURITY_ALGORITHMS_EEA1 : UInt8 := 1

def NAS_SECURITY_ALGORITHMS_EEA2 : UInt8 := 2

def NAS_SECURITY_ALGORITHMS_EIA0 : UInt8 := 0

def NAS_SECURITY_ALGORITHMS_EIA1 : UInt8 := 1

def NAS_SECURITY_ALGORITHMS_EIA2 : UInt8 := 2

namespace Count

/-- The COUNT that ciphering and integrity protection start from. -/
def value (c : Count) : UInt32 :=
  (0x00000000 : UInt32) ||| ((c.overflow.toUInt32 &&& 0x0000FFFF) <<< 8) |||
    (c.seqNum.toUInt32 &&& 0x000000FF)

/-- After a message has been sent. -/
def increment (c : Count) : Count :=
  let seqNum := c.seqNum + 1
  if seqNum = 0 then ⟨c.overflow + 1, seqNum⟩ else ⟨c.overflow, seqNum⟩

/-- With the sequence number of a message that is received. -/
def advance (c : Count) (sequenceNumber : UInt8) : Count :=
  if c.seqNum > sequenceNumber then ⟨c.overflow + 1, sequenceNumber⟩ else ⟨c.overflow, sequenceNumber⟩

end Count

namespace EmmSecurityContext

def count (security : EmmSecurityContext) : SecuDirection → Count
  | .uplink => security.ulCount
  | .downlink => security.dlCount

def setCount (security : EmmSecurityContext) (direction : SecuDirection) (c : Count) :
    EmmSecurityContext :=
  match direction with
  | .uplink => { security with ulCount := c }
  | .downlink => { security with dlCount := c }

def streamCipher (security : EmmSecurityContext) (key : List UInt8) (direction : SecuDirection) :
    NasStreamCipher :=
  ⟨key, (security.count direction).value, 0x00, direction⟩

end EmmSecurityContext

namespace Build

def sends (build : Build) : SecuDirection := if build.nasMme then .downlink else .uplink

def receives (build : Build) : SecuDirection := if build.nasMme then .uplink else .downlink

/-- The code that stands for the null algorithm. -/
def noMac (build : Build) : UInt32 := if build.builtIn then 0 else 0xabababab

end Build

/-- `memcpy` of `length` octets. -/
def memcpy (dest src : List UInt8) (length : ℕ) : List UInt8 := src.take length ++ dest.drop length

/-- The size of the header and the header. The source reads the first octet of an empty buffer too. -/
def _nasMessageHeaderDecode (buffer : List UInt8) (header : NasMessageSecurityHeader) :
    ℤ × NasMessageSecurityHeader :=
  let octet := buffer.getD 0 0
  let header :=
    { header with protocolDiscriminator := octet &&& 0x0F, securityHeaderType := octet >>> 4 }
  if header.protocolDiscriminator = EPS_MOBILITY_MANAGEMENT_MESSAGE then
    if header.securityHeaderType ≠ SECURITY_HEADER_TYPE_NOT_PROTECTED then
      if buffer.length < NAS_MESSAGE_SECURITY_HEADER_SIZE then (-1, header)
      else
        (6, { header with
          messageAuthenticationCode := UInt32.ofNat (beValue ((buffer.drop 1).take 4))
          sequenceNumber := buffer.getD 5 0 })
    else (1, header)
  else (1, header)

/-- The size of the header and its octets. -/
def _nasMessageHeaderEncode (header : NasMessageSecurityHeader) (length : ℕ) : ℤ × List UInt8 :=
  let octet := (header.securityHeaderType <<< 4) ||| (header.protocolDiscriminator &&& 0x0F)
  if header.protocolDiscriminator = EPS_MOBILITY_MANAGEMENT_MESSAGE then
    if header.securityHeaderType ≠ SECURITY_HEADER_TYPE_NOT_PROTECTED then
      if length < NAS_MESSAGE_SECURITY_HEADER_SIZE then (-1, [octet])
      else
        (6, octet :: beBytes 4 header.messageAuthenticationCode.toNat ++ [header.sequenceNumber])
    else (1, [octet])
  else (1, [octet])

/-- The code of a message, or what stands for it without a security context. -/
def _nasMessageGetMac (build : Build) (nasStream : NasStream) (buffer : List UInt8)
    (direction : SecuDirection) (security : Option EmmSecurityContext) : UInt32 :=
  match security with
  | none => build.noMac
  | some security =>
    if security.integrity = NAS_SECURITY_ALGORITHMS_EIA1 then
      nasStream.eia1 (security.streamCipher security.knasInt direction) buffer
    else if security.integrity = NAS_SECURITY_ALGORITHMS_EIA2 then
      nasStream.eia2 (security.streamCipher security.knasInt direction) buffer
    else if security.integrity = NAS_SECURITY_ALGORITHMS_EIA0 then build.noMac
    else 0

/-- The number of octets and `dest`, which other algorithms leave as it is. -/
def _nasMessageEncrypt (nasStream : NasStream) (dest src : List UInt8) (securityHeaderType : UInt8)
    (direction : SecuDirection) (length : ℕ) (security : Option EmmSecurityContext) :
    ℤ × List UInt8 :=
  match security with
  | none => (0, dest)
  | some security =>
    if securityHeaderType = SECURITY_HEADER_TYPE_NOT_PROTECTED ∨
        securityHeaderType = SECURITY_HEADER_TYPE_SERVICE_REQUEST ∨
        securityHeaderType = SECURITY_HEADER_TYPE_INTEGRITY_PROTECTED ∨
        securityHeaderType = SECURITY_HEADER_TYPE_INTEGRITY_PROTECTED_NEW then
      (length, memcpy dest src length)
    else if securityHeaderType = SECURITY_HEADER_TYPE_INTEGRITY_PROTECTED_CYPHERED ∨
        securityHeaderType = SECURITY_HEADER_TYPE_INTEGRITY_PROTECTED_CYPHERED_NEW then
      let streamCipher := security.streamCipher security.knasEnc direction
      if security.encryption = NAS_SECURITY_ALGORITHMS_EEA1 then
        (length, memcpy dest (xorStream (nasStream.eea1 streamCipher) length src) length)
      else if security.encryption = NAS_SECURITY_ALGORITHMS_EEA2 then
        (length, memcpy dest (xorStream (nasStream.eea2 streamCipher) length src) length)
      else if security.encryption = NAS_SECURITY_ALGORITHMS_EEA0 then
        (length, memcpy dest src length)
      else (length, dest)
    else (0, dest)

/-- The protocol discriminator and `dest`; `none` is a read through a null pointer. -/
def _nasMessageDecrypt (build : Build) (nasStream : NasStream) (dest src : List UInt8)
    (securityHeaderType : UInt8) (length : ℕ) (security : Option EmmSecurityContext) :
    Option (UInt8 × List UInt8) :=
  let decoded (dest : List UInt8) := (dest.getD 0 0 &&& 0x0F, dest)
  if securityHeaderType = SECURITY_HEADER_TYPE_NOT_PROTECTED ∨
      securityHeaderType = SECURITY_HEADER_TYPE_SERVICE_REQUEST ∨
      securityHeaderType = SECURITY_HEADER_TYPE_INTEGRITY_PROTECTED ∨
      securityHeaderType = SECURITY_HEADER_TYPE_INTEGRITY_PROTECTED_NEW then
    some (decoded (memcpy dest src length))
  else if securityHeaderType = SECURITY_HEADER_TYPE_INTEGRITY_PROTECTED_CYPHERED ∨
      securityHeaderType = SECURITY_HEADER_TYPE_INTEGRITY_PROTECTED_CYPHERED_NEW then
    security.map fun security ↦
      let streamCipher := security.streamCipher security.knasEnc build.receives
      if security.encryption = NAS_SECURITY_ALGORITHMS_EEA1 then
        decoded (memcpy dest (xorStream (nasStream.eea1 streamCipher) length src) length)
      else if security.encryption = NAS_SECURITY_ALGORITHMS_EEA2 then
        -- the source calls `nas_stream_encrypt_eea1` here too
        decoded (memcpy dest (xorStream (nasStream.eea1 streamCipher) length src) length)
      else decoded (memcpy dest src length)
  else some (0, dest)

/-- The return code, the output buffer and the security context after `nas_message_encrypt`. -/
structure Encrypted where
  rc : ℤ
  outbuf : List UInt8
  security : Option EmmSecurityContext
  deriving DecidableEq

/-- `none` is a write through a null pointer. -/
def nasMessageEncrypt (build : Build) (nasStream : NasStream) (inbuf outbuf : List UInt8)
    (header : NasMessageSecurityHeader) (length : ℕ) (security : Option EmmSecurityContext) :
    Option Encrypted :=
  let (size, octets) := _nasMessageHeaderEncode header length
  if size < 0 then some ⟨TLV_ENCODE_BUFFER_TOO_SHORT, memcpy outbuf octets octets.length, security⟩
  else
    let (bytes, outbuf) :=
      if 1 < size then
        let (bytes, dest) := _nasMessageEncrypt nasStream (outbuf.drop octets.length) inbuf
          header.securityHeaderType build.sends (length - octets.length) security
        if 0 < bytes then
          let mac := _nasMessageGetMac build nasStream
            (header.sequenceNumber :: dest.take bytes.toNat) build.sends security
          (bytes, octets.take 1 ++ beBytes 4 mac.toNat ++ octets.drop 5 ++ dest)
        else (bytes, octets ++ dest)
      else ((length : ℤ), memcpy outbuf inbuf length)
    security.map fun security ↦
      let count := (security.count build.sends).increment
      ⟨if bytes < 0 then bytes else if 1 < size then size + bytes else bytes, outbuf,
        some (security.setCount build.sends count)⟩

/-- The return code, the output buffer, the header and the security context after
`nas_message_decrypt`. -/
structure Decrypted where
  rc : ℤ
  outbuf : List UInt8
  header : NasMessageSecurityHeader
  security : Option EmmSecurityContext
  deriving DecidableEq

/-- The security context with the sequence number of the message, before its code is checked. -/
def advanceCount (build : Build) (sequenceNumber : UInt8) (security : EmmSecurityContext) :
    EmmSecurityContext :=
  security.setCount build.receives ((security.count build.receives).advance sequenceNumber)

/-- `none` is a read through a null pointer. -/
def nasMessageDecrypt (build : Build) (nasStream : NasStream) (inbuf outbuf : List UInt8)
    (header : NasMessageSecurityHeader) (security : Option EmmSecurityContext) : Option Decrypted :=
  let (size, header) := _nasMessageHeaderDecode inbuf header
  if size < 0 then some ⟨TLV_DECODE_BUFFER_TOO_SHORT, outbuf, header, security⟩
  else if 1 < size then
    let security := security.map (advanceCount build header.sequenceNumber)
    let mac := _nasMessageGetMac build nasStream (inbuf.drop 5) build.receives security
    let decrypt :=
      (_nasMessageDecrypt build nasStream outbuf (inbuf.drop 6) header.securityHeaderType
        (inbuf.length - 6) security).map fun (protocolDiscriminator, outbuf) ↦
          Decrypted.mk (inbuf.length - 6) outbuf
            { header with protocolDiscriminator := protocolDiscriminator } security
    if mac ≠ header.messageAuthenticationCode then
      if build.nasMme then some ⟨TLV_DECODE_MAC_MISMATCH, outbuf, header, security⟩
      else
        security.bind fun context ↦
          if context.integrity ≠ NAS_SECURITY_ALGORITHMS_EIA0 then
            some ⟨TLV_DECODE_MAC_MISMATCH, outbuf, header, security⟩
          else decrypt
    else decrypt
  else some ⟨inbuf.length, memcpy outbuf inbuf inbuf.length, header, security⟩

/-- `nas_message_t`, where `μ` stands for `nas_message_plain_t`. -/
structure NasMessage (μ : Type*) where
  header : NasMessageSecurityHeader
  plain : μ

/-- `emm_msg_decode` and `esm_msg_decode`. -/
structure PlainDecode (μ : Type*) where
  emm : μ → List UInt8 → ℤ × μ
  esm : μ → List UInt8 → ℤ × μ

variable {μ : Type*}

def _nasMessagePlainDecode (plainDecode : PlainDecode μ) (buffer : List UInt8)
    (header : NasMessageSecurityHeader) (msg : μ) : ℤ × μ :=
  if header.protocolDiscriminator = EPS_MOBILITY_MANAGEMENT_MESSAGE then plainDecode.emm msg buffer
  else if header.protocolDiscriminator = EPS_SESSION_MANAGEMENT_MESSAGE then
    plainDecode.esm msg buffer
  else (TLV_DECODE_PROTOCOL_NOT_SUPPORTED, msg)

def _nasMessageProtectedDecode (build : Build) (nasStream : NasStream) (plainDecode : PlainDecode μ)
    (buffer : List UInt8) (msg : NasMessage μ) (security : Option EmmSecurityContext) :
    Option (ℤ × NasMessage μ) :=
  let calloc := List.replicate buffer.length 0
  (_nasMessageDecrypt build nasStream calloc buffer msg.header.securityHeaderType buffer.length
    security).map fun (protocolDiscriminator, plainMsg) ↦
      let header := { msg.header with protocolDiscriminator := protocolDiscriminator }
      let (bytes, plain) := _nasMessagePlainDecode plainDecode plainMsg header msg.plain
      (bytes, ⟨header, plain⟩)

/-- The return code, the message and the security context after `nas_message_decode`. -/
structure Decoded (μ : Type*) where
  rc : ℤ
  msg : NasMessage μ
  security : Option EmmSecurityContext

/-- `none` is a read through a null pointer. -/
def nasMessageDecode (build : Build) (nasStream : NasStream) (plainDecode : PlainDecode μ)
    (buffer : List UInt8) (msg : NasMessage μ) (security : Option EmmSecurityContext) :
    Option (Decoded μ) :=
  let (size, header) := _nasMessageHeaderDecode buffer msg.header
  let msg := { msg with header := header }
  if size < 0 then some ⟨TLV_DECODE_BUFFER_TOO_SHORT, msg, security⟩
  else if 1 < size then
    let security := security.map (advanceCount build header.sequenceNumber)
    let mac := _nasMessageGetMac build nasStream (buffer.drop 5) build.receives security
    -- without a security context a code is taken as it is
    let mac :=
      if security.isNone ∧ mac = 0 ∧ header.messageAuthenticationCode ≠ 0 then
        header.messageAuthenticationCode
      else mac
    if mac ≠ header.messageAuthenticationCode then some ⟨TLV_DECODE_MAC_MISMATCH, msg, security⟩
    else
      (_nasMessageProtectedDecode build nasStream plainDecode (buffer.drop 6) msg security).map
        fun (bytes, msg) ↦ ⟨if bytes < 0 then bytes else size + bytes, msg, security⟩
  else
    let (bytes, plain) := _nasMessagePlainDecode plainDecode buffer header msg.plain
    some ⟨bytes, { msg with plain := plain }, security⟩

end EdgeSlice.Nas
