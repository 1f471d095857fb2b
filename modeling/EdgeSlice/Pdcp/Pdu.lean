import EdgeSlice.KeyStream
import EdgeSlice.Pdcp.SequenceManager

namespace EdgeSlice.Pdcp

abbrev Bytes := List UInt8

/-- Without jumbo frames and without an Ethernet driver. -/
def maxIpPacketSize : ℕ := 1500

def maxDrb : ℕ := 11

def controlPlaneDataPduSnSize : ℕ := 1

def controlPlaneDataPduMacISize : ℕ := 4

def userPlaneDataPduLongSnHeaderSize : ℕ := 2

def userPlaneDataPduShortSnHeaderSize : ℕ := 1

/-- The bearers of `pdcp_data_req`. -/
def rbIdBound (srbFlag : Bool) : ℕ := if srbFlag then 3 else maxDrb

def tailerLen (srbFlag : Bool) : ℕ := if srbFlag then controlPlaneDataPduMacISize else 0

/-- `pdcp_transmission_mode_t` but for the transparent mode, which has no header. -/
inductive TransmissionMode
  | unknown | control | data
  deriving DecidableEq

def getSequenceNumberOfPduWithLongSn (pdu : Bytes) : UInt16 :=
  ((pdu.getD 0 0 &&& 0x0F).toUInt16 <<< 8) ||| (pdu.getD 1 0 &&& 0xFF).toUInt16

def getSequenceNumberOfPduWithShortSn (pdu : Bytes) : UInt8 := pdu.getD 0 0 &&& 0x7F

def getSequenceNumberOfPduWithSrbSn (pdu : Bytes) : UInt8 := pdu.getD 0 0 &&& 0x1F

def serializeControlPlaneDataPduWithSrbSn (sn : UInt8) : Bytes := [sn &&& 0x1F]

/-- `dc` is set for a data PDU. -/
def serializeUserPlaneDataPduWithLongSn (dc : Bool) (sn : UInt16) : Bytes :=
  [(sn >>> 8 &&& 0xFF).toUInt8 ||| (if dc then 0x80 else 0), (sn &&& 0xFF).toUInt8]

/-- `stream_cipher_t` without the message and its length. -/
structure StreamCipher where
  key : Bytes
  count : UInt32
  bearer : UInt8
  /-- `SECU_DIRECTION_DOWNLINK`. -/
  downlink : Bool

/-- The key streams of SNOW 3G and of AES in counter mode, and the codes of the two
integrity algorithms. -/
structure Osa where
  eea1 : StreamCipher → ℕ → UInt8
  eea2 : StreamCipher → ℕ → UInt8
  eia1 : StreamCipher → Bytes → Vector UInt8 4
  eia2 : StreamCipher → Bytes → Vector UInt8 4

namespace Osa

/-- No algorithm but the null algorithm is of use. -/
def null : Osa :=
  ⟨fun _ _ ↦ 0, fun _ _ ↦ 0, fun _ _ ↦ Vector.replicate 4 0, fun _ _ ↦ Vector.replicate 4 0⟩

/-- `stream_encrypt`, which is `stream_decrypt` too, of the first `size` bytes of a buffer.
`stream_encrypt_eea1` works on whole words of the key stream. -/
def streamEncrypt (osa : Osa) (algorithm : UInt8) (params : StreamCipher) (size : ℕ)
    (message : Bytes) : Bytes :=
  if algorithm = 0 then message
  else if algorithm = 1 then xorStream (osa.eea1 params) (4 * ((size + 3) / 4)) message
  else if algorithm = 2 then xorStream (osa.eea2 params) size message
  else message

/-- Nothing is computed for other algorithms. -/
def streamComputeIntegrity (osa : Osa) (algorithm : UInt8) (params : StreamCipher)
    (message : Bytes) : Option (Vector UInt8 4) :=
  if algorithm = 1 then some (osa.eia1 params message)
  else if algorithm = 2 then some (osa.eia2 params message)
  else none

def streamCheckIntegrity (osa : Osa) (algorithm : UInt8) (params : StreamCipher)
    (message expected : Bytes) : Bool :=
  if algorithm ≠ 0 then
    match osa.streamComputeIntegrity algorithm params message with
    | none => false
    | some result => result.toList == expected.take 4
  else true

end Osa

namespace Entity

def rrcIntKey (p : Entity) : Bytes := p.kRRCint.drop 16

def encKey (p : Entity) (srbFlag : Bool) : Bytes := if srbFlag then p.kRRCenc else p.kUPenc

/-- Both planes cipher what follows the header; the control plane writes a MAC-I of header and
data behind them first. -/
def applySecurity (osa : Osa) (p : Entity) (srbFlag : Bool) (rbId : UInt16) (pdcpHeaderLen : ℕ)
    (currentSn : UInt16) (buffer : Bytes) (sduBufferSize : ℕ) : Bytes :=
  let params (key : Bytes) : StreamCipher :=
    ⟨key, p.getNextCountTx srbFlag currentSn, (rbId - 1).toUInt8, !p.isUe⟩
  let buffer :=
    if srbFlag then
      let message := buffer.take (pdcpHeaderLen + sduBufferSize)
      match osa.streamComputeIntegrity p.integrityProtAlgorithm (params p.rrcIntKey) message with
      | none => buffer
      | some macI => message ++ macI.toList
    else buffer
  buffer.take pdcpHeaderLen ++
    osa.streamEncrypt p.cipheringAlgorithm (params (p.encKey srbFlag)) sduBufferSize
      (buffer.drop pdcpHeaderLen)

/-- The result of the MAC-I check, the deciphered buffer, and the entity after its COUNT. -/
def validateSecurity (osa : Osa) (p : Entity) (srbFlag : Bool) (rbId : UInt16)
    (pdcpHeaderLen : ℕ) (currentSn : UInt16) (buffer : Bytes) (sduBufferSize : ℕ) :
    Bool × Bytes × Entity :=
  let (count, p) := p.getNextCountRx srbFlag currentSn
  let params (key : Bytes) : StreamCipher := ⟨key, count, (rbId - 1).toUInt8, p.isUe⟩
  let buffer := buffer.take pdcpHeaderLen ++
    osa.streamEncrypt p.cipheringAlgorithm (params (p.encKey srbFlag))
      (sduBufferSize - pdcpHeaderLen) (buffer.drop pdcpHeaderLen)
  if srbFlag then
    (osa.streamCheckIntegrity p.integrityProtAlgorithm (params p.rrcIntKey)
      (buffer.take sduBufferSize) (buffer.drop sduBufferSize), buffer, p)
  else (true, buffer, p)

end Entity

/-- A PDU that is handed to RLC, with its `current_sn` and the COUNT that `pdcp_apply_security`
takes for it. -/
structure Sent where
  sn : UInt16
  count : UInt32
  pdu : Bytes

/-- Who gets an SDU. -/
inductive Receiver
  | rrc | gtpv1u | ip
  deriving DecidableEq

/-- An SDU that is handed up, with the sequence number of its PDU, the answer of
`pdcp_is_rx_seq_number_valid` and the COUNT that `pdcp_validate_security` takes for it. -/
structure Indication where
  sn : UInt16
  valid : Bool
  count : UInt32
  receiver : Receiver
  sdu : Bytes

namespace Entity

/-- The number and the header of a PDU; the field of an SRB header has 8 bits. -/
def assignSn (p : Entity) (srbFlag : Bool) (mode : TransmissionMode) : UInt16 × Bytes × Entity :=
  let (sn, p) := p.getNextTxSeqNumber
  if srbFlag then
    (sn.toUInt8.toUInt16, serializeControlPlaneDataPduWithSrbSn sn.toUInt8, p)
  else (sn, serializeUserPlaneDataPduWithLongSn (mode = .data) sn, p)

def dataReq (osa : Osa) (p : Entity) (srbFlag : Bool) (rbId : UInt16) (mode : TransmissionMode)
    (sdu : Bytes) : Entity × Option Sent :=
  if sdu.length = 0 then (p, none)
  else if sdu.length > maxIpPacketSize then (p, none)
  else if rbId.toNat ≥ rbIdBound srbFlag then (p, none)
  else
    let (currentSn, header, p) := p.assignSn srbFlag mode
    if currentSn > calculateMaxSeqNumForGivenSize p.seqNumSize then (p, none)
    else
      let pdu := header ++ sdu ++ List.replicate (tailerLen srbFlag) 0
      let pdu :=
        if p.securityActivated ≠ 0 ∧ (p.cipheringAlgorithm ≠ 0 ∨ p.integrityProtAlgorithm ≠ 0) then
          p.applySecurity osa srbFlag (UInt16.ofNat (rbId.toNat % maxDrb)) header.length currentSn
            pdu sdu.length
        else pdu
      (p, some ⟨currentSn, p.getNextCountTx srbFlag currentSn, pdu⟩)

/-- Header length and sequence number of a PDU; neither is set for another size of a DRB. -/
def parseHeader (p : Entity) (srbFlag : Bool) (pdu : Bytes) : ℕ × UInt16 :=
  if srbFlag then
    (controlPlaneDataPduSnSize, (getSequenceNumberOfPduWithSrbSn pdu).toUInt16)
  else if p.seqNumSize = 7 then
    (userPlaneDataPduShortSnHeaderSize, (getSequenceNumberOfPduWithShortSn pdu).toUInt16)
  else if p.seqNumSize = 12 then
    (userPlaneDataPduLongSnHeaderSize, getSequenceNumberOfPduWithLongSn pdu)
  else (0, 0)

/-- `toGtpu` holds for an eNB that is built with `LINK_ENB_PDCP_TO_GTPV1U`. -/
def dataInd (osa : Osa) (p : Entity) (srbFlag : Bool) (rbId : UInt16) (toGtpu : Bool)
    (pdu : Bytes) : Entity × Option Indication :=
  if rbId.toNat % maxDrb = 0 then (p, none)
  else if pdu.length = 0 then (p, none)
  else
    let (headerLen, sn) := p.parseHeader srbFlag pdu
    if pdu.length < headerLen + tailerLen srbFlag then (p, none)
    else
      let (valid, p) := p.isRxSeqNumberValid sn srbFlag
      let count := (p.getNextCountRx srbFlag sn).1
      -- the result of the check is not used
      let (buffer, p) :=
        if p.securityActivated = 1 then
          (p.validateSecurity osa srbFlag rbId headerLen sn pdu
            (pdu.length - tailerLen srbFlag)).2
        else (pdu, p)
      let sdu := (buffer.drop headerLen).take (pdu.length - headerLen - tailerLen srbFlag)
      if srbFlag then (p, some ⟨sn, valid, count, .rrc, sdu⟩)
      else if toGtpu then (p, some ⟨sn, valid, count, .gtpv1u, sdu⟩)
      else
        let p := if p.rlcMode = .am then { p with lastSubmittedPdcpRxSn := sn } else p
        (p, some ⟨sn, valid, count, .ip, sdu⟩)

end Entity

end EdgeSlice.Pdcp
