import EdgeSlice.ByteMemory
import EdgeSlice.Nas.Tlv
import Mathlib.Data.List.OfFn

/-! The information element with a traffic flow template. -/

namespace EdgeSlice.Nas

open ByteMemory OctetReader Function

def TRAFFIC_FLOW_TEMPLATE_MINIMUM_LENGTH : ℕ := 2

def TRAFFIC_FLOW_TEMPLATE_NB_PACKET_FILTERS_MAX : ℕ := 4

def TRAFFIC_FLOW_TEMPLATE_PACKET_IDENTIFIER_MAX : ℕ := 16

def TRAFFIC_FLOW_TEMPLATE_IPV4_ADDR_SIZE : ℕ := 4

def TRAFFIC_FLOW_TEMPLATE_IPV6_ADDR_SIZE : ℕ := 16

def TRAFFIC_FLOW_TEMPLATE_OPCODE_CREATE : BitVec 3 := 0b001

def TRAFFIC_FLOW_TEMPLATE_OPCODE_ADD_PACKET : BitVec 3 := 0b011

def TRAFFIC_FLOW_TEMPLATE_OPCODE_REPLACE_PACKET : BitVec 3 := 0b100

def TRAFFIC_FLOW_TEMPLATE_OPCODE_DELETE_PACKET : BitVec 3 := 0b101

structure AddrMask where
  addr : UInt8
  mask : UInt8
  deriving DecidableEq

structure PortRange where
  lowlimit : UInt16
  highlimit : UInt16
  deriving DecidableEq

structure ServiceMask where
  value : UInt8
  mask : UInt8
  deriving DecidableEq

/-- `PacketFilter`. -/
structure FilterContents where
  flags : UInt16
  ipv4remoteaddr : Fin 4 → AddrMask
  ipv6remoteaddr : Fin 16 → AddrMask
  protocolidentifierNextheader : UInt8
  singlelocalport : UInt16
  localportrange : PortRange
  singleremoteport : UInt16
  remoteportrange : PortRange
  securityparameterindex : UInt32
  typdeofserviceTrafficclass : ServiceMask
  flowlabel : UInt32

def FilterContents.setFlags (f : FilterContents) (flags : UInt16) : FilterContents := { f with flags }

/-- An entry of `PacketFilters`. -/
structure FilterEntry where
  identifier : BitVec 4
  direction : BitVec 2
  evalPrecedence : UInt8
  packetfilter : FilterContents

def FilterEntry.setContents (entry : FilterEntry) (packetfilter : FilterContents) : FilterEntry :=
  { entry with packetfilter }

/-- The union `packetfilterlist` keeps the filters of the operations create, add and replace in one place,
and the identifiers of the operation delete. -/
structure TrafficFlowTemplate where
  tftoperationcode : BitVec 3
  ebit : BitVec 1
  numberofpacketfilters : BitVec 4
  packetfilters : ℕ → FilterEntry
  deletepacketfilter : ℕ → UInt8

/-- The types of packet filter components, in the order of their flags. -/
inductive ComponentType
  | ipv4RemoteAddr
  | ipv6RemoteAddr
  | protocolNextHeader
  | singleLocalPort
  | localPortRange
  | singleRemotePort
  | remotePortRange
  | securityParameterIndex
  | typeOfServiceTrafficClass
  | flowLabel
  deriving DecidableEq

namespace ComponentType

def all : List ComponentType :=
  [ipv4RemoteAddr, ipv6RemoteAddr, protocolNextHeader, singleLocalPort, localPortRange,
    singleRemotePort, remotePortRange, securityParameterIndex, typeOfServiceTrafficClass, flowLabel]

def code : ComponentType → UInt8
  | ipv4RemoteAddr => 0b00010000
  | ipv6RemoteAddr => 0b00100000
  | protocolNextHeader => 0b00110000
  | singleLocalPort => 0b01000000
  | localPortRange => 0b01000001
  | singleRemotePort => 0b01010000
  | remotePortRange => 0b01010001
  | securityParameterIndex => 0b01100000
  | typeOfServiceTrafficClass => 0b01110000
  | flowLabel => 0b10000000

def ofCode (c : UInt8) : Option ComponentType := all.find? (·.code = c)

def flag : ComponentType → UInt16
  | ipv4RemoteAddr => (1 : UInt16) <<< 0
  | ipv6RemoteAddr => (1 : UInt16) <<< 1
  | protocolNextHeader => (1 : UInt16) <<< 2
  | singleLocalPort => (1 : UInt16) <<< 3
  | localPortRange => (1 : UInt16) <<< 4
  | singleRemotePort => (1 : UInt16) <<< 5
  | remotePortRange => (1 : UInt16) <<< 6
  | securityParameterIndex => (1 : UInt16) <<< 7
  | typeOfServiceTrafficClass => (1 : UInt16) <<< 8
  | flowLabel => (1 : UInt16) <<< 9

/-- By how many octets the value moves the position on. -/
def size : ComponentType → ℕ
  | ipv4RemoteAddr => TRAFFIC_FLOW_TEMPLATE_IPV4_ADDR_SIZE + TRAFFIC_FLOW_TEMPLATE_IPV4_ADDR_SIZE
  | ipv6RemoteAddr => TRAFFIC_FLOW_TEMPLATE_IPV6_ADDR_SIZE + TRAFFIC_FLOW_TEMPLATE_IPV6_ADDR_SIZE
  | protocolNextHeader => 1
  | singleLocalPort | singleRemotePort | typeOfServiceTrafficClass => 2
  | localPortRange | remotePortRange | securityParameterIndex => 4
  | flowLabel => 3

/-- How many octets are read and written for the value: `DECODE_U24` and `ENCODE_U24` take four. -/
def reads : ComponentType → ℕ
  | flowLabel => 4
  | c => c.size

theorem size_le_reads (c : ComponentType) : c.size ≤ c.reads := by
  cases c <;> decide

theorem size_pos (c : ComponentType) : 0 < c.size := by
  cases c <;> decide

end ComponentType

def decodeU16 (bs : List UInt8) (i : ℕ) : UInt16 := UInt16.ofNat (beValue ((bs.drop i).take 2))

def decodeU24 (bs : List UInt8) (i : ℕ) : UInt32 := UInt32.ofNat (beValue ((bs.drop i).take 4)) >>> 8

def decodeU32 (bs : List UInt8) (i : ℕ) : UInt32 := UInt32.ofNat (beValue ((bs.drop i).take 4))

def decodeAddr (size : ℕ) (bs : List UInt8) (j : Fin size) : AddrMask :=
  ⟨bs.getD j 0, bs.getD (j + size) 0⟩

namespace ComponentType

/-- What a case of the switch in the decoder stores, from the octets behind the type. -/
def decode (bs : List UInt8) (f : FilterContents) : ComponentType → FilterContents
  | ipv4RemoteAddr => { f with ipv4remoteaddr := decodeAddr TRAFFIC_FLOW_TEMPLATE_IPV4_ADDR_SIZE bs }
  | ipv6RemoteAddr => { f with ipv6remoteaddr := decodeAddr TRAFFIC_FLOW_TEMPLATE_IPV6_ADDR_SIZE bs }
  | protocolNextHeader => { f with protocolidentifierNextheader := bs.getD 0 0 }
  | singleLocalPort => { f with singlelocalport := decodeU16 bs 0 }
  | localPortRange => { f with localportrange := ⟨decodeU16 bs 0, decodeU16 bs 2⟩ }
  | singleRemotePort => { f with singleremoteport := decodeU16 bs 0 }
  | remotePortRange => { f with remoteportrange := ⟨decodeU16 bs 0, decodeU16 bs 2⟩ }
  | securityParameterIndex => { f with securityparameterindex := decodeU32 bs 0 }
  | typeOfServiceTrafficClass => { f with typdeofserviceTrafficclass := ⟨bs.getD 0 0, bs.getD 1 0⟩ }
  | flowLabel => { f with flowlabel := decodeU24 bs 0 }

/-- What a case of the switch in the encoder writes behind the type. -/
def encode (f : FilterContents) : ComponentType → List UInt8
  | ipv4RemoteAddr =>
    List.ofFn (fun j ↦ (f.ipv4remoteaddr j).addr) ++ List.ofFn (fun j ↦ (f.ipv4remoteaddr j).mask)
  | ipv6RemoteAddr =>
    List.ofFn (fun j ↦ (f.ipv6remoteaddr j).addr) ++ List.ofFn (fun j ↦ (f.ipv6remoteaddr j).mask)
  | protocolNextHeader => [f.protocolidentifierNextheader]
  | singleLocalPort => beBytes 2 f.singlelocalport.toNat
  | localPortRange =>
    beBytes 2 f.localportrange.lowlimit.toNat ++ beBytes 2 f.localportrange.highlimit.toNat
  | singleRemotePort => beBytes 2 f.singleremoteport.toNat
  | remotePortRange =>
    beBytes 2 f.remoteportrange.lowlimit.toNat ++ beBytes 2 f.remoteportrange.highlimit.toNat
  | securityParameterIndex => beBytes 4 f.securityparameterindex.toNat
  | typeOfServiceTrafficClass => [f.typdeofserviceTrafficclass.value, f.typdeofserviceTrafficclass.mask]
  | flowLabel => beBytes 4 (f.flowlabel &&& 0x000fffff).toNat

end ComponentType

/-- The loop over the components of a filter. Every turn takes an octet at least. -/
def decodeContents (buffer : List UInt8) (pkfstart pkflen : ℕ) :
    ℕ → ℕ → FilterContents → Except Stop (ℕ × FilterContents)
  | 0, decoded, f => if decoded - pkfstart < pkflen then throw .running else return (decoded, f)
  | fuel + 1, decoded, f =>
    if decoded - pkfstart < pkflen then do
      let componentType ← octet buffer decoded
      match ComponentType.ofCode componentType with
      | none => throw (.code TLV_DECODE_UNEXPECTED_IEI)
      | some c => do
        let bs ← octets buffer (decoded + 1) c.reads
        decodeContents buffer pkfstart pkflen fuel (decoded + 1 + c.size)
          (c.decode bs (f.setFlags (f.flags ||| c.flag)))
    else return (decoded, f)

/-- A turn of the loop over the filters. The first assignment to the entry stands for all of them. -/
def decodeFilter (buffer : List UInt8) (packetfilters : ℕ → FilterEntry) (i decoded : ℕ) :
    Except Stop (ℕ × (ℕ → FilterEntry)) := do
  let contents := (packetfilters i).packetfilter.setFlags 0
  let packetfilters ← assign TRAFFIC_FLOW_TEMPLATE_NB_PACKET_FILTERS_MAX packetfilters i
    ((packetfilters i).setContents contents)
  let b ← octet buffer decoded
  let evalPrecedence ← octet buffer (decoded + 1)
  let pkflen ← octet buffer (decoded + 2)
  let (decoded, contents) ←
    decodeContents buffer (decoded + 3) pkflen.toNat pkflen.toNat (decoded + 3) contents
  return (decoded, update packetfilters i
    ⟨BitVec.ofNat 4 (b &&& 0x0f).toNat, BitVec.ofNat 2 (b >>> 4).toNat, evalPrecedence, contents⟩)

def decodeFilters (buffer : List UInt8) (len : ℕ) :
    ℕ → ℕ → ℕ → (ℕ → FilterEntry) → Except Stop (ℕ × (ℕ → FilterEntry))
  | 0, _, decoded, packetfilters =>
    if uint32Sub len decoded ≠ 0 then throw (.code TLV_DECODE_VALUE_DOESNT_MATCH)
    else return (decoded, packetfilters)
  | n + 1, i, decoded, packetfilters =>
    if uint32Sub len decoded ≤ 0 then throw (.code TLV_DECODE_VALUE_DOESNT_MATCH)
    else do
      let (decoded, packetfilters) ← decodeFilter buffer packetfilters i decoded
      decodeFilters buffer len n (i + 1) decoded packetfilters

def decodeTrafficFlowTemplatePacketFilters (buffer : List UInt8) (len nbpacketfilters : ℕ)
    (packetfilters : ℕ → FilterEntry) : Except Stop (ℕ × (ℕ → FilterEntry)) :=
  decodeFilters buffer len nbpacketfilters 0 0 packetfilters

/-- The position `decoded` is the loop's index `i` as well. -/
def decodeIdentifiers (buffer : List UInt8) (len : ℕ) :
    ℕ → ℕ → (ℕ → UInt8) → Except Stop (ℕ × (ℕ → UInt8))
  | 0, decoded, identifiers => return (decoded, identifiers)
  | n + 1, decoded, identifiers =>
    if uint32Sub len decoded > 0 then do
      let identifier ← octet buffer decoded
      let identifiers ← assign TRAFFIC_FLOW_TEMPLATE_PACKET_IDENTIFIER_MAX identifiers decoded identifier
      decodeIdentifiers buffer len n (decoded + 1) identifiers
    else return (decoded, identifiers)

def decodeTrafficFlowTemplatePacketFilterIdentifiers (buffer : List UInt8) (len nbpacketfilters : ℕ)
    (identifiers : ℕ → UInt8) : Except Stop (ℕ × (ℕ → UInt8)) :=
  decodeIdentifiers buffer len nbpacketfilters 0 identifiers

/-- The operations with a list of packet filters. -/
def hasFilters (tftoperationcode : BitVec 3) : Bool :=
  tftoperationcode = TRAFFIC_FLOW_TEMPLATE_OPCODE_CREATE ∨
    tftoperationcode = TRAFFIC_FLOW_TEMPLATE_OPCODE_ADD_PACKET ∨
    tftoperationcode = TRAFFIC_FLOW_TEMPLATE_OPCODE_REPLACE_PACKET

theorem ne_delete_of_hasFilters {op : BitVec 3} (h : hasFilters op = true) :
    op ≠ TRAFFIC_FLOW_TEMPLATE_OPCODE_DELETE_PACKET := by
  revert op
  decide

def decodeTrafficFlowTemplate (iei : UInt8) (buffer : List UInt8) (len : ℕ) (tft : TrafficFlowTemplate) :
    Except Stop (ℕ × TrafficFlowTemplate) := do
  let (decoded, _) ← decodeLength iei buffer len
  let b ← octet buffer decoded
  let tft := { tft with
    tftoperationcode := BitVec.ofNat 3 ((b >>> 5) &&& 0x7).toNat
    ebit := BitVec.ofNat 1 ((b >>> 4) &&& 0x1).toNat
    numberofpacketfilters := BitVec.ofNat 4 (b &&& 0xf).toNat }
  let decoded := decoded + 1
  let buffer := buffer.drop decoded
  let len := uint32Sub len decoded
  if tft.tftoperationcode = TRAFFIC_FLOW_TEMPLATE_OPCODE_DELETE_PACKET then do
    let (n, identifiers) ← decodeTrafficFlowTemplatePacketFilterIdentifiers buffer len
      tft.numberofpacketfilters.toNat tft.deletepacketfilter
    return (decoded + n, { tft with deletepacketfilter := identifiers })
  else if hasFilters tft.tftoperationcode then do
    let (n, packetfilters) ← decodeTrafficFlowTemplatePacketFilters buffer len
      tft.numberofpacketfilters.toNat tft.packetfilters
    return (decoded + n, { tft with packetfilters })
  else return (decoded, tft)

/-- What is written to the buffer at `buffer + encoded`. -/
def encodeComponent (mem : ℕ → UInt8) (buffer : ℕ) (f : FilterContents) (encoded : ℕ) (c : ComponentType) :
    (ℕ → UInt8) × ℕ :=
  (store mem (buffer + encoded) (c.code :: c.encode f), encoded + 1 + c.size)

/-- The loop over the flags of a filter. -/
def encodeContents (mem : ℕ → UInt8) (buffer : ℕ) (f : FilterContents) (encoded : ℕ) : (ℕ → UInt8) × ℕ :=
  ComponentType.all.foldl (fun m c ↦
    if f.flags &&& c.flag = c.flag then encodeComponent m.1 buffer f m.2 c else m) (mem, encoded)

/-- A turn of the loop over the filters; the length of the contents is written last. -/
def encodeFilter (mem : ℕ → UInt8) (buffer : ℕ) (entry : FilterEntry) (encoded : ℕ) : (ℕ → UInt8) × ℕ :=
  let first := (UInt8.ofNat entry.direction.toNat <<< 4) ||| UInt8.ofNat entry.identifier.toNat
  let mem := store mem (buffer + encoded) [first, entry.evalPrecedence]
  let pkflenPtr := buffer + encoded + 2
  let pkfstart := encoded + 3
  let (mem, encoded) := encodeContents mem buffer entry.packetfilter pkfstart
  (update mem pkflenPtr (UInt8.ofNat (encoded - pkfstart)), encoded)

def encodeFilters (buffer len : ℕ) (packetfilters : ℕ → FilterEntry) :
    ℕ → ℕ → (ℕ → UInt8) → ℕ → (ℕ → UInt8) × ℕ
  | 0, _, mem, encoded => (mem, encoded)
  | n + 1, i, mem, encoded =>
    if uint32Sub len encoded > 0 then
      let (mem, encoded) := encodeFilter mem buffer (packetfilters i) encoded
      encodeFilters buffer len packetfilters n (i + 1) mem encoded
    else (mem, encoded)

def encodeTrafficFlowTemplatePacketFilters (mem : ℕ → UInt8) (buffer len nbpacketfilters : ℕ)
    (packetfilters : ℕ → FilterEntry) : (ℕ → UInt8) × ℕ :=
  encodeFilters buffer len packetfilters nbpacketfilters 0 mem 0

def encodeIdentifiers (buffer len : ℕ) (identifiers : ℕ → UInt8) :
    ℕ → (ℕ → UInt8) → ℕ → (ℕ → UInt8) × ℕ
  | 0, mem, encoded => (mem, encoded)
  | n + 1, mem, encoded =>
    if uint32Sub len encoded > 0 then
      encodeIdentifiers buffer len identifiers n (update mem (buffer + encoded) (identifiers encoded))
        (encoded + 1)
    else (mem, encoded)

def encodeTrafficFlowTemplatePacketFilterIdentifiers (mem : ℕ → UInt8) (buffer len nbpacketfilters : ℕ)
    (identifiers : ℕ → UInt8) : (ℕ → UInt8) × ℕ :=
  encodeIdentifiers buffer len identifiers nbpacketfilters mem 0

/-- The identifier of an information element, where one is written. -/
def encodeIei (iei : UInt8) (mem : ℕ → UInt8) (buffer : ℕ) : (ℕ → UInt8) × ℕ :=
  if iei > 0 then (update mem buffer iei, 1) else (mem, 0)

def encodeTrafficFlowTemplate (tft : TrafficFlowTemplate) (iei : UInt8) (mem : ℕ → UInt8)
    (buffer len : ℕ) : Except ℤ ((ℕ → UInt8) × ℕ) :=
  if len < TRAFFIC_FLOW_TEMPLATE_MINIMUM_LENGTH then throw TLV_ENCODE_BUFFER_TOO_SHORT
  else
    let (mem, start) := encodeIei iei mem buffer
    let lenPtr := buffer + start
    let first := (UInt8.ofNat tft.tftoperationcode.toNat <<< 5) |||
      (UInt8.ofNat tft.ebit.toNat <<< 4) ||| UInt8.ofNat tft.numberofpacketfilters.toNat
    let mem := update mem (buffer + start + 1) first
    let encoded := start + 2
    let n := tft.numberofpacketfilters.toNat
    let (mem, size) :=
      if tft.tftoperationcode = TRAFFIC_FLOW_TEMPLATE_OPCODE_DELETE_PACKET then
        encodeTrafficFlowTemplatePacketFilterIdentifiers mem (buffer + encoded) (uint32Sub len encoded) n
          tft.deletepacketfilter
      else if hasFilters tft.tftoperationcode then
        encodeTrafficFlowTemplatePacketFilters mem (buffer + encoded) (uint32Sub len encoded) n
          tft.packetfilters
      else (mem, 0)
    let encoded := encoded + size
    return (update mem lenPtr (UInt8.ofNat (encoded - 1 - start)), encoded)

end EdgeSlice.Nas
