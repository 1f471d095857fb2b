import EdgeSlice.Common.HashTable
import Mathlib.Algebra.Group.Int.Defs

namespace EdgeSlice.Gtpv1u

open Common Function

/-- `bearer_state_t` -/
inductive BearerState
  | down
  | inConfig
  | up
  | dlHandover
  | ulHandover
  deriving DecidableEq

/-- `gtpv1u_teid_data_t` -/
structure TeidData where
  enbId : ℕ
  ueId : ℕ
  epsBearerId : ℕ
  deriving DecidableEq

/-- `gtpv1u_bearer_t` -/
structure Bearer where
  teidENB : ℕ
  teidENBStackSession : ℕ
  teidSgw : ℕ
  sgwIpAddr : ℕ
  sgwIp6Addr : List ℕ
  state : BearerState
  deriving DecidableEq

/-- A bearer that `calloc` has cleared. -/
def Bearer.cleared : Bearer := ⟨0, 0, 0, 0, List.replicate 16 0, .down⟩

/-- `gtpv1u_ue_data_t` -/
structure UeData where
  ueId : ℕ
  instanceId : ℕ
  numBearers : ℤ
  bearers : ℕ → Bearer

def UeData.cleared : UeData := ⟨0, 0, 0, fun _ ↦ .cleared⟩

/-- `transport_layer_addr_t`, with its length in bits. -/
structure TransportLayerAddr where
  length : ℕ
  buffer : List ℕ

/-- One tunnel of a `gtpv1u_enb_create_tunnel_req_t`. -/
structure Tunnel where
  sgwS1uTeid : ℕ
  epsBearerId : ℕ
  sgwAddr : TransportLayerAddr

/-- `gtpv1u_enb_create_tunnel_req_t` -/
structure CreateTunnelReq where
  rnti : ℕ
  tunnels : List Tunnel

/-- `gtpv1u_enb_create_tunnel_resp_t`, with a TEID and a bearer for each tunnel. -/
structure CreateTunnelResp where
  status : ℕ
  rnti : ℕ
  tunnels : List (ℕ × ℕ)
  enbAddr : Option ℕ
  deriving DecidableEq

/-- `gtpv1u_enb_delete_tunnel_req_t` -/
structure DeleteTunnelReq where
  rnti : ℕ
  epsBearerIds : List ℕ

/-- `gtpv1u_data_t`, with the entries of the UEs by their address. -/
structure Tables where
  ueMapping : HashTable ℕ ℕ
  teidMapping : HashTable ℕ TeidData
  ues : ℕ → Option UeData
  /-- The next address that `calloc` returns. -/
  nextUe : ℕ
  enbIpAddress : ℕ
  /-- An entry has been used behind its release. -/
  usedFreed : Bool

/-- The tables that `gtpv1u_eNB_init` creates; the counters of the hash tables are not initialised. -/
def Tables.init (counter counter' enbIpAddress : ℕ) : Tables :=
  ⟨HashTable.create counter 32 id, HashTable.create counter' 256 id, fun _ ↦ none, 0, enbIpAddress, false⟩

/-- `GTPV1U_BEARER_OFFSET` -/
def bearerOffset : ℕ := 3

/-- `GTPV1U_MAX_BEARERS_ID` -/
def maxBearersId : ℕ := 32 - bearerOffset

/-- The bearer has a place in the array of its UE. -/
def HasPlace (ebi : ℕ) : Prop := bearerOffset ≤ ebi ∧ ebi - bearerOffset < maxBearersId

instance (ebi : ℕ) : Decidable (HasPlace ebi) := inferInstanceAs (Decidable (_ ∧ _))

def littleEndian : List ℕ → ℕ
  | [] => 0
  | byte :: bytes => byte + 256 * littleEndian bytes

/-- A bearer with the address of its gateway. -/
def Bearer.withAddr (bytes : ℕ) (addr : TransportLayerAddr) (b : Bearer) : Bearer :=
  let b := if bytes = 4 ∨ bytes = 20 then { b with sgwIpAddr := littleEndian (addr.buffer.take 4) } else b
  let ipOffset := if bytes = 4 ∨ bytes = 20 then 4 else 0
  if bytes = 16 ∨ bytes = 20 then { b with sgwIp6Addr := (addr.buffer.drop ipOffset).take 16 } else b

/-- The entry of a UE behind the creation of a tunnel. -/
def UeData.withTunnel (rnti : ℕ) (endpoint : ℕ × ℕ) (tunnel : Tunnel) (ue : UeData) : UeData :=
  let index := tunnel.epsBearerId - bearerOffset
  let bearer := { (ue.bearers index).withAddr (tunnel.sgwAddr.length / 8) tunnel.sgwAddr with
    state := .inConfig, teidENB := endpoint.1, teidENBStackSession := endpoint.2, teidSgw := tunnel.sgwS1uTeid }
  { ue with ueId := rnti, instanceId := 0, bearers := update ue.bearers index bearer }

/-- The entry of a UE behind the deletion of a tunnel. -/
def UeData.withoutTunnel (ebi : ℕ) (ue : UeData) : UeData :=
  let index := ebi - bearerOffset
  let bearer := { ue.bearers index with state := .down, teidENB := 0, teidSgw := 0, sgwIpAddr := 0 }
  { ue with numBearers := Int.bmod (ue.numBearers - 1) (2 ^ 32), bearers := update ue.bearers index bearer }

namespace Tables

/-- The UE entry that a tunnel is put into, a new one if the UE has none. -/
def ueEntry (rnti : ℕ) (s : Tables) : Option (Tables × ℕ) :=
  match s.ueMapping.get rnti with
  | some none => none
  | some (some p) => some (s, p)
  | none =>
    let (ueMapping, rc, _) := s.ueMapping.insert rnti (some s.nextUe)
    if rc = .ok then
      some ({ s with
        ueMapping := ueMapping
        ues := update s.ues s.nextUe (some .cleared)
        nextUe := s.nextUe + 1 }, s.nextUe)
    else none

/-- The entry of a TEID that the stack has accepted. -/
def teidEntry (teid : ℕ) (rnti ebi : ℕ) (s : Tables) (resp : CreateTunnelResp) : Option (Tables × CreateTunnelResp) :=
  match s.teidMapping.get teid with
  | none =>
    let (teidMapping, rc, _) := s.teidMapping.insert teid (some ⟨0, rnti, ebi⟩)
    if rc = .ok then
      some ({ s with teidMapping := teidMapping }, { resp with tunnels := resp.tunnels ++ [(teid, ebi)] })
    else none
  | some _ => some (s, { resp with status := 0xFF, tunnels := resp.tunnels ++ [(0, ebi)] })

/-- One turn of `gtpv1u_create_s1u_tunnel` with the TEID that the stack has accepted and its handle; `none` for an
assertion that fails or a bearer without a place. -/
def createTunnel (rnti : ℕ) (endpoint : ℕ × ℕ) (tunnel : Tunnel) (s : Tables) (resp : CreateTunnelResp) :
    Option (Tables × CreateTunnelResp) :=
  match s.ueEntry rnti with
  | none => none
  | some (s, p) =>
    match s.ues p with
    | none => none
    | some ue =>
      let bytes := tunnel.sgwAddr.length / 8
      if (bytes = 4 ∨ bytes = 16 ∨ bytes = 20) ∧ HasPlace tunnel.epsBearerId then
        teidEntry endpoint.1 rnti tunnel.epsBearerId
          { s with ues := update s.ues p (some (ue.withTunnel rnti endpoint tunnel)) }
          { resp with enbAddr := some s.enbIpAddress }
      else none

/-- `gtpv1u_create_s1u_tunnel` with the TEIDs that the stack has accepted. -/
def createS1uTunnel (req : CreateTunnelReq) (endpoints : ℕ → ℕ × ℕ) (s : Tables) : Option (Tables × CreateTunnelResp) :=
  req.tunnels.zipIdx.foldlM (fun (s, resp) (tunnel, i) ↦ createTunnel req.rnti (endpoints i) tunnel s resp)
    (s, ⟨0, req.rnti, [], none⟩)

/-- One turn of `gtpv1u_delete_s1u_tunnel`, with the handles of the tunnels that the stack has destroyed; `none` for
a bearer without a place. -/
def deleteTunnel (rnti p ebi : ℕ) (s : Tables) (destroyed : List ℕ) : Option (Tables × List ℕ) :=
  match s.ues p with
  | none => some ({ s with usedFreed := true }, destroyed)
  | some ue =>
    if HasPlace ebi then
      let bearer := ue.bearers (ebi - bearerOffset)
      let ue := ue.withoutTunnel ebi
      let s := { s with ues := update s.ues p (some ue) }
      let s := if ue.numBearers = 0 then
          let (ueMapping, _, freed) := s.ueMapping.remove rnti
          { s with ueMapping := ueMapping, ues := fun q ↦ if q ∈ freed then none else s.ues q }
        else s
      some ({ s with teidMapping := (s.teidMapping.remove bearer.teidENB).1 },
        destroyed ++ [bearer.teidENBStackSession])
    else none

/-- `gtpv1u_delete_s1u_tunnel` where the stack destroys the tunnels; the response has status 0. -/
def deleteS1uTunnel (req : DeleteTunnelReq) (s : Tables) : Option (Tables × List ℕ) :=
  match s.ueMapping.get req.rnti with
  | some (some p) =>
    req.epsBearerIds.foldlM (fun (s, destroyed) ebi ↦ deleteTunnel req.rnti p ebi s destroyed) (s, [])
  | some none => none
  | none => some (s, [])

end Tables

end EdgeSlice.Gtpv1u
