import EdgeSlice.Common.HashTable

namespace EdgeSlice.Rlc

open Common Function

/-- `rlc_mode_t` -/
inductive RlcMode
  | none
  | am
  | um
  | tm
  deriving DecidableEq

/-- `rlc_union_t`, with how often `rb_free_rlc_union` has released the entity and whether its memory is freed. -/
structure RlcUnion where
  mode : RlcMode
  channelId : ℕ
  releases : ℕ
  freed : Bool
  deriving DecidableEq

/-- An entity that `calloc` has cleared. -/
def RlcUnion.cleared : RlcUnion := ⟨.none, 0, 0, false⟩

/-- `protocol_ctxt_t` -/
structure ProtocolCtxt where
  moduleId : UInt8
  rnti : UInt16
  enbFlag : Bool
  deriving DecidableEq

/-- `RLC_COLL_KEY_VALUE` -/
def rlcCollKeyValue (ctxt : ProtocolCtxt) (rbId : ℕ) (srbFlag : Bool) : ℕ :=
  ctxt.moduleId.toNat ||| ctxt.rnti.toNat <<< 8 ||| ctxt.enbFlag.toNat <<< 24 ||| rbId <<< 25 |||
    srbFlag.toNat <<< 33 ||| 0x05 <<< 34

/-- `RLC_COLL_KEY_LCID_VALUE` -/
def rlcCollKeyLcidValue (ctxt : ProtocolCtxt) (lcId : ℕ) (srbFlag : Bool) : ℕ :=
  ctxt.moduleId.toNat ||| ctxt.rnti.toNat <<< 8 ||| ctxt.enbFlag.toNat <<< 24 ||| lcId <<< 25 |||
    srbFlag.toNat <<< 33 ||| 0x0a <<< 34

/-- `RLC_COLL_KEY_MBMS_VALUE` with a service and a session. -/
def rlcCollKeyMbmsValue (ctxt : ProtocolCtxt) (id : ℕ × ℕ) : ℕ :=
  ctxt.moduleId.toNat ||| ctxt.rnti.toNat <<< 8 ||| ctxt.enbFlag.toNat <<< 24 ||| id.1 <<< 32 |||
    id.2 <<< 37 % 2 ^ 64 ||| 1 <<< 63

/-- `HASHTABLE_NOT_A_KEY_VALUE` -/
def notAKeyValue : ℕ := 2 ^ 64 - 1

/-- `NB_RB_MAX` -/
def nbRbMax : ℕ := 14

/-- The tables of the MBMS bearers: the logical channel of a radio bearer, and the service and the session of a
logical channel, of the eNBs and of the UEs. -/
structure MbmsIds where
  lcidEnb : UInt8 → ℕ → ℕ
  lcidUe : UInt8 → ℕ → ℕ
  idEnb : UInt8 → ℕ → ℕ × ℕ
  idUe : UInt8 → ℕ → ℕ × ℕ

/-- A value of a table with two indices is written. -/
def writeAt {α : Type} (f : UInt8 → ℕ → α) (i : UInt8) (j : ℕ) (a : α) : UInt8 → ℕ → α := update f i (update (f i) j a)

/-- The logical channel of an MBMS bearer. -/
def MbmsIds.lcid (ctxt : ProtocolCtxt) (rbId : ℕ) (ids : MbmsIds) : ℕ :=
  if ctxt.enbFlag then ids.lcidEnb ctxt.moduleId rbId else ids.lcidUe ctxt.moduleId rbId

/-- `*mbms_id_p` of a logical channel. -/
def MbmsIds.idOf (ctxt : ProtocolCtxt) (lcid : ℕ) (ids : MbmsIds) : ℕ × ℕ :=
  if ctxt.enbFlag then ids.idEnb ctxt.moduleId lcid else ids.idUe ctxt.moduleId lcid

/-- What `rrc_rlc_remove_rlc` does to the tables of the MBMS bearers: for both sides it clears the service and the
session of the eNB and the logical channel of the UE. -/
def MbmsIds.clear (ctxt : ProtocolCtxt) (rbId : ℕ) (ids : MbmsIds) : MbmsIds :=
  { ids with
    idEnb := writeAt ids.idEnb ctxt.moduleId (ids.lcid ctxt rbId) (0, 0)
    lcidUe := writeAt ids.lcidUe ctxt.moduleId rbId 0 }

/-- The RLC entities and how they are found: `rlc_coll_p`, the memory of the entities by address, and the tables of
the MBMS bearers. -/
structure Registry where
  coll : HashTable ℕ ℕ
  unions : ℕ → RlcUnion
  /-- The next address that `calloc` returns. -/
  nextUnion : ℕ
  mbms : MbmsIds

/-- The collection that `rlc_module_init` creates; its counter of elements is not initialised. -/
def Registry.init (counter : ℕ) : Registry :=
  ⟨HashTable.create counter 208 fun key ↦ key, fun _ ↦ .cleared, 0,
    ⟨fun _ _ ↦ 0, fun _ _ ↦ 0, fun _ _ ↦ (0, 0), fun _ _ ↦ (0, 0)⟩⟩

/-- `rb_free_rlc_union`: the cleanup of AM, UM and TM entities ends with `memset`. -/
def RlcUnion.release (u : RlcUnion) : RlcUnion :=
  match u.mode with
  | .none => u
  | _ => { u with channelId := 0, releases := u.releases + 1 }

namespace Registry

/-- The table applies `rb_free_rlc_union` to what it drops. -/
def release (dropped : List ℕ) (s : Registry) : Registry :=
  { s with unions := dropped.foldl (fun unions p ↦ update unions p (unions p).release) s.unions }

/-- The keys of a bearer that is to be added. -/
def addKeys (ctxt : ProtocolCtxt) (srbFlag mbmsFlag : Bool) (rbId chanId : ℕ) (s : Registry) : ℕ × ℕ :=
  if mbmsFlag then (rlcCollKeyMbmsValue ctxt (s.mbms.idOf ctxt (s.mbms.lcid ctxt rbId)), notAKeyValue)
  else (rlcCollKeyValue ctxt rbId srbFlag, rlcCollKeyLcidValue ctxt chanId srbFlag)

/-- `rrc_rlc_add_rlc`: the entity that is returned, if any; `none` for an assertion that fails. -/
def rrcRlcAddRlc (rlcMaxLc : ℕ) (ctxt : ProtocolCtxt) (srbFlag mbmsFlag : Bool) (rbId chanId : ℕ) (mode : RlcMode)
    (s : Registry) : Option (Registry × Option ℕ) :=
  if mbmsFlag = false ∧ ¬(rbId < nbRbMax ∧ chanId < rlcMaxLc) then none
  else
    let (key, keyLcid) := s.addKeys ctxt srbFlag mbmsFlag rbId chanId
    match s.coll.get key with
    | some none => none
    | some (some p) => if (s.unions p).mode = mode then some (s, some p) else none
    | none =>
      let p := s.nextUnion
      let (coll, rc, dropped) := s.coll.insert key (some p)
      let (coll, rcLcid, dropped') := coll.insert keyLcid (some p)
      let s := { s with coll := coll, unions := update s.unions p .cleared, nextUnion := p + 1 }.release
        (dropped ++ dropped')
      if rc = .ok ∧ rcLcid = .ok then
        some ({ s with unions := update s.unions p { s.unions p with mode := mode } }, some p)
      else some ({ s with unions := update s.unions p { s.unions p with freed := true } }, none)

/-- The LC-id key of the entity that is found under a key. -/
def keyLcidOf (ctxt : ProtocolCtxt) (srbFlag : Bool) (lcid p : ℕ) (s : Registry) : ℕ :=
  rlcCollKeyLcidValue ctxt (if (s.unions p).mode = .none then lcid else (s.unions p).channelId) srbFlag

/-- The part of `rrc_rlc_remove_rlc` behind the computation of the first key. -/
def removeKey (ctxt : ProtocolCtxt) (srbFlag : Bool) (lcid key : ℕ) (s : Registry) : Registry :=
  match s.coll.get key with
  | some (some p) =>
    match s.coll.get (s.keyLcidOf ctxt srbFlag lcid p) with
    | some _ =>
      let (coll, _, dropped) := s.coll.remove (s.keyLcidOf ctxt srbFlag lcid p)
      let (coll, _, dropped') := coll.remove key
      { s with coll := coll }.release (dropped ++ dropped')
    | none => s
  | _ => s

/-- What `rrc_rlc_remove_rlc` has computed behind the clearing of the MBMS tables: the logical channel and the key. -/
def removeArgs (ctxt : ProtocolCtxt) (srbFlag mbmsFlag : Bool) (rbId : ℕ) (s : Registry) : Registry × ℕ × ℕ :=
  if mbmsFlag then
    let lcid := s.mbms.lcid ctxt rbId
    let mbms := s.mbms.clear ctxt rbId
    ({ s with mbms := mbms }, lcid, rlcCollKeyMbmsValue ctxt (mbms.idOf ctxt lcid))
  else (s, 0, rlcCollKeyValue ctxt rbId srbFlag)

/-- `rrc_rlc_remove_rlc`; `none` for an assertion that fails. -/
def rrcRlcRemoveRlc (ctxt : ProtocolCtxt) (srbFlag mbmsFlag : Bool) (rbId : ℕ) (s : Registry) : Option Registry :=
  if rbId < nbRbMax then
    let (s, lcid, key) := s.removeArgs ctxt srbFlag mbmsFlag rbId
    some (s.removeKey ctxt srbFlag lcid key)
  else none

/-- The configuration of the entity under a key: of its requests, what the collection depends on is the logical
channel that `rlc_am_set_debug_infos` and the like store. -/
def configReq (key chanId : ℕ) (s : Registry) : Registry :=
  match s.coll.get key with
  | some (some p) => { s with unions := update s.unions p { s.unions p with channelId := chanId } }
  | _ => s

end Registry

end EdgeSlice.Rlc
