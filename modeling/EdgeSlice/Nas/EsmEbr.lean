import EdgeSlice.Nas.EsmData

/-! The EPS bearer contexts of the UE: the identities in `esm_ebr_data` and the entries of the PDN
connections. A result of `none` is a read of memory that is not there or has been freed. -/

namespace EdgeSlice.Nas

open Function

def ESM_EBI_UNASSIGNED : ℕ := 0

def ESM_EBI_MIN : ℕ := 5

def ESM_EBI_MAX : ℕ := 15

def ESM_EBR_DATA_SIZE : ℕ := ESM_EBI_MAX - ESM_EBI_MIN + 1

def NET_PACKET_FILTER_MAX : ℕ := 16

inductive EsmEbrState
  | inactive
  | active
  deriving DecidableEq

structure EsmEbrContext where
  ebi : ℕ
  status : EsmEbrState
  isDefaultEbr : Bool
  cid : ℕ
  deriving DecidableEq

/-- An entry of `context`, which keeps its value when the memory behind it is freed. -/
inductive EbrPointer
  | null
  | live (c : EsmEbrContext)
  | freed
  deriving DecidableEq

structure NasUser where
  esmData : EsmData
  context : ℕ → EbrPointer

namespace NasUser

/-- The entry `context[ebi - ESM_EBI_MIN]`. -/
def pointer (user : NasUser) (ebi : ℕ) : Option EbrPointer :=
  if ESM_EBI_MIN ≤ ebi ∧ ebi - ESM_EBI_MIN < ESM_EBR_DATA_SIZE + 1 then some (user.context (ebi - ESM_EBI_MIN))
  else none

def setPointer (user : NasUser) (ebi : ℕ) (p : EbrPointer) : NasUser :=
  { user with context := update user.context (ebi - ESM_EBI_MIN) p }

def setData (user : NasUser) (esmData : EsmData) : NasUser := { user with esmData }

end NasUser

/-- The entry is read first, so that there is no search for an identity. -/
def esmEbrAssign (user : NasUser) (ebi cid : ℕ) (defaultEbr : Bool) : Option (ℕ × NasUser) := do
  let ebrCtx ← user.pointer ebi
  if ebi < ESM_EBI_MIN ∨ ebi > ESM_EBI_MAX then return (ESM_EBI_UNASSIGNED, user)
  else if ebrCtx ≠ .null then return (ESM_EBI_UNASSIGNED, user)
  else return (ebi, user.setPointer ebi (.live ⟨ebi, .inactive, defaultEbr, cid⟩))

def esmEbrRelease (user : NasUser) (ebi : ℕ) : Option (Rc × NasUser) :=
  if ebi < ESM_EBI_MIN ∨ ebi > ESM_EBI_MAX then some (.error, user)
  else
    match user.context (ebi - ESM_EBI_MIN) with
    | .null => some (.error, user)
    | .freed => none
    | .live ebrCtx =>
      if ebrCtx.ebi ≠ ebi then some (.error, user)
      else if ebrCtx.status ≠ .inactive then some (.error, user)
      else some (.ok, user.setPointer ebi .freed)

def esmEbrSetStatus (user : NasUser) (ebi : ℕ) (status : EsmEbrState) : Option (Rc × NasUser) :=
  if ebi < ESM_EBI_MIN ∨ ebi > ESM_EBI_MAX then some (.error, user)
  else
    match user.context (ebi - ESM_EBI_MIN) with
    | .null => some (.error, user)
    | .freed => none
    | .live ebrCtx =>
      if ebrCtx.ebi ≠ ebi then some (.error, user)
      else if status ≠ ebrCtx.status then some (.ok, user.setPointer ebi (.live { ebrCtx with status }))
      else some (.error, user)

def esmEbrIsNotInUse (user : NasUser) (ebi : ℕ) : Option Bool :=
  if ebi = ESM_EBI_UNASSIGNED then some true
  else do
    match ← user.pointer ebi with
    | .null => return true
    | .freed => none
    | .live ebrCtx => return ebrCtx.ebi ≠ ebi

namespace EsmData

def setPdn (esmData : EsmData) (pid : ℕ) (entry : PdnEntry) : EsmData :=
  { esmData with pdn := update esmData.pdn pid entry }

/-- A new bearer of the PDN connection, whose data is `pdn`. -/
def addBearer (esmData : EsmData) (pid : ℕ) (pdn : EsmPdn) (ebr : EsmBearer) : EsmData where
  nEbrs := esmData.nEbrs + 1
  pdn := update esmData.pdn pid { esmData.pdn pid with
    data := some ⟨pdn.nBearers + 1, update pdn.bearer ebr.bid (some ebr)⟩ }

def removeBearer (esmData : EsmData) (pid : ℕ) (pdn : EsmPdn) (bid : ℕ) : EsmData where
  nEbrs := esmData.nEbrs - 1
  pdn := update esmData.pdn pid { esmData.pdn pid with
    data := some ⟨pdn.nBearers - 1, update pdn.bearer bid none⟩ }

def setActive (esmData : EsmData) (pid : ℕ) (isActive : Bool) : EsmData :=
  esmData.setPdn pid { esmData.pdn pid with isActive }

end EsmData

/-- The filters that a new bearer gets. -/
def copyTft : Option NetworkTft → NetworkTft
  | some tft => if tft.nPkfs < NET_PACKET_FILTER_MAX then tft else ⟨[]⟩
  | none => ⟨[]⟩

/-- The entry for a new bearer: the first one, or the first that is free of the others. -/
def newBid (pdn : EsmPdn) (isDefault : Bool) : Option ℕ :=
  if isDefault then if (pdn.bearer 0).isSome then none else some 0
  else [1, 2, 3].find? fun bid ↦ (pdn.bearer bid).isNone

/-- The result is the identity of the default bearer, or 0. -/
def esmEbrContextCreate (esmData : EsmData) (pid ebi : ℕ) (isDefault : Bool) (tft : Option NetworkTft) :
    Option (ℕ × EsmData) :=
  if pid < ESM_DATA_PDN_MAX then
    if pid ≠ (esmData.pdn pid).pid then some (ESM_EBI_UNASSIGNED, esmData)
    else
      match (esmData.pdn pid).data with
      | none => some (ESM_EBI_UNASSIGNED, esmData)
      | some pdn =>
        if esmData.nEbrs > ESM_DATA_EPS_BEARER_TOTAL then some (ESM_EBI_UNASSIGNED, esmData)
        else
          match newBid pdn isDefault with
          | none => some (ESM_EBI_UNASSIGNED, esmData)
          | some bid =>
            let ebr : EsmBearer := ⟨bid, ebi, copyTft tft⟩
            let esmData := esmData.addBearer pid pdn ebr
            let esmData := if isDefault then esmData.setActive pid true else esmData
            (update pdn.bearer bid (some ebr) 0).map fun first ↦ (first.ebi, esmData)
  else some (ESM_EBI_UNASSIGNED, esmData)

/-- The inner loop of the search. -/
def searchBearer (pdn : EsmPdn) (ebi : ℕ) : Turn ℕ :=
  Turn.run (fun bid ↦
    match pdn.entry bid with
    | none => .fault
    | some none => .next
    | some (some ebr) => if ebr.ebi ≠ ebi then .next else .exit bid) (List.range pdn.nBearers.toNat)

/-- The loop over the PDN connections that are active. -/
def searchPdn (esmData : EsmData) (ebi : ℕ) : Turn (ℕ × ℕ) :=
  Turn.run (fun pid ↦
    if (esmData.pdn pid).isActive then
      match (esmData.pdn pid).data with
      | none => .next
      | some pdn =>
        match searchBearer pdn ebi with
        | .next => .next
        | .exit bid => .exit (pid, bid)
        | .fault => .fault
    else .next) (List.range ESM_DATA_PDN_MAX)

/-- The loop that deletes the bearers from entry `i` on, with the entries that are left. -/
def releaseDedicated (pid : ℕ) : ℕ → ℕ → NasUser → Option NasUser
  | left, i, user =>
    match (user.esmData.pdn pid).data with
    | none => none
    | some pdn =>
      if pdn.nBearers > 0 then
        match left with
        | 0 => none
        | left + 1 =>
          match pdn.bearer i with
          | none => releaseDedicated pid left (i + 1) user
          | some ebr => do
            let (_, user) ← esmEbrSetStatus user ebr.ebi .inactive
            let (_, user) ← esmEbrRelease user ebr.ebi
            releaseDedicated pid left (i + 1) (user.setData (user.esmData.removeBearer pid pdn i))
      else some user

/-- The deletion of a bearer that has been found. -/
def deleteBearer (user : NasUser) (pid bid ebi : ℕ) (pdn : EsmPdn) (ebr : EsmBearer) : Option (ℕ × NasUser) :=
  if ebr.bid ≠ bid then some (ESM_EBI_UNASSIGNED, user)
  else do
    let user := user.setData (user.esmData.removeBearer pid pdn bid)
    if bid = 0 then do
      let user ← releaseDedicated pid (ESM_DATA_EPS_BEARER_MAX - 1) 1 user
      return (ebi, user.setData (user.esmData.setActive pid false))
    else return (ebi, user)

/-- With an identity, the bearer is searched for; without, it is given by `pid` and `bid`. The result is the
identity, or 0. -/
def esmEbrContextRelease (user : NasUser) (ebi pid bid : ℕ) : Option (ℕ × NasUser) :=
  if ebi ≠ ESM_EBI_UNASSIGNED then
    match searchPdn user.esmData ebi with
    | .fault => none
    | .next => some (ESM_EBI_UNASSIGNED, user)
    | .exit (pid, bid) => do
      let pdn ← (user.esmData.pdn pid).data
      let ebr ← pdn.bearer bid
      deleteBearer user pid bid ebi pdn ebr
  else if pid < ESM_DATA_PDN_MAX ∧ pid = (user.esmData.pdn pid).pid ∧ (user.esmData.pdn pid).isActive then
    match (user.esmData.pdn pid).data with
    | none => some (ESM_EBI_UNASSIGNED, user)
    | some pdn => do
      match ← pdn.entry bid with
      | none => return (ESM_EBI_UNASSIGNED, user)
      | some ebr => deleteBearer user pid bid ebr.ebi pdn ebr
  else some (ESM_EBI_UNASSIGNED, user)

/-- The PDN connection of a default bearer; `none` is the result -1. -/
def esmEbrContextGetPid (esmData : EsmData) (ebi : ℕ) : Option ℕ :=
  (List.range ESM_DATA_PDN_MAX).find? fun pid ↦
    match (esmData.pdn pid).data with
    | none => false
    | some pdn =>
      match pdn.bearer 0 with
      | none => false
      | some ebr => ebr.ebi = ebi

end EdgeSlice.Nas

/-! The procedures of EPS session management at the UE, from a request to its accept or reject. -/

namespace EdgeSlice.Nas

def ESM_SAP_ALL_EBI : ℕ := 255

/-- An identity in the range of EPS bearer identities. -/
def EpsBearerIdentity : Type := { ebi : ℕ // ESM_EBI_MIN ≤ ebi ∧ ebi ≤ ESM_EBI_MAX }

/-- `_eps_bearer_release`. -/
def epsBearerRelease (user : NasUser) (ebi pid bid : ℕ) : Option (Rc × NasUser) := do
  let (ebi, user) ← esmEbrContextRelease user ebi pid bid
  if ebi = ESM_EBI_UNASSIGNED then return (.error, user)
  else do
    let (rc, user) ← esmEbrSetStatus user ebi .inactive
    if rc ≠ .ok then return (rc, user) else esmEbrRelease user ebi

/-- The loop over the PDN connections when all bearers are released. -/
def releaseAll : List ℕ → Rc → NasUser → Option (Rc × NasUser)
  | [], rc, user => some (rc, user)
  | pid :: pids, rc, user =>
    match (user.esmData.pdn pid).data with
    | none => releaseAll pids rc user
    | some _ => do
      let (rc, user) ← epsBearerRelease user ESM_EBI_UNASSIGNED pid 0
      if rc ≠ .ok then return (rc, user) else releaseAll pids rc user

/-- The loop that looks for a bearer without a test for null. -/
def checkActive (pdn : EsmPdn) (ebi : ℕ) : Rc → List ℕ → Option Rc
  | rc, [] => some rc
  | rc, i :: is =>
    match pdn.entry i with
    | none | some none => none
    | some (some ebr) => checkActive pdn ebi (if ebr.ebi ≠ ebi then rc else .ok) is

/-- The arguments `pid` and `bid` are read where no identity is searched for. -/
def esmProcEpsBearerContextDeactivate (user : NasUser) (isLocal : Bool) (ebi pid bid : ℕ) :
    Option (Rc × NasUser) :=
  if isLocal then
    if ebi ≠ ESM_SAP_ALL_EBI then epsBearerRelease user ebi pid bid
    else releaseAll (List.range ESM_DATA_PDN_MAX) .error user
  else if pid < ESM_DATA_PDN_MAX ∧ (user.esmData.pdn pid).pid = pid ∧ (user.esmData.pdn pid).isActive then
    match (user.esmData.pdn pid).data with
    | none => some (.error, user)
    | some pdn => (checkActive pdn ebi .error (List.range pdn.nBearers.toNat)).map fun rc ↦ (rc, user)
  else some (.error, user)

def esmProcEpsBearerContextDeactivateRequest (user : NasUser) (ebi : ℕ) : Option (Rc × NasUser) := do
  let (released, user) ← esmEbrContextRelease user ebi 0 0
  return (if released = ESM_EBI_UNASSIGNED then .error else .ok, user)

/-- The message is handed over to the lower layer when `sent`. -/
def esmProcEpsBearerContextDeactivateAccept (user : NasUser) (ebi : ℕ) (sent : Bool) :
    Option (Rc × NasUser) :=
  if sent then do
    let (rc, user) ← esmEbrSetStatus user ebi .inactive
    if rc ≠ .ok then return (.ok, user) else esmEbrRelease user ebi
  else some (.error, user)

/-- What a request does first: the identity is assigned, or its bearer is released to assign it again. The
result is the return code so far and the identity. -/
def assignIdentity (user : NasUser) (ebi cid : ℕ) (defaultEbr : Bool) : Option (Rc × ℕ × NasUser) := do
  let (newEbi, user) ← esmEbrAssign user ebi cid defaultEbr
  if newEbi ≠ ESM_EBI_UNASSIGNED then return (.error, ebi, user)
  else do
    let (rc, user) ← esmProcEpsBearerContextDeactivate user true ebi 0 0
    if rc ≠ .ok then return (rc, ebi, user)
    else do
      let (ebi, user) ← esmEbrAssign user ebi cid defaultEbr
      return (rc, ebi, user)

def esmProcDefaultEpsBearerContextRequest (user : NasUser) (pid ebi : ℕ) : Option (Rc × NasUser) := do
  let (rc, ebi, user) ← assignIdentity user ebi (pid + 1) true
  if ebi ≠ ESM_EBI_UNASSIGNED then do
    let (ebi, esmData) ← esmEbrContextCreate user.esmData pid ebi true none
    return (if ebi ≠ ESM_EBI_UNASSIGNED then .ok else rc, user.setData esmData)
  else return (rc, user)

def esmProcDedicatedEpsBearerContextRequest (user : NasUser) (ebi defaultEbi : ℕ) (tft : Option NetworkTft) :
    Option (Rc × NasUser) :=
  match esmEbrContextGetPid user.esmData defaultEbi with
  | none => some (.error, user)
  | some pid => do
    let (rc, ebi, user) ← assignIdentity user ebi (pid + 1) false
    if ebi ≠ ESM_EBI_UNASSIGNED then do
      let rc ← esmEbrContextCheckTft user.esmData pid ebi tft .create
      if rc ≠ .ok then return (rc, user)
      else do
        -- when no bearer is created, the result of the check stays
        let (_, esmData) ← esmEbrContextCreate user.esmData pid ebi false tft
        return (.ok, user.setData esmData)
    else return (rc, user)

/-- The accept of both activations. -/
def activationAccept (user : NasUser) (ebi : ℕ) (sent : Bool) : Option (Rc × NasUser) :=
  if sent then do
    let (_, user) ← esmEbrSetStatus user ebi .active
    return (.ok, user)
  else some (.error, user)

def esmProcDefaultEpsBearerContextAccept : NasUser → ℕ → Bool → Option (Rc × NasUser) := activationAccept

def esmProcDedicatedEpsBearerContextAccept : NasUser → ℕ → Bool → Option (Rc × NasUser) := activationAccept

/-- The reject of both activations. The message that follows does not change the tables. -/
def activationReject (user : NasUser) (ebi : ℕ) : Option (Rc × NasUser) := do
  if ← esmEbrIsNotInUse user ebi then return (.ok, user) else esmEbrRelease user ebi

def esmProcDefaultEpsBearerContextReject : NasUser → ℕ → Option (Rc × NasUser) := activationReject

def esmProcDedicatedEpsBearerContextReject : NasUser → ℕ → Option (Rc × NasUser) := activationReject

/-- `_pdn_connectivity_create`: the entry of a PDN connection that is not active. -/
def pdnConnectivityCreate (esmData : EsmData) (pid : ℕ) : Rc × EsmData :=
  if pid ≥ ESM_DATA_PDN_MAX then (.error, esmData)
  else if (esmData.pdn pid).isActive then (.error, esmData)
  else
    match (esmData.pdn pid).data with
    | some _ => (.ok, esmData)
    | none => (.ok, esmData.setPdn pid ⟨pid, false, some ⟨0, fun _ ↦ none⟩⟩)

/-- A procedure, with the outcome of sending its last message. -/
inductive EsmProcedure
  | pdnConnectivity (pid : ℕ)
  | defaultBearer (pid : ℕ) (ebi : EpsBearerIdentity) (sent : Bool)
  | dedicatedBearer (ebi : EpsBearerIdentity) (defaultEbi : ℕ) (tft : NetworkTft) (sent : Bool)
  | networkDeactivation (ebi : EpsBearerIdentity) (sent : Bool)
  | localDeactivation (ebi : EpsBearerIdentity)

/-- The accept follows a request that succeeds, the reject one that fails. An identity that is not in use is
deactivated by the accept alone. -/
def perform (user : NasUser) : EsmProcedure → Option NasUser
  | .pdnConnectivity pid => some (user.setData (pdnConnectivityCreate user.esmData pid).2)
  | .defaultBearer pid ebi sent => do
    let (rc, user) ← esmProcDefaultEpsBearerContextRequest user pid ebi.1
    let (_, user) ← if rc = .ok then esmProcDefaultEpsBearerContextAccept user ebi.1 sent
      else esmProcDefaultEpsBearerContextReject user ebi.1
    return user
  | .dedicatedBearer ebi defaultEbi tft sent => do
    let (rc, user) ← esmProcDedicatedEpsBearerContextRequest user ebi.1 defaultEbi (some tft)
    let (_, user) ← if rc = .ok then esmProcDedicatedEpsBearerContextAccept user ebi.1 sent
      else esmProcDedicatedEpsBearerContextReject user ebi.1
    return user
  | .networkDeactivation ebi sent => do
    if ← esmEbrIsNotInUse user ebi.1 then do
      let (_, user) ← esmProcEpsBearerContextDeactivateAccept user ebi.1 sent
      return user
    else do
      let (rc, user) ← esmProcEpsBearerContextDeactivateRequest user ebi.1
      if rc = .ok then do
        let (_, user) ← esmProcEpsBearerContextDeactivateAccept user ebi.1 sent
        return user
      else return user
  | .localDeactivation ebi => do
    let (_, user) ← esmProcEpsBearerContextDeactivate user true ebi.1 0 0
    return user

end EdgeSlice.Nas
