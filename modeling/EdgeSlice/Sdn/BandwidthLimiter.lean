import EdgeSlice.Outcome
import EdgeSlice.Sdn.Controller

namespace EdgeSlice.Sdn.BandwidthLimiter

open Function

inductive Protocol
  | arp
  | ipv4
  | tcp
  | icmp

/-- A flow on a switch. An ARP flow has no address and no meter. -/
structure FlowEntry where
  protocol : Protocol
  inPort : ℕ
  outPort : ℕ
  address : Option (Direction × Address)
  meter : Option ℕ
  priority : ℕ

/-- A row of `f_l`. -/
structure FlowRecord where
  number : ℕ
  priority : ℕ
  protocol : Protocol
  inPort : ℕ
  outPort : ℕ
  meter : ℕ
  direction : Direction
  address : Address

structure Switch where
  meters : IdTable Meter
  flows : IdTable FlowEntry

def Switch.clear : Switch := ⟨.empty, .empty⟩

abbrev Switches := ℕ → Switch

/-- The lists of users. -/
structure Users where
  b1U : List Address
  b2U : List Address
  nodup : (b1U ++ b2U).Nodup

namespace Users

variable (us : Users)

def all : List Address := us.b1U ++ us.b2U

def nou : ℕ := us.all.length

def maxNumMeters : ℕ := 1024 / us.nou

def flowRows : ℕ := 512 / us.nou

end Users

/-- The length of the list `switch`. -/
def switches : ℕ := 5

def addMeter (d : Switches) (s : ℕ) (kbps : ℤ) : ℕ × Switches :=
  let meterNum := (d s).meters.firstFree 1
  (meterNum,
    update d s { d s with meters := (d s).meters.put meterNum ⟨kbps, 100, kbps, 100⟩ })

def modifyMeter (d : Switches) (s meter : ℕ) (kbps : ℤ) : Switches :=
  update d s
    { d s with meters := ((d s).meters.erase meter).put meter ⟨kbps, 100, kbps, 1000⟩ }

def flowEntry (protocol : Protocol) (inPort outPort : ℕ) (address : Address) (meter : ℕ)
    (direction : Direction) (priority : ℕ) : FlowEntry :=
  match protocol with
  | .arp => ⟨.arp, inPort, outPort, none, none, priority⟩
  | _ => ⟨protocol, inPort, outPort, some (direction, address), some meter, priority⟩

/-- The four flows of `add_flow_with_meter`, each at the first free number behind the one
before. -/
def addProtocols (d : Switches) (s inPort outPort : ℕ) (address : Address) (meter : ℕ)
    (direction : Direction) (priority : ℕ) : ℕ → List Protocol → List FlowRecord × Switches
  | _, [] => ([], d)
  | start, protocol :: protocols =>
    let number := (d s).flows.firstFree start
    let entry := flowEntry protocol inPort outPort address meter direction priority
    let rest := addProtocols (update d s { d s with flows := (d s).flows.put number entry })
      s inPort outPort address meter direction priority (number + 1) protocols
    (⟨number, priority + protocols.length, protocol, inPort, outPort, meter, direction, address⟩ ::
      rest.1, rest.2)

/-- The seventh argument is a list here, so that the priority is 80, and 81 for base
station 2. -/
def addFlowWithMeter (d : Switches) (s inPort outPort : ℕ) (address : Address) (meter : ℕ)
    (direction : Direction) (bNum : ℕ) : List FlowRecord × Switches :=
  addProtocols d s inPort outPort address meter direction (if bNum = 0 then 81 else 80)
    ((d s).flows.firstFree 1) [.arp, .ipv4, .tcp, .icmp]

/-- The loop of `add_f_l` over the rows of one user on one switch. -/
def fillRows : List (Option FlowRecord) → List FlowRecord → List (Option FlowRecord)
  | rows, [] => rows
  | [], _ :: _ => []
  | some row :: rows, record :: records => some row :: fillRows rows (record :: records)
  | none :: rows, record :: records => some record :: fillRows rows records

/-- The rows of one topology, by user and switch. -/
abbrev FlowList := ℕ → ℕ → List (Option FlowRecord)

def addFL (fL : FlowList) (u s : ℕ) (records : List FlowRecord) : FlowList :=
  update fL u (update (fL u) s (fillRows (fL u s) records))

/-- The two paths of one user in `create_topology`, on the switch `switch[2]`. -/
def createPaths (mL : ℕ → ℕ → ℕ) (bNum : ℕ) (x : FlowList × Switches) (u : ℕ) (a : Address) :
    FlowList × Switches :=
  let up := addFlowWithMeter x.2 2 11 5 a (mL u 2) .source bNum
  let down := addFlowWithMeter up.2 2 5 11 a (mL u 2) .destination bNum
  (addFL (addFL x.1 u 2 up.1) u 2 down.1, down.2)

def createTopology (us : Users) (fL : FlowList) (mL : ℕ → ℕ → ℕ) (d : Switches) :
    FlowList × Switches :=
  let x := us.b1U.zipIdx.foldl (fun x p ↦ createPaths mL 1 x p.2 p.1) (fL, d)
  us.b2U.zipIdx.foldl (fun x p ↦ createPaths mL 0 x (p.2 + us.b1U.length) p.1) x

/-- The variables of the script. `mL` has the first meter of each topology, user and
switch. -/
structure State where
  datastore : Switches
  mL : ℕ → ℕ → ℕ → ℕ
  fL : ℕ → FlowList
  topNum : ℕ

namespace Users

variable (us : Users)

def setUpMeters (d : Switches) : (ℕ → ℕ → ℕ → ℕ) × Switches :=
  (List.range 2).foldl (fun x e ↦
    (List.range us.nou).foldl (fun x u ↦
      (List.range switches).foldl (fun x s ↦
        let added := addMeter x.2 s 40000
        (update x.1 e (update (x.1 e) u (update (x.1 e u) s added.1)), added.2)) x) x)
    (fun _ _ _ ↦ 0, d)

/-- The script up to the control loop. It divides by `nou`, and `m_l` has no entries when
there are no meters for a user. -/
def setUp (d : Switches) : Option State :=
  if us.nou = 0 ∨ us.maxNumMeters = 0 then none
  else
    let meters := us.setUpMeters ((List.range switches).foldl (fun d s ↦ update d s .clear) d)
    let empty : FlowList := fun _ _ ↦ List.replicate us.flowRows none
    let topology := createTopology us empty (meters.1 0) meters.2
    some ⟨topology.2, meters.1, update (fun _ ↦ empty) 0 topology.1, 0⟩

/-- The search before the meters of the new topology are changed. Its outer loop starts
from 0 or from the end of `b2_u`, never from the next user of `b1_u`. -/
def search (a : Address) : ℕ → ℕ → Outcome (Option ℕ)
  | 0, _ => .running
  | fuel + 1, i =>
    if i < us.b1U.length then
      if us.b1U[i]? = some a then .done (some i)
      else
        match us.b2U.findIdx? (· = a) with
        | some j => .done (some (us.b1U.length + j))
        | none => search a fuel us.b2U.length
    else .done none

/-- The search before the meters of the old topology are changed. -/
def lookup (a : Address) : Option ℕ :=
  match us.b1U.findIdx? (· = a) with
  | some i => some i
  | none => (us.b2U.findIdx? (· = a)).map (us.b1U.length + ·)

/-- The rows of a meter are emptied. Without rows `temp[0][0][0]` is an `IndexError`. -/
def modifyFL (fL : FlowList) (meter : ℕ) : Outcome FlowList :=
  if us.flowRows = 0 then .error
  else .done fun u s ↦ (fL u s).map fun row ↦ row.filter (·.meter ≠ meter)

variable {β : Type*} (rate : β → ℤ)

/-- A meter gets its new rate, and rows of the flow list are emptied. -/
def change (st : State) (top s meter rows : ℕ) (bandwidth : β) : Outcome State :=
  (us.modifyFL (st.fL top) rows).bind fun fL ↦
    .done { st with
      datastore := modifyMeter st.datastore s meter (rate bandwidth)
      fL := update st.fL top fL }

/-- The first loop for the `u`-th entry of the request on one switch. -/
def changeNew (fuel top : ℕ) (param : List (Address × β)) (st : State) (x : ℕ × ℕ) :
    Outcome State :=
  match param[x.1]? with
  | none => if us.b1U = [] then .done st else .error
  | some (a, bandwidth) =>
    (us.search a fuel 0).bind fun check ↦
      match check with
      | none => .done st
      | some _ => us.change rate st top x.2 (st.mL top x.1 x.2) (st.mL top x.1 x.2) bandwidth

/-- The last loop for one user on one switch. All get the bandwidth `param[1]`. -/
def changeOld (top : ℕ) (bandwidth : β) (check : ℕ) (st : State) (s : ℕ) : Outcome State :=
  if st.mL top check s ≠ 0 then
    us.change rate st top s (st.mL top check s) (st.mL top (us.nou - 1) s) bandwidth
  else .done st

def changeEntry (top : ℕ) (bandwidth : β) (st : State) (x : Address × β) : Outcome State :=
  match us.lookup x.1 with
  | none => .done st
  | some check => Outcome.loop (us.changeOld rate top bandwidth check) st (List.range switches)

/-- The topology is created once more. -/
def recreate (top : ℕ) (st : State) : State :=
  let topology := createTopology us (st.fL top) (st.mL top) st.datastore
  { st with datastore := topology.2, fL := update st.fL top topology.1 }

/-- The last loop. -/
def changeAll (top : ℕ) (st : State) (param : List (Address × β)) : Outcome State :=
  match param with
  | [] => .done st
  | first :: _ => Outcome.loop (us.changeEntry rate top first.2) st param

/-- One iteration of the control loop. -/
def controlLoop (fuel : ℕ) (st : State) (param : List (Address × β)) : Outcome State :=
  let new := if st.topNum = 0 then 1 else 0
  let old := if st.topNum = 0 then 0 else 1
  (Outcome.loop (us.changeNew rate fuel new param) st
      ((List.range us.nou).product (List.range switches))).bind fun st ↦
    (us.changeAll rate old (us.recreate new st) param).bind fun st ↦
      .done { st with topNum := new }

end Users

end EdgeSlice.Sdn.BandwidthLimiter
