import EdgeSlice.IdTable
import EdgeSlice.Traced

namespace EdgeSlice.Sdn

open Function

abbrev Address := List Char

inductive Direction
  | source
  | destination
  deriving DecidableEq

/-- The Ethernet type of a flow, with the IP match of the type 2048. -/
inductive FlowType
  | arp
  | ipv4 (direction : Direction) (address : Address)
  deriving DecidableEq

inductive Action
  | output (port : ℕ)
  | group (id : ℕ)
  deriving DecidableEq

structure Flow where
  type : FlowType
  inPort : ℕ
  meter : ℕ
  action : Action
  priority : ℕ
  deriving DecidableEq

structure Meter where
  bandRate : ℤ
  bandBurstSize : ℕ
  dropRate : ℤ
  dropBurstSize : ℕ
  deriving DecidableEq

/-- What the configuration datastore holds for one switch. -/
structure SwitchConfig where
  flows : IdTable Flow
  meters : IdTable Meter
  groups : ℕ → Option (List ℕ)

namespace SwitchConfig

def empty : SwitchConfig := ⟨.empty, .empty, fun _ ↦ none⟩

def deleteFlow (g : SwitchConfig) (id : ℕ) : SwitchConfig := { g with flows := g.flows.erase id }

def deleteMeter (g : SwitchConfig) (id : ℕ) : SwitchConfig := { g with meters := g.meters.erase id }

def putMeter (g : SwitchConfig) (id : ℕ) (x : Meter) : SwitchConfig :=
  { g with meters := g.meters.put id x }

def putGroup (g : SwitchConfig) (id : ℕ) (ports : List ℕ) : SwitchConfig :=
  { g with groups := update g.groups id (some ports) }

/-- The flow of `add_flow_with_meter`, at the first free number of its meter's window or
behind it. -/
def addFlow (maxFlows : ℕ) (g : SwitchConfig) (f : Flow) : SwitchConfig :=
  { g with flows := g.flows.add (1 + maxFlows * (f.meter - 1)) f }

end SwitchConfig

/-- The configuration datastore, by the number of the switch in the list `switch`. -/
abbrev Datastore := ℕ → SwitchConfig

/-- The datastore, with its contents before and after every request that changed it. -/
abbrev Controller := Traced Datastore

namespace Controller

/-- A request that changes the configuration of one switch. -/
def request (c : Controller) (s : ℕ) (change : SwitchConfig → SwitchConfig) : Controller :=
  c.step (update c.now s (change (c.now s)))

def clear (c : Controller) (s : ℕ) : Controller := c.request s (fun _ ↦ .empty)

def addMeter (c : Controller) (s : ℕ) (kbps : ℤ) : ℕ × Controller :=
  let meterNum := (c.now s).meters.firstFree 1
  (meterNum, c.request s (·.putMeter meterNum ⟨kbps, 100, kbps, 100⟩))

/-- The loop of `delete_meter` and `modify_meter` over the flow numbers. Every flow that
this controller writes has a meter, so that only the number of the meter decides. -/
def deleteFlows (maxFlows s meter : ℕ) : ℕ → ℕ → ℕ → Controller → Controller
  | 0, _, _, c => c
  | fuel + 1, outCount, curFlow, c =>
    if outCount < maxFlows + 1 then
      match (c.now s).flows.get curFlow with
      | some f =>
        if f.meter = meter then
          deleteFlows maxFlows s meter fuel outCount (curFlow + 1) (c.request s (·.deleteFlow curFlow))
        else deleteFlows maxFlows s meter fuel (outCount + 1) (curFlow + 1) c
      | none => deleteFlows maxFlows s meter fuel (outCount + 1) (curFlow + 1) c
    else c

/-- `delete_meter`, which leaves the meter itself. -/
def deleteMeter (maxFlows : ℕ) (c : Controller) (s meter : ℕ) : Controller :=
  deleteFlows maxFlows s meter ((c.now s).flows.bound + maxFlows + 1) 0
    (1 + maxFlows * (meter - 1)) c

def modifyMeter (maxFlows : ℕ) (c : Controller) (s meter : ℕ) (kbps : ℤ) : Controller :=
  (deleteMeter maxFlows (c.request s (·.deleteMeter meter)) s meter).request s
    (·.putMeter meter ⟨kbps, 100, kbps, 1000⟩)

def addFlowWithMeter (maxFlows : ℕ) (c : Controller) (s : ℕ) (f : Flow) : Controller :=
  c.request s (·.addFlow maxFlows f)

end Controller

end EdgeSlice.Sdn
