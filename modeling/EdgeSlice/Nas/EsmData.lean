import EdgeSlice.BreakLoop
import Mathlib.Data.Int.Notation
import Mathlib.Data.List.Range
import Mathlib.Data.Nat.Notation
import Mathlib.Logic.Function.Basic

/-! The data of EPS session management at the UE. -/

namespace EdgeSlice.Nas

/-- `network_pkf_t` without the address and port data. -/
structure NetworkPkf where
  id : UInt8
  precedence : UInt8
  deriving DecidableEq

/-- `network_tft_t`: the packet filters that have been allocated, `n_pkfs` of them. -/
structure NetworkTft where
  pkf : List NetworkPkf
  deriving DecidableEq

def NetworkTft.nPkfs (tft : NetworkTft) : ℕ := tft.pkf.length

structure EsmBearer where
  bid : ℕ
  ebi : ℕ
  tft : NetworkTft
  deriving DecidableEq

def ESM_DATA_EPS_BEARER_MAX : ℕ := 4

def ESM_DATA_EPS_BEARER_TOTAL : ℤ := 11

def ESM_DATA_PDN_MAX : ℕ := 4

/-- `esm_pdn_t`: the entries of `bearer` from `ESM_DATA_EPS_BEARER_MAX` on do not exist. -/
structure EsmPdn where
  nBearers : ℤ
  bearer : ℕ → Option EsmBearer

/-- Reading an entry of `bearer`; there is none past the array. -/
def EsmPdn.entry (pdn : EsmPdn) (i : ℕ) : Option (Option EsmBearer) :=
  if i < ESM_DATA_EPS_BEARER_MAX then some (pdn.bearer i) else none

structure PdnEntry where
  pid : ℕ
  isActive : Bool
  data : Option EsmPdn

/-- `esm_data_context_t`. -/
structure EsmData where
  nEbrs : ℤ
  pdn : ℕ → PdnEntry

/-- `RETURNok` and `RETURNerror`. -/
inductive Rc
  | ok
  | error
  deriving DecidableEq

end EdgeSlice.Nas

/-! The check of a new traffic flow template against the bearers of its PDN connection. -/

namespace EdgeSlice.Nas

inductive EsmEbrContextTft
  | create
  | delete
  | addPacket
  | replacePacket
  | deletePacket
  deriving DecidableEq

/-- The comparison in the loops of the two checks; a read of a filter that has not been allocated is a
fault. -/
def comparePkf (field : NetworkPkf → UInt8) (tft1 tft2 : NetworkTft) (i : ℕ) : Turn Unit :=
  match tft1.pkf[i]?, tft2.pkf[i]? with
  | some pkf1, some pkf2 => if field pkf1 = field pkf2 then .exit () else .next
  | _, _ => .fault

/-- The loops over `i` and `j`: the comparison uses `i` on both sides. -/
def comparePkfs (field : NetworkPkf → UInt8) (tft1 tft2 : NetworkTft) : Turn Unit :=
  Turn.run (fun i ↦ Turn.run (fun _ ↦ comparePkf field tft1 tft2 i) (List.range tft2.nPkfs))
    (List.range tft1.nPkfs)

/-- The shape of both checks. A null template has nothing to compare. -/
def checkField (field : NetworkPkf → UInt8) (tft1 tft2 : Option NetworkTft) : Option Rc :=
  match tft1, tft2 with
  | some tft1, some tft2 =>
    match comparePkfs field tft1 tft2 with
    | .next => some .ok
    | .exit _ => some .error
    | .fault => none
  | _, _ => some .ok

def esmEbrContextCheckIdentifiers : Option NetworkTft → Option NetworkTft → Option Rc :=
  checkField NetworkPkf.id

def esmEbrContextCheckPrecedence : Option NetworkTft → Option NetworkTft → Option Rc :=
  checkField NetworkPkf.precedence

/-- One EPS bearer context in the loop of the check. -/
def checkBearer (tft : Option NetworkTft) (ebi : ℕ) (bearer : EsmBearer) : Option Rc :=
  if bearer.ebi = ebi then
    (esmEbrContextCheckIdentifiers tft (some bearer.tft)).bind fun rc ↦
      if rc ≠ .ok then some rc else esmEbrContextCheckPrecedence tft (some bearer.tft)
  else esmEbrContextCheckPrecedence tft (some bearer.tft)

/-- The loop over the entries of `bearer`, with the return code so far. -/
def checkBearers (tft : Option NetworkTft) (ebi : ℕ) (pdn : EsmPdn) : Rc → List ℕ → Option Rc
  | rc, [] => some rc
  | rc, i :: is =>
    (pdn.entry i).bind fun
      | none => checkBearers tft ebi pdn rc is
      | some bearer =>
        (checkBearer tft ebi bearer).bind fun rc ↦
          if rc ≠ .ok then some rc else checkBearers tft ebi pdn rc is

/-- `none` is a read of something that has not been allocated. -/
def esmEbrContextCheckTft (esmData : EsmData) (pid ebi : ℕ) (tft : Option NetworkTft)
    (operation : EsmEbrContextTft) : Option Rc :=
  if pid < ESM_DATA_PDN_MAX then
    if pid ≠ (esmData.pdn pid).pid then some .error
    else
      match (esmData.pdn pid).data with
      | none => some .error
      | some pdn =>
        if operation = .create then checkBearers tft ebi pdn .error (List.range pdn.nBearers.toNat)
        else some .error
  else some .error

end EdgeSlice.Nas
