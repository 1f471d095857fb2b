import EdgeSlice.Mac.Slices
import Mathlib.Logic.Function.Basic
import Mathlib.Tactic.Ring

namespace EdgeSlice.Mac

open Function

/-- `N_RBG_MAX`, the length of the arrays indexed by a resource block group. -/
def nRbgMax : ℕ := 25

/-- The downlink bandwidths that `init_frame_parms` accepts. -/
inductive Bandwidth
  | rb6 | rb15 | rb25 | rb50 | rb75 | rb100
  deriving DecidableEq

namespace Bandwidth

def nRbDl : Bandwidth → ℕ
  | rb6 => 6 | rb15 => 15 | rb25 => 25 | rb50 => 50 | rb75 => 75 | rb100 => 100

def nRbg : Bandwidth → ℕ
  | rb6 => 6 | rb15 => 8 | rb25 => 13 | rb50 => 17 | rb75 => 25 | rb100 => 25

/-- `RBGsize` of `dlsch_scheduler_pre_processor_reset`. -/
def rbgSize : Bandwidth → ℕ
  | rb6 => 1 | rb15 => 2 | rb25 => 2 | rb50 => 3 | rb75 => 4 | rb100 => 4

def rbgSizeLast : Bandwidth → ℕ
  | rb6 => 1 | rb15 => 1 | rb25 => 1 | rb50 => 2 | rb75 => 3 | rb100 => 4

def rbSize (b : Bandwidth) (k : ℤ) : ℕ := if k = b.nRbg - 1 then b.rbgSizeLast else b.rbgSize

theorem nRbDl_le (b : Bandwidth) : b.nRbDl ≤ 100 := by cases b <;> decide

theorem nRbg_le (b : Bandwidth) : b.nRbg ≤ nRbgMax := by cases b <;> decide

end Bandwidth

/-- `get_min_rb_unit`, with its default for the bandwidths it does not know. -/
def getMinRbUnit (nRbDl : ℕ) : ℤ :=
  match nRbDl with
  | 6 => 1
  | 25 => 2
  | 50 => 3
  | 100 => 4
  | _ => 2

theorem getMinRbUnit_bounds (n : ℕ) : 1 ≤ getMinRbUnit n ∧ getMinRbUnit n ≤ 4 := by
  unfold getMinRbUnit
  split <;> decide

/-- What the downlink pre-processor reads of `UE_list` and of the PHY.
`ues` is the order in which `head` and `next` visit the list. -/
structure EnbMac where
  numberOfUeMax : ℕ
  ues : List ℕ
  ues_nodup : ues.Nodup
  active : ℕ → Bool
  pCCid : ℕ → ℕ
  rnti : ℕ → ℕ → ℕ
  orderedCCids : ℕ → List ℕ
  orderedCCids_nodup : ∀ ue, (orderedCCids ue).Nodup
  ulOutOfSync : ℕ → ℤ
  ueStatsExist : ℕ → ℕ → Bool
  transmissionMode : ℕ → ℕ → ℤ

namespace EnbMac

variable (mac : EnbMac)

/-- `UE_RNTI`; `NOT_A_RNTI` is zero. -/
def ueRnti (ue : ℕ) : ℕ := mac.rnti (mac.pCCid ue) ue

def findUeId (rnti : ℕ) : Option ℕ :=
  (List.range mac.numberOfUeMax).find? (fun ue ↦ mac.active ue && mac.ueRnti ue == rnti)

def phyStatsExist (rnti : ℕ) : Bool :=
  match mac.findUeId rnti with
  | none => false
  | some ue =>
    if (mac.orderedCCids ue).length = 0 then false
    else (mac.orderedCCids ue).all (fun cc ↦ mac.ueStatsExist cc rnti)

/-- The three `continue` guards that every loop over the list repeats. -/
def served (ue : ℕ) : Bool :=
  mac.ueRnti ue != 0 && mac.ulOutOfSync ue != 1 && mac.phyStatsExist (mac.ueRnti ue)

end EnbMac

/-- The fields of `UE_sched_ctrl` that the pre-processor writes, per carrier. -/
structure UeSchedCtrl where
  rballocSubUE : ℕ → ℤ → ℕ
  preNbAvailableRbs : ℕ → ℕ
  dlPowOff : ℕ → ℕ

/-- The arrays shared by all UEs while one subframe is scheduled. `touched`
records the groups whose entries were accessed, the latest first. -/
structure DlState where
  nbRbsRequiredRemaining : ℕ → ℕ → ℕ
  rballocSub : ℕ → ℤ → ℕ
  mimoModeIndicator : ℕ → ℤ → ℕ
  ueSchedCtrl : ℕ → UeSchedCtrl
  touched : List (ℕ × ℤ)

def DlState.setUe (st : DlState) (ue : ℕ) (f : UeSchedCtrl → UeSchedCtrl) : DlState :=
  { st with ueSchedCtrl := update st.ueSchedCtrl ue (f (st.ueSchedCtrl ue)) }

/-- What the four array writes of a grant do, together with the two 16-bit
counters. -/
def DlState.grant (st : DlState) (unit : ℤ) (cc ue : ℕ) (k : ℤ) : DlState :=
  { st with
    rballocSub := update st.rballocSub cc (update (st.rballocSub cc) k 1)
    mimoModeIndicator := update st.mimoModeIndicator cc (update (st.mimoModeIndicator cc) k 1)
    nbRbsRequiredRemaining := update st.nbRbsRequiredRemaining cc
      (update (st.nbRbsRequiredRemaining cc) ue
        (uint16 (st.nbRbsRequiredRemaining cc ue - unit)))
  }.setUe ue (fun c ↦
    { c with
      rballocSubUE := update c.rballocSubUE cc (update (c.rballocSubUE cc) k 1)
      preNbAvailableRbs := update c.preNbAvailableRbs cc
        (uint16 (c.preNbAvailableRbs cc + unit)) })

/-- One turn of the innermost loop of `dlsch_my_scheduler_pre_processor`. An
index outside the arrays is undefined behaviour, here `none`. -/
def allocateRbg (unit : ℤ) (cc ue : ℕ) (st : DlState) (k : ℤ) : Option DlState :=
  if 0 ≤ k ∧ k < nRbgMax then
    let st := { st with touched := (cc, k) :: st.touched }
    if st.rballocSub cc k = 0 ∧ 0 < st.nbRbsRequiredRemaining cc ue then
      some (st.grant unit cc ue k)
    else some st
  else none

/-- The indices from `start` below `start + count`. -/
def window (start count : ℤ) : List ℤ := (List.range count.toNat).map (fun j : ℕ ↦ start + j)

/-- The groups kept free of user data in subframe 0, around the carrier
centre. -/
def sf0Limits (nRbg : ℕ) : Option (ℤ × ℤ) :=
  match nRbg with
  | 6 => some (0, 5)
  | 8 => some (2, 5)
  | 13 => some (4, 7)
  | 17 => some (7, 9)
  | 25 => some (11, 13)
  | _ => none

/-- `dlsch_scheduler_pre_processor_reset` for one UE on one carrier; `none` is
its `abort`. `vrbMap` marks the blocks of the common channels. -/
def dlschSchedulerPreProcessorReset (b : Bandwidth) (subframe : ℕ) (vrbMap : ℤ → ℕ) (cc ue : ℕ)
    (nbRbsRequired : ℕ → ℕ → ℕ) (st : DlState) : Option ((ℕ → ℕ → ℕ) × DlState) := do
  let (sf0Lower, sf0Upper) ← sf0Limits b.nRbg
  let inCarrier (i : ℤ) : Bool := 0 ≤ i ∧ i < b.nRbg
  let common (i : ℤ) : Bool :=
    (subframe == 0 && sf0Lower ≤ i && i ≤ sf0Upper) ||
      (List.range (b.rbSize i)).any (fun j ↦ vrbMap (j + i * b.rbgSize) != 0)
  let clear {α : Type} (row : ℤ → α) (value : ℤ → α) : ℤ → α :=
    fun i ↦ if inCarrier i then value i else row i
  some (update nbRbsRequired cc (update (nbRbsRequired cc) ue 0), { st with
    nbRbsRequiredRemaining := update st.nbRbsRequiredRemaining cc
      (update (st.nbRbsRequiredRemaining cc) ue 0)
    rballocSub := update st.rballocSub cc
      (clear (st.rballocSub cc) (fun i ↦ if common i then 1 else 0))
    mimoModeIndicator := update st.mimoModeIndicator cc
      (clear (st.mimoModeIndicator cc) (fun _ ↦ 2))
  }.setUe ue (fun c ↦
    { rballocSubUE := update c.rballocSubUE cc (clear (c.rballocSubUE cc) (fun _ ↦ 0))
      preNbAvailableRbs := update c.preNbAvailableRbs cc 0
      dlPowOff := update c.dlPowOff cc 2 }))

/-- One turn of the loop of `dlsch_scheduler_pre_processor_allocate`. -/
def allocatePlainRbg (b : Bandwidth) (transmissionMode : ℤ) (minRbUnit : ℤ)
    (nbRbsRequired : ℕ → ℕ → ℕ) (cc ue : ℕ) (st : DlState) (i : ℤ) : DlState :=
  if st.rballocSub cc i = 0 ∧ (st.ueSchedCtrl ue).rballocSubUE cc i = 0 ∧
      0 < st.nbRbsRequiredRemaining cc ue ∧
      (st.ueSchedCtrl ue).preNbAvailableRbs cc < nbRbsRequired cc ue ∧
      (st.ueSchedCtrl ue).dlPowOff cc ≠ 0 then
    let amount := if i = b.nRbg - 1 ∧ (b.nRbDl = 25 ∨ b.nRbDl = 50)
      then minRbUnit - 1 else minRbUnit
    if amount ≤ st.nbRbsRequiredRemaining cc ue then
      let st := st.grant amount cc ue i
      if transmissionMode = 5 then st.setUe ue (fun c ↦ { c with dlPowOff := update c.dlPowOff cc 1 })
      else st
    else st
  else st

def dlschSchedulerPreProcessorAllocate (b : Bandwidth) (transmissionMode : ℤ) (minRbUnit : ℤ)
    (nbRbsRequired : ℕ → ℕ → ℕ) (cc ue : ℕ) (st : DlState) : DlState :=
  (window 0 b.nRbg).foldl (allocatePlainRbg b transmissionMode minRbUnit nbRbsRequired cc ue) st

variable (mac : EnbMac) (slices : GlobalInfos) (minRbUnit : ℕ → ℤ) (nbRbsRequired : ℕ → ℕ → ℕ)

/-- `assigned_dRB`; the division truncates toward zero. -/
def assignedDRB (ue : ℕ) : ℤ := (ueRntiProcessFunctionDownlink slices ue).tdiv 3

/-- The body of the loop over the carriers of one UE. -/
def allocateCarrier (start : ℤ) (ue : ℕ) (st : DlState) (cc : ℕ) : Option DlState :=
  let st := { st with
    nbRbsRequiredRemaining := update st.nbRbsRequiredRemaining cc
      (update (st.nbRbsRequiredRemaining cc) ue (nbRbsRequired cc ue)) }
  let st := if mac.transmissionMode cc (mac.ueRnti ue) = 5
    then st.setUe ue (fun c ↦ { c with dlPowOff := update c.dlPowOff cc 1 }) else st
  (window start (assignedDRB slices ue)).foldlM (allocateRbg (minRbUnit cc) cc ue) st

/-- The body of the loop over the UE list; the integer is `RBG_start_index`,
which advances for the UEs that are served only. -/
def allocateUe (acc : DlState × ℤ) (ue : ℕ) : Option (DlState × ℤ) :=
  if mac.served ue then do
    let st ← (mac.orderedCCids ue).foldlM
      (allocateCarrier mac slices minRbUnit nbRbsRequired acc.2 ue) acc.1
    some (st, acc.2 + assignedDRB slices ue)
  else some acc

def dlschMySchedulerPreProcessor (st : DlState) : Option DlState :=
  (mac.ues.foldlM (allocateUe mac slices minRbUnit nbRbsRequired) (st, 0)).map Prod.fst

theorem dlschSchedulerPreProcessorReset_clears (b : Bandwidth) (subframe : ℕ) (vrbMap : ℤ → ℕ)
    (cc ue : ℕ) (nbRbsRequired : ℕ → ℕ → ℕ) (st : DlState) :
    ∃ r, dlschSchedulerPreProcessorReset b subframe vrbMap cc ue nbRbsRequired st = some r ∧
      r.1 cc ue = 0 ∧ (r.2.ueSchedCtrl ue).preNbAvailableRbs cc = 0 ∧
      ∀ k, 0 ≤ k → k < b.nRbg → (r.2.ueSchedCtrl ue).rballocSubUE cc k = 0 := by
  obtain ⟨limits, hlimits⟩ : ∃ limits, sf0Limits b.nRbg = some limits := by
    cases b <;> exact ⟨_, rfl⟩
  unfold dlschSchedulerPreProcessorReset
  rw [hlimits]
  refine ⟨_, rfl, by simp, by simp [DlState.setUe], ?_⟩
  intro k hk hk'
  simp [DlState.setUe, hk']

end EdgeSlice.Mac
