import EdgeSlice.Mac.Slices
import EdgeSlice.Mac.DciFeasibility
import Mathlib.Logic.Function.Basic

namespace EdgeSlice.Mac

open Function

/-- `rb_table`, the numbers of resource blocks an uplink grant may have. -/
def rbTable : Vector ℕ 33 :=
  #v[1, 2, 3, 4, 5, 6, 8, 9, 10, 12, 15, 16, 18, 20, 24, 25, 27, 30, 32, 36, 40, 45, 48, 50, 54, 60,
    72, 75, 80, 81, 90, 96, 100]

theorem rbTable_pos (k : Fin 33) : 0 < rbTable.get k := by revert k; decide

/-- The fields of `UE_TEMPLATE` that uplink scheduling and the sort keys use. The index
into `rb_table` is `none` where the source has -1. -/
structure UeTemplate where
  oldNdi : ℕ → ℕ
  oldNdiUl : ℕ → ℕ
  ulActive : Bool
  nbRbUl : ℕ → ℕ
  preAllocatedNbRbUl : ℕ
  preAllocatedRbTableIndexUl : Option (Fin 33)
  preAssignedMcsUl : ℕ
  ulSr : ℕ
  bsrInfo : Fin 4 → Fin 64
  lcgidmap : ℕ → Fin 4
  phrInfo : ℤ
  ueTxPower : ℤ
  dlBufferInfo : ℕ → ℕ
  dlBufferTotal : ℕ
  dlBufferHeadSduCreationTimeMax : ℕ
  ulTotalBuffer : ℕ
  ulBufferInfo : Fin 4 → ℕ

/-- The fields of `UE_sched_ctrl` that uplink scheduling and the sort keys use. -/
structure UeUlSchedCtrl where
  round : ℕ → ℕ
  ulInactivityTimer : ℤ
  ulFailureTimer : ℤ
  ulScheduled : ℕ
  ulOutOfSync : ℤ
  phrReceived : ℤ

/-- The contents of zeroed memory. -/
def UeTemplate.zeroed : UeTemplate where
  oldNdi _ := 0
  oldNdiUl _ := 0
  ulActive := false
  nbRbUl _ := 0
  preAllocatedNbRbUl := 0
  preAllocatedRbTableIndexUl := some 0
  preAssignedMcsUl := 0
  ulSr := 0
  bsrInfo _ := 0
  lcgidmap _ := 0
  phrInfo := 0
  ueTxPower := 0
  dlBufferInfo _ := 0
  dlBufferTotal := 0
  dlBufferHeadSduCreationTimeMax := 0
  ulTotalBuffer := 0
  ulBufferInfo _ := 0

/-- What `add_new_ue` writes into the template of a slot. -/
def UeTemplate.added (harqPid : ℕ) (t : UeTemplate) : UeTemplate :=
  { t with
    oldNdi := fun j ↦ if j < 8 then (if j = 0 then 1 else 0) else t.oldNdi j
    oldNdiUl := fun j ↦ if j < 8 then (if j = harqPid then 0 else 1) else t.oldNdiUl j }

def UeUlSchedCtrl.zeroed : UeUlSchedCtrl where
  round _ := 0
  ulInactivityTimer := 0
  ulFailureTimer := 0
  ulScheduled := 0
  ulOutOfSync := 0
  phrReceived := 0

/-- Which UE is where. A slot with an RNTI on its primary carrier is active. -/
structure UeDirectory where
  numberOfUeMax : ℕ
  active : ℕ → Bool
  pCcId : ℕ → ℕ
  orderedCcIds : ℕ → List ℕ
  orderedUlCcIds : ℕ → List ℕ
  rnti : ℕ → ℕ → ℕ
  configured : ℕ → ℕ → Bool
  active_of_rnti : ∀ ue, ue < numberOfUeMax → rnti (pCcId ue) ue ≠ 0 → active ue = true

structure UeList extends UeDirectory where
  ueTemplate : ℕ → ℕ → UeTemplate
  ueSchedCtrl : ℕ → UeUlSchedCtrl

structure EnbUeStats where
  pusch : Bool
  dlCqi : Fin 16

/-- What the scheduler asks of the PHY and of the RRC. `activeHarq` is
`get_ue_active_harq_pid` for the uplink: a process and its round. -/
structure EnbPhy where
  maxNumCcs : ℕ
  nRbUl : ℕ → ℕ
  bwIndex : ℕ → Fin 4
  getNcceMax : ℕ → ℕ → ℕ → ℕ
  ueStats : ℕ → ℕ → Option EnbUeStats
  activeHarq : ℕ → ℕ → Option (ℕ × ℕ)
  getTbsUl : ℕ → ℕ → ℕ
  estimateUeTxPower : ℕ → ℕ → ℕ → ℤ
  rrcConnected : ℕ → Bool

theorem exists_lcg {P : Fin 4 → Prop} : (∃ g, P g) ↔ P 0 ∨ P 1 ∨ P 2 ∨ P 3 := by
  constructor
  · rintro ⟨⟨_ | _ | _ | _ | k, hk⟩, hg⟩
    · exact .inl hg
    · exact .inr (.inl hg)
    · exact .inr (.inr (.inl hg))
    · exact .inr (.inr (.inr hg))
    · omega
  · rintro (h | h | h | h)
    · exact ⟨0, h⟩
    · exact ⟨1, h⟩
    · exact ⟨2, h⟩
    · exact ⟨3, h⟩

/-- `UE_is_to_be_scheduled`, for a UE whose RRC is connected or not. -/
def toBeScheduled (connected : Bool) (t : UeTemplate) (c : UeUlSchedCtrl) : Bool :=
  if 0 < c.ulFailureTimer then false
  else if 0 < c.ulOutOfSync then false
  else
    decide (0 < (t.bsrInfo 0).val) || decide (0 < (t.bsrInfo 1).val) ||
    decide (0 < (t.bsrInfo 2).val) || decide (0 < (t.bsrInfo 3).val) || decide (0 < t.ulSr) ||
    (decide (20 < c.ulInactivityTimer) && c.ulScheduled == 0) ||
    (decide (10 < c.ulInactivityTimer) && c.ulScheduled == 0 && !connected)

theorem toBeScheduled_iff {connected : Bool} {t : UeTemplate} {c : UeUlSchedCtrl} :
    toBeScheduled connected t c = true ↔
      c.ulFailureTimer ≤ 0 ∧ c.ulOutOfSync ≤ 0 ∧
        ((∃ g, 0 < (t.bsrInfo g).val) ∨ 0 < t.ulSr ∨
          20 < c.ulInactivityTimer ∧ c.ulScheduled = 0 ∨
          10 < c.ulInactivityTimer ∧ c.ulScheduled = 0 ∧ connected = false) := by
  rw [toBeScheduled]
  split
  · next h => simp [not_le.mpr h]
  · next h =>
    split
    · next h' => simp [not_le.mpr h']
    · next h' =>
      simp only [not_lt.mp h, not_lt.mp h', true_and, Bool.or_eq_true, Bool.and_eq_true,
        decide_eq_true_eq, beq_iff_eq, Bool.not_eq_true']
      have hgroups : (∃ g, 0 < (t.bsrInfo g).val) ↔ 0 < (t.bsrInfo 0).val ∨
          0 < (t.bsrInfo 1).val ∨ 0 < (t.bsrInfo 2).val ∨ 0 < (t.bsrInfo 3).val := exists_lcg
      rw [hgroups]
      simp only [or_assoc, and_assoc]

/-- The largest round of a UE over the carriers. -/
def roundMax (maxNumCcs : ℕ) (c : UeUlSchedCtrl) : ℕ :=
  (List.range maxNumCcs).foldl (fun m cc ↦ max m (c.round cc)) 0

namespace UeDirectory

variable (dir : UeDirectory)

def ueRnti (ue : ℕ) : ℕ := dir.rnti (dir.pCcId ue) ue

def findUeId (rnti : ℕ) : Option ℕ :=
  (List.range dir.numberOfUeMax).find? (fun ue ↦ dir.active ue && dir.ueRnti ue == rnti)

def phyStatsExist (phy : EnbPhy) (rnti : ℕ) : Bool :=
  match dir.findUeId rnti with
  | none => false
  | some ue =>
    if (dir.orderedCcIds ue).length = 0 then false
    else (dir.orderedCcIds ue).all (fun cc ↦ (phy.ueStats cc rnti).isSome)

end UeDirectory

namespace UeList

variable (l : UeList)

def setTemplate (cc ue : ℕ) (f : UeTemplate → UeTemplate) : UeList :=
  { l with
    ueTemplate := update l.ueTemplate cc (update (l.ueTemplate cc) ue (f (l.ueTemplate cc ue))) }

def setCtrl (ue : ℕ) (f : UeUlSchedCtrl → UeUlSchedCtrl) : UeList :=
  { l with
    ueSchedCtrl := update l.ueSchedCtrl ue (f (l.ueSchedCtrl ue)) }

/-- The three `continue` guards of the loops over the list. -/
def reachable (phy : EnbPhy) (ue : ℕ) : Bool :=
  l.ueRnti ue != 0 && (l.ueSchedCtrl ue).ulOutOfSync != 1 && l.phyStatsExist phy (l.ueRnti ue)

def ueIsToBeScheduled (phy : EnbPhy) (cc ue : ℕ) : Bool :=
  toBeScheduled (phy.rrcConnected (l.ueRnti ue)) (l.ueTemplate cc ue) (l.ueSchedCtrl ue)

def maxround (phy : EnbPhy) (rnti : ℕ) : ℕ :=
  match l.findUeId rnti with
  | none => 0
  | some ue => roundMax phy.maxNumCcs (l.ueSchedCtrl ue)

variable {l}

theorem setTemplate_same (cc ue : ℕ) (f : UeTemplate → UeTemplate) :
    (l.setTemplate cc ue f).ueTemplate cc ue = f (l.ueTemplate cc ue) := by
  simp only [setTemplate, update_self]

theorem setTemplate_other {cc ue cc' ue' : ℕ} (h : cc' ≠ cc ∨ ue' ≠ ue)
    (f : UeTemplate → UeTemplate) :
    (l.setTemplate cc ue f).ueTemplate cc' ue' = l.ueTemplate cc' ue' := by
  by_cases hcc : cc' = cc
  · subst hcc
    simp only [setTemplate, update_self, update_of_ne (h.resolve_left (not_not_intro rfl))]
  · simp only [setTemplate, update_of_ne hcc]

theorem setTemplate_rel {R : UeTemplate → UeTemplate → Prop} (hrefl : ∀ t, R t t) {cc ue : ℕ}
    {f : UeTemplate → UeTemplate} (hf : R (l.ueTemplate cc ue) (f (l.ueTemplate cc ue)))
    (cc' ue' : ℕ) : R (l.ueTemplate cc' ue') ((l.setTemplate cc ue f).ueTemplate cc' ue') := by
  by_cases hsame : cc' ≠ cc ∨ ue' ≠ ue
  · rw [setTemplate_other hsame]
    exact hrefl _
  · obtain ⟨rfl, rfl⟩ : cc' = cc ∧ ue' = ue := by
      simpa only [not_or, not_not] using hsame
    rw [setTemplate_same]
    exact hf

@[simp] theorem setTemplate_dir (cc ue : ℕ) (f : UeTemplate → UeTemplate) :
    (l.setTemplate cc ue f).toUeDirectory = l.toUeDirectory := rfl

@[simp] theorem setTemplate_ctrl (cc ue : ℕ) (f : UeTemplate → UeTemplate) :
    (l.setTemplate cc ue f).ueSchedCtrl = l.ueSchedCtrl := rfl

@[simp] theorem setCtrl_dir (ue : ℕ) (f : UeUlSchedCtrl → UeUlSchedCtrl) :
    (l.setCtrl ue f).toUeDirectory = l.toUeDirectory := rfl

@[simp] theorem setCtrl_template (ue : ℕ) (f : UeUlSchedCtrl → UeUlSchedCtrl) :
    (l.setCtrl ue f).ueTemplate = l.ueTemplate := rfl

theorem setCtrl_same (ue : ℕ) (f : UeUlSchedCtrl → UeUlSchedCtrl) :
    (l.setCtrl ue f).ueSchedCtrl ue = f (l.ueSchedCtrl ue) := by
  simp only [setCtrl, update_self]

theorem setCtrl_other {ue ue' : ℕ} (h : ue' ≠ ue) (f : UeUlSchedCtrl → UeUlSchedCtrl) :
    (l.setCtrl ue f).ueSchedCtrl ue' = l.ueSchedCtrl ue' := by
  simp only [setCtrl, update_of_ne h]

theorem setCtrl_rel {R : UeUlSchedCtrl → UeUlSchedCtrl → Prop} (hrefl : ∀ c, R c c) {ue : ℕ}
    {f : UeUlSchedCtrl → UeUlSchedCtrl} (hf : R (l.ueSchedCtrl ue) (f (l.ueSchedCtrl ue)))
    (ue' : ℕ) : R (l.ueSchedCtrl ue') ((l.setCtrl ue f).ueSchedCtrl ue') := by
  by_cases hue : ue' = ue
  · rw [hue, setCtrl_same]
    exact hf
  · rw [setCtrl_other hue]
    exact hrefl _

end UeList

end EdgeSlice.Mac
