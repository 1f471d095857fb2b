import EdgeSlice.Mac.UeList
import Mathlib.Data.List.Sort

namespace EdgeSlice.Mac

open Function

/-- The first loop of `assign_max_mcs_min_rb`: down to 3 at most. -/
def lowerMcs (again : ℕ → Bool) : ℕ → ℕ
  | 0 => 0
  | mcs + 1 => if decide (3 < mcs + 1) && again (mcs + 1) then lowerMcs again mcs else mcs + 1

/-- Its second loop: up to the end of `rb_table` at most. -/
def raiseRbs (again : Fin 33 → Bool) : ℕ → Fin 33 → Fin 33
  | 0, k => k
  | fuel + 1, k =>
    if h : k.val < 32 then
      if again k then raiseRbs again fuel ⟨k.val + 1, by omega⟩ else k
    else k

def previousIndex (k : Fin 33) : Fin 33 := ⟨k.val - 1, by omega⟩

/-- The branch of `assign_max_mcs_min_rb` for a UE with traffic, and the MCS it goes on
with. -/
def assignTraffic (phy : EnbPhy) (firstRb cc mcs : ℕ) (t : UeTemplate) : UeTemplate × ℕ :=
  let tbs (mcs : ℕ) (k : Fin 33) : ℕ := phy.getTbsUl mcs (rbTable.get k)
  let txPower (mcs : ℕ) (k : Fin 33) : ℤ := phy.estimateUeTxPower cc (tbs mcs k) (rbTable.get k)
  let free : ℤ := (phy.nRbUl cc : ℤ) - firstRb
  let mcs := lowerMcs (fun mcs ↦
    decide (t.phrInfo - txPower mcs 2 < 0) || decide (t.ulTotalBuffer < tbs mcs 2)) mcs
  let k := raiseRbs (fun k ↦
    decide (tbs mcs k < t.ulTotalBuffer) && decide ((rbTable.get k : ℤ) < free) &&
      decide (0 < t.phrInfo - txPower mcs k)) 32 2
  let fitting := if free - 1 < (rbTable.get k : ℤ) then previousIndex k else k
  let index := if rbTable.get fitting < 3 then 2 else fitting
  ({ t with
      ueTxPower := txPower mcs k
      preAssignedMcsUl := mcs
      preAllocatedRbTableIndexUl := some index
      preAllocatedNbRbUl := rbTable.get index }, mcs)

def assignIdle (scheduled : Bool) (t : UeTemplate) : UeTemplate :=
  if scheduled then { t with preAllocatedRbTableIndexUl := some 2, preAllocatedNbRbUl := 3 }
  else { t with preAllocatedRbTableIndexUl := none, preAllocatedNbRbUl := 0 }

/-- One carrier of a UE, and the MCS it goes on with. -/
def assignTemplate (phy : EnbPhy) (firstRb cc : ℕ) (scheduled : Bool) (mcs : ℕ) (t : UeTemplate) :
    UeTemplate × ℕ :=
  if 0 < t.ulTotalBuffer then assignTraffic phy firstRb cc mcs t else (assignIdle scheduled t, mcs)

def firstMcs (c : UeUlSchedCtrl) : ℕ := if c.phrReceived = 1 then 20 else 10

/-- The MCS is carried from one carrier to the next. -/
def assignCarrier (phy : EnbPhy) (firstRb : ℕ → ℕ) (ue : ℕ) (st : UeList × ℕ) (cc : ℕ) :
    UeList × ℕ :=
  let r := assignTemplate phy (firstRb cc) cc (st.1.ueIsToBeScheduled phy cc ue) st.2
    (st.1.ueTemplate cc ue)
  (st.1.setTemplate cc ue (fun _ ↦ r.1), r.2)

def assignUe (phy : EnbPhy) (firstRb : ℕ → ℕ) (l : UeList) (ue : ℕ) : UeList :=
  if l.active ue && l.reachable phy ue then
    ((l.orderedUlCcIds ue).foldl (assignCarrier phy firstRb ue)
      (l, firstMcs (l.ueSchedCtrl ue))).1
  else l

def assignMaxMcsMinRb (phy : EnbPhy) (firstRb : ℕ → ℕ) (l : UeList) : UeList :=
  (List.range l.numberOfUeMax).foldl (assignUe phy firstRb) l

/-- The sort keys of a UE in the uplink, the most important first. -/
def ulKeys (round : ℕ) (t : UeTemplate) : List ℕ :=
  [round, t.ulBufferInfo 0, t.ulTotalBuffer, t.preAssignedMcsUl]

def ulSortKeys (phy : EnbPhy) (l : UeList) (ue : ℕ) : List ℕ :=
  ulKeys (l.maxround phy (l.ueRnti ue)) (l.ueTemplate (l.pCcId ue) ue)

/-- Comparison of two lists of keys, larger keys first. -/
def compareKeys : List ℕ → List ℕ → ℤ
  | a :: as, b :: bs => if b < a then -1 else if a < b then 1 else compareKeys as bs
  | _, _ => 0

def ueUlCompare (phy : EnbPhy) (l : UeList) (ue ue' : ℕ) : ℤ :=
  compareKeys (ulSortKeys phy l ue) (ulSortKeys phy l ue')

/-- `sort_ue_ul`: the list from `head_ul` along `next_ul`. -/
def sortUeUl (phy : EnbPhy) (l : UeList) : List ℕ :=
  ((List.range l.numberOfUeMax).filter (l.reachable phy)).insertionSort
    (fun ue ue' ↦ ueUlCompare phy l ue ue' ≤ 0)

/-- The variables of step 3: `harq_pid` and `round`, which keep their values where
the look-up fails, and `nb_allocated_rbs`. -/
structure Shares where
  harqPid : ℕ
  round : ℕ
  nbAllocatedRbs : ℕ → ℕ → ℕ

def shareCarrier (phy : EnbPhy) (l : UeList) (ue : ℕ) (assignedURB : ℤ) (s : Shares) (cc : ℕ) :
    Shares :=
  let t := l.ueTemplate cc ue
  let (harqPid, round) := (phy.activeHarq cc (l.ueRnti ue)).getD (s.harqPid, s.round)
  let nb := if 0 < round then t.nbRbUl harqPid
    else uint16 (min (t.preAllocatedNbRbUl : ℤ) assignedURB)
  { harqPid := harqPid
    round := round
    nbAllocatedRbs := update s.nbAllocatedRbs cc (update (s.nbAllocatedRbs cc) ue nb) }

def shareUe (phy : EnbPhy) (g : GlobalInfos) (l : UeList) (s : Shares) (ue : ℕ) : Shares :=
  if l.reachable phy ue then
    (l.orderedUlCcIds ue).foldl (shareCarrier phy l ue (ueRntiProcessFunctionUplink g ue)) s
  else s

/-- One of the two passes of step 4. -/
def storeShares (phy : EnbPhy) (nbAllocatedRbs : ℕ → ℕ → ℕ) (l : UeList) (ues : List ℕ) : UeList :=
  ues.foldl (fun l ue ↦
    if l.reachable phy ue then
      (l.orderedUlCcIds ue).foldl (fun l cc ↦
        l.setTemplate cc ue (fun t ↦
          { t with preAllocatedNbRbUl := uint8 (nbAllocatedRbs cc ue) })) l
    else l) l

/-- `ulsch_scheduler_pre_processor`: the UEs with what is pre-allocated to them, and
their order. `start` holds the initial values of `harq_pid` and `round`. -/
def ulschSchedulerPreProcessor (phy : EnbPhy) (g : GlobalInfos) (start : ℕ × ℕ) (firstRb : ℕ → ℕ)
    (l : UeList) : UeList × List ℕ :=
  let l := assignMaxMcsMinRb phy firstRb l
  let ues := sortUeUl phy l
  let shares := ues.foldl (shareUe phy g l)
    { harqPid := start.1, round := start.2, nbAllocatedRbs := fun _ _ ↦ 0 }
  let l := storeShares phy shares.nbAllocatedRbs l ues
  (storeShares phy shares.nbAllocatedRbs l ues, ues)

end EdgeSlice.Mac

namespace EdgeSlice.Mac

open Function

/-- A grant for a new transmission on the PUSCH. -/
structure UlschGrant where
  cc : ℕ
  ue : ℕ
  harqPid : ℕ
  mcs : ℕ
  firstRb : ℕ
  nbRb : ℕ
  deriving DecidableEq, Repr

structure UlschState where
  ueList : UeList
  firstRb : ℕ → ℕ
  dcis : ℕ → List DciAlloc
  grants : List UlschGrant

/-- The loop that walks `rb_table` down. -/
def shrinkRbs (tooLarge : Fin 33 → Bool) : (k : ℕ) → k < 33 → Fin 33
  | 0, h => ⟨0, h⟩
  | k + 1, h =>
    if tooLarge ⟨k + 1, h⟩ then shrinkRbs tooLarge k (by omega) else ⟨k + 1, h⟩

def tooLarge (nRbUl firstRb : ℕ) (t : UeTemplate) (k : Fin 33) : Bool :=
  decide ((nRbUl : ℤ) - 1 - firstRb < rbTable.get k) || decide (45 < rbTable.get k) ||
    (t.preAllocatedRbTableIndexUl.isSome && decide (t.preAllocatedNbRbUl < rbTable.get k))

/-- The entry of `rb_table` a new transmission gets. -/
def grantIndex (nRbUl firstRb : ℕ) (t : UeTemplate) : Fin 33 :=
  let start : Fin 33 := t.preAllocatedRbTableIndexUl.getD 5
  shrinkRbs (tooLarge nRbUl firstRb t) start.val start.isLt

def UeTemplate.clearSr (t : UeTemplate) : UeTemplate := { t with ulSr := 0 }

/-- The UE's template after a grant of `nbRb` resource blocks and `tbs` bytes. -/
def UeTemplate.granted (t : UeTemplate) (harqPid nbRb tbs : ℕ) : UeTemplate :=
  { t with
    oldNdiUl := update t.oldNdiUl harqPid (uint8 (1 - (t.oldNdiUl harqPid : ℤ)))
    nbRbUl := update t.nbRbUl harqPid nbRb
    ulTotalBuffer := if tbs < t.ulTotalBuffer then t.ulTotalBuffer - tbs else 0 }

def UeUlSchedCtrl.granted (c : UeUlSchedCtrl) (harqPid : ℕ) : UeUlSchedCtrl :=
  { c with ulScheduled := c.ulScheduled ||| 1 <<< harqPid }

def UlschState.clearSr (st : UlschState) (cc ue : ℕ) : UlschState :=
  { st with
    ueList := st.ueList.setTemplate cc ue (·.clearSr) }

/-- The branch for a new transmission. -/
def newTransmission (phy : EnbPhy) (st : UlschState) (cc ue harqPid : ℕ) (dci : DciAlloc) :
    UlschState :=
  let t := st.ueList.ueTemplate cc ue
  let mcs := if t.preAllocatedRbTableIndexUl.isSome then t.preAssignedMcsUl else 10
  let nbRb := rbTable.get (grantIndex (phy.nRbUl cc) (st.firstRb cc) t)
  let tbs := phy.getTbsUl mcs nbRb
  { ueList := (st.ueList.setTemplate cc ue (·.granted harqPid nbRb tbs)).setCtrl ue
      (·.granted harqPid)
    firstRb := update st.firstRb cc (st.firstRb cc + nbRb)
    dcis := update st.dcis cc (st.dcis cc ++ [dci])
    grants := st.grants ++
      [{ cc := cc, ue := ue, harqPid := harqPid, mcs := mcs, firstRb := st.firstRb cc, nbRb := nbRb }] }

/-- The guards of `schedule_ulsch_rnti` for a carrier, in their order: the HARQ process,
its round and the DCI of a UE that gets through. -/
def ulschTurn (phy : EnbPhy) (subframe : ℕ) (st : UlschState) (ue cc : ℕ) :
    Option (ℕ × ℕ × DciAlloc) :=
  let rnti := st.ueList.ueRnti ue
  match phy.ueStats cc rnti with
  | none => none
  | some stats =>
    let dci := ueDci (UInt16.ofNat rnti) (getAggregation (phy.bwIndex cc) stats.dlCqi .format0)
    if cceAllocationInfeasible (phy.getNcceMax cc) subframe (st.dcis cc) dci then none
    else if (phy.nRbUl cc : ℤ) - 1 ≤ st.firstRb cc then none
    else if !stats.pusch then none
    else
      match phy.activeHarq cc rnti with
      | none => none
      | some (harqPid, round) =>
        if st.ueList.ueIsToBeScheduled phy cc ue || decide (0 < round) then
          some (harqPid, round, dci)
        else none

def scheduleCarrier (phy : EnbPhy) (subframe ue : ℕ) (st : UlschState) (cc : ℕ) : UlschState :=
  match ulschTurn phy subframe st ue cc with
  | none => st
  | some (harqPid, round, dci) =>
    if round = 0 then newTransmission phy (st.clearSr cc ue) cc ue harqPid dci
    else st.clearSr cc ue

/-- One turn of the loop over the UEs. `none` is the `abort` for a UE without PHY
context on one of its uplink carriers. -/
def scheduleUe (phy : EnbPhy) (subframe : ℕ) (st : UlschState) (ue : ℕ) : Option UlschState :=
  let l := st.ueList
  if !l.configured (l.pCcId ue) ue then some st
  else if l.ueRnti ue = 0 then some st
  else if (l.orderedUlCcIds ue).any (fun cc ↦ (phy.ueStats cc (l.ueRnti ue)).isNone) then none
  else some ((l.orderedUlCcIds ue).foldl (scheduleCarrier phy subframe ue) st)

def scheduleUes (phy : EnbPhy) (subframe : ℕ) : List ℕ → UlschState → Option UlschState
  | [], st => some st
  | ue :: ues, st => (scheduleUe phy subframe st ue).bind (scheduleUes phy subframe ues)

/-- `schedule_ulsch_rnti`. `dcis` are the DCIs already in the lists of the carriers. -/
def scheduleUlschRnti (phy : EnbPhy) (g : GlobalInfos) (subframe : ℕ) (start : ℕ × ℕ)
    (firstRb : ℕ → ℕ) (dcis : ℕ → List DciAlloc) (l : UeList) : Option UlschState :=
  let pre := ulschSchedulerPreProcessor phy g start firstRb l
  scheduleUes phy subframe pre.2
    { ueList := pre.1, firstRb := firstRb, dcis := dcis, grants := [] }

theorem shrinkRbs_spec (tooLarge : Fin 33 → Bool) (k : ℕ) (h : k < 33) :
    shrinkRbs tooLarge k h = 0 ∨ tooLarge (shrinkRbs tooLarge k h) = false := by
  induction k with
  | zero => exact .inl rfl
  | succ k ih =>
    rw [shrinkRbs]
    split
    · exact ih (by omega)
    · next hfits => exact .inr (Bool.not_eq_true _ ▸ hfits)

theorem rbTable_zero : rbTable.get 0 = 1 := rfl

theorem grantIndex_spec (nRbUl firstRb : ℕ) (t : UeTemplate) :
    grantIndex nRbUl firstRb t = 0 ∨
      tooLarge nRbUl firstRb t (grantIndex nRbUl firstRb t) = false :=
  shrinkRbs_spec _ _ _

/-- A grant on a carrier with a free resource block fits into it, and has at most 45. -/
theorem grantIndex_fits {nRbUl firstRb : ℕ} (t : UeTemplate)
    (hfree : (firstRb : ℤ) < (nRbUl : ℤ) - 1) :
    firstRb + rbTable.get (grantIndex nRbUl firstRb t) ≤ nRbUl - 1 ∧
      rbTable.get (grantIndex nRbUl firstRb t) ≤ 45 := by
  have hspec := grantIndex_spec nRbUl firstRb t
  generalize grantIndex nRbUl firstRb t = k at hspec ⊢
  rcases hspec with rfl | hfits
  · rw [rbTable_zero]
    omega
  · simp only [tooLarge, Bool.or_eq_false_iff, decide_eq_false_iff_not] at hfits
    omega

/-- What holds of the grants made so far. -/
structure GrantsInside (phy : EnbPhy) (firstRb : ℕ → ℕ) (st : UlschState) : Prop where
  advanced : ∀ cc, firstRb cc ≤ st.firstRb cc
  start : ∀ a ∈ st.grants, firstRb a.cc ≤ a.firstRb
  passed : ∀ a ∈ st.grants, a.firstRb + a.nbRb ≤ st.firstRb a.cc
  inside : ∀ a ∈ st.grants, a.firstRb + a.nbRb ≤ phy.nRbUl a.cc - 1
  size : ∀ a ∈ st.grants, (∃ k : Fin 33, a.nbRb = rbTable.get k) ∧ a.nbRb ≤ 45
  ordered : st.grants.Pairwise (fun a b ↦ a.cc = b.cc → a.firstRb + a.nbRb ≤ b.firstRb)

variable {phy : EnbPhy} {subframe : ℕ} {firstRb : ℕ → ℕ}

theorem newTransmission_inside {st : UlschState} {cc ue harqPid : ℕ} {dci : DciAlloc}
    (hst : GrantsInside phy firstRb st) (hfree : (st.firstRb cc : ℤ) < (phy.nRbUl cc : ℤ) - 1) :
    GrantsInside phy firstRb (newTransmission phy st cc ue harqPid dci) := by
  obtain ⟨hinside, hsize⟩ := grantIndex_fits (st.ueList.ueTemplate cc ue) hfree
  have hgrow : ∀ cc', st.firstRb cc' ≤ (newTransmission phy st cc ue harqPid dci).firstRb cc' := by
    intro cc'
    simp only [newTransmission, update_apply]
    split
    · next h => rw [h]; exact Nat.le_add_right _ _
    · exact le_rfl
  have hmem : ∀ {P : UlschGrant → Prop}, (∀ a ∈ st.grants, P a) →
      (∀ mcs, P ⟨cc, ue, harqPid, mcs, st.firstRb cc,
        rbTable.get (grantIndex (phy.nRbUl cc) (st.firstRb cc) (st.ueList.ueTemplate cc ue))⟩) →
      ∀ a ∈ (newTransmission phy st cc ue harqPid dci).grants, P a := by
    intro P hold hnew a ha
    rcases List.mem_append.mp ha with ha | ha
    · exact hold a ha
    · rw [List.mem_singleton.mp ha]
      exact hnew _
  refine
    { advanced := fun cc' ↦ (hst.advanced cc').trans (hgrow cc')
      start := hmem hst.start (fun _ ↦ hst.advanced cc)
      passed := hmem (fun a ha ↦ (hst.passed a ha).trans (hgrow a.cc)) (fun _ ↦ ?_)
      inside := hmem hst.inside (fun _ ↦ hinside)
      size := hmem hst.size (fun _ ↦ ⟨⟨_, rfl⟩, hsize⟩)
      ordered := ?_ }
  · simp only [newTransmission, update_self, le_refl]
  · refine List.pairwise_append.mpr ⟨hst.ordered, List.pairwise_singleton _ _, ?_⟩
    intro a ha b hb hcc
    rw [List.mem_singleton.mp hb] at hcc ⊢
    have hpassed := hst.passed a ha
    rwa [hcc] at hpassed

theorem free_of_ulschTurn {st : UlschState} {ue cc : ℕ} {r : ℕ × ℕ × DciAlloc}
    (h : ulschTurn phy subframe st ue cc = some r) :
    (st.firstRb cc : ℤ) < (phy.nRbUl cc : ℤ) - 1 := by
  by_contra hfull
  rw [ulschTurn] at h
  split at h
  · cases h
  · simp only [if_pos (not_lt.mp hfull), ite_self] at h
    cases h

theorem GrantsInside.clearSr {st : UlschState} (h : GrantsInside phy firstRb st) (cc ue : ℕ) :
    GrantsInside phy firstRb (st.clearSr cc ue) :=
  ⟨h.advanced, h.start, h.passed, h.inside, h.size, h.ordered⟩

theorem scheduleCarrier_inside {st : UlschState} {ue : ℕ} (hst : GrantsInside phy firstRb st)
    (cc : ℕ) : GrantsInside phy firstRb (scheduleCarrier phy subframe ue st cc) := by
  rw [scheduleCarrier]
  split
  · exact hst
  · next harqPid round dci hturn =>
    have hfree := free_of_ulschTurn hturn
    split
    · exact newTransmission_inside (hst.clearSr cc ue) hfree
    · exact hst.clearSr cc ue

theorem scheduleUe_inside {st st' : UlschState} {ue : ℕ} (hst : GrantsInside phy firstRb st)
    (h : scheduleUe phy subframe st ue = some st') : GrantsInside phy firstRb st' := by
  rw [scheduleUe] at h
  split at h
  · cases h
    exact hst
  · split at h
    · cases h
      exact hst
    · split at h
      · cases h
      · cases h
        exact List.foldlRecOn _ _ hst (fun st hst cc _ ↦ scheduleCarrier_inside hst cc)

theorem scheduleUes_inside {ues : List ℕ} {st st' : UlschState} (hst : GrantsInside phy firstRb st)
    (h : scheduleUes phy subframe ues st = some st') : GrantsInside phy firstRb st' := by
  induction ues generalizing st with
  | nil =>
    cases h
    exact hst
  | cons ue ues ih =>
    obtain ⟨next, hnext, hrest⟩ := Option.bind_eq_some_iff.mp h
    exact ih (scheduleUe_inside hst hnext) hrest

/-- The grants of one call keep apart on every carrier and stay inside it. -/
theorem schedule_ulsch_grants_disjoint (phy : EnbPhy) (g : GlobalInfos) (subframe : ℕ)
    (start : ℕ × ℕ) (firstRb : ℕ → ℕ) (dcis : ℕ → List DciAlloc) (l : UeList) (st : UlschState)
    (h : scheduleUlschRnti phy g subframe start firstRb dcis l = some st) :
    st.grants.Pairwise (fun a b ↦ a.cc = b.cc →
      ∀ rb, ¬ ((a.firstRb ≤ rb ∧ rb < a.firstRb + a.nbRb) ∧
        (b.firstRb ≤ rb ∧ rb < b.firstRb + b.nbRb))) ∧
    ∀ a ∈ st.grants, firstRb a.cc ≤ a.firstRb ∧ a.firstRb + a.nbRb ≤ phy.nRbUl a.cc - 1 ∧
      (∃ k : Fin 33, a.nbRb = rbTable.get k) ∧ a.nbRb ≤ 45 := by
  have hempty : GrantsInside phy firstRb
      { ueList := (ulschSchedulerPreProcessor phy g start firstRb l).1, firstRb := firstRb,
        dcis := dcis, grants := [] } :=
    ⟨fun _ ↦ le_rfl, List.forall_mem_nil _, List.forall_mem_nil _, List.forall_mem_nil _,
      List.forall_mem_nil _, .nil⟩
  have hst := scheduleUes_inside hempty h
  refine ⟨hst.ordered.imp (fun hab hcc rb hrb ↦ ?_), fun a ha ↦ ?_⟩
  · have := hab hcc
    omega
  · exact ⟨hst.start a ha, hst.inside a ha, hst.size a ha⟩

/-- A 5 MHz carrier. -/
def phy5MHz : EnbPhy where
  maxNumCcs := 1
  nRbUl _ := 25
  bwIndex _ := 1
  getNcceMax _ := ncce5MHz
  ueStats _ _ := some { pusch := true, dlCqi := 15 }
  activeHarq _ _ := some (0, 0)
  getTbsUl _ _ := 7
  estimateUeTxPower _ _ _ := 0
  rrcConnected _ := true

/-- Two UEs with a pending scheduling request. -/
def requestingUes : UeList where
  numberOfUeMax := 16
  active ue := decide (ue < 2)
  pCcId _ := 0
  orderedCcIds _ := [0]
  orderedUlCcIds _ := [0]
  rnti _ ue := if ue < 2 then 0x1006 + ue else 0
  configured _ _ := true
  active_of_rnti ue _ h := by
    by_contra hue
    rw [decide_eq_true_eq] at hue
    exact h (if_neg hue)
  ueTemplate _ _ := { UeTemplate.zeroed with ulSr := 1 }
  ueSchedCtrl _ := UeUlSchedCtrl.zeroed

theorem schedule_ulsch_grants_disjoint_requesting :
    ∃ st, scheduleUlschRnti phy5MHz initialization 0 (0, 0) (fun _ ↦ 1) (fun _ ↦ []) requestingUes =
        some st ∧ st.grants.length = 2 ∧
      ∀ a ∈ st.grants, 1 ≤ a.firstRb ∧ a.firstRb + a.nbRb ≤ phy5MHz.nRbUl a.cc - 1 ∧
        (∃ k : Fin 33, a.nbRb = rbTable.get k) ∧ a.nbRb ≤ 45 := by
  have hrun : (scheduleUlschRnti phy5MHz initialization 0 (0, 0) (fun _ ↦ 1) (fun _ ↦ [])
      requestingUes).map (·.grants.length) = some 2 := by decide +kernel
  obtain ⟨st, hst, hlength⟩ := Option.map_eq_some_iff.mp hrun
  exact ⟨st, hst, hlength, (schedule_ulsch_grants_disjoint _ _ _ _ _ _ _ st hst).2⟩

end EdgeSlice.Mac
