import EdgeSlice.Mac.ScheduleUlsch
import EdgeSlice.Fold

namespace EdgeSlice.Mac

open Function

/-- The same UEs, with less reason to be scheduled. -/
structure Fades (l l' : UeList) : Prop where
  dir : l'.toUeDirectory = l.toUeDirectory
  bsrInfo : ∀ cc ue, (l'.ueTemplate cc ue).bsrInfo = (l.ueTemplate cc ue).bsrInfo
  ulSr : ∀ cc ue, (l'.ueTemplate cc ue).ulSr ≤ (l.ueTemplate cc ue).ulSr
  timer : ∀ ue, (l'.ueSchedCtrl ue).ulInactivityTimer = (l.ueSchedCtrl ue).ulInactivityTimer
  failure : ∀ ue, (l'.ueSchedCtrl ue).ulFailureTimer = (l.ueSchedCtrl ue).ulFailureTimer
  sync : ∀ ue, (l'.ueSchedCtrl ue).ulOutOfSync = (l.ueSchedCtrl ue).ulOutOfSync
  scheduled : ∀ ue, (l'.ueSchedCtrl ue).ulScheduled = 0 → (l.ueSchedCtrl ue).ulScheduled = 0

theorem Fades.refl (l : UeList) : Fades l l :=
  ⟨rfl, fun _ _ ↦ rfl, fun _ _ ↦ le_rfl, fun _ ↦ rfl, fun _ ↦ rfl, fun _ ↦ rfl, fun _ h ↦ h⟩

theorem Fades.trans {l l' l'' : UeList} (h : Fades l l') (h' : Fades l' l'') : Fades l l'' where
  dir := h'.dir.trans h.dir
  bsrInfo cc ue := (h'.bsrInfo cc ue).trans (h.bsrInfo cc ue)
  ulSr cc ue := (h'.ulSr cc ue).trans (h.ulSr cc ue)
  timer ue := (h'.timer ue).trans (h.timer ue)
  failure ue := (h'.failure ue).trans (h.failure ue)
  sync ue := (h'.sync ue).trans (h.sync ue)
  scheduled ue hzero := h.scheduled ue (h'.scheduled ue hzero)

theorem Fades.ueRnti {l l' : UeList} (h : Fades l l') (ue : ℕ) : l'.ueRnti ue = l.ueRnti ue := by
  rw [h.dir]

theorem Fades.reachable {l l' : UeList} (h : Fades l l') (phy : EnbPhy) (ue : ℕ) :
    l'.reachable phy ue = l.reachable phy ue := by
  rw [UeList.reachable, UeList.reachable, h.dir, h.sync]

theorem Fades.toBeScheduled {l l' : UeList} (h : Fades l l') {phy : EnbPhy} {cc ue : ℕ}
    (hl : l'.ueIsToBeScheduled phy cc ue = true) : l.ueIsToBeScheduled phy cc ue = true := by
  rw [UeList.ueIsToBeScheduled, toBeScheduled_iff] at hl ⊢
  rw [h.timer, h.failure, h.sync, h.bsrInfo, h.ueRnti] at hl
  refine ⟨hl.1, hl.2.1, hl.2.2.imp_right (Or.imp (fun hsr ↦ hsr.trans_le (h.ulSr cc ue))
    (Or.imp (And.imp_right (h.scheduled ue)) (And.imp_right (And.imp_left (h.scheduled ue)))))⟩

theorem fades_setTemplate {l : UeList} {cc ue : ℕ} {f : UeTemplate → UeTemplate}
    (hbsr : (f (l.ueTemplate cc ue)).bsrInfo = (l.ueTemplate cc ue).bsrInfo)
    (hsr : (f (l.ueTemplate cc ue)).ulSr ≤ (l.ueTemplate cc ue).ulSr) :
    Fades l (l.setTemplate cc ue f) := by
  refine ⟨rfl, ?_, ?_, fun _ ↦ rfl, fun _ ↦ rfl, fun _ ↦ rfl, fun _ h ↦ h⟩
  · exact UeList.setTemplate_rel (R := fun t t' ↦ t'.bsrInfo = t.bsrInfo) (fun _ ↦ rfl) hbsr
  · exact UeList.setTemplate_rel (R := fun t t' ↦ t'.ulSr ≤ t.ulSr) (fun _ ↦ le_rfl) hsr

/-- A UE without an index into `rb_table` is not to be scheduled. -/
def Idle (phy : EnbPhy) (l : UeList) (ue cc : ℕ) : Prop :=
  (l.ueTemplate cc ue).preAllocatedRbTableIndexUl = none → l.ueIsToBeScheduled phy cc ue = false

theorem Idle.mono {phy : EnbPhy} {l l' : UeList} {ue cc : ℕ} (h : Idle phy l ue cc)
    (hl : Fades l l')
    (hindex : (l'.ueTemplate cc ue).preAllocatedRbTableIndexUl = none →
      (l.ueTemplate cc ue).preAllocatedRbTableIndexUl = none) : Idle phy l' ue cc := by
  intro hnone
  rw [← Bool.not_eq_true]
  intro htrue
  exact Bool.noConfusion ((hl.toBeScheduled htrue).symm.trans (h (hindex hnone)))

section Assign

variable {phy : EnbPhy} {firstRb : ℕ → ℕ}

theorem assignTemplate_bsrInfo (firstRb cc mcs : ℕ) (b : Bool) (t : UeTemplate) :
    (assignTemplate phy firstRb cc b mcs t).1.bsrInfo = t.bsrInfo := by
  rw [assignTemplate]
  split
  · rfl
  · cases b <;> rfl

theorem assignTemplate_ulSr (firstRb cc mcs : ℕ) (b : Bool) (t : UeTemplate) :
    (assignTemplate phy firstRb cc b mcs t).1.ulSr = t.ulSr := by
  rw [assignTemplate]
  split
  · rfl
  · cases b <;> rfl

theorem assignTemplate_index (firstRb cc mcs : ℕ) (t : UeTemplate) :
    (assignTemplate phy firstRb cc true mcs t).1.preAllocatedRbTableIndexUl ≠ none := by
  rw [assignTemplate]
  split <;> exact Option.some_ne_none _

theorem assignCarrier_fades (ue : ℕ) (st : UeList × ℕ) (cc : ℕ) :
    Fades st.1 (assignCarrier phy firstRb ue st cc).1 := by
  simp only [assignCarrier]
  refine fades_setTemplate ?_ ?_
  · exact assignTemplate_bsrInfo _ _ _ _ _
  · exact (assignTemplate_ulSr _ _ _ _ _).le

theorem assignCarrier_idle (ue : ℕ) (st : UeList × ℕ) (cc : ℕ) :
    Idle phy (assignCarrier phy firstRb ue st cc).1 ue cc := by
  intro hnone
  rw [← Bool.not_eq_true]
  intro htrue
  have hscheduled := (assignCarrier_fades ue st cc).toBeScheduled htrue
  rw [assignCarrier, UeList.setTemplate_same, hscheduled] at hnone
  exact assignTemplate_index _ _ _ _ hnone

theorem assignCarrier_keeps {ue : ℕ} {st : UeList × ℕ} (cc : ℕ) {ue' cc' : ℕ}
    (h : Idle phy st.1 ue' cc') : Idle phy (assignCarrier phy firstRb ue st cc).1 ue' cc' := by
  by_cases hsame : cc' = cc ∧ ue' = ue
  · rw [hsame.1, hsame.2]
    exact assignCarrier_idle ue st cc
  · refine h.mono (assignCarrier_fades ue st cc) (fun hnone ↦ ?_)
    rwa [assignCarrier, UeList.setTemplate_other (not_and_or.mp hsame)] at hnone

theorem assignUe_fades (l : UeList) (ue : ℕ) : Fades l (assignUe phy firstRb l ue) := by
  rw [assignUe]
  split
  · exact List.foldlRecOn (motive := fun (st : UeList × ℕ) ↦ Fades l st.1) _ _ (Fades.refl l)
      (fun st hst cc _ ↦ hst.trans (assignCarrier_fades ue st cc))
  · exact Fades.refl l

section Establishes

variable {P : UeList → ℕ → ℕ → Prop}
  (hself : ∀ ue st cc, P (assignCarrier phy firstRb ue st cc).1 ue cc)
  (hkeep : ∀ ue st cc ue' cc', P st.1 ue' cc' →
    P (assignCarrier phy firstRb ue st cc).1 ue' cc')

include hkeep

theorem assignUe_keeps {l : UeList} (ue : ℕ) {ue' cc : ℕ} (h : P l ue' cc) :
    P (assignUe phy firstRb l ue) ue' cc := by
  rw [assignUe]
  split
  · exact List.foldlRecOn (motive := fun (st : UeList × ℕ) ↦ P st.1 ue' cc) _ _ h
      (fun st hst cc' _ ↦ hkeep ue st cc' ue' cc hst)
  · exact h

include hself

/-- What a turn establishes for its carrier and keeps for the others holds for the carriers
of every UE that the loop over the UEs considers. -/
theorem assignMaxMcsMinRb_establishes (l : UeList) {ue : ℕ} (hue : ue < l.numberOfUeMax)
    (hreach : l.reachable phy ue = true) :
    ∀ cc ∈ l.orderedUlCcIds ue, P (assignMaxMcsMinRb phy firstRb l) ue cc := by
  refine Fold.establishes (I := Fades l)
    (P := fun l' ue ↦ l.reachable phy ue = true → ue < l.numberOfUeMax →
      ∀ cc ∈ l.orderedUlCcIds ue, P l' ue cc)
    (fun l' ue h ↦ h.trans (assignUe_fades l' ue)) ?_
    (fun l' ue ue' _ h hreach hue cc hcc ↦ assignUe_keeps hkeep ue (h hreach hue cc hcc))
    (Fades.refl l) ue (List.mem_range.mpr hue) hreach hue
  intro l' ue _ hl' hreach hue cc hcc
  have hrnti : l.ueRnti ue ≠ 0 := by
    simp only [UeList.reachable, Bool.and_eq_true, bne_iff_ne] at hreach
    exact hreach.1.1
  have hactive := l.active_of_rnti ue hue hrnti
  rw [assignUe, hl'.dir, hl'.reachable, hactive, hreach]
  simp only [Bool.and_self, if_true]
  exact Fold.establishes (I := fun _ ↦ True)
    (P := fun (st : UeList × ℕ) cc ↦ P st.1 ue cc) (fun _ _ _ ↦ trivial)
    (fun st cc _ _ ↦ hself ue st cc) (fun st cc cc' _ h ↦ hkeep ue st cc ue cc' h)
    trivial cc hcc

end Establishes

/-- The loop over the UEs leaves every UE it considers idle or with an index. -/
theorem assignMaxMcsMinRb_idle (l : UeList) {ue : ℕ} (hue : ue < l.numberOfUeMax)
    (hreach : l.reachable phy ue = true) :
    ∀ cc ∈ l.orderedUlCcIds ue, Idle phy (assignMaxMcsMinRb phy firstRb l) ue cc :=
  assignMaxMcsMinRb_establishes (P := Idle phy) assignCarrier_idle
    (fun _ _ cc _ _ h ↦ assignCarrier_keeps cc h) l hue hreach

theorem assignMaxMcsMinRb_fades (l : UeList) : Fades l (assignMaxMcsMinRb phy firstRb l) :=
  List.foldlRecOn _ _ (Fades.refl l) (fun _ hl ue _ ↦ hl.trans (assignUe_fades _ ue))

end Assign

section Share

variable {phy : EnbPhy} {g : GlobalInfos}

/-- A UE with a process in round 0 has the smaller of its pre-allocation and its quota. -/
def Shared (phy : EnbPhy) (g : GlobalInfos) (l : UeList) (s : Shares) (ue cc : ℕ) : Prop :=
  ∀ harqPid, phy.activeHarq cc (l.ueRnti ue) = some (harqPid, 0) →
    s.nbAllocatedRbs cc ue =
      uint16 (min ((l.ueTemplate cc ue).preAllocatedNbRbUl : ℤ) (ueRntiProcessFunctionUplink g ue))

theorem shareCarrier_shared (l : UeList) (s : Shares) (ue cc : ℕ) :
    Shared phy g l (shareCarrier phy l ue (ueRntiProcessFunctionUplink g ue) s cc) ue cc := by
  intro harqPid hharq
  simp only [shareCarrier, hharq, Option.getD_some, lt_irrefl, if_false, update_self]

theorem shareCarrier_keeps {l : UeList} {s : Shares} (ue cc : ℕ) {ue' cc' : ℕ}
    (h : Shared phy g l s ue' cc') :
    Shared phy g l (shareCarrier phy l ue (ueRntiProcessFunctionUplink g ue) s cc) ue' cc' := by
  by_cases hsame : cc' = cc ∧ ue' = ue
  · rw [hsame.1, hsame.2]
    exact shareCarrier_shared l s ue cc
  · intro harqPid hharq
    rw [← h harqPid hharq]
    by_cases hcc : cc' = cc
    · subst hcc
      have hue : ue' ≠ ue := fun hue ↦ hsame ⟨rfl, hue⟩
      simp only [shareCarrier, update_self, update_of_ne hue]
    · simp only [shareCarrier, update_of_ne hcc]

theorem shareUe_keeps {l : UeList} {s : Shares} (ue : ℕ) {ue' cc' : ℕ}
    (h : Shared phy g l s ue' cc') : Shared phy g l (shareUe phy g l s ue) ue' cc' := by
  rw [shareUe]
  split
  · exact List.foldlRecOn (motive := fun s ↦ Shared phy g l s ue' cc') _ _ h
      (fun s hs cc _ ↦ shareCarrier_keeps ue cc hs)
  · exact h

theorem shares_shared {l : UeList} {ues : List ℕ} (s : Shares) {ue : ℕ} (hue : ue ∈ ues)
    (hreach : l.reachable phy ue = true) :
    ∀ cc ∈ l.orderedUlCcIds ue, Shared phy g l (ues.foldl (shareUe phy g l) s) ue cc := by
  refine Fold.establishes (I := fun _ ↦ True)
    (P := fun s ue ↦ l.reachable phy ue = true → ∀ cc ∈ l.orderedUlCcIds ue, Shared phy g l s ue cc)
    (fun _ _ _ ↦ trivial) ?_ (fun s ue ue' _ h hreach cc hcc ↦ shareUe_keeps ue (h hreach cc hcc))
    trivial ue hue hreach
  intro s ue _ _ hreach cc hcc
  rw [shareUe, if_pos hreach]
  exact Fold.establishes (I := fun _ ↦ True) (P := fun s cc ↦ Shared phy g l s ue cc)
    (fun _ _ _ ↦ trivial) (fun s cc _ _ ↦ shareCarrier_shared l s ue cc)
    (fun s cc cc' _ h ↦ shareCarrier_keeps ue cc h) trivial cc hcc

end Share

section Store

variable {phy : EnbPhy} {nb : ℕ → ℕ → ℕ}

def storeShare (nb : ℕ → ℕ → ℕ) (ue : ℕ) (l : UeList) (cc : ℕ) : UeList :=
  l.setTemplate cc ue (fun t ↦ { t with preAllocatedNbRbUl := uint8 (nb cc ue) })

def storeUe (phy : EnbPhy) (nb : ℕ → ℕ → ℕ) (l : UeList) (ue : ℕ) : UeList :=
  if l.reachable phy ue then (l.orderedUlCcIds ue).foldl (storeShare nb ue) l else l

theorem storeShares_eq (l : UeList) (ues : List ℕ) :
    storeShares phy nb l ues = ues.foldl (storeUe phy nb) l := rfl

/-- Only the number of pre-allocated resource blocks is written. -/
structure OnlyShares (l l' : UeList) : Prop where
  fades : Fades l l'
  index : ∀ cc ue, (l'.ueTemplate cc ue).preAllocatedRbTableIndexUl =
    (l.ueTemplate cc ue).preAllocatedRbTableIndexUl

theorem OnlyShares.refl (l : UeList) : OnlyShares l l := ⟨Fades.refl l, fun _ _ ↦ rfl⟩

theorem OnlyShares.trans {l l' l'' : UeList} (h : OnlyShares l l') (h' : OnlyShares l' l'') :
    OnlyShares l l'' :=
  ⟨h.fades.trans h'.fades, fun cc ue ↦ (h'.index cc ue).trans (h.index cc ue)⟩

theorem storeShare_only (l : UeList) (ue cc : ℕ) : OnlyShares l (storeShare nb ue l cc) := by
  refine ⟨fades_setTemplate rfl le_rfl, ?_⟩
  exact UeList.setTemplate_rel
    (R := fun t t' ↦ t'.preAllocatedRbTableIndexUl = t.preAllocatedRbTableIndexUl) (fun _ ↦ rfl) rfl

theorem storeUe_only (l : UeList) (ue : ℕ) : OnlyShares l (storeUe phy nb l ue) := by
  rw [storeUe]
  split
  · exact List.foldlRecOn _ _ (OnlyShares.refl l)
      (fun _ hl cc _ ↦ hl.trans (storeShare_only _ ue cc))
  · exact OnlyShares.refl l

theorem storeShares_only (l : UeList) (ues : List ℕ) : OnlyShares l (storeShares phy nb l ues) :=
  List.foldlRecOn _ _ (OnlyShares.refl l) (fun _ hl ue _ ↦ hl.trans (storeUe_only _ ue))

def Stored (nb : ℕ → ℕ → ℕ) (l : UeList) (ue cc : ℕ) : Prop :=
  (l.ueTemplate cc ue).preAllocatedNbRbUl = uint8 (nb cc ue)

theorem storeShare_keeps {l : UeList} (ue cc : ℕ) {ue' cc' : ℕ} (h : Stored nb l ue' cc') :
    Stored nb (storeShare nb ue l cc) ue' cc' := by
  by_cases hsame : cc' = cc ∧ ue' = ue
  · rw [hsame.1, hsame.2, Stored, storeShare, UeList.setTemplate_same]
  · rwa [Stored, storeShare, UeList.setTemplate_other (not_and_or.mp hsame)]

theorem storeUe_keeps {l : UeList} (ue : ℕ) {ue' cc' : ℕ} (h : Stored nb l ue' cc') :
    Stored nb (storeUe phy nb l ue) ue' cc' := by
  rw [storeUe]
  split
  · exact List.foldlRecOn (motive := fun l ↦ Stored nb l ue' cc') _ _ h
      (fun _ hl cc _ ↦ storeShare_keeps ue cc hl)
  · exact h

theorem storeShares_stored {l : UeList} {ues : List ℕ} {ue : ℕ} (hue : ue ∈ ues)
    (hreach : l.reachable phy ue = true) :
    ∀ cc ∈ l.orderedUlCcIds ue, Stored nb (storeShares phy nb l ues) ue cc := by
  rw [storeShares_eq]
  refine Fold.establishes (I := Fades l)
    (P := fun l' ue ↦ l.reachable phy ue = true → ∀ cc ∈ l.orderedUlCcIds ue, Stored nb l' ue cc)
    (fun l' ue h ↦ h.trans (storeUe_only l' ue).fades) ?_
    (fun l' ue ue' _ h hreach cc hcc ↦ storeUe_keeps ue (h hreach cc hcc)) (Fades.refl l) ue hue
    hreach
  intro l' ue _ hl' hreach cc hcc
  rw [storeUe, hl'.reachable, if_pos hreach, hl'.dir]
  exact Fold.establishes (I := fun _ ↦ True) (P := fun l cc ↦ Stored nb l ue cc)
    (fun _ _ _ ↦ trivial)
    (fun l cc _ _ ↦ by rw [Stored, storeShare, UeList.setTemplate_same])
    (fun l cc cc' _ h ↦ storeShare_keeps ue cc h) trivial cc hcc

end Store

/-- What bounds a new transmission of a UE on a carrier. -/
def Capped (phy : EnbPhy) (g : GlobalInfos) (l : UeList) (ue cc : ℕ) : Prop :=
  Idle phy l ue cc ∧ ∀ harqPid, phy.activeHarq cc (l.ueRnti ue) = some (harqPid, 0) →
    ((l.ueTemplate cc ue).preAllocatedNbRbUl : ℤ) ≤ ueRntiProcessFunctionUplink g ue

theorem mem_sortUeUl {phy : EnbPhy} {l : UeList} {ue : ℕ} :
    ue ∈ sortUeUl phy l ↔ ue < l.numberOfUeMax ∧ l.reachable phy ue = true := by
  rw [sortUeUl, List.mem_insertionSort, List.mem_filter, List.mem_range]

/-- The pre-processor caps every UE of its list on all its carriers. -/
theorem preProcessor_capped (phy : EnbPhy) (g : GlobalInfos) (start : ℕ × ℕ) (firstRb : ℕ → ℕ)
    (l : UeList) (hquota : ∀ ue, 0 ≤ ueRntiProcessFunctionUplink g ue) :
    ∀ ue ∈ (ulschSchedulerPreProcessor phy g start firstRb l).2, ∀ cc ∈ l.orderedUlCcIds ue,
      Capped phy g (ulschSchedulerPreProcessor phy g start firstRb l).1 ue cc := by
  intro ue hue cc hcc
  let l₁ := assignMaxMcsMinRb phy firstRb l
  let ues := sortUeUl phy l₁
  let nb := (ues.foldl (shareUe phy g l₁) ⟨start.1, start.2, fun _ _ ↦ 0⟩).nbAllocatedRbs
  have hfades : Fades l l₁ := assignMaxMcsMinRb_fades l
  obtain ⟨hlt, hreach⟩ := mem_sortUeUl.mp hue
  have hstores : OnlyShares l₁ (storeShares phy nb (storeShares phy nb l₁ ues) ues) :=
    (storeShares_only l₁ ues).trans (storeShares_only _ ues)
  constructor
  · have hidle : Idle phy l₁ ue cc := by
      rw [hfades.reachable] at hreach
      rw [hfades.dir] at hlt
      exact assignMaxMcsMinRb_idle l hlt hreach cc hcc
    exact hidle.mono hstores.fades (fun hnone ↦ (hstores.index cc ue).symm.trans hnone)
  · intro harqPid hharq
    have hshared := shares_shared (g := g) ⟨start.1, start.2, fun _ _ ↦ 0⟩ hue hreach cc
      (by rwa [hfades.dir]) harqPid
      ((congrArg (phy.activeHarq cc) (hstores.fades.ueRnti ue)).symm.trans hharq)
    have hstored : Stored nb (storeShares phy nb (storeShares phy nb l₁ ues) ues) ue cc :=
      storeShares_stored hue (by rwa [(storeShares_only l₁ ues).fades.reachable]) cc
        (by rwa [(storeShares_only l₁ ues).fades.dir, hfades.dir])
    have hmin : (0 : ℤ) ≤ min ((l₁.ueTemplate cc ue).preAllocatedNbRbUl : ℤ)
        (ueRntiProcessFunctionUplink g ue) := le_min (Int.natCast_nonneg _) (hquota ue)
    calc ((storeShares phy nb (storeShares phy nb l₁ ues) ues).ueTemplate cc ue).preAllocatedNbRbUl
        = (uint8 (nb cc ue) : ℤ) := congrArg _ hstored
      _ ≤ nb cc ue := uint8_le (Int.natCast_nonneg _)
      _ ≤ min ((l₁.ueTemplate cc ue).preAllocatedNbRbUl : ℤ)
          (ueRntiProcessFunctionUplink g ue) := by
        rw [show nb cc ue = _ from hshared]
        exact uint16_le hmin
      _ ≤ ueRntiProcessFunctionUplink g ue := min_le_right _ _

/-- A change that leaves the pre-allocation as it is. -/
structure Steady (l l' : UeList) : Prop where
  only : OnlyShares l l'
  nb : ∀ cc ue, (l'.ueTemplate cc ue).preAllocatedNbRbUl = (l.ueTemplate cc ue).preAllocatedNbRbUl

theorem Steady.refl (l : UeList) : Steady l l := ⟨OnlyShares.refl l, fun _ _ ↦ rfl⟩

theorem Steady.trans {l l' l'' : UeList} (h : Steady l l') (h' : Steady l' l'') : Steady l l'' :=
  ⟨h.only.trans h'.only, fun cc ue ↦ (h'.nb cc ue).trans (h.nb cc ue)⟩

theorem Capped.mono {phy : EnbPhy} {g : GlobalInfos} {l l' : UeList} {ue cc : ℕ}
    (h : Capped phy g l ue cc) (hl : Steady l l') : Capped phy g l' ue cc := by
  refine ⟨h.1.mono hl.only.fades (fun hnone ↦ ?_), fun harqPid hharq ↦ ?_⟩
  · rwa [hl.only.index] at hnone
  · rw [hl.only.fades.ueRnti] at hharq
    rw [hl.nb]
    exact h.2 harqPid hharq

theorem steady_setTemplate {l : UeList} {cc ue : ℕ} {f : UeTemplate → UeTemplate}
    (hbsr : ∀ t, (f t).bsrInfo = t.bsrInfo) (hsr : ∀ t, (f t).ulSr ≤ t.ulSr)
    (hindex : ∀ t, (f t).preAllocatedRbTableIndexUl = t.preAllocatedRbTableIndexUl)
    (hnb : ∀ t, (f t).preAllocatedNbRbUl = t.preAllocatedNbRbUl) :
    Steady l (l.setTemplate cc ue f) := by
  refine ⟨⟨fades_setTemplate (hbsr _) (hsr _), ?_⟩, ?_⟩
  · exact UeList.setTemplate_rel
      (R := fun t t' ↦ t'.preAllocatedRbTableIndexUl = t.preAllocatedRbTableIndexUl) (fun _ ↦ rfl)
      (hindex _)
  · exact UeList.setTemplate_rel (R := fun t t' ↦ t'.preAllocatedNbRbUl = t.preAllocatedNbRbUl)
      (fun _ ↦ rfl) (hnb _)

theorem granted_scheduled (c : UeUlSchedCtrl) (harqPid : ℕ)
    (h : (c.granted harqPid).ulScheduled = 0) : c.ulScheduled = 0 :=
  (Nat.or_eq_zero_iff.mp h).1

theorem steady_setCtrl (l : UeList) (ue harqPid : ℕ) :
    Steady l (l.setCtrl ue (·.granted harqPid)) := by
  refine ⟨⟨⟨rfl, fun _ _ ↦ rfl, fun _ _ ↦ le_rfl, ?_, ?_, ?_, ?_⟩, fun _ _ ↦ rfl⟩, fun _ _ ↦ rfl⟩
  · exact UeList.setCtrl_rel (R := fun c c' ↦ c'.ulInactivityTimer = c.ulInactivityTimer)
      (fun _ ↦ rfl) rfl
  · exact UeList.setCtrl_rel (R := fun c c' ↦ c'.ulFailureTimer = c.ulFailureTimer) (fun _ ↦ rfl) rfl
  · exact UeList.setCtrl_rel (R := fun c c' ↦ c'.ulOutOfSync = c.ulOutOfSync) (fun _ ↦ rfl) rfl
  · exact UeList.setCtrl_rel (R := fun c c' ↦ c'.ulScheduled = 0 → c.ulScheduled = 0)
      (fun _ h ↦ h) (granted_scheduled _ harqPid)

theorem newTransmission_steady (phy : EnbPhy) (st : UlschState) (cc ue harqPid : ℕ)
    (dci : DciAlloc) : Steady st.ueList (newTransmission phy st cc ue harqPid dci).ueList := by
  rw [newTransmission]
  exact (steady_setTemplate (f := fun t ↦ t.granted harqPid _ _) (fun _ ↦ rfl) (fun _ ↦ le_rfl)
    (fun _ ↦ rfl) (fun _ ↦ rfl)).trans (steady_setCtrl _ ue harqPid)

theorem scheduleCarrier_steady (phy : EnbPhy) (subframe ue : ℕ) (st : UlschState) (cc : ℕ) :
    Steady st.ueList (scheduleCarrier phy subframe ue st cc).ueList := by
  rw [scheduleCarrier]
  split
  · exact Steady.refl _
  · have hclear : Steady st.ueList (st.clearSr cc ue).ueList :=
      steady_setTemplate (fun _ ↦ rfl) (fun _ ↦ Nat.zero_le _) (fun _ ↦ rfl) (fun _ ↦ rfl)
    split
    · exact hclear.trans (newTransmission_steady phy _ cc ue _ _)
    · exact hclear

section Turns

variable {phy : EnbPhy} {subframe : ℕ}

/-- The turns of the loops over the UEs and their carriers. -/
def ulschTurns (l : UeList) (ues : List ℕ) : List (ℕ × ℕ) :=
  (ues.filter (fun ue ↦ l.configured (l.pCcId ue) ue && l.ueRnti ue != 0)).flatMap
    (fun ue ↦ (l.orderedUlCcIds ue).map (fun cc ↦ (ue, cc)))

def runUlschTurn (phy : EnbPhy) (subframe : ℕ) (st : UlschState) (turn : ℕ × ℕ) : UlschState :=
  scheduleCarrier phy subframe turn.1 st turn.2

theorem ulschTurns_congr {l l' : UeList} (h : l'.toUeDirectory = l.toUeDirectory) (ues : List ℕ) :
    ulschTurns l' ues = ulschTurns l ues := by
  simp only [ulschTurns, h]

theorem runUlschTurns_dir (turns : List (ℕ × ℕ)) (st : UlschState) :
    (turns.foldl (runUlschTurn phy subframe) st).ueList.toUeDirectory =
      st.ueList.toUeDirectory :=
  List.foldlRecOn (motive := fun st' : UlschState ↦
    st'.ueList.toUeDirectory = st.ueList.toUeDirectory) _ _ rfl
    (fun st' h turn _ ↦
      (scheduleCarrier_steady phy subframe turn.1 st' turn.2).only.fades.dir.trans h)

theorem ulschTurns_cons (l : UeList) (ue : ℕ) (ues : List ℕ) :
    ulschTurns l (ue :: ues) = ulschTurns l [ue] ++ ulschTurns l ues := by
  rw [← List.singleton_append, ulschTurns, List.filter_append, List.flatMap_append]
  rfl

theorem scheduleUe_eq {ue : ℕ} {st st' : UlschState} (h : scheduleUe phy subframe st ue = some st') :
    st' = (ulschTurns st.ueList [ue]).foldl (runUlschTurn phy subframe) st := by
  rw [scheduleUe] at h
  rw [ulschTurns, List.filter_singleton]
  cases hconfigured : st.ueList.configured (st.ueList.pCcId ue) ue with
  | false =>
    rw [hconfigured] at h
    cases h
    rfl
  | true =>
    simp only [hconfigured, Bool.not_true, Bool.false_eq_true, if_false] at h
    split at h
    · next hrnti =>
      cases h
      rw [hrnti]
      rfl
    · next hrnti =>
      split at h
      · cases h
      · cases h
        rw [bne_iff_ne.mpr hrnti, Bool.and_self, cond_true, List.flatMap_singleton, List.foldl_map]
        rfl

theorem scheduleUes_eq {ues : List ℕ} {st st' : UlschState}
    (h : scheduleUes phy subframe ues st = some st') :
    st' = (ulschTurns st.ueList ues).foldl (runUlschTurn phy subframe) st := by
  induction ues generalizing st with
  | nil =>
    cases h
    rfl
  | cons ue ues ih =>
    obtain ⟨next, hnext, hrest⟩ := Option.bind_eq_some_iff.mp h
    have hue := scheduleUe_eq hnext
    have hdir : next.ueList.toUeDirectory = st.ueList.toUeDirectory := by
      rw [hue]
      exact runUlschTurns_dir _ st
    rw [ih hrest, ulschTurns_congr hdir, ulschTurns_cons, List.foldl_append, ← hue]

/-- The grants a turn adds. -/
def turnGrants (phy : EnbPhy) (subframe : ℕ) (st : UlschState) (turn : ℕ × ℕ) : List UlschGrant :=
  match ulschTurn phy subframe st turn.1 turn.2 with
  | some (harqPid, 0, dci) =>
    (newTransmission phy
      { st.clearSr turn.2 turn.1 with grants := [] } turn.2 turn.1 harqPid dci).grants
  | _ => []

theorem runUlschTurn_grants (st : UlschState) (turn : ℕ × ℕ) :
    (runUlschTurn phy subframe st turn).grants = st.grants ++ turnGrants phy subframe st turn := by
  rw [runUlschTurn, scheduleCarrier, turnGrants]
  cases hturn : ulschTurn phy subframe st turn.1 turn.2 with
  | none => exact (List.append_nil _).symm
  | some r =>
    obtain ⟨harqPid, round, dci⟩ := r
    cases round with
    | zero => rfl
    | succ round => exact (List.append_nil _).symm

end Turns

section Quota

variable {phy : EnbPhy} {g : GlobalInfos} {subframe : ℕ}

/-- A UE without quota does not get through the guards for a new transmission. -/
def TurnWithinQuota (phy : EnbPhy) (g : GlobalInfos) (subframe : ℕ) (st : UlschState)
    (turn : ℕ × ℕ) : Prop :=
  ueRntiProcessFunctionUplink g turn.1 = 0 →
    ∀ harqPid dci, ulschTurn phy subframe st turn.1 turn.2 ≠ some (harqPid, 0, dci)

theorem harq_of_ulschTurn {st : UlschState} {ue cc harqPid : ℕ} {dci : DciAlloc}
    (h : ulschTurn phy subframe st ue cc = some (harqPid, 0, dci)) :
    phy.activeHarq cc (st.ueList.ueRnti ue) = some (harqPid, 0) ∧
      st.ueList.ueIsToBeScheduled phy cc ue = true := by
  rw [ulschTurn] at h
  cases hstats : phy.ueStats cc (st.ueList.ueRnti ue) with
  | none =>
    rw [hstats] at h
    cases h
  | some stats =>
    simp only [hstats, Option.ite_none_left_eq_some] at h
    obtain ⟨-, -, -, h⟩ := h
    cases hharq : phy.activeHarq cc (st.ueList.ueRnti ue) with
    | none =>
      rw [hharq] at h
      cases h
    | some r =>
      obtain ⟨pid, round⟩ := r
      simp only [hharq, Option.ite_none_right_eq_some, Option.some.injEq, Prod.mk.injEq] at h
      obtain ⟨hscheduled, rfl, rfl, -⟩ := h
      exact ⟨rfl, by simpa using hscheduled⟩

theorem ulschTurn_of_mem {st : UlschState} {turn : ℕ × ℕ} {a : UlschGrant}
    (ha : a ∈ turnGrants phy subframe st turn) :
    ∃ harqPid dci, ulschTurn phy subframe st turn.1 turn.2 = some (harqPid, 0, dci) := by
  rw [turnGrants] at ha
  cases hturn : ulschTurn phy subframe st turn.1 turn.2 with
  | none =>
    rw [hturn] at ha
    exact absurd ha List.not_mem_nil
  | some r =>
    obtain ⟨harqPid, round, dci⟩ := r
    cases round with
    | zero => exact ⟨harqPid, dci, rfl⟩
    | succ round =>
      rw [hturn] at ha
      exact absurd ha List.not_mem_nil

/-- A capped UE with a quota gets at most that many resource blocks. -/
theorem grant_le_quota {st : UlschState} {turn : ℕ × ℕ} {a : UlschGrant} {harqPid : ℕ} {dci : DciAlloc}
    (hcapped : Capped phy g st.ueList turn.1 turn.2)
    (hturn : ulschTurn phy subframe st turn.1 turn.2 = some (harqPid, 0, dci))
    (ha : a ∈ turnGrants phy subframe st turn)
    (hquota : 1 ≤ ueRntiProcessFunctionUplink g turn.1) :
    a.ue = turn.1 ∧ (a.nbRb : ℤ) ≤ ueRntiProcessFunctionUplink g turn.1 := by
  obtain ⟨hharq, hscheduled⟩ := harq_of_ulschTurn hturn
  have hcap := hcapped.2 harqPid hharq
  rw [turnGrants, hturn] at ha
  have ha' := List.mem_singleton.mp ha
  refine ⟨by rw [ha'], ?_⟩
  have hsteady : Steady st.ueList (st.clearSr turn.2 turn.1).ueList :=
    steady_setTemplate (fun _ ↦ rfl) (fun _ ↦ Nat.zero_le _) (fun _ ↦ rfl) (fun _ ↦ rfl)
  have hnb : a.nbRb = rbTable.get (grantIndex (phy.nRbUl turn.2) (st.firstRb turn.2)
      ((st.clearSr turn.2 turn.1).ueList.ueTemplate turn.2 turn.1)) := by rw [ha']; rfl
  rw [hnb]
  rcases grantIndex_spec (phy.nRbUl turn.2) (st.firstRb turn.2)
    ((st.clearSr turn.2 turn.1).ueList.ueTemplate turn.2 turn.1) with hzero | hfits
  · rw [hzero, rbTable_zero]
    exact hquota
  · cases hindex : (st.ueList.ueTemplate turn.2 turn.1).preAllocatedRbTableIndexUl with
    | none => exact absurd (hscheduled.symm.trans (hcapped.1 hindex)) (by decide)
    | some k =>
      simp only [tooLarge, hsteady.only.index, hsteady.nb, hindex, Option.isSome_some,
        Bool.true_and, Bool.or_eq_false_iff, decide_eq_false_iff_not, not_lt] at hfits
      exact (Int.ofNat_le.mpr hfits.2).trans hcap

theorem turnGrants_pos {st : UlschState} {turn : ℕ × ℕ} {a : UlschGrant}
    (ha : a ∈ turnGrants phy subframe st turn) : a.ue = turn.1 ∧ 0 < a.nbRb := by
  obtain ⟨harqPid, dci, hturn⟩ := ulschTurn_of_mem ha
  rw [turnGrants, hturn] at ha
  have ha' := List.mem_singleton.mp ha
  rw [ha']
  exact ⟨rfl, rbTable_pos _⟩

theorem uplink_quota_nonneg (hquota : ∀ i, 0 ≤ (g.sliceInfo i).uRB) (ue : ℕ) :
    0 ≤ ueRntiProcessFunctionUplink g ue := by
  rw [ueRntiProcessFunctionUplink]
  cases hfind : g.find ue with
  | none => decide
  | some s =>
    obtain ⟨i, rfl⟩ := List.mem_ofFn.mp (List.mem_of_find?_eq_some hfind)
    exact hquota i

/-- The state after the turns `front` of a call. -/
def stateAfter (phy : EnbPhy) (g : GlobalInfos) (subframe : ℕ) (start : ℕ × ℕ) (firstRb : ℕ → ℕ)
    (dcis : ℕ → List DciAlloc) (l : UeList) (front : List (ℕ × ℕ)) : UlschState :=
  front.foldl (runUlschTurn phy subframe)
    { ueList := (ulschSchedulerPreProcessor phy g start firstRb l).1, firstRb := firstRb,
      dcis := dcis, grants := [] }

/-- The turns of a call. -/
def callTurns (phy : EnbPhy) (g : GlobalInfos) (start : ℕ × ℕ) (firstRb : ℕ → ℕ) (l : UeList) :
    List (ℕ × ℕ) :=
  ulschTurns (ulschSchedulerPreProcessor phy g start firstRb l).1
    (ulschSchedulerPreProcessor phy g start firstRb l).2

theorem preProcessor_dir (phy : EnbPhy) (g : GlobalInfos) (start : ℕ × ℕ) (firstRb : ℕ → ℕ)
    (l : UeList) :
    (ulschSchedulerPreProcessor phy g start firstRb l).1.toUeDirectory = l.toUeDirectory :=
  ((storeShares_only _ _).trans (storeShares_only _ _)).fades.dir.trans
    (assignMaxMcsMinRb_fades l).dir

/-- All UEs and carriers of a call stay capped. -/
theorem stateAfter_capped (phy : EnbPhy) (g : GlobalInfos) (subframe : ℕ) (start : ℕ × ℕ)
    (firstRb : ℕ → ℕ) (dcis : ℕ → List DciAlloc) (l : UeList)
    (hquota : ∀ ue, 0 ≤ ueRntiProcessFunctionUplink g ue) (front : List (ℕ × ℕ)) (turn : ℕ × ℕ)
    (hturn : turn ∈ callTurns phy g start firstRb l) :
    Capped phy g (stateAfter phy g subframe start firstRb dcis l front).ueList turn.1 turn.2 := by
  obtain ⟨ue, hue, hturn⟩ := List.mem_flatMap.mp hturn
  obtain ⟨cc, hcc, rfl⟩ := List.mem_map.mp hturn
  rw [preProcessor_dir] at hcc
  refine List.foldlRecOn (motive := fun st : UlschState ↦ Capped phy g st.ueList ue cc) _ _
    (preProcessor_capped phy g start firstRb l hquota ue (List.mem_filter.mp hue).1 cc hcc) ?_
  intro st hst turn _
  exact hst.mono (scheduleCarrier_steady phy subframe turn.1 st turn.2)

/-- The grants of a call stay within the quotas if and only if no UE whose quota is zero
gets through the guards for a new transmission. -/
theorem ulsch_quota_iff (phy : EnbPhy) (g : GlobalInfos) (subframe : ℕ) (start : ℕ × ℕ)
    (firstRb : ℕ → ℕ) (dcis : ℕ → List DciAlloc) (l : UeList) (st : UlschState)
    (hquota : ∀ i, 0 ≤ (g.sliceInfo i).uRB)
    (h : scheduleUlschRnti phy g subframe start firstRb dcis l = some st) :
    (∀ a ∈ st.grants, (a.nbRb : ℤ) ≤ ueRntiProcessFunctionUplink g a.ue) ↔
      ∀ front turn back, callTurns phy g start firstRb l = front ++ turn :: back →
        TurnWithinQuota phy g subframe (stateAfter phy g subframe start firstRb dcis l front)
          turn := by
  have hst := scheduleUes_eq h
  have hgrants : ∀ a, a ∈ st.grants ↔ ∃ front turn back,
      callTurns phy g start firstRb l = front ++ turn :: back ∧
        a ∈ turnGrants phy subframe (stateAfter phy g subframe start firstRb dcis l front) turn := by
    intro a
    rw [hst, Fold.mem_output UlschState.grants runUlschTurn_grants, or_iff_right
      List.not_mem_nil]
    rfl
  constructor
  · intro hle front turn back hsplit hzero harqPid dci hturn
    obtain ⟨a, ha⟩ : ∃ a, a ∈ turnGrants phy subframe
        (stateAfter phy g subframe start firstRb dcis l front) turn := by
      rw [turnGrants, hturn]
      exact ⟨_, List.mem_singleton_self _⟩
    obtain ⟨hue, hpos⟩ := turnGrants_pos ha
    have := hle a ((hgrants a).mpr ⟨front, turn, back, hsplit, ha⟩)
    rw [hue, hzero] at this
    omega
  · intro hturns a ha
    obtain ⟨front, turn, back, hsplit, ha⟩ := (hgrants a).mp ha
    obtain ⟨harqPid, dci, hturn⟩ := ulschTurn_of_mem ha
    have hcapped : Capped phy g (stateAfter phy g subframe start firstRb dcis l front).ueList
        turn.1 turn.2 := by
      have hmem : turn ∈ callTurns phy g start firstRb l := by simp [hsplit]
      exact stateAfter_capped phy g subframe start firstRb dcis l
        (uplink_quota_nonneg hquota) front turn hmem
    have hone : 1 ≤ ueRntiProcessFunctionUplink g turn.1 := by
      have hnonneg := uplink_quota_nonneg hquota turn.1
      have hne : ueRntiProcessFunctionUplink g turn.1 ≠ 0 := fun hzero ↦
        hturns front turn back hsplit hzero harqPid dci hturn
      omega
    obtain ⟨hue, hle⟩ := grant_le_quota hcapped hturn ha hone
    rw [hue]
    exact hle

/-- A slice table whose uplink quotas are all `uRB`. -/
def uniformSlices (uRB : ℤ) : GlobalInfos where
  sliceInfo i := { ueId := i.val, uRB := uRB, dRB := 10, active := 1 }

theorem ulsch_quota_iff_requesting :
    ∃ st, scheduleUlschRnti phy5MHz (uniformSlices 2) 0 (0, 0) (fun _ ↦ 1) (fun _ ↦ [])
        requestingUes = some st ∧
      ((∀ a ∈ st.grants, (a.nbRb : ℤ) ≤ ueRntiProcessFunctionUplink (uniformSlices 2) a.ue) ↔
        ∀ front turn back, callTurns phy5MHz (uniformSlices 2) (0, 0) (fun _ ↦ 1) requestingUes =
            front ++ turn :: back →
          TurnWithinQuota phy5MHz (uniformSlices 2) 0
            (stateAfter phy5MHz (uniformSlices 2) 0 (0, 0) (fun _ ↦ 1) (fun _ ↦ []) requestingUes
              front) turn) := by
  have hrun : (scheduleUlschRnti phy5MHz (uniformSlices 2) 0 (0, 0) (fun _ ↦ 1) (fun _ ↦ [])
      requestingUes).isSome = true := by decide +kernel
  obtain ⟨st, hst⟩ := Option.isSome_iff_exists.mp hrun
  exact ⟨st, hst, ulsch_quota_iff _ _ _ _ _ _ _ st (fun _ ↦ show (0 : ℤ) ≤ 2 by decide) hst⟩

theorem not_ulsch_quota :
    ¬ ∀ (phy : EnbPhy) (g : GlobalInfos) (subframe : ℕ) (start : ℕ × ℕ) (firstRb : ℕ → ℕ)
      (dcis : ℕ → List DciAlloc) (l : UeList) (st : UlschState),
      (∀ i, 0 ≤ (g.sliceInfo i).uRB) → scheduleUlschRnti phy g subframe start firstRb dcis l = some st →
        ∀ a ∈ st.grants, (a.nbRb : ℤ) ≤ ueRntiProcessFunctionUplink g a.ue := by
  intro hall
  have hrun : (scheduleUlschRnti phy5MHz (uniformSlices 0) 0 (0, 0) (fun _ ↦ 1) (fun _ ↦ [])
      requestingUes).map (·.grants.map (fun a ↦ (a.ue, a.nbRb))) = some [(0, 1), (1, 1)] := by
    decide +kernel
  obtain ⟨st, hst, hgrants⟩ := Option.map_eq_some_iff.mp hrun
  obtain ⟨a, ha, hpair⟩ := List.mem_map.mp (hgrants.symm ▸ List.mem_cons_self :
    ((0, 1) : ℕ × ℕ) ∈ st.grants.map (fun a ↦ (a.ue, a.nbRb)))
  have hle := hall _ _ _ _ _ _ _ st (fun _ ↦ le_rfl) hst a ha
  rw [(Prod.mk.inj hpair).1, (Prod.mk.inj hpair).2] at hle
  exact absurd hle (by decide)

end Quota

end EdgeSlice.Mac
