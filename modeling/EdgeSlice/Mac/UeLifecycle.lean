import EdgeSlice.Mac.UlBuffer
import EdgeSlice.Mac.ScheduleUlsch
import EdgeSlice.Mac.UeGetSdu
import Mathlib.Data.Nat.Bitwise

namespace EdgeSlice.Mac

open Function

/-- The data of one UE: where it is, and what is kept for it on its primary carrier. -/
structure Slot where
  rnti : ℕ
  cc : ℕ
  template : UeTemplate
  ctrl : UeUlSchedCtrl

namespace UeTemplate

/-- `store_dlsch_buffer` for one UE. `status` is what the RLC reports for a logical
channel: bytes in its buffer and creation time of the head SDU. -/
def storeDlschBuffer (status : ℕ → ℕ × ℕ) (t : UeTemplate) : UeTemplate :=
  { t with
    dlBufferInfo := fun i ↦ if i < maxNumLcid then (status i).1 else t.dlBufferInfo i
    dlBufferTotal := (List.range maxNumLcid).foldl (fun total i ↦ (total + (status i).1) % 2 ^ 32) 0
    dlBufferHeadSduCreationTimeMax := (List.range maxNumLcid).foldl
      (fun time i ↦ max time (status i).2) t.dlBufferHeadSduCreationTimeMax }

/-- The branches of `rx_sdu` for an SDU of a signalling or a data channel. The logical
channel 0 is CCCH, which has no buffer here. -/
def rxSdu (lcid : Fin 11) (length : ℕ) (t : UeTemplate) : UeTemplate :=
  if lcid = 0 then t
  else
    { t with
      ulBufferInfo := update t.ulBufferInfo (t.lcgidmap lcid)
        (if length ≤ t.ulBufferInfo (t.lcgidmap lcid) then t.ulBufferInfo (t.lcgidmap lcid) - length
          else 0) }

/-- What `rrc_mac_config_req` writes for a logical channel. -/
def configured (lcid : Fin 11) (lcgid : Fin 4) (t : UeTemplate) : UeTemplate :=
  { t with lcgidmap := update t.lcgidmap lcid lcgid }

/-- What `rrc_mac_remove_ue` clears in the template. -/
def removed (t : UeTemplate) : UeTemplate :=
  { t with
    bsrInfo := fun _ ↦ 0
    ulSr := 0
    ulActive := false }

end UeTemplate

namespace UeUlSchedCtrl

/-- `rx_sdu` for a block that is lost. -/
def lost (harqPid : ℕ) (c : UeUlSchedCtrl) : UeUlSchedCtrl :=
  { c with ulScheduled := Nat.ldiff c.ulScheduled (1 <<< harqPid) }

/-- What `rx_sdu` does for the UE of a C-RNTI. -/
def inSync (c : UeUlSchedCtrl) : UeUlSchedCtrl :=
  { c with
    ulInactivityTimer := 0
    ulFailureTimer := 0
    ulOutOfSync := if 0 < c.ulOutOfSync then 0 else c.ulOutOfSync }

/-- `UL_failure_indication`. -/
def failureIndication (c : UeUlSchedCtrl) : UeUlSchedCtrl :=
  { c with ulFailureTimer := if c.ulFailureTimer = 0 then 1 else c.ulFailureTimer }

/-- The check of the uplink failure in `eNB_dlsch_ulsch_scheduler`, where a DCI is
feasible. -/
def failureCheck (c : UeUlSchedCtrl) : UeUlSchedCtrl :=
  if 0 < c.ulFailureTimer ∧ c.ulOutOfSync = 0 then
    if 200 < c.ulFailureTimer + 1 then { c with ulFailureTimer := 0, ulOutOfSync := 1 }
    else { c with ulFailureTimer := c.ulFailureTimer + 1 }
  else c

end UeUlSchedCtrl

/-- What happens to a UE while it has its slot. -/
inductive UeEvent
  | received (harqPid : ℕ)
  | lost (harqPid : ℕ)
  | crnti
  | powerHeadroom (b : UInt8)
  | bsr (ce : BsrCe)
  | sdu (lcid : Fin 11) (length : ℕ)
  | configured (lcid : Fin 11) (lcgid : Fin 4)
  | schedulingRequest
  | failureIndication
  | failureCheck
  | subframe
  | storeDlschBuffer (status : ℕ → ℕ × ℕ)
  | downlinkRound (cc round : ℕ)
  | preProcess (phy : EnbPhy) (firstRb : ℕ)
  | granted (harqPid nbRb tbs : ℕ)
  | retransmitted

namespace Slot

def toBeScheduled (phy : EnbPhy) (a : Slot) : Bool :=
  Mac.toBeScheduled (phy.rrcConnected a.rnti) a.template a.ctrl

/-- `assign_max_mcs_min_rb` for the UE on its carrier. -/
def assigned (phy : EnbPhy) (firstRb : ℕ) (a : Slot) : UeTemplate :=
  (assignTemplate phy firstRb a.cc (a.toBeScheduled phy) (firstMcs a.ctrl) a.template).1

def setTemplate (a : Slot) (f : UeTemplate → UeTemplate) : Slot := { a with template := f a.template }

def setCtrl (a : Slot) (f : UeUlSchedCtrl → UeUlSchedCtrl) : Slot := { a with ctrl := f a.ctrl }

def run (a : Slot) : UeEvent → Slot
  | .received harqPid => a.setCtrl (fun c ↦ (c.inSync).lost harqPid)
  | .lost harqPid => a.setCtrl (·.lost harqPid)
  | .crnti => a.setCtrl (·.inSync)
  | .powerHeadroom b =>
    (a.setTemplate ({ · with phrInfo := ((b &&& 0x3f).toNat : ℤ) - 23 })).setCtrl
      ({ · with phrReceived := 1 })
  | .bsr ce => a.setTemplate (rxBsr · ce)
  | .sdu lcid length => a.setTemplate (·.rxSdu lcid length)
  | .configured lcid lcgid => a.setTemplate (·.configured lcid lcgid)
  | .schedulingRequest => a.setTemplate ({ · with ulSr := 1, ulActive := true })
  | .failureIndication => a.setCtrl (·.failureIndication)
  | .failureCheck => a.setCtrl (·.failureCheck)
  | .subframe => a.setCtrl (fun c ↦ { c with ulInactivityTimer := c.ulInactivityTimer + 1 })
  | .storeDlschBuffer status => a.setTemplate (·.storeDlschBuffer status)
  | .downlinkRound cc round => a.setCtrl (fun c ↦ { c with round := update c.round cc round })
  | .preProcess phy firstRb => { a with template := a.assigned phy firstRb }
  | .granted harqPid nbRb tbs =>
    (a.setTemplate (·.clearSr.granted harqPid nbRb tbs)).setCtrl (·.granted harqPid)
  | .retransmitted => a.setTemplate (·.clearSr)

def runs (a : Slot) (es : List UeEvent) : Slot := es.foldl run a

end Slot

inductive HistoryEvent
  | addNewUe (cc rnti harqPid : ℕ)
  | removeUe (rnti : ℕ)
  | ue (rnti : ℕ) (e : UeEvent)

namespace UeList

def freeSlot (l : UeList) : Option ℕ :=
  (List.range l.numberOfUeMax).find? (fun ue ↦ !l.active ue)

/-- `add_new_ue` for the slot it has found. -/
def takeSlot (l : UeList) (s cc rnti harqPid : ℕ) : UeList where
  numberOfUeMax := l.numberOfUeMax
  active := update l.active s true
  pCcId := update l.pCcId s cc
  orderedCcIds := update l.orderedCcIds s [cc]
  orderedUlCcIds := update l.orderedUlCcIds s [cc]
  rnti := update l.rnti cc (update (l.rnti cc) s rnti)
  configured := update l.configured cc (update (l.configured cc) s false)
  active_of_rnti := by
    intro ue hue hrnti
    by_cases hs : ue = s
    · rw [hs, update_self]
    · rw [update_of_ne hs] at hrnti ⊢
      refine l.active_of_rnti ue hue ?_
      by_cases hcc : l.pCcId ue = cc
      · rwa [hcc, update_self, update_of_ne hs, ← hcc] at hrnti
      · rwa [update_of_ne hcc] at hrnti
  ueTemplate := update l.ueTemplate cc
    (update (l.ueTemplate cc) s ((l.ueTemplate cc s).added harqPid))
  ueSchedCtrl := update l.ueSchedCtrl s UeUlSchedCtrl.zeroed

def addNewUe (l : UeList) (cc rnti harqPid : ℕ) : UeList :=
  match l.freeSlot with
  | none => l
  | some s => l.takeSlot s cc rnti harqPid

/-- `rrc_mac_remove_ue` for the slot of the RNTI. -/
def leaveSlot (l : UeList) (s : ℕ) : UeList where
  numberOfUeMax := l.numberOfUeMax
  active := update l.active s false
  pCcId := l.pCcId
  orderedCcIds := l.orderedCcIds
  orderedUlCcIds := l.orderedUlCcIds
  rnti := update l.rnti (l.pCcId s) (update (l.rnti (l.pCcId s)) s 0)
  configured := l.configured
  active_of_rnti := by
    intro ue hue hrnti
    by_cases hs : ue = s
    · rw [hs, update_self, update_self] at hrnti
      exact absurd rfl hrnti
    · rw [update_of_ne hs]
      refine l.active_of_rnti ue hue ?_
      by_cases hcc : l.pCcId ue = l.pCcId s
      · rwa [hcc, update_self, update_of_ne hs, ← hcc] at hrnti
      · rwa [update_of_ne hcc] at hrnti
  ueTemplate := update l.ueTemplate (l.pCcId s)
    (update (l.ueTemplate (l.pCcId s)) s (l.ueTemplate (l.pCcId s) s).removed)
  ueSchedCtrl := l.ueSchedCtrl

def rrcMacRemoveUe (l : UeList) (rnti : ℕ) : UeList :=
  match l.findUeId rnti with
  | none => l
  | some s => l.leaveSlot s

def slot (l : UeList) (s : ℕ) : Slot where
  rnti := l.ueRnti s
  cc := l.pCcId s
  template := l.ueTemplate (l.pCcId s) s
  ctrl := l.ueSchedCtrl s

def putSlot (l : UeList) (s : ℕ) (a : Slot) : UeList :=
  (l.setTemplate (l.pCcId s) s (fun _ ↦ a.template)).setCtrl s (fun _ ↦ a.ctrl)

def history (l : UeList) : HistoryEvent → UeList
  | .addNewUe cc rnti harqPid => l.addNewUe cc rnti harqPid
  | .removeUe rnti => l.rrcMacRemoveUe rnti
  | .ue rnti e =>
    match l.findUeId rnti with
    | none => l
    | some s => l.putSlot s ((l.slot s).run e)

/-- The list of an eNB that has just started, in zeroed memory. -/
def started (numberOfUeMax : ℕ) : UeList where
  numberOfUeMax := numberOfUeMax
  active _ := false
  pCcId _ := 0
  orderedCcIds _ := []
  orderedUlCcIds _ := []
  rnti _ _ := 0
  configured _ _ := false
  active_of_rnti _ _ h := absurd rfl h
  ueTemplate _ _ := UeTemplate.zeroed
  ueSchedCtrl _ := UeUlSchedCtrl.zeroed

def reached (numberOfUeMax : ℕ) (hs : List HistoryEvent) : UeList :=
  hs.foldl history (started numberOfUeMax)

end UeList

namespace Slot

@[simp] theorem run_rnti (a : Slot) (e : UeEvent) : (a.run e).rnti = a.rnti := by cases e <;> rfl

@[simp] theorem run_cc (a : Slot) (e : UeEvent) : (a.run e).cc = a.cc := by cases e <;> rfl

end Slot

theorem assignTemplate_ulBufferInfo (phy : EnbPhy) (firstRb cc : ℕ) (scheduled : Bool) (mcs : ℕ)
    (t : UeTemplate) :
    (assignTemplate phy firstRb cc scheduled mcs t).1.ulBufferInfo = t.ulBufferInfo := by
  rw [assignTemplate]
  split
  · rfl
  · cases scheduled <;> rfl

theorem rxSdu_reported {t : UeTemplate} (h : Reported t) (lcid : Fin 11) (length : ℕ) :
    Reported (t.rxSdu lcid length) := by
  rw [UeTemplate.rxSdu]
  split
  · exact h
  · intro g
    have hgroup := h (t.lcgidmap lcid)
    by_cases hg : g = t.lcgidmap lcid
    · rw [hg]
      simp only [update_self]
      split <;> omega
    · simp only [update_of_ne hg]
      exact h g

theorem Slot.run_reported {a : Slot} (h : Reported a.template) (e : UeEvent) :
    Reported (a.run e).template := by
  cases e with
  | bsr ce => exact rxBsr_reported h ce
  | sdu lcid length => exact rxSdu_reported h lcid length
  | preProcess phy firstRb =>
    intro g
    exact (congrFun (assignTemplate_ulBufferInfo ..) g).trans_le (h g)
  | _ => exact h

namespace UeList

variable {l : UeList} {s : ℕ}

theorem active_of_freeSlot (h : l.freeSlot = some s) : l.active s = false := by
  simpa using List.find?_some h

theorem active_of_findUeId {rnti : ℕ} (h : l.findUeId rnti = some s) : l.active s = true := by
  have hfound := List.find?_some h
  rw [Bool.and_eq_true] at hfound
  exact hfound.1

@[simp] theorem putSlot_dir (a : Slot) : (l.putSlot s a).toUeDirectory = l.toUeDirectory := rfl

theorem putSlot_template_other {cc ue : ℕ} (h : cc ≠ l.pCcId s ∨ ue ≠ s) (a : Slot) :
    (l.putSlot s a).ueTemplate cc ue = l.ueTemplate cc ue :=
  setTemplate_other h (fun _ ↦ a.template)

theorem putSlot_template (a : Slot) : (l.putSlot s a).ueTemplate (l.pCcId s) s = a.template :=
  setTemplate_same (l.pCcId s) s (fun _ ↦ a.template)

theorem slot_eq {a : Slot} (hcc : l.pCcId s = a.cc) (hrnti : l.rnti a.cc s = a.rnti)
    (htemplate : l.ueTemplate a.cc s = a.template) (hctrl : l.ueSchedCtrl s = a.ctrl) :
    l.slot s = a := by
  simp only [slot, UeDirectory.ueRnti, hcc, hrnti, htemplate, hctrl]

theorem takeSlot_template_other {cc ue cc' : ℕ} (h : cc' ≠ cc ∨ ue ≠ s) (rnti harqPid : ℕ) :
    (l.takeSlot s cc rnti harqPid).ueTemplate cc' ue = l.ueTemplate cc' ue :=
  setTemplate_other h (·.added harqPid)

theorem leaveSlot_template_other {cc ue : ℕ} (h : cc ≠ l.pCcId s ∨ ue ≠ s) :
    (l.leaveSlot s).ueTemplate cc ue = l.ueTemplate cc ue := setTemplate_other h (·.removed)

theorem leaveSlot_template :
    (l.leaveSlot s).ueTemplate (l.pCcId s) s = (l.ueTemplate (l.pCcId s) s).removed :=
  setTemplate_same _ s (·.removed)

theorem takeSlot_slot (cc rnti harqPid : ℕ) :
    (l.takeSlot s cc rnti harqPid).slot s =
      { rnti := rnti
        cc := cc
        template := (l.ueTemplate cc s).added harqPid
        ctrl := UeUlSchedCtrl.zeroed } := by
  simp only [slot, UeDirectory.ueRnti, takeSlot, update_self]

/-- Events of a UE change its slot as `Slot.run` says. -/
theorem history_slot {rnti : ℕ} (h : l.findUeId rnti = some s) (e : UeEvent) :
    (l.history (.ue rnti e)).slot s = (l.slot s).run e := by
  have hcc : ((l.slot s).run e).cc = l.pCcId s := Slot.run_cc _ e
  have hrnti : ((l.slot s).run e).rnti = l.rnti (l.pCcId s) s := Slot.run_rnti _ e
  simp only [history, h]
  refine slot_eq hcc.symm (by rw [hcc, hrnti, putSlot_dir]) ?_ (setCtrl_same ..)
  rw [hcc, putSlot_template]

/-- The event takes the slot, leaves it, or is one of the UE in it. -/
def Concerns (l : UeList) (s : ℕ) : HistoryEvent → Prop
  | .addNewUe _ _ _ => l.freeSlot = some s
  | .removeUe rnti => l.findUeId rnti = some s
  | .ue rnti _ => l.findUeId rnti = some s

/-- Every other event leaves the slot as it is. -/
theorem history_frame {e : HistoryEvent} (h : ¬ l.Concerns s e) : (l.history e).slot s = l.slot s := by
  cases e with
  | addNewUe cc rnti harqPid =>
    simp only [history, addNewUe]
    split
    · rfl
    · next s' hs' =>
      have hne : s ≠ s' := fun heq ↦ h (heq ▸ hs')
      have hrnti : (l.takeSlot s' cc rnti harqPid).rnti (l.pCcId s) s = l.rnti (l.pCcId s) s := by
        by_cases hsame : l.pCcId s = cc
        · simp only [takeSlot, hsame, update_self, update_of_ne hne]
        · simp only [takeSlot, update_of_ne hsame]
      exact slot_eq (update_of_ne hne ..) hrnti (takeSlot_template_other (.inr hne) ..)
        (update_of_ne hne ..)
  | removeUe rnti =>
    simp only [history, rrcMacRemoveUe]
    split
    · rfl
    · next s' hs' =>
      have hne : s ≠ s' := fun heq ↦ h (heq ▸ hs')
      have hrnti : (l.leaveSlot s').rnti (l.pCcId s) s = l.rnti (l.pCcId s) s := by
        by_cases hsame : l.pCcId s = l.pCcId s'
        · simp only [leaveSlot, hsame, update_self, update_of_ne hne]
        · simp only [leaveSlot, update_of_ne hsame]
      exact slot_eq rfl hrnti (leaveSlot_template_other (.inr hne)) rfl
  | ue rnti e =>
    simp only [history]
    split
    · rfl
    · next s' hs' =>
      have hne : s ≠ s' := fun heq ↦ h (heq ▸ hs')
      exact slot_eq rfl rfl (putSlot_template_other (.inr hne) _) (setCtrl_other hne _)

/-- The sort keys of `ue_ul_compare` are those of the slot. -/
theorem ulSortKeys_eq {phy : EnbPhy} (h : l.findUeId (l.ueRnti s) = some s) :
    ulSortKeys phy l s = Mac.ulKeys (roundMax phy.maxNumCcs (l.slot s).ctrl) (l.slot s).template := by
  simp only [ulSortKeys, maxround, h, slot]

/-- `assign_max_mcs_min_rb` leaves in the template what `Slot.assigned` says. -/
theorem assignUe_template {phy : EnbPhy} {firstRb : ℕ → ℕ} (hactive : l.active s = true)
    (hreachable : l.reachable phy s = true) (hcarriers : l.orderedUlCcIds s = [l.pCcId s]) :
    (assignUe phy firstRb l s).ueTemplate (l.pCcId s) s =
      (l.slot s).assigned phy (firstRb (l.pCcId s)) := by
  simp only [assignUe, hactive, hreachable, Bool.and_self, if_true, hcarriers, List.foldl_cons,
    List.foldl_nil, assignCarrier]
  exact setTemplate_same ..

/-- What holds of the templates in every list that is reached. -/
structure Kept (l : UeList) : Prop where
  clean : ∀ ue cc, l.active ue = false ∨ cc ≠ l.pCcId ue →
    (l.ueTemplate cc ue).bsrInfo = (fun _ ↦ 0) ∧ (l.ueTemplate cc ue).ulSr = 0
  reported : ∀ ue cc, Reported (l.ueTemplate cc ue)

theorem kept_started (numberOfUeMax : ℕ) : Kept (started numberOfUeMax) where
  clean _ _ _ := ⟨rfl, rfl⟩
  reported _ _ _ := Nat.zero_le _

theorem Kept.takeSlot (h : Kept l) (hfree : l.active s = false) (cc rnti harqPid : ℕ) :
    Kept (l.takeSlot s cc rnti harqPid) where
  clean ue cc' hor := by
    by_cases hue : ue = s
    · subst hue
      have hcc : cc' ≠ cc := by
        rcases hor with hactive | hcc
        · simp only [UeList.takeSlot, update_self, Bool.true_eq_false] at hactive
        · simpa only [UeList.takeSlot, update_self] using hcc
      rw [takeSlot_template_other (.inl hcc)]
      exact h.clean ue cc' (.inl hfree)
    · rw [takeSlot_template_other (.inr hue)]
      refine h.clean ue cc' ?_
      simpa only [UeList.takeSlot, update_of_ne hue] using hor
  reported ue cc' := setTemplate_rel (R := fun t t' ↦ Reported t → Reported t') (fun _ ht ↦ ht)
    (f := (·.added harqPid)) (fun ht ↦ ht) cc' ue (h.reported ue cc')

theorem Kept.leaveSlot (h : Kept l) : Kept (l.leaveSlot s) where
  clean ue cc hor := by
    by_cases hsame : cc ≠ l.pCcId s ∨ ue ≠ s
    · rw [leaveSlot_template_other hsame]
      refine h.clean ue cc ?_
      by_cases hue : ue = s
      · subst hue
        exact .inr (hsame.resolve_right (not_not_intro rfl))
      · simpa only [UeList.leaveSlot, update_of_ne hue] using hor
    · obtain ⟨rfl, rfl⟩ : cc = l.pCcId s ∧ ue = s := by
        simpa only [not_or, not_not] using hsame
      rw [leaveSlot_template]
      exact ⟨rfl, rfl⟩
  reported ue cc := setTemplate_rel (R := fun t t' ↦ Reported t → Reported t') (fun _ ht ↦ ht)
    (f := (·.removed)) (fun ht ↦ ht) cc ue (h.reported ue cc)

theorem Kept.putSlot (h : Kept l) (hactive : l.active s = true) {a : Slot}
    (ha : Reported a.template) : Kept (l.putSlot s a) where
  clean ue cc hor := by
    have hother : cc ≠ l.pCcId s ∨ ue ≠ s := by
      by_cases hue : ue = s
      · subst hue
        rcases hor with hfree | hcc
        · rw [putSlot_dir, hactive] at hfree
          exact absurd hfree (by decide)
        · exact .inl hcc
      · exact .inr hue
    rw [putSlot_template_other hother]
    exact h.clean ue cc hor
  reported ue cc := setTemplate_rel (R := fun t t' ↦ Reported t → Reported t') (fun _ ht ↦ ht)
    (f := fun _ ↦ a.template) (fun _ ↦ ha) cc ue (h.reported ue cc)

theorem Kept.history (h : Kept l) (e : HistoryEvent) : Kept (l.history e) := by
  cases e with
  | addNewUe cc rnti harqPid =>
    simp only [UeList.history, addNewUe]
    split
    · exact h
    · next s hs => exact h.takeSlot (active_of_freeSlot hs) cc rnti harqPid
  | removeUe rnti =>
    simp only [UeList.history, rrcMacRemoveUe]
    split
    · exact h
    · exact h.leaveSlot
  | ue rnti e =>
    simp only [UeList.history]
    split
    · exact h
    · next s hs =>
      exact h.putSlot (active_of_findUeId hs) (Slot.run_reported (h.reported s _) e)

theorem kept_reached (numberOfUeMax : ℕ) (hs : List HistoryEvent) : Kept (reached numberOfUeMax hs) :=
  List.foldlRecOn _ _ (kept_started numberOfUeMax) (fun _ h e _ ↦ h.history e)

end UeList

end EdgeSlice.Mac
