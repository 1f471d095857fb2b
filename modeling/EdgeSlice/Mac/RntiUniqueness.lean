import EdgeSlice.Fold
import EdgeSlice.GuardedRun
import EdgeSlice.Mac.RandomAccess

namespace EdgeSlice.Mac

open Function

/-- Nobody shares an RNTI: neither two processes of a carrier, nor two UEs, nor a UE and a process that waits for
Msg3. -/
structure RntisUnique (s : RaMac) : Prop where
  procs : ∀ cc i j, i < nbRaProcMax → j < nbRaProcMax → i ≠ j → (s.raTemplate cc i).raActive = true →
    (s.raTemplate cc j).raActive = true → (s.raTemplate cc i).rnti ≠ (s.raTemplate cc j).rnti
  ues : ∀ ue ue', ue < s.ueList.numberOfUeMax → ue' < s.ueList.numberOfUeMax → ue ≠ ue' →
    s.ueList.active ue = true → s.ueList.active ue' = true → s.ueList.ueRnti ue ≠ s.ueList.ueRnti ue'
  waiting : ∀ cc i ue, i < nbRaProcMax → (s.raTemplate cc i).waiting = true → ue < s.ueList.numberOfUeMax →
    s.ueList.active ue = true → (s.raTemplate cc i).rnti ≠ s.ueList.ueRnti ue

/-- What remains of a process after a step that does not start it. -/
structure RaTemplate.Remains (t t' : RaTemplate) : Prop where
  active : t'.raActive = true → t.raActive = true ∧ t'.rnti = t.rnti
  waiting : t'.waiting = true → t.waiting = true

namespace RaTemplate

variable {t : RaTemplate}

@[simp] theorem Remains.refl : t.Remains t := ⟨fun h ↦ ⟨h, rfl⟩, id⟩

theorem active_of_waiting (h : t.waiting = true) : t.raActive = true := by
  simp only [waiting, Bool.and_eq_true] at h
  exact h.1.1

/-- The process has the RNTI of a PDU. -/
def Hit (rnti : ℕ) (t : RaTemplate) : Prop := t.rnti = rnti ∧ t.raActive = true

instance (rnti : ℕ) (t : RaTemplate) : Decidable (t.Hit rnti) := inferInstanceAs (Decidable (_ ∧ _))

/-- A process after a CCCH SDU. -/
def received (rnti : ℕ) (t : RaTemplate) : RaTemplate :=
  if t.Hit rnti then { t with generateMsg4 := true, waitAckMsg4 := false } else t

@[simp] theorem received_rnti (rnti : ℕ) : (t.received rnti).rnti = t.rnti := by
  rw [received]
  split <;> rfl

@[simp] theorem received_raActive (rnti : ℕ) : (t.received rnti).raActive = t.raActive := by
  rw [received]
  split <;> rfl

@[simp] theorem hit_received (rnti : ℕ) : (t.received rnti).Hit rnti ↔ t.Hit rnti := by simp [Hit]

theorem received_remains (rnti : ℕ) : t.Remains (t.received rnti) where
  active h := by simpa using h
  waiting h := by
    by_cases hhit : t.Hit rnti
    · simp [received, hhit, waiting] at h
    · rwa [received, if_neg hhit] at h

theorem not_waiting_received {rnti : ℕ} (h : t.Hit rnti) : (t.received rnti).waiting = false := by
  simp [received, h, waiting]

theorem received_received (rnti : ℕ) : (t.received rnti).received rnti = t.received rnti := by
  by_cases h : t.Hit rnti
  · have h' : (t.received rnti).Hit rnti := (hit_received rnti).mpr h
    rw [received, if_pos h']
    simp [received, h]
  · have h' : ¬ (t.received rnti).Hit rnti := fun h' ↦ h ((hit_received rnti).mp h')
    rw [received, if_neg h']

end RaTemplate

namespace UeList

variable {l : UeList} {ue : ℕ} {rnti : ℕ}

theorem findUeId_eq_none :
    l.findUeId rnti = none ↔ ∀ ue < l.numberOfUeMax, l.active ue = true → l.ueRnti ue ≠ rnti := by
  simp [UeDirectory.findUeId]

theorem ueRnti_takeSlot (cc rnti harqPid u : ℕ) :
    (l.takeSlot ue cc rnti harqPid).ueRnti u = if u = ue then rnti else l.ueRnti u := by
  by_cases hu : u = ue
  · simp only [UeDirectory.ueRnti, takeSlot, hu, update_self, if_true]
  · by_cases hcc : l.pCcId u = cc
    · simp only [UeDirectory.ueRnti, takeSlot, update_of_ne hu, hcc, update_self, hu, if_false]
    · simp only [UeDirectory.ueRnti, takeSlot, update_of_ne hu, update_of_ne hcc, hu, if_false]

theorem ueRnti_leaveSlot {u : ℕ} (hu : u ≠ ue) : (l.leaveSlot ue).ueRnti u = l.ueRnti u := by
  by_cases hcc : l.pCcId u = l.pCcId ue
  · simp only [UeDirectory.ueRnti, leaveSlot, hcc, update_self, update_of_ne hu]
  · simp only [UeDirectory.ueRnti, leaveSlot, update_of_ne hcc]

theorem active_takeSlot (cc rnti harqPid u : ℕ) :
    (l.takeSlot ue cc rnti harqPid).active u = true ↔ u = ue ∨ l.active u = true := by
  by_cases hu : u = ue
  · simp [takeSlot, hu]
  · simp [takeSlot, hu]

theorem lt_of_freeSlot (h : l.freeSlot = some ue) : ue < l.numberOfUeMax :=
  List.mem_range.mp (List.mem_of_find?_eq_some h)

end UeList

namespace RntisUnique

variable {s s' : RaMac}

/-- A step that starts no process and adds no UE. -/
theorem of_remains (h : RntisUnique s) (htemplates : ∀ cc i, (s.raTemplate cc i).Remains (s'.raTemplate cc i))
    (hmax : s'.ueList.numberOfUeMax = s.ueList.numberOfUeMax)
    (hues : ∀ ue, s'.ueList.active ue = true → s.ueList.active ue = true ∧ s'.ueList.ueRnti ue = s.ueList.ueRnti ue) :
    RntisUnique s' where
  procs cc i j hi hj hij hacti hactj := by
    obtain ⟨hacti, hrntii⟩ := (htemplates cc i).active hacti
    obtain ⟨hactj, hrntij⟩ := (htemplates cc j).active hactj
    rw [hrntii, hrntij]
    exact h.procs cc i j hi hj hij hacti hactj
  ues ue ue' hue hue' hne hact hact' := by
    rw [(hues ue hact).2, (hues ue' hact').2]
    exact h.ues ue ue' (hmax ▸ hue) (hmax ▸ hue') hne (hues ue hact).1 (hues ue' hact').1
  waiting cc i ue hi hwait hue hact := by
    have hrnti := ((htemplates cc i).active (RaTemplate.active_of_waiting hwait)).2
    rw [hrnti, (hues ue hact).2]
    exact h.waiting cc i ue hi ((htemplates cc i).waiting hwait) (hmax ▸ hue) (hues ue hact).1

/-- An RNTI leads to the one UE that has it. -/
theorem findUeId_eq_some (h : RntisUnique s) {rnti ue : ℕ} :
    s.ueList.findUeId rnti = some ue ↔
      ue < s.ueList.numberOfUeMax ∧ s.ueList.active ue = true ∧ s.ueList.ueRnti ue = rnti := by
  constructor
  · intro hfind
    have hfound := List.find?_some hfind
    rw [Bool.and_eq_true, beq_iff_eq] at hfound
    exact ⟨List.mem_range.mp (List.mem_of_find?_eq_some hfind), hfound.1, hfound.2⟩
  · rintro ⟨hue, hact, hrnti⟩
    rw [UeDirectory.findUeId, List.find?_range_eq_some]
    refine ⟨by simp [hact, hrnti], List.mem_range.mpr hue, fun ue' hlt ↦ ?_⟩
    by_contra hfound
    simp only [Bool.and_eq_true, beq_iff_eq, Bool.not_eq_true, Bool.not_eq_false'] at hfound
    exact h.ues ue' ue (hlt.trans hue) hue hlt.ne hfound.1 hact (hfound.2.trans hrnti.symm)

/-- An RNTI leads to the one process of the carrier that has it. -/
theorem hit_unique (h : RntisUnique s) {cc rnti i j : ℕ} (hi : i < nbRaProcMax) (hj : j < nbRaProcMax)
    (hhiti : (s.raTemplate cc i).Hit rnti) (hhitj : (s.raTemplate cc j).Hit rnti) : i = j := by
  by_contra hij
  exact h.procs cc i j hi hj hij hhiti.2 hhitj.2 (hhiti.1.trans hhitj.1.symm)

end RntisUnique

namespace RaMac

/-- What the processes `P` of a carrier have done with CCCH SDUs. -/
structure Answered (cc rnti harqPid : ℕ) (P : ℕ → Prop) (r r' : RaMac × Option ℕ) : Prop where
  template : ∀ i, P i → r'.1.raTemplate cc i = (r.1.raTemplate cc i).received rnti
  other : ∀ cc' i, ¬ (cc' = cc ∧ P i) → r'.1.raTemplate cc' i = r.1.raTemplate cc' i
  kept : (r.2 ≠ none ∨ ∀ i, P i → ¬ (r.1.raTemplate cc i).Hit rnti) → r'.1.ueList = r.1.ueList ∧ r'.2 = r.2
  added : r.2 = none → ∀ i, P i → (r.1.raTemplate cc i).Hit rnti →
    ∃ ue, r.1.ueList.freeSlot = some ue ∧ r'.1.ueList = r.1.ueList.takeSlot ue cc rnti harqPid ∧ r'.2 = some ue

variable {cc rnti harqPid : ℕ} {P Q : ℕ → Prop} {r r' r'' : RaMac × Option ℕ}

theorem Answered.refl (hP : ∀ i, ¬ P i) : Answered cc rnti harqPid P r r where
  template i hi := absurd hi (hP i)
  other _ _ _ := rfl
  kept _ := ⟨rfl, rfl⟩
  added _ i hi := absurd hi (hP i)

theorem Answered.hit_iff (h : Answered cc rnti harqPid P r r') (i : ℕ) :
    (r'.1.raTemplate cc i).Hit rnti ↔ (r.1.raTemplate cc i).Hit rnti := by
  by_cases hi : P i
  · rw [h.template i hi]
    exact RaTemplate.hit_received rnti
  · rw [h.other cc i fun hP ↦ hi hP.2]

theorem Answered.trans (h : Answered cc rnti harqPid P r r') (h' : Answered cc rnti harqPid Q r' r'') :
    Answered cc rnti harqPid (fun i ↦ P i ∨ Q i) r r'' where
  template i hi := by
    by_cases hQ : Q i
    · rw [h'.template i hQ]
      by_cases hP : P i
      · rw [h.template i hP, RaTemplate.received_received]
      · rw [h.other cc i fun h ↦ hP h.2]
    · rw [h'.other cc i fun h ↦ hQ h.2, h.template i (hi.resolve_right hQ)]
  other cc' i hi := by
    rw [h'.other cc' i fun h ↦ hi ⟨h.1, .inr h.2⟩, h.other cc' i fun h ↦ hi ⟨h.1, .inl h.2⟩]
  kept hor := by
    obtain ⟨hlist, hue⟩ := h.kept (hor.imp_right fun hall i hP ↦ hall i (.inl hP))
    obtain ⟨hlist', hue'⟩ := h'.kept (hue ▸ hor.imp_right fun hall i hQ hhit ↦ hall i (.inr hQ) ((h.hit_iff i).mp hhit))
    exact ⟨hlist'.trans hlist, hue'.trans hue⟩
  added hnone i hi hhit := by
    by_cases hP : ∀ j, P j → ¬ (r.1.raTemplate cc j).Hit rnti
    · have hQ : Q i := hi.resolve_left fun hi ↦ hP i hi hhit
      obtain ⟨hlist, hue⟩ := h.kept (.inr hP)
      obtain ⟨ue, hfree, hadded, hsome⟩ := h'.added (hue.trans hnone) i hQ ((h.hit_iff i).mpr hhit)
      exact ⟨ue, hlist ▸ hfree, hlist ▸ hadded, hsome⟩
    · simp only [not_forall, not_not] at hP
      obtain ⟨j, hj, hjhit⟩ := hP
      obtain ⟨ue, hfree, hadded, hsome⟩ := h.added hnone j hj hjhit
      obtain ⟨hlist, hue⟩ := h'.kept (.inl (by simp [hsome]))
      exact ⟨ue, hfree, hlist.trans hadded, hue.trans hsome⟩

theorem Answered.congr (h : Answered cc rnti harqPid P r r') (hPQ : ∀ i, P i ↔ Q i) :
    Answered cc rnti harqPid Q r r' := by
  obtain rfl : P = Q := funext fun i ↦ propext (hPQ i)
  exact h

theorem raTemplate_setRa {s : RaMac} (i : ℕ) (t : RaTemplate) (cc' j : ℕ) :
    (s.setRa cc i t).raTemplate cc' j = if cc' = cc ∧ j = i then t else s.raTemplate cc' j := by
  by_cases hcc : cc' = cc
  · by_cases hj : j = i
    · simp [setRa, hcc, hj]
    · simp [setRa, hcc, hj]
  · simp [setRa, hcc]

theorem receiveCcchProc_of_hit {i : ℕ} (hhit : (r.1.raTemplate cc i).Hit rnti) :
    receiveCcchProc cc rnti harqPid r i =
      match r.2 with
      | some ue => some (r.1.setRa cc i ((r.1.raTemplate cc i).received rnti), some ue)
      | none => r.1.ueList.freeSlot.map fun ue ↦
        ({ r.1 with ueList := r.1.ueList.takeSlot ue cc rnti harqPid }.setRa cc i
          ((r.1.raTemplate cc i).received rnti), some ue) := by
  obtain ⟨hrnti, hactive⟩ := hhit
  rw [RaTemplate.received, if_pos ⟨hrnti, hactive⟩, receiveCcchProc, if_pos ⟨hrnti, hactive⟩]
  cases r.2 with
  | none => simp only [hrnti]
  | some ue => rfl

theorem answered_receiveCcchProc {i : ℕ} (h : receiveCcchProc cc rnti harqPid r i = some r') :
    Answered cc rnti harqPid (· = i) r r' := by
  by_cases hhit : (r.1.raTemplate cc i).Hit rnti
  · rw [receiveCcchProc_of_hit hhit] at h
    cases hue : r.2 with
    | some ue =>
      rw [hue] at h
      obtain rfl := Option.some.inj h
      refine ⟨?_, fun cc' j hj ↦ ?_, fun _ ↦ ⟨rfl, hue.symm⟩, fun hnone ↦ absurd (hue.symm.trans hnone) (by simp)⟩
      · rintro j rfl
        simp [raTemplate_setRa]
      · simp [raTemplate_setRa, hj]
    | none =>
      rw [hue] at h
      obtain ⟨ue, hfree, rfl⟩ := Option.map_eq_some_iff.mp h
      refine ⟨?_, fun cc' j hj ↦ ?_, fun hor ↦ ?_, fun _ _ _ _ ↦ ⟨ue, hfree, rfl, rfl⟩⟩
      · rintro j rfl
        simp [raTemplate_setRa]
      · simp [raTemplate_setRa, hj]
      · exact absurd hhit (hor.resolve_left (not_not_intro hue) i rfl)
  · have hstep : receiveCcchProc cc rnti harqPid r i = some r := if_neg hhit
    obtain rfl := Option.some.inj (hstep.symm.trans h)
    refine ⟨?_, fun _ _ _ ↦ rfl, fun _ ↦ ⟨rfl, rfl⟩, ?_⟩
    · rintro j rfl
      rw [RaTemplate.received, if_neg hhit]
    · rintro _ j rfl hj
      exact absurd hj hhit

/-- The SDU is one of CCCH that is not dropped. -/
def IsCcch (sdu : ℕ × ℕ) : Prop := sdu.1 = 0 ∧ sdu.2 ≤ ccchPayloadSizeMax

instance (sdu : ℕ × ℕ) : Decidable (IsCcch sdu) := inferInstanceAs (Decidable (_ ∧ _))

theorem answered_receiveSdu {sdu : ℕ × ℕ} (h : receiveSdu cc rnti harqPid r sdu = some r') :
    Answered cc rnti harqPid (fun i ↦ IsCcch sdu ∧ i < nbRaProcMax) r r' := by
  by_cases hccch : IsCcch sdu
  · have hstep : receiveSdu cc rnti harqPid r sdu =
        (List.range nbRaProcMax).foldlM (receiveCcchProc cc rnti harqPid) r := if_pos hccch
    rw [hstep] at h
    have hloop : Answered cc rnti harqPid (· ∈ List.range nbRaProcMax) r r' := by
      refine Fold.foldlM_induction (P := fun front ↦ Answered cc rnti harqPid (· ∈ front) r)
        (Answered.refl fun _ ↦ List.not_mem_nil) ?_ h
      intro front i _ t t' _ hfront hi
      exact (hfront.trans (answered_receiveCcchProc hi)).congr fun j ↦ by simp
    exact hloop.congr fun i ↦ by simp [hccch]
  · have hstep : receiveSdu cc rnti harqPid r sdu = some r := if_neg hccch
    obtain rfl := Option.some.inj (hstep.symm.trans h)
    exact Answered.refl fun i hi ↦ hccch hi.1

/-- What `rx_sdu` does with the RNTIs. -/
theorem answered_rxSdu {s s' : RaMac} {crntis : List ℕ} {sdus : List (ℕ × ℕ)}
    (h : s.rxSdu cc rnti harqPid crntis sdus = some s') :
    ∃ ue, Answered cc rnti harqPid (fun i ↦ (∃ sdu ∈ sdus, IsCcch sdu) ∧ i < nbRaProcMax)
      (s, s.ueOfPdu rnti crntis) (s', ue) := by
  obtain ⟨⟨t, ue⟩, hloop, rfl⟩ := Option.map_eq_some_iff.mp h
  refine ⟨ue, ?_⟩
  refine Fold.foldlM_induction (P := fun front ↦ Answered cc rnti harqPid
    (fun i ↦ (∃ sdu ∈ front, IsCcch sdu) ∧ i < nbRaProcMax) (s, s.ueOfPdu rnti crntis))
    (Answered.refl fun i hi ↦ by simp at hi) ?_ hloop
  intro front sdu _ t t' _ hfront hsdu
  exact (hfront.trans (answered_receiveSdu hsdu)).congr fun i ↦ by simp [or_and_right, exists_or, or_comm]

/-- The PDU makes a UE. -/
def Adds (s : RaMac) (cc rnti : ℕ) (crntis : List ℕ) (sdus : List (ℕ × ℕ)) : Prop :=
  s.ueOfPdu rnti crntis = none ∧ (∃ sdu ∈ sdus, IsCcch sdu) ∧ ∃ i < nbRaProcMax, (s.raTemplate cc i).Hit rnti

/-- The step gives nobody an RNTI that somebody else has. -/
def FreshRnti (s : RaMac) : RaEvent → Prop
  | .initiate cc _ _ _ _ draws =>
    ∀ k < 99, s.accepts (draws k % 2 ^ 16) = true → (∀ m < k, s.accepts (draws m % 2 ^ 16) = false) →
      ∀ j < nbRaProcMax, (s.raTemplate cc j).raActive = true → s.freeProc cc ≠ none →
        (s.raTemplate cc j).rnti ≠ draws k % 2 ^ 16
  | .rxSdu cc rnti _ crntis sdus => s.Adds cc rnti crntis sdus →
    s.ueList.findUeId rnti = none ∧
      ∀ cc' ≠ cc, ∀ i < nbRaProcMax, (s.raTemplate cc' i).waiting = true → (s.raTemplate cc' i).rnti ≠ rnti
  | _ => True

variable {s s' : RaMac}

theorem drawRnti_eq_some {draws : ℕ → ℕ} :
    s.drawRnti draws = some rnti ↔ ∃ k < 99, draws k % 2 ^ 16 = rnti ∧ s.accepts (draws k % 2 ^ 16) = true ∧
      ∀ m < k, s.accepts (draws m % 2 ^ 16) = false := by
  rw [drawRnti, List.find?_map, Option.map_eq_some_iff]
  refine exists_congr fun k ↦ ?_
  rw [List.find?_range_eq_some]
  simp only [Function.comp_apply, List.mem_range, Bool.not_eq_true']
  constructor
  · rintro ⟨⟨haccepts, hk, hfirst⟩, hrnti⟩
    exact ⟨hk, hrnti, haccepts, hfirst⟩
  · rintro ⟨hk, hrnti, haccepts, hfirst⟩
    exact ⟨⟨haccepts, hk, hfirst⟩, hrnti⟩

theorem inactive_of_freeProc {i : ℕ} (h : s.freeProc cc = some i) :
    i < nbRaProcMax ∧ (s.raTemplate cc i).raActive = false := by
  have hfree := List.find?_some h
  simp only [Bool.and_eq_true, Bool.not_eq_true'] at hfree
  exact ⟨List.mem_range.mp (List.mem_of_find?_eq_some h), hfree.1⟩

/-- A process that starts with an RNTI that no UE has. -/
theorem unique_setRa {i : ℕ} {t : RaTemplate} (h : RntisUnique s) (hi : i < nbRaProcMax)
    (hinactive : (s.raTemplate cc i).raActive = false) (ht : t.raActive = true)
    (hnobody : s.ueList.findUeId t.rnti = none) :
    RntisUnique (s.setRa cc i t) ↔
      ∀ j < nbRaProcMax, (s.raTemplate cc j).raActive = true → (s.raTemplate cc j).rnti ≠ t.rnti := by
  have hself : (s.setRa cc i t).raTemplate cc i = t := by simp [raTemplate_setRa]
  have hother (cc' j : ℕ) (hne : ¬ (cc' = cc ∧ j = i)) : (s.setRa cc i t).raTemplate cc' j = s.raTemplate cc' j := by
    rw [raTemplate_setRa, if_neg hne]
  constructor
  · intro h' j hj hactive
    have hne : j ≠ i := fun heq ↦ by simp [heq, hinactive] at hactive
    have hj' := hother cc j fun heq ↦ hne heq.2
    rw [← hself, ← hj']
    exact h'.procs cc j i hj hi hne (hj' ▸ hactive) (hself.symm ▸ ht)
  · intro hfresh
    have hapart (cc' j k : ℕ) (hk : k < nbRaProcMax) (hjk : j ≠ k) (hji : cc' = cc ∧ j = i)
        (hactive : ((s.setRa cc i t).raTemplate cc' k).raActive = true) :
        ((s.setRa cc i t).raTemplate cc' j).rnti ≠ ((s.setRa cc i t).raTemplate cc' k).rnti := by
      obtain ⟨rfl, rfl⟩ := hji
      have hk' := hother cc' k fun heq ↦ hjk heq.2.symm
      rw [hself, hk']
      exact (hfresh k hk (hk' ▸ hactive)).symm
    constructor
    · intro cc' j k hj hk hjk hactj hactk
      by_cases hji : cc' = cc ∧ j = i
      · exact hapart cc' j k hk hjk hji hactk
      by_cases hki : cc' = cc ∧ k = i
      · exact (hapart cc' k j hj hjk.symm hki hactj).symm
      rw [hother cc' j hji] at hactj ⊢
      rw [hother cc' k hki] at hactk ⊢
      exact h.procs cc' j k hj hk hjk hactj hactk
    · exact h.ues
    · intro cc' j ue hj hwait hue hact
      by_cases hji : cc' = cc ∧ j = i
      · obtain ⟨rfl, rfl⟩ := hji
        rw [hself]
        exact (UeList.findUeId_eq_none.mp hnobody ue hue hact).symm
      · rw [hother cc' j hji] at hwait ⊢
        exact h.waiting cc' j ue hj hwait hue hact

/-- A process that starts is told apart if no active process of the carrier has the RNTI that is drawn. -/
theorem unique_initiateRaProc {preambleIndex subframe fId : ℕ} {timingOffset : ℤ} {draws : ℕ → ℕ}
    (h : RntisUnique s) (hstep : s.initiateRaProc cc preambleIndex timingOffset subframe fId draws = some s') :
    RntisUnique s' ↔ s.FreshRnti (.initiate cc preambleIndex timingOffset subframe fId draws) := by
  cases hfree : s.freeProc cc with
  | none =>
    simp only [initiateRaProc, hfree, Option.some.injEq] at hstep
    subst hstep
    exact iff_of_true h fun k _ _ _ j _ _ hsome ↦ absurd hfree hsome
  | some i =>
    simp only [initiateRaProc, hfree] at hstep
    obtain ⟨rnti, hdraw, rfl⟩ := Option.map_eq_some_iff.mp hstep
    obtain ⟨k, hk, hrnti, haccepts, hfirst⟩ := drawRnti_eq_some.mp hdraw
    obtain ⟨hi, hinactive⟩ := inactive_of_freeProc hfree
    have hnobody : s.ueList.findUeId rnti = none := by
      simp only [accepts, Bool.and_eq_true, decide_eq_true_eq, hrnti] at haccepts
      exact haccepts.1.1
    have hfresh : s.FreshRnti (.initiate cc preambleIndex timingOffset subframe fId draws) ↔
        ∀ j < nbRaProcMax, (s.raTemplate cc j).raActive = true → (s.raTemplate cc j).rnti ≠ rnti := by
      constructor
      · intro hall j hj hactive
        exact hrnti ▸ hall k hk haccepts hfirst j hj hactive (by simp [hfree])
      · intro hall k' hk' haccepts' hfirst' j hj hactive _
        have hsame : draws k' % 2 ^ 16 = rnti :=
          Option.some.inj ((drawRnti_eq_some.mpr ⟨k', hk', rfl, haccepts', hfirst'⟩).symm.trans hdraw)
        exact hsame ▸ hall j hj hactive
    exact (unique_setRa h hi hinactive rfl hnobody).trans hfresh.symm

/-- A PDU keeps the RNTIs apart unless it makes a UE with the RNTI of a UE or of a process elsewhere. -/
theorem unique_rxSdu {crntis : List ℕ} {sdus : List (ℕ × ℕ)} (h : RntisUnique s)
    (hstep : s.rxSdu cc rnti harqPid crntis sdus = some s') :
    RntisUnique s' ↔ s.FreshRnti (.rxSdu cc rnti harqPid crntis sdus) := by
  obtain ⟨ue', hanswered⟩ := answered_rxSdu hstep
  have hremains (cc' i : ℕ) : (s.raTemplate cc' i).Remains (s'.raTemplate cc' i) := by
    by_cases hi : cc' = cc ∧ (∃ sdu ∈ sdus, IsCcch sdu) ∧ i < nbRaProcMax
    · obtain ⟨rfl, hi⟩ := hi
      rw [hanswered.template i hi]
      exact RaTemplate.received_remains rnti
    · rw [hanswered.other cc' i hi]
      exact .refl
  have hprocs : RntisUnique ⟨s.ueList, s'.raTemplate⟩ := h.of_remains hremains rfl fun _ hact ↦ ⟨hact, rfl⟩
  by_cases hadds : s.Adds cc rnti crntis sdus
  · obtain ⟨hnone, hccch, i, hi, hhit⟩ := id hadds
    obtain ⟨ue, hfree, hlist, -⟩ := hanswered.added hnone i ⟨hccch, hi⟩ hhit
    have hlist : s'.ueList = s.ueList.takeSlot ue cc rnti harqPid := hlist
    have hmax : s'.ueList.numberOfUeMax = s.ueList.numberOfUeMax := by rw [hlist]; rfl
    have hactive (u : ℕ) : s'.ueList.active u = true ↔ u = ue ∨ s.ueList.active u = true := by
      rw [hlist, UeList.active_takeSlot]
    have hnew : s'.ueList.ueRnti ue = rnti := by rw [hlist, UeList.ueRnti_takeSlot, if_pos rfl]
    have hold (u : ℕ) (hu : u ≠ ue) : s'.ueList.ueRnti u = s.ueList.ueRnti u := by
      rw [hlist, UeList.ueRnti_takeSlot, if_neg hu]
    have hue : ue < s'.ueList.numberOfUeMax := hmax ▸ UeList.lt_of_freeSlot hfree
    have hfreeue : s.ueList.active ue = false := UeList.active_of_freeSlot hfree
    constructor
    · intro h' _
      constructor
      · refine UeList.findUeId_eq_none.mpr fun u hu hact ↦ ?_
        have hne : u ≠ ue := fun heq ↦ by simp [heq, hfreeue] at hact
        rw [← hold u hne, ← hnew]
        exact h'.ues u ue (hmax ▸ hu) hue hne ((hactive u).mpr (.inr hact)) ((hactive ue).mpr (.inl rfl))
      · intro cc' hcc' j hj hwait
        have hsame := hanswered.other cc' j fun heq ↦ hcc' heq.1
        rw [← hsame, ← hnew]
        exact h'.waiting cc' j ue hj (by rw [hsame]; exact hwait) hue ((hactive ue).mpr (.inl rfl))
    · intro hfresh
      obtain ⟨hnobody, helsewhere⟩ := hfresh hadds
      have hues (u : ℕ) (hu : u < s'.ueList.numberOfUeMax) (hne : u ≠ ue) (hact : s'.ueList.active u = true) :
          s'.ueList.ueRnti u ≠ s'.ueList.ueRnti ue := by
        rw [hold u hne, hnew]
        exact UeList.findUeId_eq_none.mp hnobody u (hmax ▸ hu) (((hactive u).mp hact).resolve_left hne)
      constructor
      · exact hprocs.procs
      · intro u v hu hv huv hactu hactv
        by_cases hune : u = ue
        · subst hune
          exact (hues v hv huv.symm hactv).symm
        by_cases hvne : v = ue
        · subst hvne
          exact hues u hu huv hactu
        rw [hold u hune, hold v hvne]
        exact h.ues u v (hmax ▸ hu) (hmax ▸ hv) huv (((hactive u).mp hactu).resolve_left hune)
          (((hactive v).mp hactv).resolve_left hvne)
      · intro cc' j u hj hwait hu hact
        by_cases hune : u = ue
        · subst hune
          have hwas := (hremains cc' j).waiting hwait
          rw [hnew, ((hremains cc' j).active (RaTemplate.active_of_waiting hwait)).2]
          by_cases hcc : cc' = cc
          · subst hcc
            -- a process of the carrier that has the RNTI has just got its Msg3
            intro hrnti
            have hdone := RaTemplate.not_waiting_received ⟨hrnti, RaTemplate.active_of_waiting hwas⟩
            rw [← hanswered.template j ⟨hccch, hj⟩, hwait] at hdone
            exact Bool.noConfusion hdone
          · exact helsewhere cc' hcc j hj hwas
        · rw [hold u hune]
          exact hprocs.waiting cc' j u hj hwait (hmax ▸ hu) (((hactive u).mp hact).resolve_left hune)
  · have hkept : s'.ueList = s.ueList := by
      refine (hanswered.kept ?_).1
      by_contra hboth
      simp only [not_or, not_not, not_forall] at hboth
      obtain ⟨hnone, i, ⟨hccch, hi⟩, hhit⟩ := hboth
      exact hadds ⟨hnone, hccch, i, hi, hhit⟩
    refine iff_of_true (h.of_remains hremains (by rw [hkept]) fun ue hact ↦ ?_) fun hadds' ↦ absurd hadds' hadds
    rw [hkept] at hact ⊢
    exact ⟨hact, rfl⟩

theorem remains_setRa {i : ℕ} {t : RaTemplate} (ht : (s.raTemplate cc i).Remains t) (cc' j : ℕ) :
    (s.raTemplate cc' j).Remains ((s.setRa cc i t).raTemplate cc' j) := by
  rw [raTemplate_setRa]
  split_ifs with hi
  · obtain ⟨rfl, rfl⟩ := hi
    exact ht
  · exact .refl

theorem remains_cancelRaProc (cc' i : ℕ) :
    (s.raTemplate cc' i).Remains ((s.cancelRaProc cc rnti).raTemplate cc' i) := by
  by_cases hcc : cc' = cc
  · subst hcc
    simp only [cancelRaProc, update_self]
    split_ifs with hi
    · constructor
      · intro h
        simp [RaTemplate.cancelled] at h
      · intro h
        simp [RaTemplate.cancelled, RaTemplate.waiting] at h
    · exact .refl
  · simp only [cancelRaProc, update_of_ne hcc]
    exact .refl

/-- A step keeps the RNTIs apart exactly if it gives nobody an RNTI that somebody else has. -/
theorem unique_step {x : RaEvent} (h : RntisUnique s) (hstep : step x s = some s') :
    RntisUnique s' ↔ s.FreshRnti x := by
  cases x with
  | initiate cc preambleIndex timingOffset subframe fId draws => exact unique_initiateRaProc h hstep
  | rxSdu cc rnti harqPid crntis sdus => exact unique_rxSdu h hstep
  | cancel cc rnti =>
    obtain rfl := Option.some.inj hstep
    exact iff_of_true (h.of_remains remains_cancelRaProc rfl fun _ hact ↦ ⟨hact, rfl⟩) trivial
  | removeUe rnti =>
    obtain rfl := Option.some.inj hstep
    refine iff_of_true ?_ trivial
    rw [rrcMacRemoveUe]
    cases s.ueList.findUeId rnti with
    | none => exact h
    | some ue =>
      have hleft : RntisUnique { s with ueList := s.ueList.leaveSlot ue } := by
        refine h.of_remains (fun _ _ ↦ .refl) rfl fun u hact ↦ ?_
        have hne : u ≠ ue := fun heq ↦ by simp [heq, UeList.leaveSlot] at hact
        exact ⟨by simpa [UeList.leaveSlot, hne] using hact, UeList.ueRnti_leaveSlot hne⟩
      exact hleft.of_remains remains_cancelRaProc rfl fun _ hact ↦ ⟨hact, rfl⟩
  | rarSent cc i =>
    obtain rfl := Option.some.inj hstep
    exact iff_of_true (h.of_remains (remains_setRa ⟨fun h ↦ ⟨h, rfl⟩, id⟩) rfl fun _ hact ↦ ⟨hact, rfl⟩) trivial
  | msg4Sent cc i =>
    obtain rfl := Option.some.inj hstep
    refine iff_of_true (h.of_remains (remains_setRa ⟨?_, ?_⟩) rfl fun _ hact ↦ ⟨hact, rfl⟩) trivial
    · intro h
      simp at h
    · intro h
      simp [RaTemplate.waiting] at h
  | msg4Acked cc i =>
    obtain rfl := Option.some.inj hstep
    refine iff_of_true (h.of_remains (remains_setRa ⟨?_, ?_⟩) rfl fun _ hact ↦ ⟨hact, rfl⟩) trivial
    · intro h
      simp at h
    · intro h
      simp [RaTemplate.waiting] at h

theorem unique_started (numberOfUeMax : ℕ) : RntisUnique (started numberOfUeMax) where
  procs _ _ _ _ _ _ hact := Bool.noConfusion hact
  ues _ _ _ _ _ hact := Bool.noConfusion hact
  waiting _ _ _ _ hwait := Bool.noConfusion hwait

def run (numberOfUeMax : ℕ) (xs : List RaEvent) : Option RaMac :=
  xs.foldlM (fun s x ↦ step x s) (started numberOfUeMax)

/-- The RNTIs are apart in all states of a run exactly if no step gives somebody an RNTI that somebody else has. -/
theorem rntisUnique_run_iff (numberOfUeMax : ℕ) (xs : List RaEvent) (s : RaMac) (hrun : run numberOfUeMax xs = some s) :
    (∀ ys t, ys <+: xs → run numberOfUeMax ys = some t → RntisUnique t) ↔
      ∀ ys x zs t, xs = ys ++ x :: zs → run numberOfUeMax ys = some t → t.FreshRnti x :=
  GuardedRun.forall_prefix_iff (fun _ _ _ h hstep ↦ unique_step h hstep)
    (unique_started numberOfUeMax) hrun

/-- A process that is started on the first carrier, with the value that `taus` returns. -/
def attempt (preambleIndex : ℕ) : RaEvent := .initiate 0 preambleIndex 0 0 0 fun _ ↦ 0x1000

theorem rntisUnique_of_attempt : ∃ s, run 1 [attempt 0] = some s ∧ RntisUnique s := by
  have hstarts : (run 1 [attempt 0]).isSome = true := by decide
  obtain ⟨s, hs⟩ := Option.isSome_iff_exists.mp hstarts
  refine ⟨s, hs, (rntisUnique_run_iff 1 [attempt 0] s hs).mpr ?_ [attempt 0] s List.prefix_rfl hs⟩
  rintro (_ | ⟨y, ys⟩) x zs u hsplit hu
  · obtain ⟨rfl, rfl⟩ := List.cons.inj hsplit
    obtain rfl := Option.some.inj hu
    intro k _ _ _ j _ hactive
    exact Bool.noConfusion hactive
  · simp at hsplit

/-- Two processes of a carrier that draw the same value before either has a UE. -/
theorem not_rntisUnique_of_attempts : ∃ s, run 1 [attempt 0, attempt 1] = some s ∧ ¬ RntisUnique s := by
  have hrun : (run 1 [attempt 0, attempt 1]).map (fun s ↦ ((s.raTemplate 0 0).raActive, (s.raTemplate 0 1).raActive,
      (s.raTemplate 0 0).rnti, (s.raTemplate 0 1).rnti)) = some (true, true, 0x1000, 0x1000) := by decide
  obtain ⟨s, hs, hfields⟩ := Option.map_eq_some_iff.mp hrun
  simp only [Prod.mk.injEq] at hfields
  obtain ⟨hfirst, hsecond, hrnti, hrnti'⟩ := hfields
  exact ⟨s, hs, fun h ↦ h.procs 0 0 1 (by decide) (by decide) (by decide) hfirst hsecond (hrnti.trans hrnti'.symm)⟩

end RaMac

end EdgeSlice.Mac
