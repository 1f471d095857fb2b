import EdgeSlice.Mac.UeLifecycle

namespace EdgeSlice.Mac

open Function

/-- The fields that `assign_max_mcs_min_rb`, `ue_ul_compare`, `ue_dl_compare` and
`UE_is_to_be_scheduled` read. -/
structure ReadFields where
  bsrInfo : Fin 4 → Fin 64
  ulSr : ℕ
  phrInfo : ℤ
  preAssignedMcsUl : ℕ
  ulTotalBuffer : ℕ
  ulBufferInfo : ℕ
  dlBufferInfo : ℕ × ℕ
  dlBufferTotal : ℕ
  dlBufferHeadSduCreationTimeMax : ℕ
  ctrl : UeUlSchedCtrl

namespace Slot

def readFields (a : Slot) : ReadFields where
  bsrInfo := a.template.bsrInfo
  ulSr := a.template.ulSr
  phrInfo := a.template.phrInfo
  preAssignedMcsUl := a.template.preAssignedMcsUl
  ulTotalBuffer := a.template.ulTotalBuffer
  ulBufferInfo := a.template.ulBufferInfo 0
  dlBufferInfo := (a.template.dlBufferInfo 1, a.template.dlBufferInfo 2)
  dlBufferTotal := a.template.dlBufferTotal
  dlBufferHeadSduCreationTimeMax := a.template.dlBufferHeadSduCreationTimeMax
  ctrl := a.ctrl

/-- What the uplink pre-processor decides for the UE: its entry of `rb_table`, its number
of resource blocks and its MCS. -/
def preAllocation (phy : EnbPhy) (firstRb : ℕ) (a : Slot) : Option (Fin 33) × ℕ × ℕ :=
  let t := a.assigned phy firstRb
  (t.preAllocatedRbTableIndexUl, t.preAllocatedNbRbUl, t.preAssignedMcsUl)

def ulKeys (phy : EnbPhy) (a : Slot) : List ℕ := Mac.ulKeys (roundMax phy.maxNumCcs a.ctrl) a.template

/-- The sort keys of `ue_dl_compare`; the last one is the CQI that the PHY reports. -/
def dlKeys (phy : EnbPhy) (maxcqi : ℤ) (a : Slot) : List ℕ × ℤ :=
  ([roundMax phy.maxNumCcs a.ctrl,
    (a.template.dlBufferInfo 1 + a.template.dlBufferInfo 2) % 2 ^ 32,
    a.template.dlBufferHeadSduCreationTimeMax, a.template.dlBufferTotal], maxcqi)

end Slot

/-- Two slots that scheduling cannot tell apart. -/
structure SameDecisions (a b : Slot) : Prop where
  fields : a.readFields = b.readFields
  scheduled : ∀ phy, a.toBeScheduled phy = b.toBeScheduled phy
  preAllocation : ∀ phy firstRb, a.preAllocation phy firstRb = b.preAllocation phy firstRb
  ulKeys : ∀ phy, a.ulKeys phy = b.ulKeys phy
  dlKeys : ∀ phy maxcqi, a.dlKeys phy maxcqi = b.dlKeys phy maxcqi

/-- Two templates that agree on what neither `rrc_mac_remove_ue` nor `add_new_ue` clears
and decisions depend on, at once or after more events. -/
structure SameLeftover (t t' : UeTemplate) : Prop where
  phrInfo : t.phrInfo = t'.phrInfo
  preAssignedMcsUl : t.preAssignedMcsUl = t'.preAssignedMcsUl
  ulTotalBuffer : t.ulTotalBuffer = t'.ulTotalBuffer
  ulBufferInfo : t.ulBufferInfo = t'.ulBufferInfo
  dlBufferInfo₁ : t.dlBufferInfo 1 = t'.dlBufferInfo 1
  dlBufferInfo₂ : t.dlBufferInfo 2 = t'.dlBufferInfo 2
  dlBufferTotal : t.dlBufferTotal = t'.dlBufferTotal
  creationTime : t.dlBufferHeadSduCreationTimeMax = t'.dlBufferHeadSduCreationTimeMax
  lcgidmap : ∀ lcid : Fin 11, lcid ≠ 0 → t.lcgidmap lcid = t'.lcgidmap lcid

structure SameTemplate (t t' : UeTemplate) : Prop extends SameLeftover t t' where
  bsrInfo : t.bsrInfo = t'.bsrInfo
  ulSr : t.ulSr = t'.ulSr

structure SameSlot (a b : Slot) : Prop where
  rnti : a.rnti = b.rnti
  cc : a.cc = b.cc
  ctrl : a.ctrl = b.ctrl
  template : SameTemplate a.template b.template

section SameSlot

variable {a b : Slot} {t t' : UeTemplate}

theorem SameSlot.toBeScheduled (h : SameSlot a b) (phy : EnbPhy) :
    a.toBeScheduled phy = b.toBeScheduled phy := by
  simp only [Slot.toBeScheduled, Mac.toBeScheduled, h.template.bsrInfo, h.template.ulSr, h.ctrl,
    h.rnti]

theorem assignTraffic_same (h : SameTemplate t t') (phy : EnbPhy) (firstRb cc mcs : ℕ) :
    SameTemplate (assignTraffic phy firstRb cc mcs t).1 (assignTraffic phy firstRb cc mcs t').1 ∧
    (assignTraffic phy firstRb cc mcs t).1.preAllocatedRbTableIndexUl =
      (assignTraffic phy firstRb cc mcs t').1.preAllocatedRbTableIndexUl ∧
    (assignTraffic phy firstRb cc mcs t).1.preAllocatedNbRbUl =
      (assignTraffic phy firstRb cc mcs t').1.preAllocatedNbRbUl := by
  refine ⟨{ h with preAssignedMcsUl := ?_ }, ?_, ?_⟩ <;>
    simp only [assignTraffic, h.phrInfo, h.ulTotalBuffer]

theorem assignTemplate_same (h : SameTemplate t t') (phy : EnbPhy) (firstRb cc : ℕ)
    (scheduled : Bool) (mcs : ℕ) :
    SameTemplate (assignTemplate phy firstRb cc scheduled mcs t).1
      (assignTemplate phy firstRb cc scheduled mcs t').1 ∧
    (assignTemplate phy firstRb cc scheduled mcs t).1.preAllocatedRbTableIndexUl =
      (assignTemplate phy firstRb cc scheduled mcs t').1.preAllocatedRbTableIndexUl ∧
    (assignTemplate phy firstRb cc scheduled mcs t).1.preAllocatedNbRbUl =
      (assignTemplate phy firstRb cc scheduled mcs t').1.preAllocatedNbRbUl := by
  rw [assignTemplate, assignTemplate, h.ulTotalBuffer]
  split
  · exact assignTraffic_same h phy firstRb cc mcs
  · cases scheduled <;> exact ⟨{ h with }, rfl, rfl⟩

theorem SameSlot.assigned (h : SameSlot a b) (phy : EnbPhy) (firstRb : ℕ) :
    SameTemplate (a.assigned phy firstRb) (b.assigned phy firstRb) ∧
      a.preAllocation phy firstRb = b.preAllocation phy firstRb := by
  obtain ⟨hsame, hindex, hnb⟩ := assignTemplate_same h.template phy firstRb b.cc
    (b.toBeScheduled phy) (firstMcs b.ctrl)
  have ha : a.assigned phy firstRb =
      (assignTemplate phy firstRb b.cc (b.toBeScheduled phy) (firstMcs b.ctrl) a.template).1 := by
    rw [Slot.assigned, h.cc, h.ctrl, h.toBeScheduled phy]
  rw [Slot.preAllocation, Slot.preAllocation, ha, Slot.assigned, hindex, hnb,
    hsame.preAssignedMcsUl]
  exact ⟨hsame, rfl⟩

theorem SameSlot.sameDecisions (h : SameSlot a b) : SameDecisions a b := by
  have ht := h.template
  refine ⟨?_, h.toBeScheduled, fun phy firstRb ↦ (h.assigned phy firstRb).2, fun phy ↦ ?_,
    fun phy maxcqi ↦ ?_⟩
  · simp only [Slot.readFields, h.ctrl, ht.bsrInfo, ht.ulSr, ht.phrInfo, ht.preAssignedMcsUl,
      ht.ulTotalBuffer, ht.ulBufferInfo, ht.dlBufferInfo₁, ht.dlBufferInfo₂, ht.dlBufferTotal,
      ht.creationTime]
  · simp only [Slot.ulKeys, Mac.ulKeys, h.ctrl, ht.ulBufferInfo, ht.ulTotalBuffer,
      ht.preAssignedMcsUl]
  · simp only [Slot.dlKeys, h.ctrl, ht.dlBufferInfo₁, ht.dlBufferInfo₂, ht.creationTime,
      ht.dlBufferTotal]

theorem rxShortBsr_same (h : SameTemplate t t') (b : UInt8) :
    SameTemplate (rxShortBsr b t) (rxShortBsr b t') :=
  { h with
    bsrInfo := by simp only [rxShortBsr, h.bsrInfo]
    ulTotalBuffer := rfl
    ulBufferInfo := by simp only [rxShortBsr, h.ulBufferInfo] }

theorem rxLongBsrGroup_same (h : SameTemplate t t') (lcgid : Fin 4) :
    SameTemplate (rxLongBsrGroup t lcgid) (rxLongBsrGroup t' lcgid) :=
  { h with
    ulTotalBuffer := by simp only [rxLongBsrGroup, h.ulTotalBuffer, h.ulBufferInfo, h.bsrInfo]
    ulBufferInfo := by simp only [rxLongBsrGroup, h.ulBufferInfo, h.bsrInfo] }

theorem rxBsr_same (h : SameTemplate t t') (ce : BsrCe) : SameTemplate (rxBsr t ce) (rxBsr t' ce) := by
  cases ce with
  | truncated b => exact rxShortBsr_same h b
  | short b => exact rxShortBsr_same h b
  | long b₀ b₁ b₂ =>
    have hstart : SameTemplate { t with bsrInfo := longBsrInfo b₀ b₁ b₂ }
        { t' with bsrInfo := longBsrInfo b₀ b₁ b₂ } := { h with bsrInfo := rfl }
    exact rxLongBsrGroup_same (rxLongBsrGroup_same (rxLongBsrGroup_same
      (rxLongBsrGroup_same hstart 0) 1) 2) 3

theorem rxSdu_same (h : SameTemplate t t') (lcid : Fin 11) (length : ℕ) :
    SameTemplate (t.rxSdu lcid length) (t'.rxSdu lcid length) := by
  rw [UeTemplate.rxSdu, UeTemplate.rxSdu]
  split
  · exact h
  · next hlcid =>
    rw [h.lcgidmap lcid hlcid]
    exact { h with ulBufferInfo := by simp only [h.ulBufferInfo] }

theorem configured_same (h : SameTemplate t t') (lcid : Fin 11) (lcgid : Fin 4) :
    SameTemplate (t.configured lcid lcgid) (t'.configured lcid lcgid) :=
  { h with
    lcgidmap := by
      intro lcid' hlcid'
      by_cases hsame : (lcid' : ℕ) = lcid
      · simp only [UeTemplate.configured, hsame, update_self]
      · simp only [UeTemplate.configured, update_of_ne hsame, h.lcgidmap lcid' hlcid'] }

theorem storeDlschBuffer_same (h : SameTemplate t t') (status : ℕ → ℕ × ℕ) :
    SameTemplate (t.storeDlschBuffer status) (t'.storeDlschBuffer status) :=
  { h with
    dlBufferInfo₁ := rfl
    dlBufferInfo₂ := rfl
    dlBufferTotal := rfl
    creationTime := by simp only [UeTemplate.storeDlschBuffer, h.creationTime] }

theorem granted_same (h : SameTemplate t t') (harqPid nbRb tbs : ℕ) :
    SameTemplate (t.clearSr.granted harqPid nbRb tbs) (t'.clearSr.granted harqPid nbRb tbs) :=
  { h with
    ulSr := rfl
    ulTotalBuffer := by
      have hcleared : t.clearSr.ulTotalBuffer = t'.clearSr.ulTotalBuffer := h.ulTotalBuffer
      simp only [UeTemplate.granted, hcleared] }

theorem SameSlot.run (h : SameSlot a b) (e : UeEvent) : SameSlot (a.run e) (b.run e) := by
  have ht := h.template
  cases e with
  | powerHeadroom b =>
    refine ⟨h.rnti, h.cc, ?_, { ht with phrInfo := rfl }⟩
    simp only [Slot.run, Slot.setCtrl, Slot.setTemplate, h.ctrl]
  | bsr ce => exact ⟨h.rnti, h.cc, h.ctrl, rxBsr_same ht ce⟩
  | sdu lcid length => exact ⟨h.rnti, h.cc, h.ctrl, rxSdu_same ht lcid length⟩
  | configured lcid lcgid => exact ⟨h.rnti, h.cc, h.ctrl, configured_same ht lcid lcgid⟩
  | schedulingRequest => exact ⟨h.rnti, h.cc, h.ctrl, { ht with ulSr := rfl }⟩
  | storeDlschBuffer status => exact ⟨h.rnti, h.cc, h.ctrl, storeDlschBuffer_same ht status⟩
  | preProcess phy firstRb => exact ⟨h.rnti, h.cc, h.ctrl, (h.assigned phy firstRb).1⟩
  | granted harqPid nbRb tbs =>
    refine ⟨h.rnti, h.cc, ?_, granted_same ht harqPid nbRb tbs⟩
    simp only [Slot.run, Slot.setCtrl, Slot.setTemplate, h.ctrl]
  | retransmitted => exact ⟨h.rnti, h.cc, h.ctrl, { ht with ulSr := rfl }⟩
  | _ =>
    refine ⟨h.rnti, h.cc, ?_, ht⟩
    simp only [Slot.run, Slot.setCtrl, h.ctrl]

theorem SameSlot.runs (h : SameSlot a b) (es : List UeEvent) : SameSlot (a.runs es) (b.runs es) := by
  induction es generalizing a b with
  | nil => exact h
  | cons e es ih => exact ih (h.run e)

end SameSlot

section Observation

variable {t : UeTemplate}

theorem Slot.runs_append (a : Slot) (es es' : List UeEvent) :
    a.runs (es ++ es') = (a.runs es).runs es' :=
  List.foldl_append ..

theorem Slot.runs_bsr (a : Slot) (ces : List BsrCe) :
    (a.runs (ces.map .bsr)).template = rxBsrs ces a.template := by
  induction ces generalizing a with
  | nil => rfl
  | cons ce ces ih => exact ih (a.run (.bsr ce))

/-- A short report of an empty group. -/
def emptyReport (g : Fin 4) : BsrCe := .short (UInt8.ofNat (64 * g))

theorem rxBsr_emptyReport (t : UeTemplate) (g : Fin 4) :
    (rxBsr t (emptyReport g)).ulTotalBuffer = 0 ∧
      (rxBsr t (emptyReport g)).ulBufferInfo = update t.ulBufferInfo g 0 := by
  have hlcgid : Fin.ofNat 4 (UInt8.ofNat (64 * g) >>> 6).toNat = g := by revert g; decide
  have hbsr : bsrTable.get (Fin.ofNat 64 (UInt8.ofNat (64 * g) &&& 0x3f).toNat) = 0 := by
    revert g
    decide
  simp only [emptyReport, rxBsr, rxShortBsr, hlcgid, hbsr, and_self]

theorem rxBsrs_emptyReport (gs : List (Fin 4)) (hne : gs ≠ []) (t : UeTemplate) :
    (rxBsrs (gs.map emptyReport) t).ulTotalBuffer = 0 ∧
      ∀ g, (rxBsrs (gs.map emptyReport) t).ulBufferInfo g = if g ∈ gs then 0 else t.ulBufferInfo g := by
  induction gs using List.reverseRecOn with
  | nil => exact absurd rfl hne
  | append_singleton gs last ih =>
    have hconcat : rxBsrs ((gs ++ [last]).map emptyReport) t =
        rxBsr (rxBsrs (gs.map emptyReport) t) (emptyReport last) := by
      rw [List.map_append, List.map_singleton]
      exact List.foldl_concat ..
    obtain ⟨htotal, hinfo⟩ := rxBsr_emptyReport (rxBsrs (gs.map emptyReport) t) last
    rw [hconcat, hinfo]
    refine ⟨htotal, fun g ↦ ?_⟩
    have hbefore : (rxBsrs (gs.map emptyReport) t).ulBufferInfo g =
        if g ∈ gs then 0 else t.ulBufferInfo g := by
      by_cases hnil : gs = []
      · rw [hnil]
        rfl
      · exact (ih hnil).2 g
    by_cases hg : g = last
    · simp [hg]
    · simp [hg, hbefore]

/-- A long report of full groups. -/
def fullReport : BsrCe := .long 0xFF 0xFF 0xFF

theorem fullReport_bsrInfo (g : Fin 4) : longBsrInfo 0xFF 0xFF 0xFF g = 63 := by revert g; decide

theorem bsrTable_full : bsrTable.get 63 = 300000 := rfl

/-- One group of a full report adds what the group had room for. -/
theorem rxLongBsrGroup_full (g : Fin 4) (h : Reported t) (hbsr : t.bsrInfo g = 63)
    (hroom : t.ulTotalBuffer ≤ 900000) :
    (rxLongBsrGroup t g).ulTotalBuffer + t.ulBufferInfo g = t.ulTotalBuffer + 300000 := by
  have hold := h g
  simp only [rxLongBsrGroup, hbsr, bsrTable_full]
  rw [Nat.mod_eq_of_lt (by omega), if_pos (by omega)]
  omega

theorem rxBsr_fullReport (h : Reported t) (hempty : t.ulTotalBuffer = 0) :
    (rxBsr t fullReport).ulTotalBuffer + bufferSum t.ulBufferInfo = 1200000 := by
  let t₀ : UeTemplate := { t with bsrInfo := longBsrInfo 0xFF 0xFF 0xFF }
  have hbsr : ∀ g, t₀.bsrInfo g = 63 := fullReport_bsrInfo
  have h₀ : Reported t₀ := h
  have h₁ := rxLongBsrGroup_reported h₀ 0
  have h₂ := rxLongBsrGroup_reported h₁ 1
  have h₃ := rxLongBsrGroup_reported h₂ 2
  have hstart : t₀.ulTotalBuffer = 0 := hempty
  have htotal₀ := rxLongBsrGroup_full 0 h₀ (hbsr 0) (by omega)
  have htotal₁ := rxLongBsrGroup_full 1 h₁ (hbsr 1) (by omega)
  have htotal₂ := rxLongBsrGroup_full 2 h₂ (hbsr 2) (by omega)
  have htotal₃ := rxLongBsrGroup_full 3 h₃ (hbsr 3) (by omega)
  have hinfo₁ : (rxLongBsrGroup t₀ 0).ulBufferInfo 1 = t.ulBufferInfo 1 := rfl
  have hinfo₂ : (rxLongBsrGroup (rxLongBsrGroup t₀ 0) 1).ulBufferInfo 2 = t.ulBufferInfo 2 := rfl
  have hinfo₃ : (rxLongBsrGroup (rxLongBsrGroup (rxLongBsrGroup t₀ 0) 1) 2).ulBufferInfo 3 =
      t.ulBufferInfo 3 := rfl
  have hinfo₀ : t₀.ulBufferInfo 0 = t.ulBufferInfo 0 := rfl
  show (rxLongBsrGroup (rxLongBsrGroup (rxLongBsrGroup (rxLongBsrGroup t₀ 0) 1) 2) 3).ulTotalBuffer +
    bufferSum t.ulBufferInfo = 1200000
  rw [bufferSum]
  omega

theorem fullReport_ulBufferInfo (t : UeTemplate) (g : Fin 4) :
    (rxBsr t fullReport).ulBufferInfo g = 300000 := by
  obtain ⟨_ | _ | _ | _ | k, hk⟩ := g
  · rfl
  · rfl
  · rfl
  · rfl
  · omega

/-- Reports after which the total shows what was in one group. -/
def probe (g : Fin 4) : List UeEvent :=
  ((([0, 1, 2, 3] : List (Fin 4)).filter (fun k ↦ k ≠ g)).map emptyReport ++ [fullReport]).map .bsr

theorem probe_total {a : Slot} (h : Reported a.template) (g : Fin 4) :
    (a.runs (probe g)).template.ulTotalBuffer + a.template.ulBufferInfo g = 1200000 := by
  set others := ([0, 1, 2, 3] : List (Fin 4)).filter (fun k ↦ k ≠ g) with hothers
  have hmem : ∀ k, k ∈ others ↔ k ≠ g := by
    rw [hothers]
    revert g
    decide
  have hne : others ≠ [] := by
    rw [hothers]
    revert g
    decide
  obtain ⟨htotal, hinfo⟩ := rxBsrs_emptyReport others hne a.template
  have hreported : Reported (rxBsrs (others.map emptyReport) a.template) :=
    List.foldlRecOn _ _ h (fun _ ht ce _ ↦ rxBsr_reported ht ce)
  have hsum : bufferSum (rxBsrs (others.map emptyReport) a.template).ulBufferInfo =
      a.template.ulBufferInfo g := by
    rw [← (bufferSum_eq_iff _ g).mpr (fun k hk ↦ by rw [hinfo, if_pos ((hmem k).mpr hk)]), hinfo,
      if_neg (fun hg ↦ (hmem g).mp hg rfl)]
  have hfull := rxBsr_fullReport hreported htotal
  rw [hsum] at hfull
  rw [probe, Slot.runs_bsr, rxBsrs, List.foldl_concat]
  exact hfull

/-- Decisions that never differ show every group. -/
theorem ulBufferInfo_eq_of_sameDecisions {a b : Slot} (ha : Reported a.template)
    (hb : Reported b.template) (h : ∀ es, SameDecisions (a.runs es) (b.runs es)) :
    a.template.ulBufferInfo = b.template.ulBufferInfo := by
  funext g
  have htotal : (a.runs (probe g)).template.ulTotalBuffer = (b.runs (probe g)).template.ulTotalBuffer :=
    congrArg ReadFields.ulTotalBuffer (h (probe g)).fields
  have hsumA := probe_total ha g
  have hsumB := probe_total hb g
  omega

theorem Slot.runs_reported {a : Slot} (h : Reported a.template) (es : List UeEvent) :
    Reported (a.runs es).template := by
  induction es generalizing a with
  | nil => exact h
  | cons e es ih => exact ih (Slot.run_reported h e)

/-- Reports after which the groups show which of them the channel belongs to. -/
def probeChannel (lcid : Fin 11) : List UeEvent := [.bsr fullReport, .sdu lcid 1]

theorem probeChannel_ulBufferInfo {a : Slot} {lcid : Fin 11} (hlcid : lcid ≠ 0) (g : Fin 4) :
    (a.runs (probeChannel lcid)).template.ulBufferInfo g =
      if g = a.template.lcgidmap lcid then 299999 else 300000 := by
  have hmap : (rxBsr a.template fullReport).lcgidmap = a.template.lcgidmap := rfl
  show ((rxBsr a.template fullReport).rxSdu lcid 1).ulBufferInfo g = _
  simp only [UeTemplate.rxSdu, if_neg hlcid, fullReport_ulBufferInfo, hmap]
  by_cases hg : g = a.template.lcgidmap lcid
  · simp [hg]
  · simp only [update_of_ne hg, if_neg hg, fullReport_ulBufferInfo]

theorem lcgidmap_eq_of_sameDecisions {a b : Slot} (ha : Reported a.template)
    (hb : Reported b.template) (h : ∀ es, SameDecisions (a.runs es) (b.runs es)) {lcid : Fin 11}
    (hlcid : lcid ≠ 0) : a.template.lcgidmap lcid = b.template.lcgidmap lcid := by
  have hgroups : (a.runs (probeChannel lcid)).template.ulBufferInfo =
      (b.runs (probeChannel lcid)).template.ulBufferInfo := by
    refine ulBufferInfo_eq_of_sameDecisions (Slot.runs_reported ha _) (Slot.runs_reported hb _)
      (fun es ↦ ?_)
    rw [← Slot.runs_append, ← Slot.runs_append]
    exact h (probeChannel lcid ++ es)
  have hgroup := congrFun hgroups (a.template.lcgidmap lcid)
  rw [probeChannel_ulBufferInfo hlcid, probeChannel_ulBufferInfo hlcid, if_pos rfl] at hgroup
  by_contra hne
  rw [if_neg hne] at hgroup
  omega

/-- Decisions after all further events depend on the leftovers alone, and show all of
them. -/
theorem sameDecisions_iff {a b : Slot} (hrnti : a.rnti = b.rnti) (hcc : a.cc = b.cc)
    (hctrl : a.ctrl = b.ctrl) (hbsr : a.template.bsrInfo = b.template.bsrInfo)
    (hsr : a.template.ulSr = b.template.ulSr) (ha : Reported a.template) (hb : Reported b.template) :
    (∀ es, SameDecisions (a.runs es) (b.runs es)) ↔ SameLeftover a.template b.template := by
  constructor
  · intro h
    have hfields : a.readFields = b.readFields := (h []).fields
    have hdl : (a.template.dlBufferInfo 1, a.template.dlBufferInfo 2) =
        (b.template.dlBufferInfo 1, b.template.dlBufferInfo 2) :=
      congrArg ReadFields.dlBufferInfo hfields
    exact {
      phrInfo := congrArg ReadFields.phrInfo hfields
      preAssignedMcsUl := congrArg ReadFields.preAssignedMcsUl hfields
      ulTotalBuffer := congrArg ReadFields.ulTotalBuffer hfields
      ulBufferInfo := ulBufferInfo_eq_of_sameDecisions ha hb h
      dlBufferInfo₁ := congrArg Prod.fst hdl
      dlBufferInfo₂ := congrArg Prod.snd hdl
      dlBufferTotal := congrArg ReadFields.dlBufferTotal hfields
      creationTime := congrArg ReadFields.dlBufferHeadSduCreationTimeMax hfields
      lcgidmap := fun _ hlcid ↦ lcgidmap_eq_of_sameDecisions ha hb h hlcid }
  · intro h es
    exact (SameSlot.runs ⟨hrnti, hcc, hctrl, { h with bsrInfo := hbsr, ulSr := hsr }⟩ es).sameDecisions

end Observation

/-- The slot of a UE that `add_new_ue` puts into it after a history. -/
def occupied (numberOfUeMax : ℕ) (hs : List HistoryEvent) (s cc rnti harqPid : ℕ) : Slot :=
  ((UeList.reached numberOfUeMax hs).addNewUe cc rnti harqPid).slot s

theorem occupied_eq {numberOfUeMax s : ℕ} {hs : List HistoryEvent}
    (hfree : (UeList.reached numberOfUeMax hs).freeSlot = some s) (cc rnti harqPid : ℕ) :
    occupied numberOfUeMax hs s cc rnti harqPid =
      { rnti := rnti
        cc := cc
        template := ((UeList.reached numberOfUeMax hs).ueTemplate cc s).added harqPid
        ctrl := UeUlSchedCtrl.zeroed } := by
  simp only [occupied, UeList.addNewUe, hfree, UeList.takeSlot_slot]

/-- After two histories that leave the same slot to be taken, the UE that takes it is
treated the same in every run of its events if and only if the histories leave the same in
the template of the slot. -/
theorem slot_reuse_iff {numberOfUeMax s : ℕ} (hs₁ hs₂ : List HistoryEvent) (cc rnti harqPid : ℕ)
    (hfree₁ : (UeList.reached numberOfUeMax hs₁).freeSlot = some s)
    (hfree₂ : (UeList.reached numberOfUeMax hs₂).freeSlot = some s) :
    (∀ es, SameDecisions ((occupied numberOfUeMax hs₁ s cc rnti harqPid).runs es)
      ((occupied numberOfUeMax hs₂ s cc rnti harqPid).runs es)) ↔
    SameLeftover ((UeList.reached numberOfUeMax hs₁).ueTemplate cc s)
      ((UeList.reached numberOfUeMax hs₂).ueTemplate cc s) := by
  have hkept₁ := UeList.kept_reached numberOfUeMax hs₁
  have hkept₂ := UeList.kept_reached numberOfUeMax hs₂
  obtain ⟨hbsr₁, hsr₁⟩ := hkept₁.clean s cc (.inl (UeList.active_of_freeSlot hfree₁))
  obtain ⟨hbsr₂, hsr₂⟩ := hkept₂.clean s cc (.inl (UeList.active_of_freeSlot hfree₂))
  have hslot₁ := occupied_eq hfree₁ cc rnti harqPid
  have hslot₂ := occupied_eq hfree₂ cc rnti harqPid
  have hiff := sameDecisions_iff (a := occupied numberOfUeMax hs₁ s cc rnti harqPid)
    (b := occupied numberOfUeMax hs₂ s cc rnti harqPid)
  rw [hslot₁, hslot₂] at hiff ⊢
  refine (hiff rfl rfl rfl ?_ ?_ ?_ ?_).trans ⟨fun h ↦ { h with }, fun h ↦ { h with }⟩
  · exact hbsr₁.trans hbsr₂.symm
  · exact hsr₁.trans hsr₂.symm
  · exact hkept₁.reported s cc
  · exact hkept₂.reported s cc

/-- A UE that reports a full group 0 and leaves. -/
def reportingHistory : List HistoryEvent :=
  [.addNewUe 0 0x1234 0, .ue 0x1234 (.bsr (.short 0x3f)), .removeUe 0x1234]

theorem slot_reuse_iff_reporting :
    (∀ es, SameDecisions ((occupied 2 reportingHistory 0 0 0x4321 0).runs es)
      ((occupied 2 [] 0 0 0x4321 0).runs es)) ↔
    SameLeftover ((UeList.reached 2 reportingHistory).ueTemplate 0 0)
      ((UeList.reached 2 []).ueTemplate 0 0) :=
  slot_reuse_iff reportingHistory [] 0 0x4321 0 (by decide +kernel) (by decide +kernel)

/-- The next UE of the slot starts with the buffer that was reported. -/
theorem not_slot_reuse :
    ¬ ∀ (numberOfUeMax s : ℕ) (hs₁ hs₂ : List HistoryEvent) (cc rnti harqPid : ℕ),
      (UeList.reached numberOfUeMax hs₁).freeSlot = some s →
      (UeList.reached numberOfUeMax hs₂).freeSlot = some s →
      ∀ es, SameDecisions ((occupied numberOfUeMax hs₁ s cc rnti harqPid).runs es)
        ((occupied numberOfUeMax hs₂ s cc rnti harqPid).runs es) := by
  intro h
  have hsame := h 2 0 reportingHistory [] 0 0x4321 0 (by decide +kernel) (by decide +kernel) []
  have htotal : (occupied 2 reportingHistory 0 0 0x4321 0).template.ulTotalBuffer =
      (occupied 2 [] 0 0 0x4321 0).template.ulTotalBuffer :=
    congrArg ReadFields.ulTotalBuffer hsame.fields
  have hleft : (occupied 2 reportingHistory 0 0 0x4321 0).template.ulTotalBuffer = 300000 := by
    decide +kernel
  have hnone : (occupied 2 [] 0 0 0x4321 0).template.ulTotalBuffer = 0 := by decide +kernel
  rw [hleft, hnone] at htotal
  omega

end EdgeSlice.Mac
