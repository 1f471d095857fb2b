import EdgeSlice.Mac.DlschAccounting

namespace EdgeSlice.Mac

open FirstFit

variable {mac : EnbMac} {slices : GlobalInfos} {minRbUnit : ℕ → ℤ} {nbRbsRequired : ℕ → ℕ → ℕ}

theorem Turn.groups_length {t : Turn} (hin : ∀ k ∈ t.groups slices, InArray k) :
    (t.groups slices).length ≤ nRbgMax := by
  by_contra hlong
  simp only [Turn.groups, window, List.length_map, List.length_range] at hlong
  have hfirst := hin t.start (mem_window.mpr ⟨le_rfl, by omega⟩)
  have hlast := hin (t.start + nRbgMax) (mem_window.mpr ⟨by omega, by omega⟩)
  unfold InArray at hfirst hlast
  omega

theorem grants_length {t : Turn} (hin : ∀ k ∈ t.groups slices, InArray k)
    (hu : 1 ≤ minRbUnit t.cc) (hu' : minRbUnit t.cc ≤ 4) (hr : nbRbsRequired t.cc t.ue < 65536)
    (s : DlState) : ((t.grants slices minRbUnit nbRbsRequired s).length : ℤ) =
      supply (minRbUnit t.cc) (freeRbgs s t.cc (t.groups slices)) (nbRbsRequired t.cc t.ue) := by
  rw [Turn.grants, scan_length]
  exact served_eq_supply hu hu' hr ((List.length_filter_le _ _).trans (Turn.groups_length hin))

theorem marked_length (bw : ℕ → Bandwidth) (hr : ∀ cc ue, nbRbsRequired cc ue < 65536)
    {before after : List Turn} {t : Turn} {st st' : DlState} (hst : Cleared st)
    (hturns : turns mac slices = before ++ t :: after)
    (h : runTurns mac slices (minRbUnits bw) nbRbsRequired st (turns mac slices) = some st') :
    ∃ s, runTurns mac slices (minRbUnits bw) nbRbsRequired st before = some s ∧
      ((markedRbgs st' t.ue t.cc).length : ℤ) = supply (minRbUnits bw t.cc)
        (freeRbgs s t.cc (t.groups slices)) (nbRbsRequired t.cc t.ue) ∧
      ((st'.ueSchedCtrl t.ue).preNbAvailableRbs t.cc : ℤ) =
        minRbUnits bw t.cc * (markedRbgs st' t.ue t.cc).length := by
  obtain ⟨hu, hu'⟩ := minRbUnits_bounds bw t.cc
  obtain ⟨s, hs, hin, hperm, hpre⟩ := run_marked hst hu hu' hturns h
  refine ⟨s, hs, ?_, hpre⟩
  rw [hperm.length_eq]
  exact grants_length hin hu hu' (hr _ _) s

theorem freeRbgs_before {before : List Turn} {t : Turn} {st s : DlState}
    (h : runTurns mac slices minRbUnit nbRbsRequired st before = some s)
    (hdisj : ∀ a ∈ before, a.cc = t.cc → ∀ k ∈ a.groups slices, k ∉ t.groups slices) :
    freeRbgs s t.cc (t.groups slices) = freeRbgs st t.cc (t.groups slices) := by
  refine congrArg List.length (List.filter_congr (fun k hk ↦ ?_))
  have hsame := runTurns_shared_frame h (fun a ha hcc hka ↦ hdisj a ha hcc.symm k hka hk)
  simp only [DlState.free, hsame]

/-- The blocks a UE gets when nothing but the free groups of its own window and
its own demand limits it. -/
def windowBlocks (mac : EnbMac) (slices : GlobalInfos) (bw : ℕ → Bandwidth)
    (nbRbsRequired : ℕ → ℕ → ℕ) (st : DlState) (before : List ℕ) (ue : ℕ) : ℤ :=
  ((mac.orderedCCids ue).map (fun cc ↦ minRbUnits bw cc * supply (minRbUnits bw cc)
    (freeRbgs st cc (window (windowStart mac slices before) (assignedDRB slices ue)))
    (nbRbsRequired cc ue))).sum

def grantedBlocks (mac : EnbMac) (bw : ℕ → Bandwidth) (st : DlState) (ue : ℕ) : ℤ :=
  ((mac.orderedCCids ue).map (fun cc ↦
    minRbUnits bw cc * ((markedRbgs st ue cc).length : ℤ))).sum

theorem grantedBlocks_eq (bw : ℕ → Bandwidth) (hr : ∀ cc ue, nbRbsRequired cc ue < 65536)
    (hq : ∀ ue, 0 ≤ ueRntiProcessFunctionDownlink slices ue) {st st' : DlState} (hst : Cleared st)
    (h : runTurns mac slices (minRbUnits bw) nbRbsRequired st (turns mac slices) = some st')
    {before after : List ℕ} {ue : ℕ} (hues : mac.ues = before ++ ue :: after)
    (hs : mac.served ue = true) : grantedBlocks mac bw st' ue =
      windowBlocks mac slices bw nbRbsRequired st before ue := by
  refine congrArg List.sum (List.map_congr_left (fun cc hcc ↦ ?_))
  let t : Turn := ⟨ue, cc, windowStart mac slices before⟩
  have ht : t ∈ turns mac slices :=
    mem_turnsFrom_iff.mpr ⟨before, after, hues, hs, hcc, (zero_add _).symm⟩
  obtain ⟨earlier, later, hsplit⟩ := List.append_of_mem ht
  obtain ⟨s, hrun, hlen, -⟩ := marked_length bw hr hst hsplit h
  have hdisj := turns_disjoint mac hq
  rw [hsplit] at hdisj
  have hbefore := (List.pairwise_append.mp hdisj).2.2
  rw [freeRbgs_before hrun (fun a ha ↦ hbefore a ha t List.mem_cons_self)] at hlen
  rw [hlen]
  rfl

theorem grantedBlocks_unvisited (bw : ℕ → Bandwidth) {st st' : DlState} (hst : Cleared st)
    (h : runTurns mac slices minRbUnit nbRbsRequired st (turns mac slices) = some st')
    {ue : ℕ} (hno : ¬ (ue ∈ mac.ues ∧ mac.served ue = true)) : grantedBlocks mac bw st' ue = 0 := by
  refine List.sum_eq_zero (fun x hx ↦ ?_)
  obtain ⟨cc, -, rfl⟩ := List.mem_map.mp hx
  have hunmarked := run_unmarked hst h (u := ue) (c := cc) (by
    rintro t ht ⟨rfl, rfl⟩
    exact hno ⟨(mem_turnsFrom ht).1, (mem_turnsFrom ht).2.1⟩)
  rw [hunmarked.1]
  simp

/-- The quotas bound the grants exactly when the windows lie in the arrays and
no window offers more blocks than the quota it was computed from. -/
theorem dlsch_quota (mac : EnbMac) (slices : GlobalInfos) (bw : ℕ → Bandwidth)
    (hr : ∀ cc ue, nbRbsRequired cc ue < 65536)
    (hq : ∀ ue, 0 ≤ ueRntiProcessFunctionDownlink slices ue) {st : DlState} (hst : Cleared st) :
    (∃ st', dlschMySchedulerPreProcessor mac slices (minRbUnits bw) nbRbsRequired st =
      some st' ∧ ∀ ue, grantedBlocks mac bw st' ue ≤ ueRntiProcessFunctionDownlink slices ue) ↔
    WindowsWithin mac slices (fun _ ↦ nRbgMax) ∧
      ∀ before ue after, mac.ues = before ++ ue :: after → mac.served ue = true →
        windowBlocks mac slices bw nbRbsRequired st before ue ≤
          ueRntiProcessFunctionDownlink slices ue := by
  rw [dlsch_eq_turns]
  constructor
  · intro h
    obtain ⟨st', hrun, hquota⟩ := h
    refine ⟨(dlsch_defined mac slices (minRbUnits bw) nbRbsRequired st).mp
      ⟨st', (dlsch_eq_turns st).trans hrun⟩, fun before ue after hues hs ↦ ?_⟩
    rw [← grantedBlocks_eq bw hr hq hst hrun hues hs]
    exact hquota ue
  · intro h
    obtain ⟨hwin, hquota⟩ := h
    obtain ⟨st', hrun⟩ := (dlsch_defined mac slices (minRbUnits bw) nbRbsRequired st).mpr hwin
    rw [dlsch_eq_turns] at hrun
    refine ⟨st', hrun, fun ue ↦ ?_⟩
    by_cases hvisit : ue ∈ mac.ues ∧ mac.served ue = true
    · obtain ⟨before, after, hues⟩ := List.append_of_mem hvisit.1
      rw [grantedBlocks_eq bw hr hq hst hrun hues hvisit.2]
      exact hquota before ue after hues hvisit.2
    · rw [grantedBlocks_unvisited bw hst hrun hvisit]
      exact hq ue

/-- On one carrier whose groups have at most three blocks a window never offers
more than the quota. -/
theorem windowBlocks_le (mac : EnbMac) {slices : GlobalInfos} {bw : ℕ → Bandwidth}
    (hq : ∀ ue, 0 ≤ ueRntiProcessFunctionDownlink slices ue) (st : DlState) (before : List ℕ)
    {ue cc : ℕ} (hcarrier : mac.orderedCCids ue = [cc]) (hunit : minRbUnits bw cc ≤ 3) :
    windowBlocks mac slices bw nbRbsRequired st before ue ≤
      ueRntiProcessFunctionDownlink slices ue := by
  have hsum : windowBlocks mac slices bw nbRbsRequired st before ue =
      minRbUnits bw cc * supply (minRbUnits bw cc) (freeRbgs st cc
        (window (windowStart mac slices before) (assignedDRB slices ue)))
        (nbRbsRequired cc ue) := by
    simp [windowBlocks, hcarrier]
  have hfree : freeRbgs st cc (window (windowStart mac slices before) (assignedDRB slices ue)) ≤
      (assignedDRB slices ue).toNat := by
    apply (List.length_filter_le _ _).trans
    simp [window]
  have hsupply : supply (minRbUnits bw cc) (freeRbgs st cc
      (window (windowStart mac slices before) (assignedDRB slices ue))) (nbRbsRequired cc ue) ≤
      assignedDRB slices ue := by
    have hnonneg : 0 ≤ assignedDRB slices ue := Int.tdiv_nonneg (hq ue) (by decide)
    unfold supply
    split <;> omega
  have hthird : 3 * assignedDRB slices ue ≤ ueRntiProcessFunctionDownlink slices ue := by
    rw [assignedDRB, Int.tdiv_eq_ediv_of_nonneg (hq ue)]
    omega
  have hpos : 0 ≤ assignedDRB slices ue := Int.tdiv_nonneg (hq ue) (by decide)
  rw [hsum]
  calc minRbUnits bw cc * _
      ≤ minRbUnits bw cc * assignedDRB slices ue :=
        mul_le_mul_of_nonneg_left hsupply (by have := (minRbUnits_bounds bw cc).1; omega)
    _ ≤ 3 * assignedDRB slices ue := mul_le_mul_of_nonneg_right hunit hpos
    _ ≤ _ := hthird

theorem dlsch_quota_two_ues :
    (∃ st', dlschMySchedulerPreProcessor (.singleCarrier 2) initialization
      (minRbUnits (fun _ ↦ .rb25)) (fun _ _ ↦ 6) .idle = some st' ∧
      ∀ ue, grantedBlocks (.singleCarrier 2) (fun _ ↦ .rb25) st' ue ≤
        ueRntiProcessFunctionDownlink initialization ue) ↔
    WindowsWithin (.singleCarrier 2) initialization (fun _ ↦ nRbgMax) ∧
      ∀ before ue after, EnbMac.ues (.singleCarrier 2) = before ++ ue :: after →
        EnbMac.served (.singleCarrier 2) ue = true →
        windowBlocks (.singleCarrier 2) initialization (fun _ ↦ .rb25) (fun _ _ ↦ 6) .idle
          before ue ≤ ueRntiProcessFunctionDownlink initialization ue :=
  dlsch_quota (.singleCarrier 2) initialization (fun _ ↦ .rb25) (fun _ _ ↦ by decide)
    (fun ue ↦ by rw [initialization_downlink]; decide) DlState.idle_cleared

/-- The default quota of 10 blocks buys three groups of four at 100 blocks. -/
theorem not_dlsch_quota_rb100 : Cleared .idle ∧
    (∀ ue, 0 ≤ ueRntiProcessFunctionDownlink initialization ue) ∧
    ¬ ∃ st', dlschMySchedulerPreProcessor (.singleCarrier 1) initialization
      (minRbUnits (fun _ ↦ .rb100)) (fun _ _ ↦ 100) .idle = some st' ∧
      ∀ ue, grantedBlocks (.singleCarrier 1) (fun _ ↦ .rb100) st' ue ≤
        ueRntiProcessFunctionDownlink initialization ue := by
  refine ⟨DlState.idle_cleared, fun ue ↦ by rw [initialization_downlink]; decide, ?_⟩
  intro h
  obtain ⟨st', hrun, hquota⟩ := h
  have hgranted : (dlschMySchedulerPreProcessor (.singleCarrier 1) initialization
      (minRbUnits (fun _ ↦ .rb100)) (fun _ _ ↦ 100) .idle).map
        (fun s ↦ grantedBlocks (.singleCarrier 1) (fun _ ↦ .rb100) s 0) = some 12 := by
    decide +kernel
  rw [hrun] at hgranted
  have hvalue : grantedBlocks (.singleCarrier 1) (fun _ ↦ .rb100) st' 0 = 12 :=
    Option.some.inj hgranted
  have h := hquota 0
  rw [hvalue, initialization_downlink] at h
  revert h
  decide

section Demand

/-- The number of groups of `unit` blocks that cover a demand. -/
def demandCap (unit : ℤ) (r : ℕ) : ℤ := (r + unit - 1) / unit

theorem supply_le_demandCap {unit : ℤ} (hu : 1 ≤ unit) (n r : ℕ) :
    supply unit n r ≤ demandCap unit r ↔ unit ∣ (r : ℤ) ∨ (n : ℤ) ≤ demandCap unit r := by
  unfold supply
  split
  · next hd =>
    have hle : (r : ℤ) / unit ≤ demandCap unit r := Int.ediv_le_ediv (by omega) (by omega)
    simp only [hd, true_or, iff_true]
    omega
  · next hd => simp [hd]

def demandOf (bw : ℕ → Bandwidth) (getTbsDl : ℕ → ℕ → ℕ) (source : ℕ → ℕ → DemandSource)
    (cc ue : ℕ) : ℕ := (source cc ue).rbs getTbsDl (bw cc).nRbDl

theorem demandOf_lt (bw : ℕ → Bandwidth) (getTbsDl : ℕ → ℕ → ℕ) (source : ℕ → ℕ → DemandSource)
    (cc ue : ℕ) : demandOf bw getTbsDl source cc ue < 65536 :=
  (source cc ue).rbs_lt getTbsDl (bw cc)

/-- The demand bounds the grants exactly when, at the turn of every UE, its
demand is a multiple of the unit or its window has no more free groups than the
demand needs. -/
theorem dlsch_demand (mac : EnbMac) (slices : GlobalInfos) (bw : ℕ → Bandwidth)
    (getTbsDl : ℕ → ℕ → ℕ) (source : ℕ → ℕ → DemandSource) {st : DlState} (hst : Cleared st) :
    (∃ st', dlschMySchedulerPreProcessor mac slices (minRbUnits bw)
      (demandOf bw getTbsDl source) st = some st' ∧
      ∀ ue cc, ((markedRbgs st' ue cc).length : ℤ) ≤
        demandCap (minRbUnits bw cc) (demandOf bw getTbsDl source cc ue)) ↔
    WindowsWithin mac slices (fun _ ↦ nRbgMax) ∧
      ∀ before t after s, turns mac slices = before ++ t :: after →
        runTurns mac slices (minRbUnits bw) (demandOf bw getTbsDl source) st before = some s →
        minRbUnits bw t.cc ∣ demandOf bw getTbsDl source t.cc t.ue ∨
          (freeRbgs s t.cc (t.groups slices) : ℤ) ≤
            demandCap (minRbUnits bw t.cc) (demandOf bw getTbsDl source t.cc t.ue) := by
  have hr := demandOf_lt bw getTbsDl source
  rw [dlsch_eq_turns]
  constructor
  · intro h
    obtain ⟨st', hrun, hcap⟩ := h
    refine ⟨(dlsch_defined mac slices _ _ st).mp ⟨st', (dlsch_eq_turns st).trans hrun⟩, ?_⟩
    intro before t after s hsplit hs
    obtain ⟨s', hs', hlen, -⟩ := marked_length bw hr hst hsplit hrun
    cases hs.symm.trans hs'
    rw [← supply_le_demandCap (minRbUnits_bounds bw t.cc).1, ← hlen]
    exact hcap t.ue t.cc
  · intro h
    obtain ⟨hwin, hturns⟩ := h
    obtain ⟨st', hrun⟩ := (dlsch_defined mac slices (minRbUnits bw)
      (demandOf bw getTbsDl source) st).mpr hwin
    rw [dlsch_eq_turns] at hrun
    refine ⟨st', hrun, fun ue cc ↦ ?_⟩
    by_cases hvisit : ∃ t ∈ turns mac slices, ue = t.ue ∧ cc = t.cc
    · obtain ⟨t, ht, rfl, rfl⟩ := hvisit
      obtain ⟨before, after, hsplit⟩ := List.append_of_mem ht
      obtain ⟨s, hs, hlen, -⟩ := marked_length bw hr hst hsplit hrun
      rw [hlen, supply_le_demandCap (minRbUnits_bounds bw t.cc).1]
      exact hturns before t after s hsplit hs
    · rw [(run_unmarked hst hrun (fun t ht h ↦ hvisit ⟨t, ht, h⟩)).1]
      have hu := (minRbUnits_bounds bw cc).1
      exact Int.ediv_nonneg (by omega) (by omega)

/-- The first ten columns of `get_TBS_DL` at the lowest modulation. -/
def getTbsDlMcs0 (mcs nbRb : ℕ) : ℕ :=
  if mcs = 0 ∧ 0 < nbRb then
    [16, 32, 56, 88, 120, 152, 176, 208, 224, 256].getD (nbRb - 1) 0 / 8
  else 0

/-- A UE with five bytes to send at the lowest modulation, where four blocks
carry 11 bytes. -/
def lowRateSource : DemandSource where
  round := 0
  harqPid := 0
  nbRb _ := 0
  nbRb_lt _ := by decide
  dlschMcs1 := 0
  dlBufferTotal := 5

theorem dlsch_demand_rb25 :
    (∃ st', dlschMySchedulerPreProcessor (.singleCarrier 1) initialization
      (minRbUnits (fun _ ↦ .rb25))
      (demandOf (fun _ ↦ .rb25) getTbsDlMcs0 (fun _ _ ↦ lowRateSource)) .idle =
        some st' ∧
      ∀ ue cc, ((markedRbgs st' ue cc).length : ℤ) ≤ demandCap (minRbUnits (fun _ ↦ .rb25) cc)
        (demandOf (fun _ ↦ .rb25) getTbsDlMcs0 (fun _ _ ↦ lowRateSource) cc ue)) ↔
    WindowsWithin (.singleCarrier 1) initialization (fun _ ↦ nRbgMax) ∧
      ∀ before t after s, turns (.singleCarrier 1) initialization = before ++ t :: after →
        runTurns (.singleCarrier 1) initialization (minRbUnits (fun _ ↦ .rb25))
          (demandOf (fun _ ↦ .rb25) getTbsDlMcs0 (fun _ _ ↦ lowRateSource))
          .idle before = some s →
        minRbUnits (fun _ ↦ .rb25) t.cc ∣ demandOf (fun _ ↦ .rb25) getTbsDlMcs0
          (fun _ _ ↦ lowRateSource) t.cc t.ue ∨
        (freeRbgs s t.cc (t.groups initialization) : ℤ) ≤
          demandCap (minRbUnits (fun _ ↦ .rb25) t.cc) (demandOf (fun _ ↦ .rb25)
            getTbsDlMcs0 (fun _ _ ↦ lowRateSource) t.cc t.ue) :=
  dlsch_demand (.singleCarrier 1) initialization (fun _ ↦ .rb25) getTbsDlMcs0
    (fun _ _ ↦ lowRateSource) DlState.idle_cleared

theorem not_dlsch_demand_rb50 : Cleared .idle ∧
    ¬ ∃ st', dlschMySchedulerPreProcessor (.singleCarrier 1) initialization
      (minRbUnits (fun _ ↦ .rb50))
      (demandOf (fun _ ↦ .rb50) getTbsDlMcs0 (fun _ _ ↦ lowRateSource)) .idle =
        some st' ∧
      ∀ ue cc, ((markedRbgs st' ue cc).length : ℤ) ≤ demandCap (minRbUnits (fun _ ↦ .rb50) cc)
        (demandOf (fun _ ↦ .rb50) getTbsDlMcs0 (fun _ _ ↦ lowRateSource) cc ue) := by
  refine ⟨DlState.idle_cleared, ?_⟩
  intro h
  obtain ⟨st', hrun, hcap⟩ := h
  have hmarked : (dlschMySchedulerPreProcessor (.singleCarrier 1) initialization
      (minRbUnits (fun _ ↦ .rb50))
      (demandOf (fun _ ↦ .rb50) getTbsDlMcs0 (fun _ _ ↦ lowRateSource)) .idle).map
        (fun s ↦ (markedRbgs s 0 0).length) = some 3 := by decide +kernel
  rw [hrun] at hmarked
  have hvalue : (markedRbgs st' 0 0).length = 3 := Option.some.inj hmarked
  have h := hcap 0 0
  rw [hvalue] at h
  revert h
  decide

end Demand

end EdgeSlice.Mac
