import EdgeSlice.Mac.DlschCaps

namespace EdgeSlice.Mac

open FirstFit

/-- What `schedule_ue_spec` does with a UE on a carrier once the pre-processor
has run. -/
inductive UeDecision
  | noRbAllocated
  | retransmission
  | takesMoreThanWeHave
  | newTransmission
  deriving DecidableEq

/-- The branches of `schedule_ue_spec` on the round and the stored `nb_rb`. -/
def scheduleUeSpecBranch (cceInfeasible : Bool) (d : DemandSource) (preNbAvailableRbs : ℕ) :
    UeDecision :=
  if preNbAvailableRbs = 0 ∨ cceInfeasible then .noRbAllocated
  else if 0 < d.round then
    if d.nbRb d.harqPid ≤ preNbAvailableRbs then .retransmission else .takesMoreThanWeHave
  else .newTransmission

theorem retransmission_iff {d : DemandSource} (hround : 0 < d.round)
    (hnb : 0 < d.nbRb d.harqPid) (preNbAvailableRbs : ℕ) :
    scheduleUeSpecBranch false d preNbAvailableRbs = .retransmission ↔
      d.nbRb d.harqPid ≤ preNbAvailableRbs := by
  unfold scheduleUeSpecBranch
  by_cases hzero : preNbAvailableRbs = 0
  · simp [hzero]
    omega
  · by_cases hle : d.nbRb d.harqPid ≤ preNbAvailableRbs <;> simp [hzero, hround, hle]

variable {mac : EnbMac} {slices : GlobalInfos} {minRbUnit : ℕ → ℤ} {nbRbsRequired : ℕ → ℕ → ℕ}

theorem first_turn {ue cc : ℕ} {rest : List ℕ} (hues : mac.ues = ue :: rest)
    (hs : mac.served ue = true) (hcc : cc ∈ mac.orderedCCids ue) :
    ∃ before after, turns mac slices = before ++ ⟨ue, cc, 0⟩ :: after ∧
      ∀ a ∈ before, a.cc ≠ cc := by
  obtain ⟨l, r, hsplit⟩ := List.append_of_mem hcc
  refine ⟨l.map (fun c ↦ ⟨ue, c, 0⟩), r.map (fun c ↦ ⟨ue, c, 0⟩) ++
    turnsFrom mac slices (0 + assignedDRB slices ue) rest, ?_, ?_⟩
  · rw [turns, hues, turnsFrom, if_pos hs, hsplit, List.map_append, List.map_cons,
      List.append_assoc, List.cons_append]
  · intro a ha
    obtain ⟨c, hc, rfl⟩ := List.mem_map.mp ha
    rintro rfl
    have hnodup := mac.orderedCCids_nodup ue
    rw [hsplit] at hnodup
    exact (List.disjoint_of_nodup_append hnodup) hc List.mem_cons_self

theorem le_supply_iff {unit : ℤ} (hu : 1 ≤ unit) (n r : ℕ) :
    (r : ℤ) ≤ unit * supply unit n r ↔ (r : ℤ) ≤ unit * n := by
  unfold supply
  split
  · next hd =>
    have hexact : unit * ((r : ℤ) / unit) = r := Int.mul_ediv_cancel' hd
    rcases le_total (n : ℤ) (r / unit) with hle | hle
    · rw [min_eq_left hle]
    · have hmul : unit * ((r : ℤ) / unit) ≤ unit * n := mul_le_mul_of_nonneg_left hle (by omega)
      rw [min_eq_right hle, hexact]
      simp only [le_refl, true_iff]
      omega
  · rfl

/-- The first UE gets the blocks of its retransmission exactly when all windows
lie in the arrays, it is served on the carrier, and the free groups inside the
window of its present quota hold them. -/
theorem dlsch_retransmission (mac : EnbMac) (slices : GlobalInfos)
    (messages : List (Option (ℕ → ℚ))) (bw : ℕ → Bandwidth) (getTbsDl : ℕ → ℕ → ℕ)
    (source : ℕ → ℕ → DemandSource) (ue cc : ℕ) {rest : List ℕ} (hues : mac.ues = ue :: rest)
    (hround : 0 < (source cc ue).round)
    (hnb : 0 < (source cc ue).nbRb (source cc ue).harqPid) {st : DlState} (hst : Cleared st) :
    (∃ st', dlschMySchedulerPreProcessor mac (receive slices messages) (minRbUnits bw)
      (demandOf bw getTbsDl source) st = some st' ∧
      (source cc ue).nbRb (source cc ue).harqPid ≤ (st'.ueSchedCtrl ue).preNbAvailableRbs cc ∧
      scheduleUeSpecBranch false (source cc ue) ((st'.ueSchedCtrl ue).preNbAvailableRbs cc) =
        .retransmission) ↔
    WindowsWithin mac (receive slices messages) (fun _ ↦ nRbgMax) ∧
      mac.served ue = true ∧ cc ∈ mac.orderedCCids ue ∧
      ((source cc ue).nbRb (source cc ue).harqPid : ℤ) ≤ minRbUnits bw cc *
        freeRbgs st cc (window 0 (assignedDRB (receive slices messages) ue)) := by
  have hr := demandOf_lt bw getTbsDl source
  have hdemand : demandOf bw getTbsDl source cc ue = (source cc ue).nbRb (source cc ue).harqPid :=
    if_pos hround
  simp only [retransmission_iff hround hnb, and_self]
  rw [dlsch_eq_turns]
  have hgot : mac.served ue = true → cc ∈ mac.orderedCCids ue → ∀ st',
      runTurns mac (receive slices messages) (minRbUnits bw) (demandOf bw getTbsDl source) st
        (turns mac (receive slices messages)) = some st' →
      ((source cc ue).nbRb (source cc ue).harqPid ≤ (st'.ueSchedCtrl ue).preNbAvailableRbs cc ↔
        ((source cc ue).nbRb (source cc ue).harqPid : ℤ) ≤ minRbUnits bw cc *
          freeRbgs st cc (window 0 (assignedDRB (receive slices messages) ue))) := by
    intro hs hcc st' hrun
    obtain ⟨before, after, hsplit, hfirst⟩ := first_turn hues hs hcc
    obtain ⟨s, hbefore, hlen, hpre⟩ := marked_length bw hr hst hsplit hrun
    rw [freeRbgs_before hbefore (fun a ha hsame ↦ absurd hsame (hfirst a ha)), hdemand] at hlen
    rw [hlen] at hpre
    rw [← Int.ofNat_le, hpre]
    exact le_supply_iff (minRbUnits_bounds bw cc).1 _ _
  constructor
  · intro h
    obtain ⟨st', hrun, hle⟩ := h
    have hturn : ∃ t ∈ turns mac (receive slices messages), ue = t.ue ∧ cc = t.cc := by
      by_contra hno
      have hzero := (run_unmarked hst hrun (fun t ht h ↦ hno ⟨t, ht, h⟩)).2
      omega
    obtain ⟨t, ht, rfl, rfl⟩ := hturn
    obtain ⟨-, hs, hcc⟩ := mem_turnsFrom ht
    exact ⟨(dlsch_defined mac _ _ _ st).mp ⟨st', (dlsch_eq_turns st).trans hrun⟩, hs, hcc,
      (hgot hs hcc st' hrun).mp hle⟩
  · intro h
    obtain ⟨hwin, hs, hcc, hle⟩ := h
    obtain ⟨st', hrun⟩ := (dlsch_defined mac (receive slices messages) (minRbUnits bw)
      (demandOf bw getTbsDl source) st).mpr hwin
    rw [dlsch_eq_turns] at hrun
    exact ⟨st', hrun, (hgot hs hcc st' hrun).mpr hle⟩

def secondRoundSource : DemandSource where
  round := 1
  harqPid := 0
  nbRb _ := 6
  nbRb_lt _ := by decide
  dlschMcs1 := 9
  dlBufferTotal := 0

theorem dlsch_retransmission_default :
    ∃ st', dlschMySchedulerPreProcessor (.singleCarrier 1) (receive initialization [])
      (minRbUnits (fun _ ↦ .rb50))
      (demandOf (fun _ ↦ .rb50) getTbsDlMcs0 (fun _ _ ↦ secondRoundSource)) .idle = some st' ∧
      secondRoundSource.nbRb secondRoundSource.harqPid ≤
        (st'.ueSchedCtrl 0).preNbAvailableRbs 0 ∧
      scheduleUeSpecBranch false secondRoundSource ((st'.ueSchedCtrl 0).preNbAvailableRbs 0) =
        .retransmission :=
  (dlsch_retransmission (.singleCarrier 1) initialization [] (fun _ ↦ .rb50) getTbsDlMcs0
    (fun _ _ ↦ secondRoundSource) 0 0 rfl (by decide) (by decide)
    DlState.idle_cleared).mpr ⟨windowsWithin_iff.mpr (by decide), by decide, by decide, by decide⟩

theorem not_dlsch_retransmission_lowered : Cleared .idle ∧
    secondRoundSource.nbRb secondRoundSource.harqPid ≤
      Bandwidth.rb50.prbs ((window 0 Bandwidth.rb50.nRbg).filter (DlState.idle.free 0)) ∧
    ¬ ∃ st', dlschMySchedulerPreProcessor (.singleCarrier 1)
      (receive initialization [some (fun i ↦ if i = 1 then 3 else 10)])
      (minRbUnits (fun _ ↦ .rb50))
      (demandOf (fun _ ↦ .rb50) getTbsDlMcs0 (fun _ _ ↦ secondRoundSource)) .idle = some st' ∧
      secondRoundSource.nbRb secondRoundSource.harqPid ≤
        (st'.ueSchedCtrl 0).preNbAvailableRbs 0 ∧
      scheduleUeSpecBranch false secondRoundSource ((st'.ueSchedCtrl 0).preNbAvailableRbs 0) =
        .retransmission := by
  refine ⟨DlState.idle_cleared, by decide, ?_⟩
  intro h
  obtain ⟨st', hrun, hle, -⟩ := h
  have hgot : (dlschMySchedulerPreProcessor (.singleCarrier 1)
      (receive initialization [some (fun i ↦ if i = 1 then 3 else 10)])
      (minRbUnits (fun _ ↦ .rb50))
      (demandOf (fun _ ↦ .rb50) getTbsDlMcs0 (fun _ _ ↦ secondRoundSource)) .idle).map
        (fun s ↦ (s.ueSchedCtrl 0).preNbAvailableRbs 0) = some 3 := by decide +kernel
  rw [hrun] at hgot
  have hvalue : (st'.ueSchedCtrl 0).preNbAvailableRbs 0 = 3 := Option.some.inj hgot
  rw [hvalue] at hle
  revert hle
  decide

end EdgeSlice.Mac
