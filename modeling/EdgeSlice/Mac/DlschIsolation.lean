import EdgeSlice.Mac.DlschDemand

namespace EdgeSlice.Mac

open Function FirstFit

/-- What holds between the entry state `st₀` and every state of a run. -/
structure Exclusive (st₀ st : DlState) : Prop where
  taken : ∀ c k, st₀.rballocSub c k ≠ 0 → st.rballocSub c k ≠ 0
  recorded : ∀ u c k, (st.ueSchedCtrl u).rballocSubUE c k ≠ 0 →
    st₀.rballocSub c k = 0 ∧ st.rballocSub c k ≠ 0
  unique : ∀ u v c k, (st.ueSchedCtrl u).rballocSubUE c k ≠ 0 →
    (st.ueSchedCtrl v).rballocSubUE c k ≠ 0 → u = v

theorem Cleared.exclusive {st : DlState} (h : Cleared st) : Exclusive st st where
  taken _ _ h := h
  recorded u c k hm := absurd (h.rballocSubUE u c k) hm
  unique u _ c k hm := absurd (h.rballocSubUE u c k) hm

theorem Exclusive.step {st₀ st st' : DlState} {unit : ℤ} {cc ue : ℕ} {ks g : List ℤ}
    (hinv : Exclusive st₀ st) (heff : Effect unit cc ue ks g st st')
    (hfree : ∀ k ∈ g, st.rballocSub cc k = 0) : Exclusive st₀ st' := by
  have hmarked : ∀ u c k, (st'.ueSchedCtrl u).rballocSubUE c k ≠ 0 →
      (u = ue ∧ c = cc ∧ k ∈ g) ∨ (st.ueSchedCtrl u).rballocSubUE c k ≠ 0 := by
    intro u c k hm
    rw [heff.rballocSubUE] at hm
    split at hm
    · next h => exact .inl ⟨h.1.1, h.1.2, h.2⟩
    · exact .inr hm
  have htaken : ∀ c k, st.rballocSub c k ≠ 0 → st'.rballocSub c k ≠ 0 := by
    intro c k h
    rw [heff.rballocSub]
    split
    · exact one_ne_zero
    · exact h
  refine ⟨fun c k h ↦ htaken c k (hinv.taken c k h), ?_, ?_⟩
  · intro u c k hm
    rcases hmarked u c k hm with ⟨rfl, rfl, hk⟩ | hm
    · refine ⟨?_, ?_⟩
      · by_contra h
        exact hinv.taken c k h (hfree k hk)
      · rw [heff.rballocSub, if_pos ⟨rfl, hk⟩]
        exact one_ne_zero
    · exact ⟨(hinv.recorded u c k hm).1, htaken c k (hinv.recorded u c k hm).2⟩
  · intro u v c k hu hv
    rcases hmarked u c k hu with ⟨hue, hcc, hk⟩ | hu' <;>
      rcases hmarked v c k hv with ⟨hve, hcc', hk'⟩ | hv'
    · exact hue.trans hve.symm
    · exact absurd (hfree k hk) (hcc ▸ (hinv.recorded v c k hv').2)
    · exact absurd (hfree k hk') (hcc' ▸ (hinv.recorded u c k hu').2)
    · exact hinv.unique u v c k hu' hv'

variable {mac : EnbMac} {slices : GlobalInfos} {minRbUnit : ℕ → ℤ} {nbRbsRequired : ℕ → ℕ → ℕ}

theorem mem_grants {t : Turn} {st : DlState} {k : ℤ}
    (h : k ∈ t.grants slices minRbUnit nbRbsRequired st) :
    k ∈ t.groups slices ∧ st.rballocSub t.cc k = 0 := by
  obtain ⟨hk, hfree⟩ := mem_of_scan h
  exact ⟨hk, by simpa [DlState.free] using hfree⟩

theorem Exclusive.run {st₀ st st' : DlState} {ts : List Turn} (hinv : Exclusive st₀ st)
    (h : runTurns mac slices minRbUnit nbRbsRequired st ts = some st') : Exclusive st₀ st' := by
  induction ts generalizing st with
  | nil =>
    cases h
    exact hinv
  | cons t ts ih =>
    obtain ⟨s, hs, hrest⟩ := runTurns_cons.mp h
    exact ih (hinv.step (Turn.effect_of_run hs).2 (fun k hk ↦ (mem_grants hk).2)) hrest

/-- The result of an allocation: the groups it touched exist on their carrier,
no group has two owners and no group that was taken before has one. -/
structure ExclusiveWithin (nRbg : ℕ → ℕ) (st st' : DlState) : Prop where
  inBand : ∀ p ∈ st'.touched, 0 ≤ p.2 ∧ p.2 < nRbg p.1
  exclusive : ∀ u v c k, u ≠ v → (st'.ueSchedCtrl u).rballocSubUE c k ≠ 0 →
    (st'.ueSchedCtrl v).rballocSubUE c k = 0
  protectedRbg : ∀ u c k, st.rballocSub c k ≠ 0 → (st'.ueSchedCtrl u).rballocSubUE c k = 0

variable (mac slices minRbUnit nbRbsRequired) in
/-- The allocation is exclusive and inside its carriers exactly when the
windows are. -/
theorem exclusiveWithin_iff (bw : ℕ → Bandwidth) {st : DlState} (hst : Cleared st) :
    (∃ st', dlschMySchedulerPreProcessor mac slices minRbUnit nbRbsRequired st = some st' ∧
      ExclusiveWithin (fun cc ↦ (bw cc).nRbg) st st') ↔
      WindowsWithin mac slices (fun cc ↦ (bw cc).nRbg) := by
  rw [dlsch_eq_turns, windowsWithin_iff]
  constructor
  · intro h t ht k hk
    obtain ⟨st', hrun, hres⟩ := h
    exact hres.inBand (t.cc, k)
      ((runTurns_touched hrun (t.cc, k)).mpr (.inr ⟨t, ht, rfl, hk⟩))
  · intro hwin
    have hin : ∀ t ∈ turns mac slices, ∀ k ∈ t.groups slices, InArray k := by
      intro t ht k hk
      have := hwin t ht k hk
      have := (bw t.cc).nRbg_le
      unfold InArray
      omega
    obtain ⟨st', hrun⟩ := (runTurns_defined mac slices minRbUnit nbRbsRequired
      (turns mac slices) st).mpr hin
    have hinv := hst.exclusive.run hrun
    refine ⟨st', hrun, ?_, ?_, ?_⟩
    · intro p hp
      rcases (runTurns_touched hrun p).mp hp with hp | ⟨t, ht, hc, hk⟩
      · simp [hst.touched] at hp
      · rw [hc]
        exact hwin t ht p.2 hk
    · intro u v c k hne hu
      by_contra hv
      exact hne (hinv.unique u v c k hu hv)
    · intro u c k htaken
      by_contra hm
      exact htaken (hinv.recorded u c k hm).1

theorem exclusiveWithin_iff_two_ues :
    ∃ st', dlschMySchedulerPreProcessor (.singleCarrier 2) initialization (fun _ ↦ 2)
      (fun _ _ ↦ 6) .idle = some st' ∧ ExclusiveWithin (fun _ ↦ 13) .idle st' :=
  (exclusiveWithin_iff (.singleCarrier 2) initialization (fun _ ↦ 2) (fun _ _ ↦ 6)
    (fun _ ↦ .rb25) DlState.idle_cleared).mpr (windowsWithin_iff.mpr (by decide))

/-- Three UEs with the default quota leave a carrier of 6 blocks. -/
theorem not_exclusiveWithin_three_ues : Cleared .idle ∧
    ¬ ∃ st', dlschMySchedulerPreProcessor (.singleCarrier 3) initialization (fun _ ↦ 1)
      (fun _ _ ↦ 3) .idle = some st' ∧
        ExclusiveWithin (fun _ ↦ Bandwidth.rb6.nRbg) .idle st' := by
  refine ⟨DlState.idle_cleared, ?_⟩
  intro h
  obtain ⟨st', hrun, hres⟩ := h
  have htouched : (dlschMySchedulerPreProcessor (.singleCarrier 3) initialization (fun _ ↦ 1)
      (fun _ _ ↦ 3) .idle).map (fun s ↦ s.touched.head?) = some (some (0, 8)) := by decide +kernel
  rw [hrun] at htouched
  have hhead : st'.touched.head? = some (0, 8) := by simpa using htouched
  have := hres.inBand (0, 8) (List.mem_of_mem_head? hhead)
  revert this
  decide

theorem grants_eq_initial {before : List Turn} {t : Turn} {st s : DlState}
    (h : runTurns mac slices minRbUnit nbRbsRequired st before = some s)
    (hdisj : ∀ a ∈ before, a.cc = t.cc → ∀ k ∈ a.groups slices, k ∉ t.groups slices) :
    t.grants slices minRbUnit nbRbsRequired s = t.grants slices minRbUnit nbRbsRequired st := by
  refine scan_congr (fun k hk ↦ ?_) _
  have hsame := runTurns_shared_frame h (c := t.cc) (k := k)
    (fun a ha hcc hka ↦ hdisj a ha hcc.symm k hka hk)
  simp only [DlState.free, hsame]

theorem run_of_turn (hq : ∀ ue, 0 ≤ ueRntiProcessFunctionDownlink slices ue) {t : Turn}
    (ht : t ∈ turns mac slices) {st st' : DlState}
    (h : runTurns mac slices minRbUnit nbRbsRequired st (turns mac slices) = some st') :
    (∀ k, (st'.ueSchedCtrl t.ue).rballocSubUE t.cc k =
        if k ∈ t.grants slices minRbUnit nbRbsRequired st then 1
        else (st.ueSchedCtrl t.ue).rballocSubUE t.cc k) ∧
      (st'.ueSchedCtrl t.ue).preNbAvailableRbs t.cc =
        (fun n : ℕ ↦ uint16 (n + minRbUnit t.cc))^[
          (t.grants slices minRbUnit nbRbsRequired st).length]
          ((st.ueSchedCtrl t.ue).preNbAvailableRbs t.cc) := by
  obtain ⟨before, after, hsplit⟩ := List.append_of_mem ht
  have hkeys := turns_keys mac slices
  have hdisj := turns_disjoint mac hq
  rw [hsplit] at hkeys hdisj h
  obtain ⟨s, hs, -, hmarked, hpre⟩ := runTurns_split h hkeys
  have hbefore := (List.pairwise_append.mp hdisj).2.2
  rw [grants_eq_initial hs (fun a ha ↦ hbefore a ha t List.mem_cons_self)] at hmarked hpre
  exact ⟨hmarked, hpre⟩

def DlState.view (st : DlState) (ue : ℕ) : (ℕ → ℤ → ℕ) × (ℕ → ℕ) :=
  ((st.ueSchedCtrl ue).rballocSubUE, (st.ueSchedCtrl ue).preNbAvailableRbs)

end EdgeSlice.Mac
