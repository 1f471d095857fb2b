import EdgeSlice.Mac.DlschIsolation

namespace EdgeSlice.Mac

open Function FirstFit

def Bandwidth.prbs (b : Bandwidth) (ks : List ℤ) : ℕ := (ks.map b.rbSize).sum

/-- `min_rb_unit` as `dlsch_scheduler_pre_processor` fills it in. -/
def minRbUnits (bw : ℕ → Bandwidth) (cc : ℕ) : ℤ := getMinRbUnit (bw cc).nRbDl

theorem minRbUnits_bounds (bw : ℕ → Bandwidth) (cc : ℕ) :
    1 ≤ minRbUnits bw cc ∧ minRbUnits bw cc ≤ 4 := getMinRbUnit_bounds _

theorem iterate_grant {unit : ℤ} (hu : 0 ≤ unit) {m : ℕ} (hm : unit * m < 65536) :
    (((fun n : ℕ ↦ uint16 (n + unit))^[m] 0 : ℕ) : ℤ) = unit * m := by
  induction m with
  | zero => simp
  | succ m ih =>
    have hstep : unit * ((m + 1 : ℕ) : ℤ) = unit * m + unit := by push_cast; ring
    have hnonneg : 0 ≤ unit * (m : ℤ) := by positivity
    rw [iterate_succ_apply', ih (by omega), hstep]
    unfold uint16
    omega

section Grants

variable {mac : EnbMac} {slices : GlobalInfos} {minRbUnit : ℕ → ℤ} {nbRbsRequired : ℕ → ℕ → ℕ}

theorem Turn.grants_nodup (t : Turn) (st : DlState) :
    (t.grants slices minRbUnit nbRbsRequired st).Nodup := scan_nodup (window_nodup _ _) _

theorem run_marked {before after : List Turn} {t : Turn} {st st' : DlState} (hst : Cleared st)
    (hu : 1 ≤ minRbUnit t.cc) (hu' : minRbUnit t.cc ≤ 4)
    (hturns : turns mac slices = before ++ t :: after)
    (h : runTurns mac slices minRbUnit nbRbsRequired st (turns mac slices) = some st') :
    ∃ s, runTurns mac slices minRbUnit nbRbsRequired st before = some s ∧
      (∀ k ∈ t.groups slices, InArray k) ∧
      (markedRbgs st' t.ue t.cc).Perm (t.grants slices minRbUnit nbRbsRequired s) ∧
      ((st'.ueSchedCtrl t.ue).preNbAvailableRbs t.cc : ℤ) =
        minRbUnit t.cc * (markedRbgs st' t.ue t.cc).length := by
  have hkeys := turns_keys mac slices
  rw [hturns] at h hkeys
  obtain ⟨s, hs, hin, hmarked, hpre⟩ := runTurns_split h hkeys
  have hperm : (markedRbgs st' t.ue t.cc).Perm (t.grants slices minRbUnit nbRbsRequired s) := by
    apply (List.perm_ext_iff_of_nodup (markedRbgs_nodup _ _ _) (t.grants_nodup s)).mpr
    intro k
    rw [mem_markedRbgs, hmarked, hst.rballocSubUE]
    constructor
    · intro h
      obtain ⟨-, hk⟩ := h
      by_contra hno
      simp [hno] at hk
    · intro hk
      exact ⟨hin k (mem_grants hk).1, by simp [hk]⟩
  refine ⟨s, hs, hin, hperm, ?_⟩
  have hlen := markedRbgs_length st' t.ue t.cc
  have hbound : minRbUnit t.cc * ((markedRbgs st' t.ue t.cc).length : ℤ) ≤ 4 * 25 :=
    Int.mul_le_mul hu' (by unfold nRbgMax at hlen; omega) (by omega) (by omega)
  rw [hpre, hst.preNb, ← hperm.length_eq]
  exact iterate_grant (by omega) (by omega)

theorem run_unmarked {st st' : DlState} (hst : Cleared st)
    (h : runTurns mac slices minRbUnit nbRbsRequired st (turns mac slices) = some st') {u c : ℕ}
    (hother : ∀ t ∈ turns mac slices, ¬ (u = t.ue ∧ c = t.cc)) :
    markedRbgs st' u c = [] ∧ (st'.ueSchedCtrl u).preNbAvailableRbs c = 0 := by
  obtain ⟨hm, hp⟩ := runTurns_frame h hother
  refine ⟨?_, hp.trans (hst.preNb u c)⟩
  simp [markedRbgs, hm, hst.rballocSubUE]

/-- A turn takes a group of its window exactly when the group is free and the
demand outlives the free groups before it. -/
theorem mem_grants_iff {t : Turn} {s : DlState} {k : ℤ} (hu : 1 ≤ minRbUnit t.cc)
    (hu' : minRbUnit t.cc ≤ 4) (hr : nbRbsRequired t.cc t.ue < 65536)
    (hin : ∀ k ∈ t.groups slices, InArray k) (hk : k ∈ t.groups slices) :
    k ∈ t.grants slices minRbUnit nbRbsRequired s ↔ s.rballocSub t.cc k = 0 ∧
      ¬ (minRbUnit t.cc ∣ nbRbsRequired t.cc t.ue ∧ (nbRbsRequired t.cc t.ue : ℤ) ≤
        minRbUnit t.cc * freeRbgs s t.cc (window t.start (k - t.start))) := by
  have hwindow := mem_window.mp hk
  have hfirst : InArray t.start := hin _ (mem_window.mpr ⟨le_rfl, by omega⟩)
  have hlast := hin k hk
  have hfew : freeRbgs s t.cc (window t.start (k - t.start)) < nRbgMax := by
    apply (List.length_filter_le _ _).trans_lt
    simp only [window, List.length_map, List.length_range]
    unfold InArray at hfirst hlast
    omega
  rw [Turn.grants, Turn.groups, window_split hk,
    mem_scan_split _ (by simp [mem_window]) (by simp [mem_window])]
  apply and_congr (by simp [DlState.free])
  exact served_succ_iff hu hu' hr hfew

end Grants

namespace Bandwidth

theorem rbSize_le (b : Bandwidth) (k : ℤ) : b.rbSize k ≤ 4 := by
  unfold rbSize
  split <;> cases b <;> decide

theorem rbSize_unit (b : Bandwidth) :
    (∀ k, (b.rbSize k : ℤ) ≤ getMinRbUnit b.nRbDl) ∨
      ∀ k, getMinRbUnit b.nRbDl ≤ (b.rbSize k : ℤ) := by
  cases b
  case rb75 =>
    right
    intro k
    unfold rbSize
    split <;> decide
  all_goals
    left
    intro k
    unfold rbSize
    split <;> decide

theorem prbs_le (b : Bandwidth) (ks : List ℤ) : b.prbs ks ≤ 4 * ks.length := by
  induction ks with
  | nil => exact le_rfl
  | cons k ks ih =>
    have := b.rbSize_le k
    simp only [prbs, List.map_cons, List.sum_cons, List.length_cons] at ih ⊢
    omega

theorem prbs_of_perm (b : Bandwidth) {ks ks' : List ℤ} (h : ks.Perm ks') :
    b.prbs ks = b.prbs ks' := (h.map _).sum_eq

theorem sum_bounded {f : ℤ → ℤ} {u : ℤ} (hf : ∀ k, f k ≤ u) (ks : List ℤ) :
    (ks.map f).sum ≤ u * ks.length ∧
      ((ks.map f).sum = u * ks.length ↔ ∀ k ∈ ks, f k = u) := by
  induction ks with
  | nil => simp
  | cons k ks ih =>
    obtain ⟨hle, hiff⟩ := ih
    have hk := hf k
    have hstep : u * ((k :: ks).length : ℤ) = u + u * ks.length := by
      push_cast [List.length_cons]
      ring
    rw [hstep, List.map_cons, List.sum_cons, List.forall_mem_cons, ← hiff]
    constructor <;> omega

/-- Counting `min_rb_unit` blocks for each group is exact only when each group
has that size. -/
theorem prbs_eq_iff (b : Bandwidth) (ks : List ℤ) :
    getMinRbUnit b.nRbDl * ks.length = (b.prbs ks : ℤ) ↔
      ∀ k ∈ ks, (b.rbSize k : ℤ) = getMinRbUnit b.nRbDl := by
  have hcast : ∀ ks, (b.prbs ks : ℤ) = (ks.map (fun k ↦ (b.rbSize k : ℤ))).sum := by
    intro ks
    induction ks with
    | nil => rfl
    | cons k ks ih => simpa [prbs] using ih
  have hneg : ∀ ks : List ℤ, (ks.map (fun k ↦ (b.rbSize k : ℤ))).sum =
      -(ks.map (fun k ↦ -(b.rbSize k : ℤ))).sum := by
    intro ks
    induction ks with
    | nil => rfl
    | cons k ks ih => simp [ih, add_comm]
  rcases b.rbSize_unit with hle | hge
  · rw [hcast, eq_comm]
    exact (sum_bounded hle ks).2
  · have h := (sum_bounded (fun k ↦ neg_le_neg (hge k)) ks).2
    simp only [neg_inj, neg_mul] at h
    rw [hcast, hneg, ← h, eq_neg_iff_add_eq_zero, eq_neg_iff_add_eq_zero, add_comm]

end Bandwidth

theorem markedRbgs_grant {st : DlState} (unit : ℤ) {cc ue : ℕ} {k : ℤ} (hk : InArray k)
    (hfree : (st.ueSchedCtrl ue).rballocSubUE cc k = 0) :
    (markedRbgs (st.grant unit cc ue k) ue cc).Perm (k :: markedRbgs st ue cc) := by
  have hnew : k ∉ markedRbgs st ue cc := fun h ↦ (mem_markedRbgs.mp h).2 hfree
  refine (List.perm_ext_iff_of_nodup (markedRbgs_nodup _ _ _)
    (List.nodup_cons.mpr ⟨hnew, markedRbgs_nodup _ _ _⟩)).mpr (fun j ↦ ?_)
  rw [List.mem_cons, mem_markedRbgs, mem_markedRbgs]
  by_cases hj : j = k
  · subst hj
    simp [DlState.grant, DlState.setUe, hk]
  · simp [DlState.grant, DlState.setUe, hj]

/-- The count of one UE on one carrier equals the blocks in its marked groups. -/
def ExactCount (b : Bandwidth) (cc ue : ℕ) (st : DlState) : Prop :=
  (st.ueSchedCtrl ue).preNbAvailableRbs cc = b.prbs (markedRbgs st ue cc)

theorem ExactCount.grant {b : Bandwidth} {cc ue : ℕ} {st : DlState} {k : ℤ}
    (h : ExactCount b cc ue st) (hk : InArray k)
    (hfree : (st.ueSchedCtrl ue).rballocSubUE cc k = 0) :
    ExactCount b cc ue (st.grant (b.rbSize k) cc ue k) := by
  have hsum := b.prbs_of_perm (markedRbgs_grant (b.rbSize k) hk hfree)
  have hle := b.prbs_le (markedRbgs (st.grant (b.rbSize k) cc ue k) ue cc)
  have hlen := markedRbgs_length (st.grant (b.rbSize k) cc ue k) ue cc
  have hcons : b.prbs (k :: markedRbgs st ue cc) = b.rbSize k + b.prbs (markedRbgs st ue cc) := rfl
  have hcount : ((st.grant (b.rbSize k) cc ue k).ueSchedCtrl ue).preNbAvailableRbs cc =
      uint16 ((st.ueSchedCtrl ue).preNbAvailableRbs cc + b.rbSize k) := by
    simp [DlState.grant, DlState.setUe]
  unfold nRbgMax at hlen
  unfold ExactCount at h ⊢
  rw [hcount, hsum, h, hcons]
  unfold uint16
  omega

theorem plain_amount {b : Bandwidth} (h₁₅ : b ≠ .rb15) (h₇₅ : b ≠ .rb75) (i : ℤ) :
    (if i = b.nRbg - 1 ∧ (b.nRbDl = 25 ∨ b.nRbDl = 50)
      then getMinRbUnit b.nRbDl - 1 else getMinRbUnit b.nRbDl) = b.rbSize i := by
  unfold Bandwidth.rbSize
  by_cases hi : i = b.nRbg - 1 <;> cases b <;> simp_all <;> decide

/-- The plain allocator keeps the count exact. -/
theorem allocate_exact {b : Bandwidth} (h₁₅ : b ≠ .rb15) (h₇₅ : b ≠ .rb75) (transmissionMode : ℤ)
    (nbRbsRequired : ℕ → ℕ → ℕ) {cc ue : ℕ} {st : DlState} (h : ExactCount b cc ue st) :
    ExactCount b cc ue (dlschSchedulerPreProcessorAllocate b transmissionMode
      (getMinRbUnit b.nRbDl) nbRbsRequired cc ue st) := by
  have hstep : ∀ i, InArray i → ∀ st, ExactCount b cc ue st → ExactCount b cc ue
      (allocatePlainRbg b transmissionMode (getMinRbUnit b.nRbDl) nbRbsRequired cc ue st i) := by
    intro i hi st h
    unfold allocatePlainRbg
    split
    · next hguard =>
      dsimp only
      rw [plain_amount h₁₅ h₇₅]
      split
      · have hgrant := h.grant hi hguard.2.1
        split
        · simpa [ExactCount, markedRbgs, DlState.setUe] using hgrant
        · exact hgrant
      · exact h
    · exact h
  have hin : ∀ i ∈ window 0 b.nRbg, InArray i := by
    intro i hi
    have := mem_window.mp hi
    have := b.nRbg_le
    unfold InArray
    omega
  unfold dlschSchedulerPreProcessorAllocate
  generalize window 0 (b.nRbg : ℤ) = ks at hin
  induction ks generalizing st with
  | nil => exact h
  | cons i ks ih =>
    obtain ⟨hi, hin⟩ := List.forall_mem_cons.mp hin
    exact ih (hstep i hi st h) hin

/-- The condition for exact counts: when the turn of a UE comes, a group of its
window whose size is not `min_rb_unit` is taken already, or the demand ends in
the free groups before it. -/
def RegularGrants (mac : EnbMac) (slices : GlobalInfos) (bw : ℕ → Bandwidth)
    (nbRbsRequired : ℕ → ℕ → ℕ) (st : DlState) : Prop :=
  ∀ before t after s, turns mac slices = before ++ t :: after →
    runTurns mac slices (minRbUnits bw) nbRbsRequired st before = some s →
    ∀ k ∈ t.groups slices, ((bw t.cc).rbSize k : ℤ) ≠ minRbUnits bw t.cc →
      s.rballocSub t.cc k = 0 →
      minRbUnits bw t.cc ∣ nbRbsRequired t.cc t.ue ∧ (nbRbsRequired t.cc t.ue : ℤ) ≤
        minRbUnits bw t.cc * freeRbgs s t.cc (window t.start (k - t.start))

def ExactCounts (bw : ℕ → Bandwidth) (st : DlState) : Prop :=
  ∀ u c, ExactCount (bw c) c u st

theorem exactCounts_iff (mac : EnbMac) (slices : GlobalInfos) (bw : ℕ → Bandwidth)
    {nbRbsRequired : ℕ → ℕ → ℕ} (hr : ∀ cc ue, nbRbsRequired cc ue < 65536) {st : DlState}
    (hst : Cleared st) (hwin : WindowsWithin mac slices (fun cc ↦ (bw cc).nRbg)) :
    (∃ st', dlschMySchedulerPreProcessor mac slices (minRbUnits bw) nbRbsRequired st = some st' ∧
      ExactCounts bw st') ↔ RegularGrants mac slices bw nbRbsRequired st := by
  have hin : ∀ t ∈ turns mac slices, ∀ k ∈ t.groups slices, InArray k := by
    intro t ht k hk
    have := windowsWithin_iff.mp hwin t ht k hk
    have := (bw t.cc).nRbg_le
    unfold InArray
    omega
  obtain ⟨st', hrun⟩ := (runTurns_defined mac slices (minRbUnits bw) nbRbsRequired
    (turns mac slices) st).mpr hin
  have hone : (∃ st', dlschMySchedulerPreProcessor mac slices (minRbUnits bw) nbRbsRequired st =
      some st' ∧ ExactCounts bw st') ↔ ExactCounts bw st' := by
    rw [dlsch_eq_turns]
    constructor
    · intro h
      obtain ⟨s, hs, hexact⟩ := h
      cases hrun.symm.trans hs
      exact hexact
    · exact fun hexact ↦ ⟨st', hrun, hexact⟩
  -- at one turn: exact there iff no group of another size is taken
  have hturn : ∀ before t after, turns mac slices = before ++ t :: after →
      ∃ s, runTurns mac slices (minRbUnits bw) nbRbsRequired st before = some s ∧
        ((st'.ueSchedCtrl t.ue).preNbAvailableRbs t.cc =
          (bw t.cc).prbs (markedRbgs st' t.ue t.cc) ↔
        ∀ k ∈ t.grants slices (minRbUnits bw) nbRbsRequired s,
          ((bw t.cc).rbSize k : ℤ) = minRbUnits bw t.cc) := by
    intro before t after hsplit
    obtain ⟨s, hs, -, hperm, hpre⟩ := run_marked hst (minRbUnits_bounds bw t.cc).1
      (minRbUnits_bounds bw t.cc).2 hsplit hrun
    refine ⟨s, hs, ?_⟩
    have h := (bw t.cc).prbs_eq_iff (markedRbgs st' t.ue t.cc)
    rw [← Nat.cast_inj (R := ℤ), hpre]
    refine h.trans ⟨fun h k hk ↦ h k (hperm.mem_iff.mpr hk), fun h k hk ↦ h k (hperm.mem_iff.mp hk)⟩
  have hgrant : ∀ {t : Turn}, t ∈ turns mac slices → ∀ {s : DlState} {k : ℤ}, k ∈ t.groups slices →
      (k ∈ t.grants slices (minRbUnits bw) nbRbsRequired s ↔ _) := fun ht _ _ hk ↦
    mem_grants_iff (minRbUnits_bounds bw _).1 (minRbUnits_bounds bw _).2 (hr _ _) (hin _ ht) hk
  rw [hone]
  constructor
  · intro hexact before t after s hsplit hs k hk hsize hfree
    have ht : t ∈ turns mac slices := hsplit ▸ List.mem_append_right _ List.mem_cons_self
    obtain ⟨s', hs', hiff⟩ := hturn before t after hsplit
    cases hs.symm.trans hs'
    by_contra hmet
    exact hsize (hiff.mp (hexact t.ue t.cc) k ((hgrant ht hk).mpr ⟨hfree, hmet⟩))
  · intro hregular u c
    by_cases hvisit : ∃ t ∈ turns mac slices, u = t.ue ∧ c = t.cc
    · obtain ⟨t, ht, rfl, rfl⟩ := hvisit
      obtain ⟨before, after, hsplit⟩ := List.append_of_mem ht
      obtain ⟨s, hs, hiff⟩ := hturn before t after hsplit
      refine hiff.mpr (fun k hk ↦ ?_)
      by_contra hsize
      obtain ⟨hgroup, hfree⟩ := mem_grants hk
      exact ((hgrant ht hgroup).mp hk).2 (hregular before t after s hsplit hs k hgroup hsize hfree)
    · obtain ⟨hm, hp⟩ := run_unmarked hst hrun (fun t ht h ↦ hvisit ⟨t, ht, h⟩)
      exact hp.trans (by rw [hm]; rfl)

/-- The slice allocator counts exactly where `RegularGrants` holds; the plain
allocator always does at 6, 25, 50 and 100 blocks. -/
theorem dlsch_accounting (mac : EnbMac) (slices : GlobalInfos) (bw : ℕ → Bandwidth)
    {nbRbsRequired : ℕ → ℕ → ℕ} (hr : ∀ cc ue, nbRbsRequired cc ue < 65536) {st : DlState}
    (hst : Cleared st) (hwin : WindowsWithin mac slices (fun cc ↦ (bw cc).nRbg)) :
    ((∃ st', dlschMySchedulerPreProcessor mac slices (minRbUnits bw) nbRbsRequired st =
      some st' ∧ ExactCounts bw st') ↔ RegularGrants mac slices bw nbRbsRequired st) ∧
    ∀ b : Bandwidth, b ≠ .rb15 → b ≠ .rb75 → ∀ transmissionMode demand cc ue s,
      ExactCount b cc ue s → ExactCount b cc ue
        (dlschSchedulerPreProcessorAllocate b transmissionMode (getMinRbUnit b.nRbDl)
          demand cc ue s) :=
  ⟨exactCounts_iff mac slices bw hr hst hwin,
    fun _ h₁₅ h₇₅ transmissionMode demand _ _ _ h ↦
      allocate_exact h₁₅ h₇₅ transmissionMode demand h⟩

/-- A quota of 39 blocks reaches the last group of a carrier of 25. -/
def wideSlice : GlobalInfos :=
  receive initialization [some (fun i ↦ if i = 1 then 39 else 10)]

theorem dlsch_accounting_two_ues :
    ((∃ st', dlschMySchedulerPreProcessor (.singleCarrier 2) initialization
      (minRbUnits (fun _ ↦ .rb25)) (fun _ _ ↦ 6) .idle = some st' ∧
        ExactCounts (fun _ ↦ .rb25) st') ↔
      RegularGrants (.singleCarrier 2) initialization (fun _ ↦ .rb25) (fun _ _ ↦ 6) .idle) ∧
    ∀ b : Bandwidth, b ≠ .rb15 → b ≠ .rb75 → ∀ transmissionMode demand cc ue s,
      ExactCount b cc ue s → ExactCount b cc ue
        (dlschSchedulerPreProcessorAllocate b transmissionMode (getMinRbUnit b.nRbDl)
          demand cc ue s) :=
  dlsch_accounting (.singleCarrier 2) initialization (fun _ ↦ .rb25) (fun _ _ ↦ by decide)
    DlState.idle_cleared (windowsWithin_iff.mpr (by decide))

theorem not_exactCounts_wideSlice : Cleared .idle ∧
    WindowsWithin (.singleCarrier 1) wideSlice (fun _ ↦ Bandwidth.rb25.nRbg) ∧
    ¬ ∃ st', dlschMySchedulerPreProcessor (.singleCarrier 1) wideSlice
      (minRbUnits (fun _ ↦ .rb25)) (fun _ _ ↦ 26) .idle = some st' ∧
        ExactCounts (fun _ ↦ .rb25) st' := by
  refine ⟨DlState.idle_cleared, windowsWithin_iff.mpr (by decide +kernel), ?_⟩
  intro h
  obtain ⟨st', hrun, hexact⟩ := h
  have hcounts : (dlschMySchedulerPreProcessor (.singleCarrier 1) wideSlice
      (minRbUnits (fun _ ↦ .rb25)) (fun _ _ ↦ 26) .idle).map
        (fun s ↦ ((s.ueSchedCtrl 0).preNbAvailableRbs 0, markedRbgs s 0 0)) =
      some (26, window 0 13) := by decide +kernel
  rw [hrun] at hcounts
  obtain ⟨hcount, hmarked⟩ := Prod.mk.inj (Option.some.inj hcounts)
  have h := hexact 0 0
  rw [ExactCount, hcount, hmarked] at h
  revert h
  decide

end EdgeSlice.Mac
