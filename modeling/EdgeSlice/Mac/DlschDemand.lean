import EdgeSlice.Mac.DlschTurns
import Mathlib.Data.List.Perm.Basic
import Mathlib.Tactic.Linarith
import Mathlib.Tactic.Positivity

namespace EdgeSlice.Mac

open FirstFit

/-- The loop of `assign_rbs_required` that raises the number of blocks until the
transport block holds the buffer. It leaves after at most `fuel` turns. -/
def growRbs (getTbsDl : ℕ → ℕ → ℕ) (mcs nRbDl buffer : ℕ) (unit : ℤ) : ℕ → ℕ → ℕ
  | 0, rbs => rbs
  | fuel + 1, rbs =>
    if uint16 (getTbsDl mcs rbs) < buffer then
      let rbs := uint16 (rbs + unit)
      if nRbDl < rbs then nRbDl else growRbs getTbsDl mcs nRbDl buffer unit fuel rbs
    else rbs

/-- What `assign_rbs_required` leaves in `nb_rbs_required` for one UE on one
carrier; the entry is zero before. -/
def assignRbsRequired (getTbsDl : ℕ → ℕ → ℕ) (mcs nRbDl buffer : ℕ) (unit : ℤ) : ℕ :=
  if 0 < buffer then
    growRbs getTbsDl mcs nRbDl buffer unit (nRbDl + 1) (if mcs = 0 then 4 else unit.toNat)
  else 0

theorem growRbs_adequate {getTbsDl : ℕ → ℕ → ℕ} {mcs nRbDl buffer : ℕ} {unit : ℤ} (hu : 1 ≤ unit)
    {fuel rbs : ℕ} (hrbs : rbs + unit < 65536) (hn : nRbDl + unit < 65536)
    (hfuel : nRbDl < fuel + rbs) (hpos : 0 < fuel) :
    buffer ≤ uint16 (getTbsDl mcs (growRbs getTbsDl mcs nRbDl buffer unit fuel rbs)) ∨
      growRbs getTbsDl mcs nRbDl buffer unit fuel rbs = nRbDl := by
  induction fuel generalizing rbs with
  | zero => omega
  | succ fuel ih =>
    have hnext : (uint16 (rbs + unit) : ℤ) = rbs + unit := by unfold uint16; omega
    simp only [growRbs]
    split
    · split
      · exact .inr rfl
      · next hle => exact ih (by omega) (by omega) (by omega)
    · next hge => exact .inl (by omega)

theorem growRbs_lt {getTbsDl : ℕ → ℕ → ℕ} {mcs nRbDl buffer : ℕ} {unit : ℤ} {fuel rbs : ℕ}
    (hrbs : rbs < 65536) (hn : nRbDl < 65536) :
    growRbs getTbsDl mcs nRbDl buffer unit fuel rbs < 65536 := by
  induction fuel generalizing rbs with
  | zero => exact hrbs
  | succ fuel ih =>
    simp only [growRbs]
    split
    · split
      · exact hn
      · exact ih (uint16_lt _)
    · exact hrbs

/-- Where the demand of a UE on a carrier comes from; `nb_rb` has 16 bits. -/
structure DemandSource where
  round : ℕ
  harqPid : ℕ
  nbRb : ℕ → ℕ
  nbRb_lt : ∀ pid, nbRb pid < 65536
  dlschMcs1 : ℕ
  dlBufferTotal : ℕ

/-- `nb_rbs_required` as `dlsch_scheduler_pre_processor` hands it on: a
retransmission asks for the blocks of its first transmission. -/
def DemandSource.rbs (d : DemandSource) (getTbsDl : ℕ → ℕ → ℕ) (nRbDl : ℕ) : ℕ :=
  if 0 < d.round then d.nbRb d.harqPid
  else assignRbsRequired getTbsDl d.dlschMcs1 nRbDl d.dlBufferTotal (getMinRbUnit nRbDl)

theorem assignRbsRequired_adequate (getTbsDl : ℕ → ℕ → ℕ) (mcs buffer : ℕ) (b : Bandwidth)
    (hbuffer : 0 < buffer) :
    buffer ≤ uint16 (getTbsDl mcs (assignRbsRequired getTbsDl mcs b.nRbDl buffer
      (getMinRbUnit b.nRbDl))) ∨
    assignRbsRequired getTbsDl mcs b.nRbDl buffer (getMinRbUnit b.nRbDl) = b.nRbDl := by
  have hu := getMinRbUnit_bounds b.nRbDl
  have hn := b.nRbDl_le
  rw [assignRbsRequired, if_pos hbuffer]
  refine growRbs_adequate hu.1 ?_ (by omega) ?_ (by omega) <;> split <;> omega

theorem DemandSource.rbs_lt (d : DemandSource) (getTbsDl : ℕ → ℕ → ℕ) (b : Bandwidth) :
    d.rbs getTbsDl b.nRbDl < 65536 := by
  have hu := getMinRbUnit_bounds b.nRbDl
  have hn := b.nRbDl_le
  unfold DemandSource.rbs assignRbsRequired
  split
  · exact d.nbRb_lt _
  · split
    · refine growRbs_lt ?_ (by omega)
      split <;> omega
    · omega

variable {unit : ℤ}

theorem want_pos {r : ℕ} (hr : 0 < r) : want unit r = some (uint16 (r - unit)) := if_pos hr

theorem want_zero : want unit 0 = none := rfl

theorem served_of_le (hu : 1 ≤ unit) {n r : ℕ} (hr : r < 65536) (h : unit * n ≤ r) :
    served (want unit) n r = n := by
  induction n generalizing r with
  | zero => rfl
  | succ n ih =>
    have hmul : unit * ((n + 1 : ℕ) : ℤ) = unit * n + unit := by push_cast; ring
    have hn : 0 ≤ unit * n := by positivity
    have hpos : 0 < r := by omega
    have hnext : (uint16 (r - unit) : ℤ) = r - unit := by unfold uint16; omega
    rw [served, want_pos hpos]
    simp only [Nat.add_right_cancel_iff]
    exact ih (uint16_lt _) (by omega)

theorem served_of_dvd (hu : 1 ≤ unit) {n r : ℕ} (hr : r < 65536) (hd : unit ∣ r) :
    (served (want unit) n r : ℤ) = min (n : ℤ) (r / unit) := by
  induction n generalizing r with
  | zero =>
    have : 0 ≤ (r : ℤ) / unit := Int.ediv_nonneg (by omega) (by omega)
    simp [served, this]
  | succ n ih =>
    rcases Nat.eq_zero_or_pos r with rfl | hpos
    · simp [served, want_zero]
      omega
    · have hle : unit ≤ r := Int.le_of_dvd (by omega) hd
      have hnext : (uint16 (r - unit) : ℤ) = r - unit := by unfold uint16; omega
      have hdiv : ((r : ℤ) - unit) / unit = r / unit - 1 := by
        rw [Int.sub_ediv_of_dvd _ (dvd_refl unit), Int.ediv_self (by omega)]
      have h := ih (r := uint16 (r - unit)) (uint16_lt _) (by
        rw [hnext]
        exact dvd_sub hd (dvd_refl unit))
      rw [hnext, hdiv] at h
      simp only [served, want_pos hpos]
      push_cast
      omega

/-- Any other demand steps over zero, so the 16-bit counter wraps and every
group on offer is taken. -/
theorem served_of_not_dvd (hu : 1 ≤ unit) (hu' : unit ≤ 4) {n r : ℕ} (hr : r < 65536)
    (hn : n ≤ nRbgMax) (hd : ¬ unit ∣ r) : served (want unit) n r = n := by
  induction n generalizing r with
  | zero => rfl
  | succ n ih =>
    have hpos : 0 < r := by
      rcases Nat.eq_zero_or_pos r with rfl | hpos
      · exact absurd (dvd_zero unit) hd
      · exact hpos
    rw [served, want_pos hpos]
    simp only [Nat.add_right_cancel_iff]
    by_cases hle : unit ≤ r
    · have hnext : (uint16 (r - unit) : ℤ) = r - unit := by unfold uint16; omega
      refine ih (uint16_lt _) (by omega) (fun h ↦ hd ?_)
      rw [hnext] at h
      simpa using dvd_add h (dvd_refl unit)
    · have hnext : (uint16 (r - unit) : ℤ) = 65536 + r - unit := by unfold uint16; omega
      apply served_of_le hu (uint16_lt _)
      have hn' : (n : ℤ) ≤ 25 := by unfold nRbgMax at hn; omega
      have : unit * n ≤ 4 * 25 := by
        exact Int.mul_le_mul hu' hn' (by omega) (by omega)
      omega

/-- The groups a demand `r` takes out of `n` free ones. A demand that is not a
multiple of the unit takes them all. -/
def supply (unit : ℤ) (n r : ℕ) : ℤ := if unit ∣ (r : ℤ) then min (n : ℤ) (r / unit) else n

theorem served_eq_supply (hu : 1 ≤ unit) (hu' : unit ≤ 4) {n r : ℕ} (hr : r < 65536)
    (hn : n ≤ nRbgMax) : (served (want unit) n r : ℤ) = supply unit n r := by
  unfold supply
  split
  · next hd => exact served_of_dvd hu hr hd
  · next hd => rw [served_of_not_dvd hu hu' hr hn hd]

theorem served_succ_iff (hu : 1 ≤ unit) (hu' : unit ≤ 4) {n r : ℕ} (hr : r < 65536)
    (hn : n < nRbgMax) :
    served (want unit) (n + 1) r = n + 1 ↔ ¬ (unit ∣ (r : ℤ) ∧ (r : ℤ) ≤ unit * n) := by
  by_cases hd : unit ∣ (r : ℤ)
  · have h := served_of_dvd hu (n := n + 1) hr hd
    obtain ⟨q, hq⟩ := hd
    have hquot : (r : ℤ) / unit = q := by
      rw [hq, Int.mul_ediv_cancel_left _ (by omega)]
    rw [hquot] at h
    have hiff : (r : ℤ) ≤ unit * n ↔ q ≤ n := by
      rw [hq]
      exact Int.mul_le_mul_left (by omega)
    have hdvd : unit ∣ (r : ℤ) := ⟨q, hq⟩
    rw [and_iff_right hdvd, hiff]
    push_cast at h
    omega
  · simp [served_of_not_dvd hu hu' (n := n + 1) hr hn hd, hd]

end EdgeSlice.Mac

namespace EdgeSlice.Mac

open Function FirstFit

/-- The state before an allocation: nothing marked, nothing counted. -/
structure Cleared (st : DlState) : Prop where
  rballocSubUE : ∀ u c k, (st.ueSchedCtrl u).rballocSubUE c k = 0
  preNb : ∀ u c, (st.ueSchedCtrl u).preNbAvailableRbs c = 0
  touched : st.touched = []

def DlState.idle : DlState where
  nbRbsRequiredRemaining _ _ := 0
  rballocSub _ _ := 0
  mimoModeIndicator _ _ := 2
  ueSchedCtrl _ := { rballocSubUE _ _ := 0, preNbAvailableRbs _ := 0, dlPowOff _ := 2 }
  touched := []

theorem DlState.idle_cleared : Cleared DlState.idle := ⟨fun _ _ _ ↦ rfl, fun _ _ ↦ rfl, rfl⟩

/-- A cell with one carrier and `n` UEs in service. -/
def EnbMac.singleCarrier (n : ℕ) : EnbMac where
  numberOfUeMax := 16
  ues := List.range n
  ues_nodup := List.nodup_range
  active ue := ue < n
  pCCid _ := 0
  rnti _ ue := ue + 1
  orderedCCids _ := [0]
  orderedCCids_nodup _ := List.nodup_singleton 0
  ulOutOfSync _ := 0
  ueStatsExist _ _ := true
  transmissionMode _ _ := 1

def markedRbgs (st : DlState) (ue cc : ℕ) : List ℤ :=
  (window 0 nRbgMax).filter (fun k ↦ (st.ueSchedCtrl ue).rballocSubUE cc k != 0)

theorem mem_markedRbgs {st : DlState} {ue cc : ℕ} {k : ℤ} :
    k ∈ markedRbgs st ue cc ↔ InArray k ∧ (st.ueSchedCtrl ue).rballocSubUE cc k ≠ 0 := by
  simp [markedRbgs, InArray, List.mem_filter, mem_window]

theorem markedRbgs_nodup (st : DlState) (ue cc : ℕ) : (markedRbgs st ue cc).Nodup :=
  (window_nodup _ _).filter _

theorem markedRbgs_length (st : DlState) (ue cc : ℕ) :
    (markedRbgs st ue cc).length ≤ nRbgMax := by
  apply (List.length_filter_le _ _).trans
  simp [window, nRbgMax]

def freeRbgs (st : DlState) (cc : ℕ) (ks : List ℤ) : ℕ := (ks.filter (st.free cc)).length

theorem window_split {start count k : ℤ} (h : k ∈ window start count) :
    window start count =
      window start (k - start) ++ k :: window (k + 1) (start + count - k - 1) := by
  obtain ⟨h₁, h₂⟩ := mem_window.mp h
  have hcount : count.toNat =
      (k - start).toNat + ((start + count - k - 1).toNat + 1) := by omega
  simp only [window, hcount, List.range_add, List.map_append, List.range_succ_eq_map,
    List.map_cons, List.map_map]
  congr 2
  · simp
    omega
  · refine List.map_congr_left (fun j _ ↦ ?_)
    simp only [comp_apply]
    push_cast
    omega

variable {mac : EnbMac} {slices : GlobalInfos} {minRbUnit : ℕ → ℤ} {nbRbsRequired : ℕ → ℕ → ℕ}

variable (mac slices) in
/-- `RBG_start_index` when the loop reaches a UE: the windows of the served UEs
before it, one after the other. -/
def windowStart (before : List ℕ) : ℤ :=
  ((before.filter mac.served).map (assignedDRB slices)).sum

theorem mem_turnsFrom_iff {start : ℤ} {ues : List ℕ} {t : Turn} :
    t ∈ turnsFrom mac slices start ues ↔ ∃ before after, ues = before ++ t.ue :: after ∧
      mac.served t.ue = true ∧ t.cc ∈ mac.orderedCCids t.ue ∧
      t.start = start + windowStart mac slices before := by
  induction ues generalizing start with
  | nil => simp [turnsFrom]
  | cons ue ues ih =>
    rw [turnsFrom]
    constructor
    · intro h
      split at h
      · next hs =>
        rcases List.mem_append.mp h with h | h
        · obtain ⟨cc, hcc, rfl⟩ := List.mem_map.mp h
          exact ⟨[], ues, rfl, hs, hcc, by simp [windowStart]⟩
        · obtain ⟨before, after, rfl, hs', hcc, hstart⟩ := ih.mp h
          refine ⟨ue :: before, after, rfl, hs', hcc, ?_⟩
          rw [hstart]
          simp [windowStart, hs, add_assoc]
      · next hs =>
        obtain ⟨before, after, rfl, hs', hcc, hstart⟩ := ih.mp h
        exact ⟨ue :: before, after, rfl, hs', hcc, by simpa [windowStart, hs] using hstart⟩
    · intro h
      obtain ⟨before, after, hlist, hs, hcc, hstart⟩ := h
      cases before with
      | nil =>
        obtain ⟨rfl, rfl⟩ := List.cons.inj hlist
        rw [if_pos hs]
        refine List.mem_append_left _ (List.mem_map.mpr ⟨t.cc, hcc, ?_⟩)
        obtain ⟨u, c, s⟩ := t
        simpa [windowStart] using hstart.symm
      | cons b before =>
        obtain ⟨rfl, rfl⟩ := List.cons.inj hlist
        split
        · next hb =>
          refine List.mem_append_right _ (ih.mpr ⟨before, after, rfl, hs, hcc, ?_⟩)
          simpa [windowStart, hb, add_assoc] using hstart
        · next hb =>
          exact ih.mpr ⟨before, after, rfl, hs, hcc, by simpa [windowStart, hb] using hstart⟩

variable (mac slices) in
/-- Every window that is not empty lies below the bound of its carrier. -/
def WindowsWithin (bound : ℕ → ℕ) : Prop :=
  ∀ before ue after, mac.ues = before ++ ue :: after → mac.served ue = true →
    ∀ cc ∈ mac.orderedCCids ue, 0 < assignedDRB slices ue →
      0 ≤ windowStart mac slices before ∧
        windowStart mac slices before + assignedDRB slices ue ≤ bound cc

theorem windowsWithin_iff {bound : ℕ → ℕ} :
    WindowsWithin mac slices bound ↔
      ∀ t ∈ turns mac slices, ∀ k ∈ t.groups slices, 0 ≤ k ∧ k < bound t.cc := by
  constructor
  · intro h t ht k hk
    obtain ⟨before, after, hlist, hs, hcc, hstart⟩ := mem_turnsFrom_iff.mp ht
    obtain ⟨h₁, h₂⟩ := mem_window.mp hk
    have := h before t.ue after hlist hs t.cc hcc (by omega)
    omega
  · intro h before ue after hlist hs cc hcc hpos
    let t : Turn := ⟨ue, cc, 0 + windowStart mac slices before⟩
    have ht : t ∈ turns mac slices :=
      mem_turnsFrom_iff.mpr ⟨before, after, hlist, hs, hcc, rfl⟩
    have hfirst := h t ht t.start (mem_window.mpr ⟨le_rfl, lt_add_of_pos_right _ hpos⟩)
    have hlast := h t ht (t.start + assignedDRB slices ue - 1)
      (mem_window.mpr ⟨by omega, sub_one_lt _⟩)
    dsimp only [t] at hfirst hlast
    omega

variable (mac slices minRbUnit nbRbsRequired) in
theorem dlsch_defined (st : DlState) :
    (∃ st', dlschMySchedulerPreProcessor mac slices minRbUnit nbRbsRequired st = some st') ↔
      WindowsWithin mac slices (fun _ ↦ nRbgMax) := by
  rw [dlsch_eq_turns, windowsWithin_iff]
  exact runTurns_defined mac slices minRbUnit nbRbsRequired (turns mac slices) st

end EdgeSlice.Mac
