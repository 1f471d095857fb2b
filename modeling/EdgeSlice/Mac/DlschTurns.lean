import EdgeSlice.FirstFit
import EdgeSlice.Mac.DlschPreProcessor

namespace EdgeSlice.Mac

open Function FirstFit

theorem mem_window {start count k : ℤ} :
    k ∈ window start count ↔ start ≤ k ∧ k < start + count := by
  simp only [window, List.mem_map, List.mem_range]
  constructor
  · intro h
    obtain ⟨j, hj, rfl⟩ := h
    omega
  · intro h
    exact ⟨(k - start).toNat, by omega, by omega⟩

theorem window_nodup (start count : ℤ) : (window start count).Nodup := by
  unfold window
  refine List.Nodup.map ?_ List.nodup_range
  intro i j h
  simpa using h

def InArray (k : ℤ) : Prop := 0 ≤ k ∧ k < nRbgMax

instance (k : ℤ) : Decidable (InArray k) := by unfold InArray; infer_instance

/-- The demand left after one more group, `none` once it is met. -/
def want (unit : ℤ) (remaining : ℕ) : Option ℕ :=
  if 0 < remaining then some (uint16 (remaining - unit)) else none

def DlState.free (st : DlState) (cc : ℕ) (k : ℤ) : Bool := st.rballocSub cc k == 0

/-- One carrier visit of the list loop: a UE, a carrier and the value of
`RBG_start_index`. -/
structure Turn where
  ue : ℕ
  cc : ℕ
  start : ℤ

def Turn.groups (slices : GlobalInfos) (t : Turn) : List ℤ :=
  window t.start (assignedDRB slices t.ue)

/-- What the loop over `ks` does to a state when it takes the groups `g`. -/
structure Effect (unit : ℤ) (cc ue : ℕ) (ks g : List ℤ) (st st' : DlState) : Prop where
  rballocSub : ∀ c k, st'.rballocSub c k = if c = cc ∧ k ∈ g then 1 else st.rballocSub c k
  rballocSubUE : ∀ u c k, (st'.ueSchedCtrl u).rballocSubUE c k =
    if (u = ue ∧ c = cc) ∧ k ∈ g then 1 else (st.ueSchedCtrl u).rballocSubUE c k
  preNb : ∀ u c, (st'.ueSchedCtrl u).preNbAvailableRbs c =
    if u = ue ∧ c = cc then
      (fun n : ℕ ↦ uint16 (n + unit))^[g.length] ((st.ueSchedCtrl u).preNbAvailableRbs c)
    else (st.ueSchedCtrl u).preNbAvailableRbs c
  touched : st'.touched = (ks.map (fun k ↦ (cc, k))).reverse ++ st.touched

theorem Effect.nil (unit : ℤ) (cc ue : ℕ) (st : DlState) : Effect unit cc ue [] [] st st := by
  constructor <;> intros <;> simp

theorem Effect.cons_grant {unit : ℤ} {cc ue : ℕ} {k : ℤ} {ks g : List ℤ} {st st' : DlState}
    (h : Effect unit cc ue ks g
      ({ st with touched := (cc, k) :: st.touched }.grant unit cc ue k) st') :
    Effect unit cc ue (k :: ks) (k :: g) st st' := by
  constructor
  · intro c j
    rw [h.rballocSub]
    simp only [DlState.grant, DlState.setUe, update_apply, List.mem_cons]
    by_cases hc : c = cc <;> by_cases hj : j = k <;> simp [hc, hj]
  · intro u c j
    rw [h.rballocSubUE]
    simp only [DlState.grant, DlState.setUe, update_apply, List.mem_cons]
    by_cases hu : u = ue <;> by_cases hc : c = cc <;> by_cases hj : j = k <;>
      simp [hu, hc, hj]
  · intro u c
    rw [h.preNb]
    by_cases hu : u = ue <;> by_cases hc : c = cc <;>
      simp [DlState.grant, DlState.setUe, hu, hc]
  · rw [h.touched]
    simp [DlState.grant, DlState.setUe]

theorem Effect.cons_skip {unit : ℤ} {cc ue : ℕ} {k : ℤ} {ks g : List ℤ} {st st' : DlState}
    (h : Effect unit cc ue ks g { st with touched := (cc, k) :: st.touched } st') :
    Effect unit cc ue (k :: ks) g st st' := by
  refine ⟨h.rballocSub, h.rballocSubUE, h.preNb, ?_⟩
  rw [h.touched]
  simp

theorem grant_free {st : DlState} {unit : ℤ} {cc ue : ℕ} {k j : ℤ} (h : j ≠ k) :
    (st.grant unit cc ue k).free cc j = st.free cc j := by
  simp [DlState.free, DlState.grant, DlState.setUe, update_of_ne h]

theorem grant_remaining (st : DlState) (unit : ℤ) (cc ue : ℕ) (k : ℤ) :
    (st.grant unit cc ue k).nbRbsRequiredRemaining cc ue =
      uint16 (st.nbRbsRequiredRemaining cc ue - unit) := by
  simp [DlState.grant, DlState.setUe]

/-- The loop over distinct indices of the arrays is a first-fit scan. -/
theorem loop_effect (unit : ℤ) (cc ue : ℕ) {ks : List ℤ} (hks : ks.Nodup)
    (hin : ∀ k ∈ ks, InArray k) (st : DlState) :
    ∃ st', ks.foldlM (allocateRbg unit cc ue) st = some st' ∧
      Effect unit cc ue ks
        (scan (want unit) (st.free cc) ks (st.nbRbsRequiredRemaining cc ue)) st st' := by
  induction ks generalizing st with
  | nil => exact ⟨st, rfl, .nil unit cc ue st⟩
  | cons k ks ih =>
    obtain ⟨hk, hks⟩ := List.nodup_cons.mp hks
    have hin' : ∀ j ∈ ks, InArray j := fun j hj ↦ hin j (List.mem_cons_of_mem _ hj)
    have hrange : 0 ≤ k ∧ k < (nRbgMax : ℤ) := hin k List.mem_cons_self
    let logged : DlState := { st with touched := (cc, k) :: st.touched }
    by_cases htake : st.rballocSub cc k = 0 ∧ 0 < st.nbRbsRequiredRemaining cc ue
    · obtain ⟨st', hrun, heff⟩ := ih hks hin' (logged.grant unit cc ue k)
      have hfree : ∀ j ∈ ks, (logged.grant unit cc ue k).free cc j = st.free cc j :=
        fun j hj ↦ grant_free (fun h ↦ hk (h ▸ hj))
      rw [scan_congr hfree, grant_remaining] at heff
      refine ⟨st', ?_, ?_⟩
      · simp only [List.foldlM_cons, allocateRbg, if_pos hrange, if_pos htake]
        exact hrun
      · have hscan : scan (want unit) (st.free cc) (k :: ks) (st.nbRbsRequiredRemaining cc ue) =
            k :: scan (want unit) (st.free cc) ks
              (uint16 (st.nbRbsRequiredRemaining cc ue - unit)) := by
          simp [scan, DlState.free, want, htake.1, htake.2]
        rw [hscan]
        exact heff.cons_grant
    · obtain ⟨st', hrun, heff⟩ := ih hks hin' logged
      refine ⟨st', ?_, ?_⟩
      · simp only [List.foldlM_cons, allocateRbg, if_pos hrange, if_neg htake]
        exact hrun
      · have hscan : scan (want unit) (st.free cc) (k :: ks) (st.nbRbsRequiredRemaining cc ue) =
            scan (want unit) (st.free cc) ks (st.nbRbsRequiredRemaining cc ue) := by
          by_cases hz : st.rballocSub cc k = 0
          · have hr : ¬ 0 < st.nbRbsRequiredRemaining cc ue := fun h ↦ htake ⟨hz, h⟩
            simp [scan, DlState.free, want, hz, hr]
          · simp [scan, DlState.free, hz]
        rw [hscan]
        exact heff.cons_skip

theorem loop_undefined (unit : ℤ) (cc ue : ℕ) {ks : List ℤ} {k : ℤ} (hk : k ∈ ks)
    (hout : ¬ InArray k) (st : DlState) : ks.foldlM (allocateRbg unit cc ue) st = none := by
  induction ks generalizing st with
  | nil => simp at hk
  | cons j ks ih =>
    rw [List.foldlM_cons]
    rcases List.mem_cons.mp hk with rfl | hk
    · have hnone : allocateRbg unit cc ue st k = none := by
        unfold allocateRbg
        exact if_neg hout
      rw [hnone]
      rfl
    · cases allocateRbg unit cc ue st j with
      | none => rfl
      | some st' => exact ih hk st'

section Run

variable (mac : EnbMac) (slices : GlobalInfos) (minRbUnit : ℕ → ℤ) (nbRbsRequired : ℕ → ℕ → ℕ)

def Turn.grants (t : Turn) (st : DlState) : List ℤ :=
  scan (want (minRbUnit t.cc)) (st.free t.cc) (t.groups slices) (nbRbsRequired t.cc t.ue)

def Turn.run (st : DlState) (t : Turn) : Option DlState :=
  allocateCarrier mac slices minRbUnit nbRbsRequired t.start t.ue st t.cc

/-- The turns of the list loop, read off the UE list and the slice table. -/
def turnsFrom : ℤ → List ℕ → List Turn
  | _, [] => []
  | start, ue :: ues =>
    if mac.served ue then
      (mac.orderedCCids ue).map (fun cc ↦ ⟨ue, cc, start⟩) ++
        turnsFrom (start + assignedDRB slices ue) ues
    else turnsFrom start ues

def turns : List Turn := turnsFrom mac slices 0 mac.ues

variable {mac slices minRbUnit nbRbsRequired}

theorem allocateUe_fold (start : ℤ) (ues : List ℕ) (st : DlState) :
    (ues.foldlM (allocateUe mac slices minRbUnit nbRbsRequired) (st, start)).map Prod.fst =
      (turnsFrom mac slices start ues).foldlM
        (Turn.run mac slices minRbUnit nbRbsRequired) st := by
  induction ues generalizing start st with
  | nil => rfl
  | cons ue ues ih =>
    rw [List.foldlM_cons]
    cases hs : mac.served ue with
    | false => simpa [allocateUe, turnsFrom, hs] using ih start st
    | true =>
      simp only [allocateUe, turnsFrom, hs, if_true, List.foldlM_append, List.foldlM_map]
      change Option.map Prod.fst (Option.bind _ _) = Option.bind _ _
      cases hcc : (mac.orderedCCids ue).foldlM
          (allocateCarrier mac slices minRbUnit nbRbsRequired start ue) st with
      | none => simp [Turn.run, hcc]
      | some st' => simpa [Turn.run, hcc] using ih (start + assignedDRB slices ue) st'

/-- The scheduler is the run of its turns. -/
theorem dlsch_eq_turns (st : DlState) :
    dlschMySchedulerPreProcessor mac slices minRbUnit nbRbsRequired st =
      (turns mac slices).foldlM (Turn.run mac slices minRbUnit nbRbsRequired) st :=
  allocateUe_fold 0 mac.ues st

theorem Turn.undefined {t : Turn} {k : ℤ} (hk : k ∈ t.groups slices) (hout : ¬ InArray k)
    (st : DlState) : t.run mac slices minRbUnit nbRbsRequired st = none :=
  loop_undefined _ _ _ hk hout _

variable (mac minRbUnit nbRbsRequired) in
theorem Turn.effect (t : Turn) (hin : ∀ k ∈ t.groups slices, InArray k) (st : DlState) :
    ∃ st', t.run mac slices minRbUnit nbRbsRequired st = some st' ∧
      Effect (minRbUnit t.cc) t.cc t.ue (t.groups slices)
        (t.grants slices minRbUnit nbRbsRequired st) st st' := by
  let armed : DlState := { st with
    nbRbsRequiredRemaining := update st.nbRbsRequiredRemaining t.cc
      (update (st.nbRbsRequiredRemaining t.cc) t.ue (nbRbsRequired t.cc t.ue)) }
  let ready : DlState := if mac.transmissionMode t.cc (mac.ueRnti t.ue) = 5
    then armed.setUe t.ue (fun c ↦ { c with dlPowOff := update c.dlPowOff t.cc 1 }) else armed
  have hshared : ready.rballocSub = st.rballocSub ∧ ready.touched = st.touched ∧
      ready.nbRbsRequiredRemaining t.cc t.ue = nbRbsRequired t.cc t.ue := by
    dsimp only [ready, armed]
    split <;> simp [DlState.setUe]
  have hue : ∀ u, (ready.ueSchedCtrl u).rballocSubUE = (st.ueSchedCtrl u).rballocSubUE ∧
      (ready.ueSchedCtrl u).preNbAvailableRbs = (st.ueSchedCtrl u).preNbAvailableRbs := by
    intro u
    dsimp only [ready, armed]
    split
    · by_cases hu : u = t.ue <;> simp [DlState.setUe, hu]
    · exact ⟨rfl, rfl⟩
  obtain ⟨st', hrun, heff⟩ := loop_effect (minRbUnit t.cc) t.cc t.ue
    (window_nodup t.start (assignedDRB slices t.ue)) hin ready
  have hfree : ready.free = st.free := by
    funext c k
    simp only [DlState.free, hshared.1]
  rw [hfree, hshared.2.2] at heff
  refine ⟨st', hrun, ?_, ?_, ?_, ?_⟩
  · intro c k
    rw [heff.rballocSub, hshared.1]
    rfl
  · intro u c k
    rw [heff.rballocSubUE, (hue u).1]
    rfl
  · intro u c
    rw [heff.preNb, (hue u).2]
    rfl
  · rw [heff.touched, hshared.2.1]
    rfl

variable (mac slices minRbUnit nbRbsRequired) in
def runTurns (st : DlState) (ts : List Turn) : Option DlState :=
  ts.foldlM (Turn.run mac slices minRbUnit nbRbsRequired) st

theorem Turn.effect_of_run {t : Turn} {st st' : DlState}
    (h : t.run mac slices minRbUnit nbRbsRequired st = some st') :
    (∀ k ∈ t.groups slices, InArray k) ∧
      Effect (minRbUnit t.cc) t.cc t.ue (t.groups slices)
        (t.grants slices minRbUnit nbRbsRequired st) st st' := by
  have hin : ∀ k ∈ t.groups slices, InArray k := by
    intro k hk
    by_contra hout
    rw [Turn.undefined hk hout] at h
    cases h
  obtain ⟨s, hs, heff⟩ := t.effect mac minRbUnit nbRbsRequired hin st
  rw [h] at hs
  cases hs
  exact ⟨hin, heff⟩

theorem runTurns_cons {t : Turn} {ts : List Turn} {st st' : DlState} :
    runTurns mac slices minRbUnit nbRbsRequired st (t :: ts) = some st' ↔
      ∃ s, t.run mac slices minRbUnit nbRbsRequired st = some s ∧
        runTurns mac slices minRbUnit nbRbsRequired s ts = some st' := by
  simp only [runTurns, List.foldlM_cons]
  exact Option.bind_eq_some_iff

theorem runTurns_append {ts us : List Turn} {st st' : DlState} :
    runTurns mac slices minRbUnit nbRbsRequired st (ts ++ us) = some st' ↔
      ∃ s, runTurns mac slices minRbUnit nbRbsRequired st ts = some s ∧
        runTurns mac slices minRbUnit nbRbsRequired s us = some st' := by
  simp only [runTurns, List.foldlM_append]
  exact Option.bind_eq_some_iff

variable (mac slices minRbUnit nbRbsRequired) in
theorem runTurns_defined (ts : List Turn) (st : DlState) :
    (∃ st', runTurns mac slices minRbUnit nbRbsRequired st ts = some st') ↔
      ∀ t ∈ ts, ∀ k ∈ t.groups slices, InArray k := by
  induction ts generalizing st with
  | nil => exact ⟨fun _ t ht ↦ by simp at ht, fun _ ↦ ⟨st, rfl⟩⟩
  | cons t ts ih =>
    simp only [runTurns_cons, List.forall_mem_cons]
    constructor
    · intro h
      obtain ⟨st', s, hs, hrest⟩ := h
      exact ⟨(Turn.effect_of_run hs).1, (ih s).mp ⟨st', hrest⟩⟩
    · intro h
      obtain ⟨hin, hrest⟩ := h
      obtain ⟨s, hs, _⟩ := t.effect mac minRbUnit nbRbsRequired hin st
      obtain ⟨st', hst'⟩ := (ih s).mpr hrest
      exact ⟨st', s, hs, hst'⟩

theorem runTurns_frame {ts : List Turn} {st st' : DlState}
    (h : runTurns mac slices minRbUnit nbRbsRequired st ts = some st') {u c : ℕ}
    (hother : ∀ t ∈ ts, ¬ (u = t.ue ∧ c = t.cc)) :
    (∀ k, (st'.ueSchedCtrl u).rballocSubUE c k = (st.ueSchedCtrl u).rballocSubUE c k) ∧
      (st'.ueSchedCtrl u).preNbAvailableRbs c = (st.ueSchedCtrl u).preNbAvailableRbs c := by
  induction ts generalizing st with
  | nil =>
    cases h
    exact ⟨fun _ ↦ rfl, rfl⟩
  | cons t ts ih =>
    obtain ⟨s, hs, hrest⟩ := runTurns_cons.mp h
    obtain ⟨hne, hother⟩ := List.forall_mem_cons.mp hother
    have heff := (Turn.effect_of_run hs).2
    obtain ⟨hm, hp⟩ := ih hrest hother
    refine ⟨fun k ↦ (hm k).trans ?_, hp.trans ?_⟩
    · rw [heff.rballocSubUE, if_neg (fun h ↦ hne h.1)]
    · rw [heff.preNb, if_neg hne]

theorem runTurns_shared_frame {ts : List Turn} {st st' : DlState}
    (h : runTurns mac slices minRbUnit nbRbsRequired st ts = some st') {c : ℕ} {k : ℤ}
    (hother : ∀ t ∈ ts, c = t.cc → k ∉ t.groups slices) :
    st'.rballocSub c k = st.rballocSub c k := by
  induction ts generalizing st with
  | nil =>
    cases h
    rfl
  | cons t ts ih =>
    obtain ⟨s, hs, hrest⟩ := runTurns_cons.mp h
    obtain ⟨hne, hother⟩ := List.forall_mem_cons.mp hother
    apply (ih hrest hother).trans
    rw [(Turn.effect_of_run hs).2.rballocSub]
    exact if_neg (fun h ↦ hne h.1 (mem_of_scan h.2).1)

theorem runTurns_touched {ts : List Turn} {st st' : DlState}
    (h : runTurns mac slices minRbUnit nbRbsRequired st ts = some st') (p : ℕ × ℤ) :
    p ∈ st'.touched ↔ p ∈ st.touched ∨ ∃ t ∈ ts, p.1 = t.cc ∧ p.2 ∈ t.groups slices := by
  induction ts generalizing st with
  | nil =>
    cases h
    simp
  | cons t ts ih =>
    obtain ⟨s, hs, hrest⟩ := runTurns_cons.mp h
    rw [ih hrest, (Turn.effect_of_run hs).2.touched]
    obtain ⟨c, k⟩ := p
    simp only [List.mem_append, List.mem_reverse, List.mem_map, Prod.mk.injEq,
      List.exists_mem_cons_iff]
    constructor
    · intro h
      rcases h with (⟨j, hj, rfl, rfl⟩ | h) | h
      · exact .inr (.inl ⟨rfl, hj⟩)
      · exact .inl h
      · exact .inr (.inr h)
    · intro h
      rcases h with h | ⟨rfl, hk⟩ | h
      · exact .inl (.inr h)
      · exact .inl (.inl ⟨k, hk, rfl, rfl⟩)
      · exact .inr h

theorem mem_turnsFrom {start : ℤ} {ues : List ℕ} {t : Turn}
    (h : t ∈ turnsFrom mac slices start ues) :
    t.ue ∈ ues ∧ mac.served t.ue = true ∧ t.cc ∈ mac.orderedCCids t.ue := by
  induction ues generalizing start with
  | nil => simp [turnsFrom] at h
  | cons ue ues ih =>
    rw [turnsFrom] at h
    split at h
    · next hs =>
      rcases List.mem_append.mp h with h | h
      · obtain ⟨cc, hcc, rfl⟩ := List.mem_map.mp h
        exact ⟨List.mem_cons_self, hs, hcc⟩
      · exact ⟨List.mem_cons_of_mem _ (ih h).1, (ih h).2⟩
    · exact ⟨List.mem_cons_of_mem _ (ih h).1, (ih h).2⟩

theorem turnsFrom_start {start : ℤ} {ues : List ℕ} {t : Turn}
    (hq : ∀ ue, 0 ≤ ueRntiProcessFunctionDownlink slices ue)
    (h : t ∈ turnsFrom mac slices start ues) : start ≤ t.start := by
  have hnonneg : ∀ ue, 0 ≤ assignedDRB slices ue := fun ue ↦
    Int.tdiv_nonneg (hq ue) (by decide)
  induction ues generalizing start with
  | nil => simp [turnsFrom] at h
  | cons ue ues ih =>
    rw [turnsFrom] at h
    have hue := hnonneg ue
    split at h
    · rcases List.mem_append.mp h with h | h
      · obtain ⟨cc, _, rfl⟩ := List.mem_map.mp h
        exact le_rfl
      · have := ih h
        omega
    · exact ih h

theorem turnsFrom_keys (start : ℤ) {ues : List ℕ} (hn : ues.Nodup) :
    (turnsFrom mac slices start ues).Pairwise (fun a b ↦ ¬ (a.ue = b.ue ∧ a.cc = b.cc)) := by
  induction ues generalizing start with
  | nil => exact .nil
  | cons ue ues ih =>
    obtain ⟨hue, hn⟩ := List.nodup_cons.mp hn
    rw [turnsFrom]
    split
    · refine List.pairwise_append.mpr ⟨?_, ih _ hn, ?_⟩
      · exact List.pairwise_map.mpr ((mac.orderedCCids_nodup ue).imp (fun hne h ↦ hne h.2))
      · intro a ha b hb hab
        obtain ⟨cc, _, rfl⟩ := List.mem_map.mp ha
        have hsame : ue = b.ue := hab.1
        exact hue (hsame ▸ (mem_turnsFrom hb).1)
    · exact ih _ hn

variable (mac slices) in
theorem turns_keys :
    (turns mac slices).Pairwise (fun a b ↦ ¬ (a.ue = b.ue ∧ a.cc = b.cc)) :=
  turnsFrom_keys 0 mac.ues_nodup

/-- With quotas that are not negative, two turns on one carrier have disjoint
windows. -/
theorem turnsFrom_disjoint (hq : ∀ ue, 0 ≤ ueRntiProcessFunctionDownlink slices ue) (start : ℤ)
    {ues : List ℕ} :
    (turnsFrom mac slices start ues).Pairwise (fun a b ↦
      a.cc = b.cc → ∀ k ∈ a.groups slices, k ∉ b.groups slices) := by
  induction ues generalizing start with
  | nil => exact .nil
  | cons ue ues ih =>
    rw [turnsFrom]
    split
    · refine List.pairwise_append.mpr ⟨?_, ih _, ?_⟩
      · exact List.pairwise_map.mpr ((mac.orderedCCids_nodup ue).imp (fun hne h ↦ absurd h hne))
      · intro a ha b hb _ k hka hkb
        obtain ⟨cc, _, rfl⟩ := List.mem_map.mp ha
        have hstart := turnsFrom_start hq hb
        have h₁ := mem_window.mp hka
        have h₂ := mem_window.mp hkb
        dsimp only at h₁
        omega
    · exact ih _

variable (mac) in
theorem turns_disjoint (hq : ∀ ue, 0 ≤ ueRntiProcessFunctionDownlink slices ue) :
    (turns mac slices).Pairwise (fun a b ↦
      a.cc = b.cc → ∀ k ∈ a.groups slices, k ∉ b.groups slices) :=
  turnsFrom_disjoint hq 0

/-- What a run gives to the UE and the carrier of one of its turns. -/
theorem runTurns_split {before after : List Turn} {t : Turn} {st st' : DlState}
    (h : runTurns mac slices minRbUnit nbRbsRequired st (before ++ t :: after) = some st')
    (hkeys : (before ++ t :: after).Pairwise (fun a b ↦ ¬ (a.ue = b.ue ∧ a.cc = b.cc))) :
    ∃ s, runTurns mac slices minRbUnit nbRbsRequired st before = some s ∧
      (∀ k ∈ t.groups slices, InArray k) ∧
      (∀ k, (st'.ueSchedCtrl t.ue).rballocSubUE t.cc k =
        if k ∈ t.grants slices minRbUnit nbRbsRequired s then 1
        else (st.ueSchedCtrl t.ue).rballocSubUE t.cc k) ∧
      (st'.ueSchedCtrl t.ue).preNbAvailableRbs t.cc =
        (fun n : ℕ ↦ uint16 (n + minRbUnit t.cc))^[
          (t.grants slices minRbUnit nbRbsRequired s).length]
          ((st.ueSchedCtrl t.ue).preNbAvailableRbs t.cc) := by
  obtain ⟨s, hbefore, hrest⟩ := runTurns_append.mp h
  obtain ⟨s', ht, hafter⟩ := runTurns_cons.mp hrest
  obtain ⟨_, hkeys', hcross⟩ := List.pairwise_append.mp hkeys
  have hold := runTurns_frame hbefore (u := t.ue) (c := t.cc)
    (fun a ha hab ↦ hcross a ha t List.mem_cons_self ⟨hab.1.symm, hab.2.symm⟩)
  have hnew := runTurns_frame hafter (u := t.ue) (c := t.cc)
    (fun b hb ↦ (List.pairwise_cons.mp hkeys').1 b hb)
  obtain ⟨hin, heff⟩ := Turn.effect_of_run ht
  refine ⟨s, hbefore, hin, fun k ↦ ?_, ?_⟩
  · rw [hnew.1, heff.rballocSubUE, hold.1]
    simp
  · rw [hnew.2, heff.preNb, hold.2]
    simp

end Run

end EdgeSlice.Mac
