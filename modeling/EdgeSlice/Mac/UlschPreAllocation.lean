import EdgeSlice.Mac.UlschQuota

namespace EdgeSlice.Mac

open Function

/-- A read of `rb_table` at an `int` index, `none` outside of it. -/
def rbTableAt (i : ℤ) : Option ℕ :=
  if h : 0 ≤ i ∧ i ≤ 32 then some (rbTable.get ⟨i.toNat, by omega⟩) else none

/-- The variables of the two loops of `assign_max_mcs_min_rb`. -/
structure RbSearch where
  mcs : ℕ
  rbTableIndex : ℤ
  tbs : ℕ
  txPower : ℤ
  deriving DecidableEq, Repr

section Guarded

variable (phy : EnbPhy) (firstRb cc : ℕ) (t : UeTemplate)

/-- A new MCS or index, with the transport block size and the power it leads to. -/
def searchAt (mcs : ℕ) (i : ℤ) : Option RbSearch :=
  (rbTableAt i).map fun rb ↦
    { mcs := mcs
      rbTableIndex := i
      tbs := phy.getTbsUl mcs rb
      txPower := phy.estimateUeTxPower cc (phy.getTbsUl mcs rb) rb }

theorem searchAt_eq_some {mcs : ℕ} {i : ℤ} {s : RbSearch} (h : searchAt phy cc mcs i = some s) :
    s.mcs = mcs ∧ s.rbTableIndex = i := by
  obtain ⟨rb, -, rfl⟩ := Option.map_eq_some_iff.mp h
  exact ⟨rfl, rfl⟩

def guardedLowerMcs (s : RbSearch) : Option RbSearch :=
  if (t.phrInfo - s.txPower < 0 ∨ t.ulTotalBuffer < s.tbs) ∧ 3 < s.mcs then
    match _h : searchAt phy cc (s.mcs - 1) s.rbTableIndex with
    | none => none
    | some s' => guardedLowerMcs s'
  else some s
termination_by s.mcs
decreasing_by
  have hmcs := (searchAt_eq_some phy cc _h).1
  omega

def guardedRaiseRbs (s : RbSearch) : Option RbSearch :=
  if s.tbs < t.ulTotalBuffer then
    match rbTableAt s.rbTableIndex with
    | none => none
    | some rb =>
      if (rb : ℤ) < (phy.nRbUl cc : ℤ) - firstRb ∧ 0 < t.phrInfo - s.txPower ∧
          s.rbTableIndex < 32 then
        match _h : searchAt phy cc s.mcs (s.rbTableIndex + 1) with
        | none => none
        | some s' => guardedRaiseRbs s'
      else some s
  else some s
termination_by (32 - s.rbTableIndex).toNat
decreasing_by
  have hindex := (searchAt_eq_some phy cc _h).2
  omega

/-- The decrement and the floor after the loops, on an `int` index. -/
def guardedFit (free i : ℤ) : Option ℤ := do
  let rb ← rbTableAt i
  let fitting := if free - 1 < rb then i - 1 else i
  let rb ← rbTableAt fitting
  return if rb < 3 then 2 else fitting

/-- `assignTraffic` with an `int` index into `rb_table`, every use of it checked. -/
def guardedAssignTraffic (mcs : ℕ) : Option (UeTemplate × ℕ) := do
  let rb ← rbTableAt 2
  let s ← guardedLowerMcs phy cc t
    { mcs := mcs
      rbTableIndex := 2
      tbs := phy.getTbsUl mcs 3
      txPower := phy.estimateUeTxPower cc (phy.getTbsUl mcs 3) rb }
  let s ← guardedRaiseRbs phy firstRb cc t s
  let index ← guardedFit ((phy.nRbUl cc : ℤ) - firstRb) s.rbTableIndex
  let rb ← rbTableAt index
  return ({ t with
      ueTxPower := s.txPower
      preAssignedMcsUl := s.mcs
      preAllocatedRbTableIndexUl := some (Fin.ofNat 33 index.toNat)
      preAllocatedNbRbUl := rb }, s.mcs)

/-- The state of the search that an MCS and an index inside the table determine. -/
def searched (mcs : ℕ) (k : Fin 33) : RbSearch where
  mcs := mcs
  rbTableIndex := k.val
  tbs := phy.getTbsUl mcs (rbTable.get k)
  txPower := phy.estimateUeTxPower cc (phy.getTbsUl mcs (rbTable.get k)) (rbTable.get k)

theorem rbTableAt_val (k : Fin 33) : rbTableAt (k.val : ℤ) = some (rbTable.get k) := by
  rw [rbTableAt, dif_pos (by omega)]
  rfl

theorem searchAt_val (mcs : ℕ) (k : Fin 33) :
    searchAt phy cc mcs (k.val : ℤ) = some (searched phy cc mcs k) := by
  rw [searchAt, rbTableAt_val]
  rfl

/-- What the first loop tests besides the MCS, and the second one besides the index. -/
def mcsTooHigh (k : Fin 33) (mcs : ℕ) : Bool :=
  decide (t.phrInfo - (searched phy cc mcs k).txPower < 0) ||
    decide (t.ulTotalBuffer < (searched phy cc mcs k).tbs)

def rbsTooFew (mcs : ℕ) (k : Fin 33) : Bool :=
  decide ((searched phy cc mcs k).tbs < t.ulTotalBuffer) &&
    decide ((rbTable.get k : ℤ) < (phy.nRbUl cc : ℤ) - firstRb) &&
    decide (0 < t.phrInfo - (searched phy cc mcs k).txPower)

theorem guardedLowerMcs_next {s s' : RbSearch}
    (hagain : (t.phrInfo - s.txPower < 0 ∨ t.ulTotalBuffer < s.tbs) ∧ 3 < s.mcs)
    (hnext : searchAt phy cc (s.mcs - 1) s.rbTableIndex = some s') :
    guardedLowerMcs phy cc t s = guardedLowerMcs phy cc t s' := by
  rw [guardedLowerMcs, if_pos hagain]
  split
  · next hnone => exact absurd (hnext.symm.trans hnone) (Option.some_ne_none _)
  · next hsome => rw [Option.some.inj (hnext.symm.trans hsome)]

theorem guardedLowerMcs_searched (mcs : ℕ) (k : Fin 33) :
    guardedLowerMcs phy cc t (searched phy cc mcs k) =
      some (searched phy cc (lowerMcs (mcsTooHigh phy cc t k) mcs) k) := by
  induction mcs with
  | zero =>
    rw [guardedLowerMcs, if_neg (fun h ↦ absurd h.2 (Nat.not_lt_zero _))]
    rfl
  | succ mcs ih =>
    rw [lowerMcs]
    by_cases hagain : (t.phrInfo - (searched phy cc (mcs + 1) k).txPower < 0 ∨
        t.ulTotalBuffer < (searched phy cc (mcs + 1) k).tbs) ∧ 3 < mcs + 1
    · rw [if_pos (by simpa [mcsTooHigh, and_comm] using hagain), ← ih]
      exact guardedLowerMcs_next phy cc t hagain (searchAt_val phy cc mcs k)
    · rw [if_neg (by simpa [mcsTooHigh, and_comm] using hagain), guardedLowerMcs]
      exact if_neg hagain

theorem guardedRaiseRbs_next {s s' : RbSearch} {rb : ℕ} (htbs : s.tbs < t.ulTotalBuffer)
    (hrb : rbTableAt s.rbTableIndex = some rb)
    (hagain : (rb : ℤ) < (phy.nRbUl cc : ℤ) - firstRb ∧ 0 < t.phrInfo - s.txPower ∧
      s.rbTableIndex < 32)
    (hnext : searchAt phy cc s.mcs (s.rbTableIndex + 1) = some s') :
    guardedRaiseRbs phy firstRb cc t s = guardedRaiseRbs phy firstRb cc t s' := by
  rw [guardedRaiseRbs, if_pos htbs]
  simp only [hrb]
  rw [if_pos hagain]
  split
  · next hnone => exact absurd (hnext.symm.trans hnone) (Option.some_ne_none _)
  · next hsome => rw [Option.some.inj (hnext.symm.trans hsome)]

theorem guardedRaiseRbs_stop {s : RbSearch} {rb : ℕ} (hrb : rbTableAt s.rbTableIndex = some rb)
    (hstop : ¬(s.tbs < t.ulTotalBuffer ∧ (rb : ℤ) < (phy.nRbUl cc : ℤ) - firstRb ∧
      0 < t.phrInfo - s.txPower ∧ s.rbTableIndex < 32)) :
    guardedRaiseRbs phy firstRb cc t s = some s := by
  rw [guardedRaiseRbs]
  split
  · next htbs =>
    simp only [hrb]
    exact if_neg (fun h ↦ hstop ⟨htbs, h⟩)
  · rfl

theorem guardedRaiseRbs_searched (mcs fuel : ℕ) (k : Fin 33) (hfuel : 32 ≤ fuel + k.val) :
    guardedRaiseRbs phy firstRb cc t (searched phy cc mcs k) =
      some (searched phy cc mcs (raiseRbs (rbsTooFew phy firstRb cc t mcs) fuel k)) := by
  induction fuel generalizing k with
  | zero =>
    apply guardedRaiseRbs_stop phy firstRb cc t (rbTableAt_val k)
    intro h
    have hlt : (k.val : ℤ) < 32 := h.2.2.2
    omega
  | succ fuel ih =>
    rw [raiseRbs]
    split
    · next hk =>
      split
      · next hagain =>
        simp only [rbsTooFew, Bool.and_eq_true, decide_eq_true_eq] at hagain
        have hindex : (searched phy cc mcs k).rbTableIndex < 32 := by
          show (k.val : ℤ) < 32
          omega
        have hnext : searchAt phy cc mcs ((k.val : ℤ) + 1) =
            some (searched phy cc mcs ⟨k.val + 1, by omega⟩) :=
          searchAt_val phy cc mcs ⟨k.val + 1, by omega⟩
        rw [← ih _ (by simp only; omega)]
        exact guardedRaiseRbs_next phy firstRb cc t hagain.1.1 (rbTableAt_val k)
          ⟨hagain.1.2, hagain.2, hindex⟩ hnext
      · next hagain =>
        apply guardedRaiseRbs_stop phy firstRb cc t (rbTableAt_val k)
        intro h
        simp only [rbsTooFew, Bool.and_eq_true, decide_eq_true_eq] at hagain
        exact hagain ⟨⟨h.1, h.2.1⟩, h.2.2.1⟩
    · next hk =>
      apply guardedRaiseRbs_stop phy firstRb cc t (rbTableAt_val k)
      intro h
      have hlt : (k.val : ℤ) < 32 := h.2.2.2
      omega

/-- The search never goes down, and goes up only from an index that is not enough. -/
theorem raiseRbs_spec (again : Fin 33 → Bool) (fuel : ℕ) (k : Fin 33) :
    k ≤ raiseRbs again fuel k ∧
      (raiseRbs again fuel k = k ∨ again (previousIndex (raiseRbs again fuel k)) = true) := by
  induction fuel generalizing k with
  | zero => exact ⟨le_rfl, .inl rfl⟩
  | succ fuel ih =>
    rw [raiseRbs]
    split
    · next hk =>
      split
      · next hagain =>
        obtain ⟨hle, hlast⟩ := ih ⟨k.val + 1, by omega⟩
        refine ⟨(Fin.mk_le_mk.mpr (Nat.le_succ _)).trans hle, .inr ?_⟩
        rcases hlast with heq | hlast
        · rw [heq]
          exact hagain
        · exact hlast
      · exact ⟨le_rfl, .inl rfl⟩
    · exact ⟨le_rfl, .inl rfl⟩

/-- The decrement and the floor, inside the table. -/
def fitted (free : ℤ) (k : Fin 33) : Fin 33 :=
  let fitting := if free - 1 < (rbTable.get k : ℤ) then previousIndex k else k
  if rbTable.get fitting < 3 then 2 else fitting

theorem guardedFit_val (free : ℤ) {k : Fin 33} (hk : 0 < k.val) :
    guardedFit free (k.val : ℤ) = some ((fitted free k).val : ℤ) := by
  have hfitting : (if free - 1 < (rbTable.get k : ℤ) then (k.val : ℤ) - 1 else (k.val : ℤ)) =
      ((if free - 1 < (rbTable.get k : ℤ) then previousIndex k else k).val : ℤ) := by
    split
    · simp only [previousIndex]
      omega
    · rfl
  simp only [guardedFit, fitted, rbTableAt_val, Option.bind_eq_bind, Option.bind_some, hfitting]
  generalize (if free - 1 < (rbTable.get k : ℤ) then previousIndex k else k) = fitting
  split <;> rfl

/-- No use of the index leaves the table. -/
theorem guardedAssignTraffic_eq (mcs : ℕ) :
    guardedAssignTraffic phy firstRb cc t mcs = some (assignTraffic phy firstRb cc mcs t) := by
  have htwo : rbTableAt 2 = some (rbTable.get 2) := rbTableAt_val 2
  have hlower := guardedLowerMcs_searched phy cc t mcs 2
  have hraise := guardedRaiseRbs_searched phy firstRb cc t
    (lowerMcs (mcsTooHigh phy cc t 2) mcs) 32 2 (by omega)
  have hle : 2 ≤ (raiseRbs (rbsTooFew phy firstRb cc t
      (lowerMcs (mcsTooHigh phy cc t 2) mcs)) 32 2).val :=
    (raiseRbs_spec _ 32 2).1
  have hfit := guardedFit_val ((phy.nRbUl cc : ℤ) - firstRb) (Nat.zero_lt_two.trans_le hle)
  have hread := rbTableAt_val (fitted ((phy.nRbUl cc : ℤ) - firstRb) (raiseRbs
    (rbsTooFew phy firstRb cc t (lowerMcs (mcsTooHigh phy cc t 2) mcs)) 32 2))
  have hstart : RbSearch.mk mcs 2 (phy.getTbsUl mcs 3)
      (phy.estimateUeTxPower cc (phy.getTbsUl mcs 3) (rbTable.get 2)) = searched phy cc mcs 2 := rfl
  have hindex (k : ℕ) : (searched phy cc k (raiseRbs (rbsTooFew phy firstRb cc t
      (lowerMcs (mcsTooHigh phy cc t 2) mcs)) 32 2)).rbTableIndex = ((raiseRbs
      (rbsTooFew phy firstRb cc t (lowerMcs (mcsTooHigh phy cc t 2) mcs)) 32 2).val : ℤ) := rfl
  simp only [guardedAssignTraffic, htwo, Option.bind_eq_bind, Option.bind_some, hstart, hlower,
    hraise, hindex, hfit, hread, Int.toNat_natCast, Fin.ofNat_val_eq_self]
  rfl

/-- `assignMaxMcsMinRb` with the branch for traffic guarded. -/
def guardedAssignTemplate (scheduled : Bool) (mcs : ℕ) : Option (UeTemplate × ℕ) :=
  if 0 < t.ulTotalBuffer then guardedAssignTraffic phy firstRb cc t mcs
  else some (assignIdle scheduled t, mcs)

end Guarded

section Runs

variable (phy : EnbPhy) (firstRb : ℕ → ℕ)

def guardedAssignCarrier (ue : ℕ) (st : UeList × ℕ) (cc : ℕ) : Option (UeList × ℕ) := do
  let r ← guardedAssignTemplate phy (firstRb cc) cc (st.1.ueTemplate cc ue)
    (st.1.ueIsToBeScheduled phy cc ue) st.2
  return (st.1.setTemplate cc ue (fun _ ↦ r.1), r.2)

def guardedAssignUe (l : UeList) (ue : ℕ) : Option UeList :=
  if l.active ue && l.reachable phy ue then
    ((l.orderedUlCcIds ue).foldlM (guardedAssignCarrier phy firstRb ue)
      (l, firstMcs (l.ueSchedCtrl ue))).map Prod.fst
  else some l

def guardedAssignMaxMcsMinRb (l : UeList) : Option UeList :=
  (List.range l.numberOfUeMax).foldlM (guardedAssignUe phy firstRb) l

theorem guardedAssignCarrier_eq (ue : ℕ) (st : UeList × ℕ) (cc : ℕ) :
    guardedAssignCarrier phy firstRb ue st cc = some (assignCarrier phy firstRb ue st cc) := by
  have htemplate : guardedAssignTemplate phy (firstRb cc) cc (st.1.ueTemplate cc ue)
      (st.1.ueIsToBeScheduled phy cc ue) st.2 = some (assignTemplate phy (firstRb cc) cc
        (st.1.ueIsToBeScheduled phy cc ue) st.2 (st.1.ueTemplate cc ue)) := by
    rw [guardedAssignTemplate, assignTemplate]
    split
    · exact guardedAssignTraffic_eq phy (firstRb cc) cc _ _
    · rfl
  rw [guardedAssignCarrier, htemplate]
  rfl

theorem guardedAssignUe_eq (l : UeList) (ue : ℕ) :
    guardedAssignUe phy firstRb l ue = some (assignUe phy firstRb l ue) := by
  have hcarriers := List.foldlM_pure (m := Option) (f := assignCarrier phy firstRb ue)
    (l := l.orderedUlCcIds ue) (b := (l, firstMcs (l.ueSchedCtrl ue)))
  rw [guardedAssignUe, assignUe]
  split
  · rw [funext₂ (guardedAssignCarrier_eq phy firstRb ue)]
    exact congrArg _ hcarriers
  · rfl

theorem guardedAssignMaxMcsMinRb_eq (l : UeList) :
    guardedAssignMaxMcsMinRb phy firstRb l = some (assignMaxMcsMinRb phy firstRb l) := by
  rw [guardedAssignMaxMcsMinRb, funext₂ (guardedAssignUe_eq phy firstRb)]
  exact List.foldlM_pure

end Runs

/-- What a UE with traffic has after its turn. -/
def PreAllocated (nRbUl firstRb : ℕ) (t : UeTemplate) : Prop :=
  ∃ k, t.preAllocatedRbTableIndexUl = some k ∧ t.preAllocatedNbRbUl = rbTable.get k ∧
    3 ≤ t.preAllocatedNbRbUl ∧ t.preAllocatedNbRbUl ≤ max 3 (nRbUl - firstRb - 1)

/-- A UE without traffic needs nothing. -/
def Supplied (phy : EnbPhy) (firstRb : ℕ → ℕ) (l : UeList) (ue cc : ℕ) : Prop :=
  0 < (l.ueTemplate cc ue).ulTotalBuffer → firstRb cc < phy.nRbUl cc →
    PreAllocated (phy.nRbUl cc) (firstRb cc) (l.ueTemplate cc ue)

/-- One step back from where the search went up is enough for the space that is free. -/
theorem fitted_bounds {free : ℤ} {k : Fin 33} (hk : 2 ≤ k.val)
    (hlast : k = 2 ∨ (rbTable.get (previousIndex k) : ℤ) < free) :
    3 ≤ rbTable.get (fitted free k) ∧ (rbTable.get (fitted free k) : ℤ) ≤ max 3 (free - 1) := by
  have hthree : rbTable.get 2 = 3 := rfl
  simp only [fitted]
  generalize hfit : (if free - 1 < (rbTable.get k : ℤ) then previousIndex k else k) = fitting
  split
  · rw [hthree]
    exact ⟨le_rfl, le_max_left _ _⟩
  · next hfloor =>
    refine ⟨not_lt.mp hfloor, ?_⟩
    split at hfit
    · subst hfit
      rcases hlast with rfl | hlast
      · exact absurd (by decide) hfloor
      · exact le_max_of_le_right (by omega)
    · next hfits =>
      subst hfit
      exact le_max_of_le_right (not_lt.mp hfits)

section Whole

variable {phy : EnbPhy} {firstRb : ℕ → ℕ}

theorem assignTraffic_preAllocated (cc mcs : ℕ) (t : UeTemplate) (h : firstRb cc < phy.nRbUl cc) :
    PreAllocated (phy.nRbUl cc) (firstRb cc)
      (assignTraffic phy (firstRb cc) cc mcs t).1 := by
  set again := rbsTooFew phy (firstRb cc) cc t (lowerMcs (mcsTooHigh phy cc t 2) mcs) with hagain
  obtain ⟨hle, hlast⟩ := raiseRbs_spec again 32 2
  have hlast' : raiseRbs again 32 2 = 2 ∨
      (rbTable.get (previousIndex (raiseRbs again 32 2)) : ℤ) <
        (phy.nRbUl cc : ℤ) - firstRb cc := by
    refine hlast.imp_right (fun hprev ↦ ?_)
    simp only [hagain, rbsTooFew, Bool.and_eq_true, decide_eq_true_eq] at hprev
    exact hprev.1.2
  obtain ⟨hthree, hmax⟩ := fitted_bounds hle hlast'
  refine ⟨fitted ((phy.nRbUl cc : ℤ) - firstRb cc) (raiseRbs again 32 2), rfl, rfl, hthree, ?_⟩
  show rbTable.get (fitted ((phy.nRbUl cc : ℤ) - firstRb cc) (raiseRbs again 32 2)) ≤ _
  omega

theorem assignTemplate_buffer (firstRb cc mcs : ℕ) (b : Bool) (t : UeTemplate) :
    (assignTemplate phy firstRb cc b mcs t).1.ulTotalBuffer = t.ulTotalBuffer := by
  rw [assignTemplate]
  split
  · rfl
  · cases b <;> rfl

theorem assignCarrier_supplied (ue : ℕ) (st : UeList × ℕ) (cc : ℕ) :
    Supplied phy firstRb (assignCarrier phy firstRb ue st cc).1 ue cc := by
  intro hbuffer hfirst
  rw [assignCarrier, UeList.setTemplate_same] at hbuffer ⊢
  rw [assignTemplate_buffer] at hbuffer
  rw [assignTemplate, if_pos hbuffer]
  exact assignTraffic_preAllocated cc _ _ hfirst

theorem assignCarrier_keeps_supplied {ue : ℕ} {st : UeList × ℕ} (cc : ℕ) {ue' cc' : ℕ}
    (h : Supplied phy firstRb st.1 ue' cc') :
    Supplied phy firstRb (assignCarrier phy firstRb ue st cc).1 ue' cc' := by
  by_cases hsame : cc' = cc ∧ ue' = ue
  · rw [hsame.1, hsame.2]
    exact assignCarrier_supplied ue st cc
  · rwa [Supplied, assignCarrier, UeList.setTemplate_other (not_and_or.mp hsame)]

theorem assignCarrier_buffer (ue : ℕ) (st : UeList × ℕ) (cc ue' cc' : ℕ) :
    ((assignCarrier phy firstRb ue st cc).1.ueTemplate cc' ue').ulTotalBuffer =
      (st.1.ueTemplate cc' ue').ulTotalBuffer := by
  simp only [assignCarrier]
  exact UeList.setTemplate_rel (R := fun t t' ↦ t'.ulTotalBuffer = t.ulTotalBuffer) (fun _ ↦ rfl)
    (assignTemplate_buffer _ _ _ _ _) cc' ue'

variable (phy firstRb) in
theorem assignMaxMcsMinRb_buffer (l : UeList) (cc ue : ℕ) :
    ((assignMaxMcsMinRb phy firstRb l).ueTemplate cc ue).ulTotalBuffer =
      (l.ueTemplate cc ue).ulTotalBuffer := by
  refine List.foldlRecOn (motive := fun (l' : UeList) ↦ (l'.ueTemplate cc ue).ulTotalBuffer =
    (l.ueTemplate cc ue).ulTotalBuffer) _ _ rfl (fun l' hl' ue' _ ↦ ?_)
  exact assignUe_keeps (P := fun l' ue cc ↦ (l'.ueTemplate cc ue).ulTotalBuffer =
    (l.ueTemplate cc ue).ulTotalBuffer)
    (fun ue'' st cc' ue cc h ↦ (assignCarrier_buffer ue'' st cc' ue cc).trans h) ue' hl'

/-- The search ends inside `rb_table`, for every UE, and gives a UE with traffic three
resource blocks or more, and no more than are free. -/
theorem assignMaxMcsMinRb_preAllocates (phy : EnbPhy) (firstRb : ℕ → ℕ) (l : UeList) :
    guardedAssignMaxMcsMinRb phy firstRb l = some (assignMaxMcsMinRb phy firstRb l) ∧
      ∀ ue < l.numberOfUeMax, l.reachable phy ue = true → ∀ cc ∈ l.orderedUlCcIds ue,
        0 < (l.ueTemplate cc ue).ulTotalBuffer → firstRb cc < phy.nRbUl cc →
          PreAllocated (phy.nRbUl cc) (firstRb cc)
            ((assignMaxMcsMinRb phy firstRb l).ueTemplate cc ue) := by
  refine ⟨guardedAssignMaxMcsMinRb_eq phy firstRb l, ?_⟩
  intro ue hue hreach cc hcc hbuffer hfirst
  have hsupplied := assignMaxMcsMinRb_establishes (P := Supplied phy firstRb)
    assignCarrier_supplied (fun _ _ cc _ _ h ↦ assignCarrier_keeps_supplied cc h) l hue hreach cc hcc
  rw [← assignMaxMcsMinRb_buffer phy firstRb] at hbuffer
  exact hsupplied hbuffer hfirst

/-- Two UEs with 100 octets to send. -/
def waitingUes : UeList :=
  { requestingUes with
    ueTemplate := fun _ _ ↦ { UeTemplate.zeroed with ulTotalBuffer := 100 } }

theorem assignMaxMcsMinRb_preAllocates_waiting :
    PreAllocated 25 1 ((assignMaxMcsMinRb phy5MHz (fun _ ↦ 1) waitingUes).ueTemplate 0 0) :=
  (assignMaxMcsMinRb_preAllocates phy5MHz (fun _ ↦ 1) waitingUes).2 0 (by decide)
    (by decide +kernel) 0 (by decide) (by decide) (by decide)

end Whole

end EdgeSlice.Mac
