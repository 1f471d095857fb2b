import EdgeSlice.Nas.EsmConsistency

/-! Runs of procedures that release no identity. -/

namespace EdgeSlice.Nas

open Function

variable {user user' : NasUser} {n : ℕ → ℕ} {pid bid ebi cid : ℕ} {ebr : EsmBearer} {pdn : EsmPdn}
  {isDefaultEbr : Bool} {tft : NetworkTft}

/-- What the creation of a bearer and its accept do to the tables. -/
structure Added (user user' : NasUser) (pid : ℕ) (pdn : EsmPdn) (ebr : EsmBearer) (isDefaultEbr : Bool)
    (cid : ℕ) : Prop where
  nEbrs : user'.esmData.nEbrs = user.esmData.nEbrs + 1
  pdn : user'.esmData.pdn = update user.esmData.pdn pid
    ⟨pid, true, some ⟨pdn.nBearers + 1, update pdn.bearer ebr.bid (some ebr)⟩⟩
  context : user'.context =
    update user.context (ebr.ebi - ESM_EBI_MIN) (.live ⟨ebr.ebi, .active, isDefaultEbr, cid⟩)

namespace Added

theorem pdnAt_same (h : Added user user' pid pdn ebr isDefaultEbr cid) (hpid : pid < ESM_DATA_PDN_MAX) :
    user'.pdnAt pid = some ⟨pdn.nBearers + 1, update pdn.bearer ebr.bid (some ebr)⟩ := by
  rw [pdnAt_of_lt hpid, h.pdn, update_self]

theorem pdnAt_other (h : Added user user' pid pdn ebr isDefaultEbr cid) {p : ℕ} (hp : p ≠ pid) :
    user'.pdnAt p = user.pdnAt p := by
  rw [NasUser.pdnAt, h.pdn, update_of_ne hp]
  rfl

theorem bearerAt (h : Added user user' pid pdn ebr isDefaultEbr cid) (hpdn : user.pdnAt pid = some pdn)
    (hroom : ebr.bid < ESM_DATA_EPS_BEARER_MAX) (p b : ℕ) :
    user'.bearerAt p b = if p = pid ∧ b = ebr.bid then some ebr else user.bearerAt p b := by
  by_cases hp : p = pid
  · subst hp
    have hsame := h.pdnAt_same (pdnAt_lt hpdn)
    by_cases hb : b = ebr.bid
    · rw [if_pos ⟨rfl, hb⟩, hb, bearerAt_of_pdnAt hsame hroom]
      exact update_self _ _ _
    · rw [if_neg (fun hand ↦ hb hand.2), NasUser.bearerAt, NasUser.bearerAt, hsame, hpdn]
      simp [update_of_ne hb]
  · rw [if_neg (fun hand ↦ hp hand.1), NasUser.bearerAt, NasUser.bearerAt, h.pdnAt_other hp]

end Added

/-- A new bearer behind the others of its PDN connection. -/
theorem Tables.add (h : Tables user n) (hadd : Added user user' pid pdn ebr isDefaultEbr cid)
    (hpdn : user.pdnAt pid = some pdn) (hbid : ebr.bid = n pid) (hroom : n pid < ESM_DATA_EPS_BEARER_MAX)
    (hebi : ESM_EBI_MIN ≤ ebr.ebi ∧ ebr.ebi ≤ ESM_EBI_MAX) (hfree : ¬user.Held ebr.ebi) :
    Tables user' (update n pid (n pid + 1)) := by
  have hat := hadd.bearerAt hpdn (hbid ▸ hroom)
  have hother : ∀ p b ebr', user.bearerAt p b = some ebr' → ebr'.ebi ≠ ebr.ebi :=
    fun p b ebr' hebr' heq ↦ hfree ⟨p, b, ebr', hebr', heq⟩
  have hcases : ∀ p b ebr', user'.bearerAt p b = some ebr' →
      (p = pid ∧ b = ebr.bid ∧ ebr' = ebr) ∨ user.bearerAt p b = some ebr' := by
    intro p b ebr' hebr'
    rw [hat] at hebr'
    split at hebr'
    case isTrue hnew => exact .inl ⟨hnew.1, hnew.2, (Option.some.inj hebr').symm⟩
    case isFalse => exact .inr hebr'
  constructor
  · intro p
    by_cases hp : p = pid
    · rw [hp, update_self]
      exact hroom
    · rw [update_of_ne hp]
      exact h.size p
  · intro p b
    rw [hat]
    by_cases hp : p = pid
    · rw [hp, update_self, hbid]
      by_cases hb : b = n pid
      · simp [hb]
      · rw [if_neg (fun hand ↦ hb hand.2), h.filled]
        omega
    · rw [update_of_ne hp, if_neg (fun hand ↦ hp hand.1), h.filled]
  · intro p pdn' hpdn'
    by_cases hp : p = pid
    · subst hp
      rw [hadd.pdnAt_same (pdnAt_lt hpdn)] at hpdn'
      obtain rfl := Option.some.inj hpdn'
      rw [hadd.pdn, update_self, update_self, (h.entry p pdn hpdn).2]
      exact ⟨rfl, (Nat.cast_succ _).symm⟩
    · rw [hadd.pdnAt_other hp] at hpdn'
      rw [hadd.pdn, update_of_ne hp, update_of_ne hp]
      exact h.entry p pdn' hpdn'
  · intro p hpos
    rw [hadd.pdn]
    by_cases hp : p = pid
    · rw [hp, update_self]
    · rw [update_of_ne hp] at hpos ⊢
      exact h.active p hpos
  · have hone : ∀ p, ((update n pid (n pid + 1) p : ℕ) : ℤ) = n p + if p = pid then 1 else 0 := by
      intro p
      by_cases hp : p = pid
      · simp [hp]
      · simp [hp]
    rw [hadd.nEbrs, h.total]
    simp [hone, Finset.sum_add_distrib, pdnAt_lt hpdn]
  · intro p b ebr' hebr'
    rw [hadd.context]
    obtain ⟨rfl, rfl, rfl⟩ | hold := hcases p b ebr' hebr'
    · exact ⟨rfl, hebi, isDefaultEbr, cid, update_self _ _ _⟩
    · obtain ⟨hplace, hrange, isDefaultEbr', cid', hlive⟩ := h.bearer p b ebr' hold
      have hne := hother p b ebr' hold
      refine ⟨hplace, hrange, isDefaultEbr', cid', ?_⟩
      rw [update_of_ne (by omega), hlive]
  · intro p b ebr1 p' b' ebr2 h1 h2 heq
    obtain ⟨rfl, rfl, rfl⟩ | hold1 := hcases p b ebr1 h1
    · obtain ⟨rfl, rfl, -⟩ | hold2 := hcases p' b' ebr2 h2
      · exact ⟨rfl, rfl⟩
      · exact absurd heq.symm (hother p' b' ebr2 hold2)
    · obtain ⟨-, -, rfl⟩ | hold2 := hcases p' b' ebr2 h2
      · exact absurd heq (hother p b ebr1 hold1)
      · exact h.once p b ebr1 p' b' ebr2 hold1 hold2 heq
  · intro ebi' hfree'
    have hne : ebi'.1 ≠ ebr.ebi := by
      intro heq
      refine hfree' ⟨pid, ebr.bid, ebr, ?_, heq.symm⟩
      rw [hat, if_pos ⟨rfl, rfl⟩]
    have hfree0 : ¬user.Held ebi'.1 := by
      intro hheld
      obtain ⟨p, b, ebr', hebr', heq⟩ := hheld
      refine hfree' ⟨p, b, ebr', ?_, heq⟩
      rw [hat, if_neg, hebr']
      rintro ⟨rfl, rfl⟩
      have := h.lt_of_bearer hebr'
      omega
    have := ebi'.2
    rw [hadd.context, update_of_ne (by omega)]
    exact h.free ebi' hfree0

section Activation

/-- A new context of the identity that the accept makes active. -/
theorem activationAccept_of_inactive (hebi : ESM_EBI_MIN ≤ ebi ∧ ebi ≤ ESM_EBI_MAX)
    (hlive : user.context (ebi - ESM_EBI_MIN) = .live ⟨ebi, .inactive, isDefaultEbr, cid⟩) :
    activationAccept user ebi true =
      some (.ok, user.setPointer ebi (.live ⟨ebi, .active, isDefaultEbr, cid⟩)) := by
  have hne : EsmEbrState.active ≠ .inactive := nofun
  simp [activationAccept, esmEbrSetStatus_of_live hebi hne hlive]

theorem assignIdentity_of_null (hebi : ESM_EBI_MIN ≤ ebi ∧ ebi ≤ ESM_EBI_MAX)
    (hnull : user.context (ebi - ESM_EBI_MIN) = .null) : assignIdentity user ebi cid isDefaultEbr =
      some (.error, ebi, user.setPointer ebi (.live ⟨ebi, .inactive, isDefaultEbr, cid⟩)) := by
  simp [assignIdentity, esmEbrAssign_of_null hebi hnull, identity_ne hebi]

theorem esmEbrContextCreate_of_newBid (h : Tables user n) (hpdn : user.pdnAt pid = some pdn)
    (hbid : newBid pdn isDefaultEbr = some bid) (tft : Option NetworkTft) :
    esmEbrContextCreate user.esmData pid ebi isDefaultEbr tft =
      (update pdn.bearer bid (some ⟨bid, ebi, copyTft tft⟩) 0).map fun first ↦ (first.ebi,
        if isDefaultEbr then (user.esmData.addBearer pid pdn ⟨bid, ebi, copyTft tft⟩).setActive pid true
        else user.esmData.addBearer pid pdn ⟨bid, ebi, copyTft tft⟩) := by
  have hroom : ¬user.esmData.nEbrs > ESM_DATA_EPS_BEARER_TOTAL := Int.not_lt.2 h.consistent.bounded
  simp [esmEbrContextCreate, pdnAt_lt hpdn, (h.entry pid pdn hpdn).1, data_of_pdnAt hpdn, hroom, hbid]

theorem setActive_addBearer (h : Tables user n) (hpdn : user.pdnAt pid = some pdn) :
    ((user.esmData.addBearer pid pdn ebr).setActive pid true).pdn = update user.esmData.pdn pid
      ⟨pid, true, some ⟨pdn.nBearers + 1, update pdn.bearer ebr.bid (some ebr)⟩⟩ := by
  simp [EsmData.setActive, EsmData.setPdn, EsmData.addBearer, (h.entry pid pdn hpdn).1]

theorem addBearer_of_active (h : Tables user n) (hpdn : user.pdnAt pid = some pdn) (hpos : 0 < n pid) :
    (user.esmData.addBearer pid pdn ebr).pdn = update user.esmData.pdn pid
      ⟨pid, true, some ⟨pdn.nBearers + 1, update pdn.bearer ebr.bid (some ebr)⟩⟩ := by
  simp [EsmData.addBearer, (h.entry pid pdn hpdn).1, h.active pid hpos]

end Activation

theorem defaultBearer_added (h : Tables user n) (ebi : EpsBearerIdentity) (hfree : ¬user.Held ebi.1)
    (hpdn : user.pdnAt pid = some pdn) (hnone : pdn.bearer 0 = none) :
    ∃ user', perform user (.defaultBearer pid ebi true) = some user' ∧
      Added user user' pid pdn ⟨0, ebi.1, ⟨[]⟩⟩ true (pid + 1) := by
  have hnull := h.free ebi hfree
  have hbid : newBid pdn true = some 0 := by simp [newBid, hnone]
  have hcreate : esmEbrContextCreate user.esmData pid ebi.1 true none = _ :=
    esmEbrContextCreate_of_newBid h hpdn hbid none
  rw [update_self, Option.map_some, if_pos rfl] at hcreate
  let esmData := (user.esmData.addBearer pid pdn ⟨0, ebi.1, copyTft none⟩).setActive pid true
  let user1 := (user.setPointer ebi.1 (.live ⟨ebi.1, .inactive, true, pid + 1⟩)).setData esmData
  have hrequest : esmProcDefaultEpsBearerContextRequest user pid ebi.1 = some (.ok, user1) := by
    have hdata : (user.setPointer ebi.1 (.live ⟨ebi.1, .inactive, true, pid + 1⟩)).esmData = user.esmData := rfl
    simp [esmProcDefaultEpsBearerContextRequest, assignIdentity_of_null ebi.2 hnull, identity_ne ebi.2, hdata,
      hcreate, user1, esmData]
  have haccept : activationAccept user1 ebi.1 true = _ :=
    activationAccept_of_inactive ebi.2 (setPointer_context _)
  refine ⟨_, by simp [perform, hrequest, esmProcDefaultEpsBearerContextAccept, haccept]; rfl, rfl,
    setActive_addBearer h hpdn, ?_⟩
  exact update_idem _ _ _

/-- The first entry that is free of the dedicated ones is the one behind all bearers. -/
theorem newBid_dedicated (h : Tables user n) (hpdn : user.pdnAt pid = some pdn) (hpos : 0 < n pid)
    (hroom : n pid < ESM_DATA_EPS_BEARER_MAX) : newBid pdn false = some (n pid) := by
  have hnone : ∀ i < ESM_DATA_EPS_BEARER_MAX, (pdn.bearer i).isNone = decide (n pid ≤ i) := by
    intro i hi
    have hfilled := h.filled pid i
    rw [bearerAt_of_pdnAt hpdn hi] at hfilled
    cases hbearer : pdn.bearer i with
    | none =>
      rw [hbearer] at hfilled
      simpa using hfilled
    | some ebr =>
      rw [hbearer] at hfilled
      simpa using hfilled
  have h1 := hnone 1 (by decide)
  have h2 := hnone 2 (by decide)
  have h3 := hnone 3 (by decide)
  change n pid < 4 at hroom
  obtain hn | hn | hn : n pid = 1 ∨ n pid = 2 ∨ n pid = 3 := by omega
  · simp [newBid, List.find?, h1, hn]
  · simp [newBid, List.find?, h1, h2, hn]
  · simp [newBid, List.find?, h1, h2, h3, hn]

/-- A PDN connection with this default bearer. -/
theorem esmEbrContextGetPid_some (h : Tables user n) {defaultEbi : ℕ}
    (hpid : esmEbrContextGetPid user.esmData defaultEbi = some pid) :
    ∃ pdn first, user.pdnAt pid = some pdn ∧ pdn.bearer 0 = some first ∧ first.ebi = defaultEbi ∧ 0 < n pid := by
  have hfound := List.find?_some hpid
  have hlt := List.mem_range.1 (List.mem_of_find?_eq_some hpid)
  cases hdata : (user.esmData.pdn pid).data with
  | none => simp [hdata] at hfound
  | some pdn =>
    have hpdn : user.pdnAt pid = some pdn := (pdnAt_of_lt hlt).trans hdata
    cases hfirst : pdn.bearer 0 with
    | none => simp [hdata, hfirst] at hfound
    | some first =>
      simp only [hdata, hfirst, decide_eq_true_eq] at hfound
      have hat : user.bearerAt pid 0 = some first := (bearerAt_of_pdnAt hpdn (by decide)).trans hfirst
      exact ⟨pdn, first, hpdn, hfirst, hfound, h.lt_of_bearer hat⟩

theorem dedicatedBearer_added (h : Tables user n) (ebi : EpsBearerIdentity) {defaultEbi : ℕ}
    (hfree : ¬user.Held ebi.1) (hpid : esmEbrContextGetPid user.esmData defaultEbi = some pid)
    (hpdn : user.pdnAt pid = some pdn) (hroom : n pid < ESM_DATA_EPS_BEARER_MAX)
    (htft : esmEbrContextCheckTft user.esmData pid ebi.1 (some tft) .create = some .ok) :
    ∃ user', perform user (.dedicatedBearer ebi defaultEbi tft true) = some user' ∧
      Added user user' pid pdn ⟨n pid, ebi.1, copyTft (some tft)⟩ false (pid + 1) := by
  obtain ⟨pdn', first, hpdn', hfirst, _, hpos⟩ := esmEbrContextGetPid_some h hpid
  obtain rfl := Option.some.inj (hpdn'.symm.trans hpdn)
  have hnull := h.free ebi hfree
  have hcreate : esmEbrContextCreate user.esmData pid ebi.1 false (some tft) = _ :=
    esmEbrContextCreate_of_newBid h hpdn (newBid_dedicated h hpdn hpos hroom) (some tft)
  rw [update_of_ne hpos.ne, hfirst, Option.map_some, if_neg Bool.false_ne_true] at hcreate
  let esmData := user.esmData.addBearer pid pdn' ⟨n pid, ebi.1, copyTft (some tft)⟩
  let user1 := (user.setPointer ebi.1 (.live ⟨ebi.1, .inactive, false, pid + 1⟩)).setData esmData
  have hrequest : esmProcDedicatedEpsBearerContextRequest user ebi.1 defaultEbi (some tft) =
      some (.ok, user1) := by
    have hdata : (user.setPointer ebi.1 (.live ⟨ebi.1, .inactive, false, pid + 1⟩)).esmData =
        user.esmData := rfl
    simp [esmProcDedicatedEpsBearerContextRequest, hpid, assignIdentity_of_null ebi.2 hnull, identity_ne ebi.2,
      hdata, htft, hcreate, user1, esmData]
  have haccept : activationAccept user1 ebi.1 true = _ :=
    activationAccept_of_inactive ebi.2 (setPointer_context _)
  refine ⟨_, by simp [perform, hrequest, esmProcDedicatedEpsBearerContextAccept, haccept]; rfl, rfl,
    addBearer_of_active h hpdn hpos, ?_⟩
  exact update_idem _ _ _

theorem esmEbrIsNotInUse_free (h : Tables user n) (ebi : EpsBearerIdentity) (hfree : ¬user.Held ebi.1) :
    esmEbrIsNotInUse user ebi.1 = some true := by
  simp [esmEbrIsNotInUse, identity_ne ebi.2, pointer_of_identity ebi.2, h.free ebi hfree]

theorem esmEbrIsNotInUse_held (h : Tables user n) (hebr : user.bearerAt pid bid = some ebr) :
    esmEbrIsNotInUse user ebr.ebi = some false := by
  obtain ⟨isDefaultEbr, cid, hlive⟩ := h.context_live hebr
  have hrange := h.identity hebr
  simp [esmEbrIsNotInUse, identity_ne hrange, pointer_of_identity hrange, hlive]

/-- A reject does not release an active context. -/
theorem activationReject_unchanged (h : Tables user n) (ebi : EpsBearerIdentity) :
    ∃ rc, activationReject user ebi.1 = some (rc, user) := by
  by_cases hheld : user.Held ebi.1
  · obtain ⟨pid, bid, ebr, hebr, heq⟩ := hheld
    obtain ⟨isDefaultEbr, cid, hlive⟩ := h.context_live hebr
    rw [← heq]
    refine ⟨.error, ?_⟩
    simp [activationReject, esmEbrIsNotInUse_held h hebr, esmEbrRelease_of_active (h.identity hebr) hlive]
  · exact ⟨.ok, by simp [activationReject, esmEbrIsNotInUse_free h ebi hheld]⟩

theorem dedicatedBearer_refused (h : Tables user n) (ebi : EpsBearerIdentity) {defaultEbi : ℕ}
    (hpid : esmEbrContextGetPid user.esmData defaultEbi = none) (sent : Bool) :
    perform user (.dedicatedBearer ebi defaultEbi tft sent) = some user := by
  obtain ⟨rc, hreject⟩ := activationReject_unchanged h ebi
  simp [perform, esmProcDedicatedEpsBearerContextRequest, hpid, esmProcDedicatedEpsBearerContextReject, hreject]

theorem networkDeactivation_free (h : Tables user n) (ebi : EpsBearerIdentity) (hfree : ¬user.Held ebi.1)
    (sent : Bool) : perform user (.networkDeactivation ebi sent) = some user := by
  have hset : esmEbrSetStatus user ebi.1 .inactive = some (.error, user) :=
    esmEbrSetStatus_of_null ebi.2 (h.free ebi hfree)
  cases sent with
  | false => simp [perform, esmEbrIsNotInUse_free h ebi hfree, esmProcEpsBearerContextDeactivateAccept]
  | true => simp [perform, esmEbrIsNotInUse_free h ebi hfree, esmProcEpsBearerContextDeactivateAccept, hset]

theorem identity_ne_all (ebi : EpsBearerIdentity) : ebi.1 ≠ ESM_SAP_ALL_EBI := by
  have := ebi.2.2
  change ebi.1 ≤ 15 at this
  change ebi.1 ≠ 255
  omega

theorem localDeactivation_free (h : Tables user n) (ebi : EpsBearerIdentity) (hfree : ¬user.Held ebi.1) :
    perform user (.localDeactivation ebi) = some user := by
  simp [perform, esmProcEpsBearerContextDeactivate, identity_ne_all ebi, epsBearerRelease,
    h.contextRelease_free (identity_ne ebi.2) hfree]

/-- A new PDN connection has no bearers. -/
theorem pdnConnectivity_tables (h : Tables user n) (pid : ℕ) :
    Tables (user.setData (pdnConnectivityCreate user.esmData pid).2) n := by
  unfold pdnConnectivityCreate
  by_cases hpid : pid ≥ ESM_DATA_PDN_MAX
  · rw [if_pos hpid]
    exact h
  by_cases hactive : (user.esmData.pdn pid).isActive = true
  · rw [if_neg hpid, if_pos hactive]
    exact h
  rw [if_neg hpid, if_neg hactive]
  cases hdata : (user.esmData.pdn pid).data with
  | some pdn => exact h
  | none =>
    let user' := user.setData (user.esmData.setPdn pid ⟨pid, false, some ⟨0, fun _ ↦ none⟩⟩)
    have hsame : user'.esmData.pdn pid = ⟨pid, false, some ⟨0, fun _ ↦ none⟩⟩ := update_self _ _ _
    have hother : ∀ p, p ≠ pid → user'.esmData.pdn p = user.esmData.pdn p := fun p hp ↦ update_of_ne hp _ _
    have hnone : user.pdnAt pid = none := (pdnAt_of_lt (Nat.not_le.1 hpid)).trans hdata
    have hpdn : ∀ p, p ≠ pid → user'.pdnAt p = user.pdnAt p := by
      intro p hp
      rw [NasUser.pdnAt, NasUser.pdnAt, hother p hp]
    have hat : user'.bearerAt = user.bearerAt := by
      funext p b
      by_cases hp : p = pid
      · subst hp
        have hnew : user'.pdnAt p = some ⟨0, fun _ ↦ none⟩ := by
          rw [pdnAt_of_lt (Nat.not_le.1 hpid), hsame]
        simp [NasUser.bearerAt, hnew, hnone]
      · simp [NasUser.bearerAt, hpdn p hp]
    have hzero : n pid = 0 := by
      by_contra hpos
      have hsome := (h.filled pid 0).2 (Nat.pos_of_ne_zero hpos)
      simp [NasUser.bearerAt, hnone] at hsome
    have hheld : ∀ ebi, user'.Held ebi ↔ user.Held ebi := fun ebi ↦ by rw [NasUser.Held, hat]; rfl
    constructor
    · exact h.size
    · rw [hat]
      exact h.filled
    · intro p pdn' hpdn'
      by_cases hp : p = pid
      · subst hp
        rw [pdnAt_of_lt (Nat.not_le.1 hpid), hsame] at hpdn'
        obtain rfl := Option.some.inj hpdn'
        rw [hsame, hzero]
        exact ⟨rfl, rfl⟩
      · rw [hpdn p hp] at hpdn'
        rw [hother p hp]
        exact h.entry p pdn' hpdn'
    · intro p hpos
      by_cases hp : p = pid
      · rw [hp, hzero] at hpos
        exact absurd hpos (Nat.lt_irrefl 0)
      · rw [hother p hp]
        exact h.active p hpos
    · exact h.total
    · rw [hat]
      exact h.bearer
    · rw [hat]
      exact h.once
    · exact fun ebi hfree ↦ h.free ebi (mt (hheld ebi.1).2 hfree)

/-- The UE at the start: no PDN connection and no identity in use. -/
structure Initialized (user : NasUser) : Prop where
  nEbrs : user.esmData.nEbrs = 0
  pdn : ∀ pid, (user.esmData.pdn pid).data = none
  context : ∀ i, user.context i = .null

theorem Initialized.tables (h : Initialized user) : Tables user fun _ ↦ 0 := by
  have hpdn : ∀ pid, user.pdnAt pid = none := by
    intro pid
    rw [NasUser.pdnAt, h.pdn, ite_self]
  have hat : ∀ pid bid, user.bearerAt pid bid = none := by
    intro pid bid
    simp [NasUser.bearerAt, hpdn]
  constructor
  · exact fun _ ↦ Nat.zero_le _
  · simp [hat]
  · simp [hpdn]
  · exact fun _ hpos ↦ absurd hpos (Nat.lt_irrefl 0)
  · simp [h.nEbrs]
  · simp [hat]
  · simp [hat]
  · exact fun ebi _ ↦ h.context _

/-- No identity is released: a default bearer is created for a free identity and a PDN connection without one; a
dedicated bearer is refused because its linked identity is no default bearer's, or it is created for a free
identity; and only free identities are deactivated. -/
def Regular (user : NasUser) : EsmProcedure → Prop
  | .pdnConnectivity _ => True
  | .defaultBearer pid ebi sent =>
    ¬user.Held ebi.1 ∧ (∃ pdn, user.pdnAt pid = some pdn ∧ pdn.bearer 0 = none) ∧ sent = true
  | .dedicatedBearer ebi defaultEbi tft sent =>
    esmEbrContextGetPid user.esmData defaultEbi = none ∨
      ¬user.Held ebi.1 ∧
        (∃ pid pdn, esmEbrContextGetPid user.esmData defaultEbi = some pid ∧ user.pdnAt pid = some pdn ∧
          pdn.nBearers < ESM_DATA_EPS_BEARER_MAX ∧
            esmEbrContextCheckTft user.esmData pid ebi.1 (some tft) .create = some .ok) ∧ sent = true
  | .networkDeactivation ebi _ => ¬user.Held ebi.1
  | .localDeactivation ebi => ¬user.Held ebi.1

/-- One procedure. -/
theorem Tables.perform (h : Tables user n) {procedure : EsmProcedure} (hregular : Regular user procedure) :
    ∃ user' n', perform user procedure = some user' ∧ Tables user' n' := by
  cases procedure with
  | pdnConnectivity pid => exact ⟨_, n, rfl, pdnConnectivity_tables h pid⟩
  | defaultBearer pid ebi sent =>
    obtain ⟨hfree, ⟨pdn, hpdn, hnone⟩, rfl⟩ := hregular
    obtain ⟨user', hperform, hadd⟩ := defaultBearer_added h ebi hfree hpdn hnone
    have hzero : n pid = 0 := by
      by_contra hpos
      have hsome := (h.filled pid 0).2 (Nat.pos_of_ne_zero hpos)
      rw [bearerAt_of_pdnAt hpdn (by decide), hnone] at hsome
      exact Bool.false_ne_true hsome
    exact ⟨user', _, hperform, h.add hadd hpdn hzero.symm (by rw [hzero]; decide) ebi.2 hfree⟩
  | dedicatedBearer ebi defaultEbi tft sent =>
    obtain hnone | ⟨hfree, ⟨pid, pdn, hpid, hpdn, hroom, htft⟩, rfl⟩ := hregular
    · exact ⟨user, n, dedicatedBearer_refused h ebi hnone sent, h⟩
    · have hroom' : n pid < ESM_DATA_EPS_BEARER_MAX := by
        rw [(h.entry pid pdn hpdn).2] at hroom
        exact Int.ofNat_lt.1 hroom
      obtain ⟨user', hperform, hadd⟩ := dedicatedBearer_added h ebi hfree hpid hpdn hroom' htft
      exact ⟨user', _, hperform, h.add hadd hpdn rfl hroom' ebi.2 hfree⟩
  | networkDeactivation ebi sent => exact ⟨user, n, networkDeactivation_free h ebi hregular sent, h⟩
  | localDeactivation ebi => exact ⟨user, n, localDeactivation_free h ebi hregular, h⟩

/-- The states of the UE after regular procedures. -/
inductive Reached : NasUser → Prop
  | initialized {user : NasUser} (h : Initialized user) : Reached user
  | procedure {user user' : NasUser} {procedure : EsmProcedure} (h : Reached user)
    (hregular : Regular user procedure) (hperform : perform user procedure = some user') : Reached user'

theorem Reached.tables (h : Reached user) : ∃ n, Tables user n := by
  induction h with
  | initialized h => exact ⟨_, h.tables⟩
  | procedure _ hregular hperform ih =>
    obtain ⟨n, h⟩ := ih
    obtain ⟨user', n', hperform', h'⟩ := h.perform hregular
    obtain rfl := Option.some.inj (hperform'.symm.trans hperform)
    exact ⟨n', h'⟩

/-- Every regular procedure is completed, and leaves the tables consistent. -/
theorem reached_consistent (h : Reached user) : Consistent user ∧ ∀ procedure, Regular user procedure →
    ∃ user', perform user procedure = some user' ∧ Consistent user' := by
  obtain ⟨n, htables⟩ := h.tables
  refine ⟨htables.consistent, fun procedure hregular ↦ ?_⟩
  obtain ⟨user', n', hperform, htables'⟩ := htables.perform hregular
  exact ⟨user', hperform, htables'.consistent⟩

def identity (ebi : ℕ) (h : ESM_EBI_MIN ≤ ebi ∧ ebi ≤ ESM_EBI_MAX) : EpsBearerIdentity := ⟨ebi, h⟩

def idleUser : NasUser := ⟨⟨0, fun _ ↦ ⟨ESM_DATA_PDN_MAX, false, none⟩⟩, fun _ ↦ .null⟩

/-- A PDN connection is defined and gets a default bearer. -/
def attach : List EsmProcedure := [.pdnConnectivity 0, .defaultBearer 0 (identity 5 (by decide)) true]

theorem idleUser_initialized : Initialized idleUser := ⟨rfl, fun _ ↦ rfl, fun _ ↦ rfl⟩

theorem attach_consistent : ∃ user user', perform idleUser (.pdnConnectivity 0) = some user ∧
    perform user (.defaultBearer 0 (identity 5 (by decide)) true) = some user' ∧ Consistent user' := by
  have hdefined : Reached (idleUser.setData (pdnConnectivityCreate idleUser.esmData 0).2) :=
    (Reached.initialized idleUser_initialized).procedure
      (show Regular idleUser (.pdnConnectivity 0) from trivial) rfl
  have hempty := pdnConnectivity_tables idleUser_initialized.tables 0
  have hfree : ¬NasUser.Held (idleUser.setData (pdnConnectivityCreate idleUser.esmData 0).2) 5 := by
    intro hheld
    obtain ⟨pid, bid, ebr, hebr, -⟩ := hheld
    exact absurd (hempty.lt_of_bearer hebr) (Nat.not_lt_zero bid)
  obtain ⟨user', hperform, hconsistent⟩ := (reached_consistent hdefined).2
    (.defaultBearer 0 (identity 5 (by decide)) true) ⟨hfree, ⟨_, rfl, rfl⟩, rfl⟩
  exact ⟨_, user', rfl, hperform, hconsistent⟩

def detach : List EsmProcedure := attach ++ [.networkDeactivation (identity 5 (by decide)) true]

def detachedUser : NasUser := (detach.foldlM perform idleUser).getD idleUser

/-- Two dedicated bearers, of which the first is deactivated. -/
def leaveHole : List EsmProcedure := attach ++
  [.dedicatedBearer (identity 6 (by decide)) 5 ⟨[⟨0, 10⟩]⟩ true,
    .dedicatedBearer (identity 7 (by decide)) 5 ⟨[⟨1, 20⟩]⟩ true, .localDeactivation (identity 6 (by decide))]

/-- The identity of a bearer that the network deactivates cannot be assigned again, and a bearer behind a hole
cannot be released. -/
theorem not_consistent_after_release :
    (Initialized idleUser ∧ detach.foldlM perform idleUser = some detachedUser ∧ ¬Consistent detachedUser) ∧
      ((leaveHole.foldlM perform idleUser).bind fun user ↦
        (esmProcEpsBearerContextDeactivate user true 7 0 0).map Prod.fst) = some .error := by
  refine ⟨⟨idleUser_initialized, rfl, fun hconsistent ↦ ?_⟩, by decide⟩
  have hnone : ∀ pid < ESM_DATA_PDN_MAX, ∀ bid < ESM_DATA_EPS_BEARER_MAX,
      detachedUser.bearerAt pid bid = none := by decide
  have hfree : ¬detachedUser.Held 5 := by
    intro hheld
    obtain ⟨pid, bid, ebr, hebr, -⟩ := hheld
    obtain ⟨hbid, pdn, hpdn, -⟩ := bearerAt_eq_some_iff.1 hebr
    rw [hnone pid (pdnAt_lt hpdn) bid hbid] at hebr
    exact nomatch hebr
  have hnull := (hconsistent.free (identity 5 (by decide)) hfree).1
  exact absurd hnull (by decide)

end EdgeSlice.Nas
