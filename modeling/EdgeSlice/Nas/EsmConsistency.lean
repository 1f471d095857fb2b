import EdgeSlice.Nas.EsmEbr
import Mathlib.Algebra.BigOperators.Ring.Finset
import Mathlib.Algebra.Order.BigOperators.Group.Finset
import Mathlib.Order.Interval.Finset.Nat

/-! The tables of EPS bearers over the procedures of a UE. -/

namespace EdgeSlice.Nas

open Function

namespace NasUser

def pdnAt (user : NasUser) (pid : ℕ) : Option EsmPdn :=
  if pid < ESM_DATA_PDN_MAX then (user.esmData.pdn pid).data else none

/-- The entry `bearer[bid]` of a PDN connection. -/
def bearerAt (user : NasUser) (pid bid : ℕ) : Option EsmBearer :=
  if bid < ESM_DATA_EPS_BEARER_MAX then (user.pdnAt pid).bind (·.bearer bid) else none

/-- An entry holds the identity. -/
def Held (user : NasUser) (ebi : ℕ) : Prop := ∃ pid bid ebr, user.bearerAt pid bid = some ebr ∧ ebr.ebi = ebi

def entries (user : NasUser) (pid : ℕ) : ℕ :=
  ((Finset.range ESM_DATA_EPS_BEARER_MAX).filter fun bid ↦ (user.bearerAt pid bid).isSome).card

end NasUser

/-- What is expected of the tables when no procedure is under way. -/
structure Consistent (user : NasUser) : Prop where
  counted : ∀ pid pdn, user.pdnAt pid = some pdn → pdn.nBearers = user.entries pid
  summed : user.esmData.nEbrs = ∑ pid ∈ Finset.range ESM_DATA_PDN_MAX, (user.entries pid : ℤ)
  bounded : user.esmData.nEbrs ≤ ESM_DATA_EPS_BEARER_TOTAL
  once : ∀ pid bid ebr pid' bid' ebr', user.bearerAt pid bid = some ebr → user.bearerAt pid' bid' = some ebr' →
    ebr.ebi = ebr'.ebi → pid = pid' ∧ bid = bid'
  live : ∀ pid bid ebr, user.bearerAt pid bid = some ebr →
    ∃ ebrCtx, user.pointer ebr.ebi = some (.live ebrCtx) ∧ ebrCtx.ebi = ebr.ebi
  free : ∀ ebi : EpsBearerIdentity, ¬user.Held ebi.1 → user.pointer ebi.1 = some .null ∧
    ∀ cid defaultEbr, ∃ user', esmEbrAssign user ebi.1 cid defaultEbr = some (ebi.1, user')
  released : ∀ ebi, user.Held ebi →
    (∃ user', esmProcEpsBearerContextDeactivate user true ebi 0 0 = some (.ok, user')) ∧
    ∃ user' user'', esmProcEpsBearerContextDeactivateRequest user ebi = some (.ok, user') ∧
      esmProcEpsBearerContextDeactivateAccept user' ebi true = some (.ok, user'')
  reads : ∀ ebi : EpsBearerIdentity, esmEbrContextRelease user ebi.1 0 0 ≠ none ∧ ∀ pid,
    esmProcEpsBearerContextDeactivate user false ebi.1 pid 0 ≠ none ∧
      esmEbrContextCheckTft user.esmData pid ebi.1 none .create ≠ none

/-- The tables after procedures that release no identity: the PDN connections have `n pid` bearers without a
hole, and their contexts are active. -/
structure Tables (user : NasUser) (n : ℕ → ℕ) : Prop where
  size : ∀ pid, n pid ≤ ESM_DATA_EPS_BEARER_MAX
  filled : ∀ pid bid, (user.bearerAt pid bid).isSome ↔ bid < n pid
  entry : ∀ pid pdn, user.pdnAt pid = some pdn → (user.esmData.pdn pid).pid = pid ∧ pdn.nBearers = n pid
  active : ∀ pid, 0 < n pid → (user.esmData.pdn pid).isActive = true
  total : user.esmData.nEbrs = ∑ pid ∈ Finset.range ESM_DATA_PDN_MAX, (n pid : ℤ)
  bearer : ∀ pid bid ebr, user.bearerAt pid bid = some ebr → ebr.bid = bid ∧
    (ESM_EBI_MIN ≤ ebr.ebi ∧ ebr.ebi ≤ ESM_EBI_MAX) ∧
      ∃ isDefaultEbr cid, user.context (ebr.ebi - ESM_EBI_MIN) = .live ⟨ebr.ebi, .active, isDefaultEbr, cid⟩
  once : ∀ pid bid ebr pid' bid' ebr', user.bearerAt pid bid = some ebr → user.bearerAt pid' bid' = some ebr' →
    ebr.ebi = ebr'.ebi → pid = pid' ∧ bid = bid'
  free : ∀ ebi : EpsBearerIdentity, ¬user.Held ebi.1 → user.context (ebi.1 - ESM_EBI_MIN) = .null

variable {user user' : NasUser} {n : ℕ → ℕ} {pid bid ebi cid : ℕ} {ebr : EsmBearer} {pdn : EsmPdn}
  {isDefaultEbr : Bool}

theorem pdnAt_of_lt (h : pid < ESM_DATA_PDN_MAX) : user.pdnAt pid = (user.esmData.pdn pid).data := if_pos h

theorem pdnAt_lt (h : user.pdnAt pid = some pdn) : pid < ESM_DATA_PDN_MAX := by
  by_contra hge
  rw [NasUser.pdnAt, if_neg hge] at h
  exact nomatch h

theorem data_of_pdnAt (h : user.pdnAt pid = some pdn) : (user.esmData.pdn pid).data = some pdn :=
  (pdnAt_of_lt (pdnAt_lt h)).symm.trans h

theorem bearerAt_eq_some_iff : user.bearerAt pid bid = some ebr ↔
    bid < ESM_DATA_EPS_BEARER_MAX ∧ ∃ pdn, user.pdnAt pid = some pdn ∧ pdn.bearer bid = some ebr := by
  unfold NasUser.bearerAt
  split
  case isTrue h => simp [h, Option.bind_eq_some_iff]
  case isFalse h => simp [h]

theorem bearerAt_of_pdnAt (h : user.pdnAt pid = some pdn) (hbid : bid < ESM_DATA_EPS_BEARER_MAX) :
    user.bearerAt pid bid = pdn.bearer bid := by
  rw [NasUser.bearerAt, if_pos hbid, h]
  rfl

section Identities

variable (hebi : ESM_EBI_MIN ≤ ebi ∧ ebi ≤ ESM_EBI_MAX)

include hebi

theorem identity_ne : ebi ≠ ESM_EBI_UNASSIGNED := by
  change 5 ≤ ebi ∧ _ at hebi
  change ebi ≠ 0
  omega

theorem pointer_of_identity : user.pointer ebi = some (user.context (ebi - ESM_EBI_MIN)) := by
  refine if_pos ⟨hebi.1, ?_⟩
  have := hebi.2
  change ebi ≤ 15 at this
  change ebi - 5 < 12
  omega

theorem identity_inside : ¬(ebi < ESM_EBI_MIN ∨ ebi > ESM_EBI_MAX) := by
  rw [not_or, Nat.not_lt, Nat.not_lt]
  exact hebi

theorem esmEbrAssign_of_null (h : user.context (ebi - ESM_EBI_MIN) = .null) :
    esmEbrAssign user ebi cid isDefaultEbr =
      some (ebi, user.setPointer ebi (.live ⟨ebi, .inactive, isDefaultEbr, cid⟩)) := by
  simp [esmEbrAssign, pointer_of_identity hebi, identity_inside hebi, h]

theorem esmEbrSetStatus_of_live {status status' : EsmEbrState} (hne : status' ≠ status)
    (h : user.context (ebi - ESM_EBI_MIN) = .live ⟨ebi, status, isDefaultEbr, cid⟩) :
    esmEbrSetStatus user ebi status' =
      some (.ok, user.setPointer ebi (.live ⟨ebi, status', isDefaultEbr, cid⟩)) := by
  simp [esmEbrSetStatus, identity_inside hebi, h, hne]

theorem esmEbrSetStatus_of_null {status : EsmEbrState} (h : user.context (ebi - ESM_EBI_MIN) = .null) :
    esmEbrSetStatus user ebi status = some (.error, user) := by
  simp [esmEbrSetStatus, identity_inside hebi, h]

theorem esmEbrRelease_of_inactive
    (h : user.context (ebi - ESM_EBI_MIN) = .live ⟨ebi, .inactive, isDefaultEbr, cid⟩) :
    esmEbrRelease user ebi = some (.ok, user.setPointer ebi .freed) := by
  simp [esmEbrRelease, identity_inside hebi, h]

theorem esmEbrRelease_of_active
    (h : user.context (ebi - ESM_EBI_MIN) = .live ⟨ebi, .active, isDefaultEbr, cid⟩) :
    esmEbrRelease user ebi = some (.error, user) := by
  simp [esmEbrRelease, identity_inside hebi, h]

end Identities

theorem setPointer_setPointer (p q : EbrPointer) :
    (user.setPointer ebi p).setPointer ebi q = user.setPointer ebi q := by
  rw [NasUser.setPointer, NasUser.setPointer, NasUser.setPointer, update_idem]

theorem setPointer_context (p : EbrPointer) : (user.setPointer ebi p).context (ebi - ESM_EBI_MIN) = p :=
  update_self _ _ _

theorem setPointer_context_of_ne {i : ℕ} (p : EbrPointer) (h : i ≠ ebi - ESM_EBI_MIN) :
    (user.setPointer ebi p).context i = user.context i := update_of_ne h _ _

/-- The identity's context becomes inactive and is then released. -/
theorem deactivate_context (hebi : ESM_EBI_MIN ≤ ebi ∧ ebi ≤ ESM_EBI_MAX)
    (h : user.context (ebi - ESM_EBI_MIN) = .live ⟨ebi, .active, isDefaultEbr, cid⟩) :
    ∃ user', esmEbrSetStatus user ebi .inactive = some (.ok, user') ∧ user'.esmData = user.esmData ∧
      esmEbrRelease user' ebi = some (.ok, user.setPointer ebi .freed) := by
  refine ⟨_, esmEbrSetStatus_of_live hebi (by simp) h, rfl, ?_⟩
  rw [esmEbrRelease_of_inactive hebi (setPointer_context _), setPointer_setPointer]

/-- The entries from `i` on, `m` of them, have active contexts, one for each and none at position `k`. -/
structure Releasable (user : NasUser) (pdn : EsmPdn) (i m k : ℕ) : Prop where
  count : pdn.nBearers = m
  bearer : ∀ j < m, ∃ ebr, pdn.bearer (i + j) = some ebr ∧ (ESM_EBI_MIN ≤ ebr.ebi ∧ ebr.ebi ≤ ESM_EBI_MAX) ∧
    ebr.ebi - ESM_EBI_MIN ≠ k ∧
      ∃ isDefaultEbr cid, user.context (ebr.ebi - ESM_EBI_MIN) = .live ⟨ebr.ebi, .active, isDefaultEbr, cid⟩
  once : ∀ j < m, ∀ j' < m, ∀ ebr ebr', pdn.bearer (i + j) = some ebr → pdn.bearer (i + j') = some ebr' →
    ebr.ebi = ebr'.ebi → j = j'

theorem Releasable.tail {i m k : ℕ} (h : Releasable user pdn i (m + 1) k) (hebr : pdn.bearer i = some ebr)
    (hcontext : user'.context = update user.context (ebr.ebi - ESM_EBI_MIN) .freed) :
    Releasable user' ⟨pdn.nBearers - 1, update pdn.bearer i none⟩ (i + 1) m k := by
  have hbehind : ∀ j, update pdn.bearer i none (i + 1 + j) = pdn.bearer (i + (j + 1)) := by
    intro j
    rw [update_of_ne (by omega)]
    congr 1
    omega
  constructor
  · have := h.count
    dsimp only
    omega
  · intro j hj
    obtain ⟨ebr', hebr', hrange, hk, isDefaultEbr, cid, hlive⟩ := h.bearer (j + 1) (by omega)
    obtain ⟨ebr0, hebr0, hrange0, _⟩ := h.bearer 0 (Nat.succ_pos m)
    obtain rfl : ebr0 = ebr := Option.some.inj (hebr0.symm.trans hebr)
    refine ⟨ebr', (hbehind j).trans hebr', hrange, hk, isDefaultEbr, cid, ?_⟩
    rw [hcontext, update_of_ne, hlive]
    intro heq
    have hsame : ebr'.ebi = ebr0.ebi := by omega
    exact absurd (h.once (j + 1) (by omega) 0 (Nat.succ_pos m) _ _ hebr' hebr0 hsame) (Nat.succ_ne_zero j)
  · intro j hj j' hj' ebr1 ebr2 h1 h2 heq
    have := h.once (j + 1) (by omega) (j' + 1) (by omega) ebr1 ebr2 ((hbehind j).symm.trans h1)
      ((hbehind j').symm.trans h2) heq
    omega

theorem data_removeBearer (pid : ℕ) (pdn : EsmPdn) (bid : ℕ) :
    ((user.setData (user.esmData.removeBearer pid pdn bid)).esmData.pdn pid).data =
      some ⟨pdn.nBearers - 1, update pdn.bearer bid none⟩ := by
  simp [NasUser.setData, EsmData.removeBearer]

theorem releaseDedicated_ok (left : ℕ) {i m k : ℕ} (h : Releasable user pdn i m k)
    (hdata : (user.esmData.pdn pid).data = some pdn) (hleft : m ≤ left) :
    ∃ user', releaseDedicated pid left i user = some user' ∧ user'.context k = user.context k := by
  induction left generalizing user pdn i m with
  | zero =>
    obtain rfl := Nat.le_zero.1 hleft
    refine ⟨user, ?_, rfl⟩
    simp [releaseDedicated, hdata, h.count]
  | succ left ih =>
    cases m with
    | zero =>
      refine ⟨user, ?_, rfl⟩
      simp [releaseDedicated, hdata, h.count]
    | succ m =>
      obtain ⟨ebr, hebr, hrange, hk, isDefaultEbr, cid, hlive⟩ := h.bearer 0 (Nat.succ_pos m)
      obtain ⟨user1, hset, hdata1, hrelease⟩ := deactivate_context hrange hlive
      have htail : Releasable ((user.setPointer ebr.ebi .freed).setData
          ((user.setPointer ebr.ebi .freed).esmData.removeBearer pid pdn i)) _ (i + 1) m k := h.tail hebr rfl
      obtain ⟨user', hrest, hkeep⟩ := ih htail (data_removeBearer pid pdn i) (Nat.le_of_succ_le_succ hleft)
      refine ⟨user', ?_, ?_⟩
      · have hmore : pdn.nBearers > 0 := by
          have := h.count
          omega
        rw [releaseDedicated, hdata]
        simp only [Nat.add_zero] at hebr
        simp [hmore, hebr, hset, hrelease, hrest]
      · rw [hkeep]
        exact setPointer_context_of_ne _ hk.symm

namespace Tables

theorem bearer_some (h : Tables user n) (hpdn : user.pdnAt pid = some pdn) (hbid : bid < n pid) :
    ∃ ebr, pdn.bearer bid = some ebr ∧ user.bearerAt pid bid = some ebr := by
  have hlt := hbid.trans_le (h.size pid)
  obtain ⟨ebr, hebr⟩ := Option.isSome_iff_exists.1 ((h.filled pid bid).2 hbid)
  exact ⟨ebr, (bearerAt_of_pdnAt hpdn hlt).symm.trans hebr, hebr⟩

theorem lt_of_bearer (h : Tables user n) (hebr : user.bearerAt pid bid = some ebr) : bid < n pid :=
  (h.filled pid bid).1 (by rw [hebr]; rfl)

theorem toNat_nBearers (h : Tables user n) (hpdn : user.pdnAt pid = some pdn) : pdn.nBearers.toNat = n pid := by
  rw [(h.entry pid pdn hpdn).2, Int.toNat_natCast]

theorem entry_some (h : Tables user n) (hpdn : user.pdnAt pid = some pdn) (hbid : bid < n pid) :
    ∃ ebr, pdn.entry bid = some (some ebr) ∧ user.bearerAt pid bid = some ebr := by
  obtain ⟨ebr, hebr, hat⟩ := h.bearer_some hpdn hbid
  refine ⟨ebr, ?_, hat⟩
  rw [EsmPdn.entry, if_pos (hbid.trans_le (h.size pid)), hebr]

theorem searchBearer_next (h : Tables user n) (hpdn : user.pdnAt pid = some pdn)
    (hother : ∀ bid ebr, user.bearerAt pid bid = some ebr → ebr.ebi ≠ ebi) :
    searchBearer pdn ebi = .next := by
  rw [searchBearer, h.toNat_nBearers hpdn, Turn.run_eq_next_iff]
  intro bid hbid
  obtain ⟨ebr, hentry, hat⟩ := h.entry_some hpdn (List.mem_range.1 hbid)
  simp [hentry, hother bid ebr hat]

theorem searchBearer_exit (h : Tables user n) (hpdn : user.pdnAt pid = some pdn)
    (hebr : user.bearerAt pid bid = some ebr) : searchBearer pdn ebr.ebi = .exit bid := by
  have hbid := h.lt_of_bearer hebr
  rw [searchBearer, h.toNat_nBearers hpdn, Turn.run_range_eq_iff (by simp)]
  refine ⟨bid, hbid, fun j hj ↦ ?_, ?_⟩
  · obtain ⟨ebr', hentry, hat⟩ := h.entry_some hpdn (hj.trans hbid)
    have hne : ebr'.ebi ≠ ebr.ebi := fun heq ↦ hj.ne (h.once _ _ _ _ _ _ hat hebr heq).2
    simp [hentry, hne]
  · obtain ⟨ebr', hentry, hat⟩ := h.entry_some hpdn hbid
    obtain rfl := Option.some.inj (hat.symm.trans hebr)
    simp [hentry]

theorem searchPdn_turn (h : Tables user n)
    (hother : ∀ bid ebr, user.bearerAt pid bid = some ebr → ebr.ebi ≠ ebi) (hpid : pid < ESM_DATA_PDN_MAX) :
    (if (user.esmData.pdn pid).isActive then
      match (user.esmData.pdn pid).data with
      | none => Turn.next
      | some pdn =>
        match searchBearer pdn ebi with
        | .next => .next
        | .exit bid => .exit (pid, bid)
        | .fault => .fault
    else .next) = .next := by
  cases hdata : (user.esmData.pdn pid).data with
  | none => simp
  | some pdn =>
    have hpdn : user.pdnAt pid = some pdn := (pdnAt_of_lt hpid).trans hdata
    simp [h.searchBearer_next hpdn hother]

theorem searchPdn_next (h : Tables user n) (hfree : ¬user.Held ebi) : searchPdn user.esmData ebi = .next := by
  rw [searchPdn, Turn.run_eq_next_iff]
  intro pid hpid
  exact h.searchPdn_turn (fun bid ebr hat heq ↦ hfree ⟨pid, bid, ebr, hat, heq⟩) (List.mem_range.1 hpid)

theorem searchPdn_exit (h : Tables user n) (hebr : user.bearerAt pid bid = some ebr) :
    searchPdn user.esmData ebr.ebi = .exit (pid, bid) := by
  obtain ⟨_, pdn, hpdn, _⟩ := bearerAt_eq_some_iff.1 hebr
  have hpid := pdnAt_lt hpdn
  rw [searchPdn, Turn.run_range_eq_iff (by simp)]
  refine ⟨pid, hpid, fun j hj ↦ h.searchPdn_turn (fun bid' ebr' hat heq ↦ ?_) (hj.trans hpid), ?_⟩
  · exact hj.ne (h.once _ _ _ _ _ _ hat hebr heq).1
  · have hactive := h.active pid (Nat.zero_lt_of_lt (h.lt_of_bearer hebr))
    simp [hactive, data_of_pdnAt hpdn, h.searchBearer_exit hpdn hebr]

theorem identity (h : Tables user n) (hebr : user.bearerAt pid bid = some ebr) :
    ESM_EBI_MIN ≤ ebr.ebi ∧ ebr.ebi ≤ ESM_EBI_MAX := (h.bearer pid bid ebr hebr).2.1

theorem context_live (h : Tables user n) (hebr : user.bearerAt pid bid = some ebr) : ∃ isDefaultEbr cid,
    user.context (ebr.ebi - ESM_EBI_MIN) = .live ⟨ebr.ebi, .active, isDefaultEbr, cid⟩ :=
  (h.bearer pid bid ebr hebr).2.2

/-- Behind a default bearer that has been removed, the dedicated bearers can be released. -/
theorem releasable (h : Tables user n) (hpdn : user.pdnAt pid = some pdn)
    (hebr : user.bearerAt pid 0 = some ebr) :
    Releasable (user.setData (user.esmData.removeBearer pid pdn 0)) ⟨pdn.nBearers - 1, update pdn.bearer 0 none⟩
      1 (n pid - 1) (ebr.ebi - ESM_EBI_MIN) := by
  have hpos := h.lt_of_bearer hebr
  have hentry : ∀ j < n pid - 1, ∃ ebr', update pdn.bearer 0 none (1 + j) = some ebr' ∧
      user.bearerAt pid (1 + j) = some ebr' := by
    intro j hj
    obtain ⟨ebr', hbearer, hat⟩ := h.bearer_some hpdn (by omega : 1 + j < n pid)
    exact ⟨ebr', (update_of_ne (by omega) _ _).trans hbearer, hat⟩
  constructor
  · have := (h.entry pid pdn hpdn).2
    dsimp only
    omega
  · intro j hj
    obtain ⟨ebr', hbearer, hat⟩ := hentry j hj
    have hrange := h.identity hat
    have hrange0 := h.identity hebr
    refine ⟨ebr', hbearer, hrange, fun heq ↦ ?_, h.context_live hat⟩
    have hsame : ebr'.ebi = ebr.ebi := by omega
    have := (h.once _ _ _ _ _ _ hat hebr hsame).2
    omega
  · intro j hj j' hj' ebr1 ebr2 h1 h2 heq
    obtain ⟨ebr1', hbearer1, hat1⟩ := hentry j hj
    obtain ⟨ebr2', hbearer2, hat2⟩ := hentry j' hj'
    obtain rfl := Option.some.inj (hbearer1.symm.trans h1)
    obtain rfl := Option.some.inj (hbearer2.symm.trans h2)
    have := (h.once _ _ _ _ _ _ hat1 hat2 heq).2
    omega

/-- The bearer of an identity that is held is found and removed, a default bearer with the others of its PDN
connection; the context stays as it is. -/
theorem contextRelease (h : Tables user n) (hebr : user.bearerAt pid bid = some ebr) (p b : ℕ) :
    ∃ user', esmEbrContextRelease user ebr.ebi p b = some (ebr.ebi, user') ∧
      user'.context (ebr.ebi - ESM_EBI_MIN) = user.context (ebr.ebi - ESM_EBI_MIN) := by
  obtain ⟨hbid, pdn, hpdn, hbearer⟩ := bearerAt_eq_some_iff.1 hebr
  have hdelete : ∃ user', deleteBearer user pid bid ebr.ebi pdn ebr = some (ebr.ebi, user') ∧
      user'.context (ebr.ebi - ESM_EBI_MIN) = user.context (ebr.ebi - ESM_EBI_MIN) := by
    have hplace : ebr.bid = bid := (h.bearer pid bid ebr hebr).1
    cases bid with
    | zero =>
      have hleft : n pid - 1 ≤ ESM_DATA_EPS_BEARER_MAX - 1 := Nat.sub_le_sub_right (h.size pid) 1
      obtain ⟨user', hrelease, hkeep⟩ := releaseDedicated_ok (ESM_DATA_EPS_BEARER_MAX - 1)
        (h.releasable hpdn hebr) (data_removeBearer pid pdn 0) hleft
      refine ⟨user'.setData (user'.esmData.setActive pid false), ?_, hkeep⟩
      simp [deleteBearer, hplace, hrelease]
    | succ bid =>
      refine ⟨user.setData (user.esmData.removeBearer pid pdn (bid + 1)), ?_, rfl⟩
      simp [deleteBearer, hplace]
  obtain ⟨user', hdelete, hkeep⟩ := hdelete
  refine ⟨user', ?_, hkeep⟩
  simp [esmEbrContextRelease, identity_ne (h.identity hebr), h.searchPdn_exit hebr, data_of_pdnAt hpdn, hbearer,
    hdelete]

theorem contextRelease_free (h : Tables user n) (hebi : ebi ≠ ESM_EBI_UNASSIGNED) (hfree : ¬user.Held ebi)
    (p b : ℕ) : esmEbrContextRelease user ebi p b = some (ESM_EBI_UNASSIGNED, user) := by
  simp [esmEbrContextRelease, hebi, h.searchPdn_next hfree]

theorem localDeactivation (h : Tables user n) (hebr : user.bearerAt pid bid = some ebr) :
    ∃ user', esmProcEpsBearerContextDeactivate user true ebr.ebi 0 0 = some (.ok, user') := by
  have hrange := h.identity hebr
  obtain ⟨isDefaultEbr, cid, hlive⟩ := h.context_live hebr
  obtain ⟨user1, hrelease, hkeep⟩ := h.contextRelease hebr 0 0
  obtain ⟨user2, hset, _, hfree⟩ := deactivate_context hrange (hkeep.trans hlive)
  have hall : ebr.ebi ≠ ESM_SAP_ALL_EBI := by
    have := hrange.2
    change ebr.ebi ≤ 15 at this
    change ebr.ebi ≠ 255
    omega
  refine ⟨user1.setPointer ebr.ebi .freed, ?_⟩
  simp only [esmProcEpsBearerContextDeactivate, epsBearerRelease, hall, ne_eq, not_false_eq_true, if_true,
    hrelease, Option.bind_eq_bind, Option.bind_some, identity_ne hrange, if_false, hset, not_true_eq_false, hfree]

theorem networkDeactivation (h : Tables user n) (hebr : user.bearerAt pid bid = some ebr) :
    ∃ user' user'', esmProcEpsBearerContextDeactivateRequest user ebr.ebi = some (.ok, user') ∧
      esmProcEpsBearerContextDeactivateAccept user' ebr.ebi true = some (.ok, user'') := by
  have hrange := h.identity hebr
  obtain ⟨isDefaultEbr, cid, hlive⟩ := h.context_live hebr
  obtain ⟨user1, hrelease, hkeep⟩ := h.contextRelease hebr 0 0
  obtain ⟨user2, hset, _, hfree⟩ := deactivate_context hrange (hkeep.trans hlive)
  refine ⟨user1, user1.setPointer ebr.ebi .freed, ?_, ?_⟩
  · simp [esmProcEpsBearerContextDeactivateRequest, hrelease, identity_ne hrange]
  · simp [esmProcEpsBearerContextDeactivateAccept, hset, hfree]

theorem entries_eq (h : Tables user n) (pid : ℕ) : user.entries pid = n pid := by
  have hrange : (Finset.range ESM_DATA_EPS_BEARER_MAX).filter (fun bid ↦ (user.bearerAt pid bid).isSome) =
      Finset.range (n pid) := by
    ext bid
    rw [Finset.mem_filter, Finset.mem_range, Finset.mem_range, h.filled]
    exact and_iff_right_of_imp fun hlt ↦ hlt.trans_le (h.size pid)
  rw [NasUser.entries, hrange, Finset.card_range]

/-- There are no more bearers than identities. -/
theorem sum_le (h : Tables user n) :
    ∑ pid ∈ Finset.range ESM_DATA_PDN_MAX, n pid ≤ ESM_EBI_MAX + 1 - ESM_EBI_MIN := by
  let ebiAt (place : (_ : ℕ) × ℕ) : ℕ := ((user.bearerAt place.1 place.2).map (·.ebi)).getD 0
  have hat : ∀ place ∈ (Finset.range ESM_DATA_PDN_MAX).sigma fun pid ↦ Finset.range (n pid),
      ∃ ebr, user.bearerAt place.1 place.2 = some ebr ∧ ebiAt place = ebr.ebi := by
    intro place hplace
    have hbid := Finset.mem_range.1 (Finset.mem_sigma.1 hplace).2
    obtain ⟨ebr, hebr⟩ := Option.isSome_iff_exists.1 ((h.filled place.1 place.2).2 hbid)
    exact ⟨ebr, hebr, by simp [ebiAt, hebr]⟩
  have hmaps : ∀ place ∈ (Finset.range ESM_DATA_PDN_MAX).sigma fun pid ↦ Finset.range (n pid),
      ebiAt place ∈ Finset.Icc ESM_EBI_MIN ESM_EBI_MAX := by
    intro place hplace
    obtain ⟨ebr, hebr, hval⟩ := hat place hplace
    rw [hval]
    exact Finset.mem_Icc.2 (h.identity hebr)
  have hinj : ∀ place ∈ (Finset.range ESM_DATA_PDN_MAX).sigma fun pid ↦ Finset.range (n pid),
      ∀ place' ∈ (Finset.range ESM_DATA_PDN_MAX).sigma fun pid ↦ Finset.range (n pid),
        ebiAt place = ebiAt place' → place = place' := by
    intro place hplace place' hplace' heq
    obtain ⟨ebr, hebr, hval⟩ := hat place hplace
    obtain ⟨ebr', hebr', hval'⟩ := hat place' hplace'
    obtain ⟨hpid, hbid⟩ := h.once _ _ _ _ _ _ hebr hebr' (hval.symm.trans (heq.trans hval'))
    exact Sigma.ext hpid (heq_of_eq hbid)
  have hcard := Finset.card_le_card_of_injOn ebiAt hmaps hinj
  rw [Finset.card_sigma] at hcard
  simpa using hcard

theorem checkActive_ne_none (h : Tables user n) (hpdn : user.pdnAt pid = some pdn) (ebi : ℕ) (is : List ℕ)
    (his : ∀ i ∈ is, i < n pid) (rc : Rc) : checkActive pdn ebi rc is ≠ none := by
  induction is generalizing rc with
  | nil => simp [checkActive]
  | cons i is ih =>
    obtain ⟨hi, his⟩ := List.forall_mem_cons.1 his
    obtain ⟨ebr, hentry, _⟩ := h.entry_some hpdn hi
    simp only [checkActive, hentry]
    exact ih his _

theorem checkDeactivation (h : Tables user n) (pid ebi : ℕ) :
    esmProcEpsBearerContextDeactivate user false ebi pid 0 ≠ none := by
  unfold esmProcEpsBearerContextDeactivate
  rw [if_neg Bool.false_ne_true]
  split
  case isTrue hpid =>
    cases hdata : (user.esmData.pdn pid).data with
    | none => simp
    | some pdn =>
      have hpdn : user.pdnAt pid = some pdn := (pdnAt_of_lt hpid.1).trans hdata
      have hcheck := h.checkActive_ne_none hpdn ebi (List.range pdn.nBearers.toNat) (fun i hi ↦ by
        rw [h.toNat_nBearers hpdn] at hi
        exact List.mem_range.1 hi) .error
      simpa using hcheck
  case isFalse => simp

theorem checkBearers_ne_none (pdn : EsmPdn) (ebi : ℕ) (is : List ℕ)
    (his : ∀ i ∈ is, i < ESM_DATA_EPS_BEARER_MAX) (rc : Rc) : checkBearers none ebi pdn rc is ≠ none := by
  induction is generalizing rc with
  | nil => simp [checkBearers]
  | cons i is ih =>
    obtain ⟨hi, his⟩ := List.forall_mem_cons.1 his
    rw [checkBearers, EsmPdn.entry, if_pos hi, Option.bind_some]
    cases pdn.bearer i with
    | none => exact ih his rc
    | some ebr =>
      have hok : checkBearer none ebi ebr = some .ok := by
        simp [checkBearer, esmEbrContextCheckIdentifiers, esmEbrContextCheckPrecedence, checkField]
      dsimp only
      rw [hok]
      exact ih his .ok

theorem checkTft (h : Tables user n) (pid ebi : ℕ) :
    esmEbrContextCheckTft user.esmData pid ebi none .create ≠ none := by
  unfold esmEbrContextCheckTft
  split
  case isTrue hpid =>
    split
    · simp
    · cases hdata : (user.esmData.pdn pid).data with
      | none => simp
      | some pdn =>
        have hpdn : user.pdnAt pid = some pdn := (pdnAt_of_lt hpid).trans hdata
        refine checkBearers_ne_none pdn ebi _ (fun i hi ↦ ?_) .error
        rw [h.toNat_nBearers hpdn] at hi
        exact (List.mem_range.1 hi).trans_le (h.size pid)
  case isFalse => simp

theorem consistent (h : Tables user n) : Consistent user where
  counted pid pdn hpdn := by rw [h.entries_eq, (h.entry pid pdn hpdn).2]
  summed := by simp only [h.entries_eq, h.total]
  bounded := by
    have hle := h.sum_le
    rw [h.total, ← Nat.cast_sum]
    exact Int.ofNat_le.2 hle
  once := h.once
  live pid bid ebr hebr := by
    obtain ⟨isDefaultEbr, cid, hlive⟩ := h.context_live hebr
    exact ⟨_, (pointer_of_identity (h.identity hebr)).trans (congrArg some hlive), rfl⟩
  free ebi hfree := by
    have hnull := h.free ebi hfree
    exact ⟨(pointer_of_identity ebi.2).trans (congrArg some hnull),
      fun cid defaultEbr ↦ ⟨_, esmEbrAssign_of_null ebi.2 hnull⟩⟩
  released ebi hheld := by
    obtain ⟨pid, bid, ebr, hebr, rfl⟩ := hheld
    exact ⟨h.localDeactivation hebr, h.networkDeactivation hebr⟩
  reads ebi := by
    refine ⟨?_, fun pid ↦ ⟨h.checkDeactivation pid ebi.1, h.checkTft pid ebi.1⟩⟩
    by_cases hheld : user.Held ebi.1
    · obtain ⟨pid, bid, ebr, hebr, heq⟩ := hheld
      obtain ⟨user', hrelease, _⟩ := h.contextRelease hebr 0 0
      rw [← heq, hrelease]
      exact Option.some_ne_none _
    · rw [h.contextRelease_free (identity_ne ebi.2) hheld]
      exact Option.some_ne_none _

end Tables

end EdgeSlice.Nas
