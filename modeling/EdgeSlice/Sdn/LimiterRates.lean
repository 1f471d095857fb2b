import EdgeSlice.Fold
import EdgeSlice.Sdn.BandwidthLimiter
import Mathlib.Data.List.Nodup
import Mathlib.Data.List.ProdSigma

namespace EdgeSlice.Sdn.BandwidthLimiter

open Function

/-- The meters of a switch that are written are those for which `write` has a value. -/
theorem modifyMeter_meters (d : Switches) (s meter : ℕ) (kbps : ℤ) (k : ℕ × ℕ) :
    ((modifyMeter d s meter kbps) k.1).meters.get k.2 =
      (if k = (s, meter) then some (some (⟨kbps, 100, kbps, 1000⟩ : Meter)) else none).getD
        ((d k.1).meters.get k.2) := by
  obtain ⟨s', id⟩ := k
  rw [modifyMeter]
  by_cases hs : s' = s
  · subst hs
    rw [update_self]
    by_cases hid : id = meter
    · rw [hid, if_pos rfl, IdTable.put_get_self, Option.getD_some]
    · rw [if_neg (fun h ↦ hid (Prod.mk.inj h).2), IdTable.put_get_of_ne _ _ hid,
        IdTable.erase_get_of_ne _ hid, Option.getD_none]
  · rw [update_of_ne hs, if_neg (fun h ↦ hs (Prod.mk.inj h).1), Option.getD_none]

theorem addProtocols_meters (protocols : List Protocol) (d : Switches) (s inPort outPort : ℕ)
    (a : Address) (meter : ℕ) (direction : Direction) (priority start s' : ℕ) :
    ((addProtocols d s inPort outPort a meter direction priority start protocols).2 s').meters =
      (d s').meters := by
  induction protocols generalizing d start with
  | nil => rfl
  | cons protocol protocols ih =>
    rw [addProtocols]
    refine (ih _ _).trans ?_
    by_cases hs : s' = s
    · rw [hs, update_self]
    · rw [update_of_ne hs]

theorem addFlowWithMeter_meters (d : Switches) (s inPort outPort : ℕ) (a : Address) (meter : ℕ)
    (direction : Direction) (bNum s' : ℕ) :
    ((addFlowWithMeter d s inPort outPort a meter direction bNum).2 s').meters =
      (d s').meters :=
  addProtocols_meters _ _ _ _ _ _ _ _ _ _ _

theorem createPaths_meters (mL : ℕ → ℕ → ℕ) (bNum : ℕ) (x : FlowList × Switches) (u : ℕ)
    (a : Address) (s : ℕ) : ((createPaths mL bNum x u a).2 s).meters = (x.2 s).meters := by
  simp only [createPaths, addFlowWithMeter_meters]

theorem createTopology_meters (us : Users) (fL : FlowList) (mL : ℕ → ℕ → ℕ) (d : Switches)
    (s : ℕ) : ((createTopology us fL mL d).2 s).meters = (d s).meters := by
  have hfold : ∀ (b offset : ℕ) (ps : List (Address × ℕ)) (x : FlowList × Switches),
      ((ps.foldl (fun x p ↦ createPaths mL b x (p.2 + offset) p.1) x).2 s).meters =
        (x.2 s).meters := by
    intro b offset ps
    induction ps with
    | nil => exact fun x ↦ rfl
    | cons p ps ih =>
      intro x
      rw [List.foldl_cons, ih, createPaths_meters]
  rw [createTopology]
  exact (hfold 0 us.b1U.length _ _).trans (hfold 1 0 _ _)

namespace Users

variable {us : Users} {β : Type*} {rate : β → ℤ} {st st' : State}

/-- The addresses that the first search finds. -/
def Found (us : Users) (a : Address) : Prop :=
  us.b1U ≠ [] ∧ (us.b1U[0]? = some a ∨ a ∈ us.b2U ∨ us.b1U[us.b2U.length]? = some a)

instance (us : Users) (a : Address) : Decidable (us.Found a) := inferInstanceAs (Decidable (_ ∧ _))

theorem findIdx_none {a : Address} (h : a ∉ us.b2U) : us.b2U.findIdx? (· = a) = none := by
  rw [List.findIdx?_eq_none_iff]
  intro x hx
  rw [decide_eq_false_iff_not]
  rintro rfl
  exact h hx

theorem findIdx_some {a : Address} (h : a ∈ us.b2U) : ∃ j, us.b2U.findIdx? (· = a) = some j := by
  cases hj : us.b2U.findIdx? (· = a) with
  | some j => exact ⟨j, rfl⟩
  | none =>
    have := List.findIdx?_eq_none_iff.mp hj a h
    simp at this

theorem search_again {a : Address} (hb2 : a ∉ us.b2U) (hb1 : us.b1U[us.b2U.length]? ≠ some a)
    (hlt : us.b2U.length < us.b1U.length) (fuel : ℕ) :
    us.search a fuel us.b2U.length = .running := by
  induction fuel with
  | zero => rfl
  | succ fuel ih =>
    rw [search, if_pos hlt, if_neg hb1, findIdx_none hb2]
    exact ih

/-- The search either finds the address within two turns, or ends without it after one or
two turns, or never ends. -/
theorem search_spec (a : Address) :
    us.Found a ∧ (∀ fuel, ∃ check, us.search a (fuel + 2) 0 = .done (some check)) ∨
    ¬us.Found a ∧ us.b1U.length ≤ us.b2U.length ∧ (∀ fuel, us.search a (fuel + 2) 0 = .done none) ∨
    ¬us.Found a ∧ us.b2U.length < us.b1U.length ∧ ∀ fuel, us.search a fuel 0 = .running := by
  rcases Nat.eq_zero_or_pos us.b1U.length with hzero | hpos
  · have hnot : ¬us.Found a := fun h ↦ h.1 (List.length_eq_zero_iff.mp hzero)
    refine .inr (.inl ⟨hnot, hzero.trans_le (Nat.zero_le _), fun fuel ↦ ?_⟩)
    rw [search, if_neg (by omega)]
  have hne : us.b1U ≠ [] := List.length_pos_iff.mp hpos
  by_cases hfirst : us.b1U[0]? = some a
  · refine .inl ⟨⟨hne, .inl hfirst⟩, fun fuel ↦ ⟨0, ?_⟩⟩
    rw [search, if_pos hpos, if_pos hfirst]
  by_cases hb2 : a ∈ us.b2U
  · obtain ⟨j, hj⟩ := findIdx_some hb2
    refine .inl ⟨⟨hne, .inr (.inl hb2)⟩, fun fuel ↦ ⟨us.b1U.length + j, ?_⟩⟩
    rw [search, if_pos hpos, if_neg hfirst, hj]
  have hturn : ∀ fuel, us.search a (fuel + 1) 0 = us.search a fuel us.b2U.length := by
    intro fuel
    rw [search, if_pos hpos, if_neg hfirst, findIdx_none hb2]
  by_cases hlast : us.b1U[us.b2U.length]? = some a
  · refine .inl ⟨⟨hne, .inr (.inr hlast)⟩, fun fuel ↦ ⟨us.b2U.length, ?_⟩⟩
    rw [hturn, search, if_pos (List.getElem?_eq_some_iff.mp hlast).1, if_pos hlast]
  have hnot : ¬us.Found a := by
    rintro ⟨-, h | h | h⟩
    · exact hfirst h
    · exact hb2 h
    · exact hlast h
  by_cases hlt : us.b2U.length < us.b1U.length
  · refine .inr (.inr ⟨hnot, hlt, fun fuel ↦ ?_⟩)
    cases fuel with
    | zero => rfl
    | succ fuel => rw [hturn, search_again hb2 hlast hlt]
  · refine .inr (.inl ⟨hnot, by omega, fun fuel ↦ ?_⟩)
    rw [hturn, search, if_neg hlt]

/-- The first search ends for these addresses. -/
def Ends (us : Users) (a : Address) : Prop := us.Found a ∨ us.b1U.length ≤ us.b2U.length

theorem search_more {a : Address} {fuel i : ℕ} {check : Option ℕ}
    (h : us.search a fuel i = .done check) : us.search a (fuel + 1) i = .done check := by
  induction fuel generalizing i with
  | zero => cases h
  | succ fuel ih =>
    rw [search] at h ⊢
    split at h
    · rename_i hlt
      rw [if_pos hlt]
      split at h
      · rename_i hi
        rwa [if_pos hi]
      · rename_i hi
        rw [if_neg hi]
        split at h
        · exact h
        · exact ih h
    · rename_i hlt
      rwa [if_neg hlt]

theorem search_done {a : Address} {fuel : ℕ} {check : Option ℕ}
    (h : us.search a fuel 0 = .done check) : us.Ends a ∧ (check.isSome ↔ us.Found a) := by
  have hmore := search_more (search_more h)
  obtain ⟨hfound, hspec⟩ | ⟨hnot, hle, hspec⟩ | ⟨-, -, hspec⟩ := us.search_spec a
  · obtain ⟨c, hc⟩ := hspec fuel
    cases hc.symm.trans hmore
    exact ⟨.inl hfound, iff_of_true rfl hfound⟩
  · cases (hspec fuel).symm.trans hmore
    exact ⟨.inr hle, iff_of_false Bool.false_ne_true hnot⟩
  · cases (hspec fuel).symm.trans h

theorem search_ends {a : Address} (h : us.Ends a) (fuel : ℕ) :
    ∃ check, us.search a (fuel + 2) 0 = .done check := by
  obtain ⟨-, hspec⟩ | ⟨-, -, hspec⟩ | ⟨hnot, hlt, -⟩ := us.search_spec a
  · obtain ⟨c, hc⟩ := hspec fuel
    exact ⟨some c, hc⟩
  · exact ⟨none, hspec fuel⟩
  · rcases h with h | h
    · exact absurd h hnot
    · omega

theorem found_of_b2U {a : Address} (hne : us.b1U ≠ []) (h : a ∈ us.b2U) : us.Found a :=
  ⟨hne, .inr (.inl h)⟩

/-- The first search ends for all users when base station 1 has no more users than base
station 2, and with one or two users on base station 1 and one fewer on base station 2. -/
theorem ends_iff : (∀ a ∈ us.all, us.Ends a) ↔ (us.b2U.length < us.b1U.length →
    us.b1U.length = us.b2U.length + 1 ∧ us.b1U.length ≤ 2) := by
  constructor
  · intro h hlt
    have hpos : ∀ j < us.b1U.length, j = 0 ∨ j = us.b2U.length := by
      intro j hj
      have hmem : us.b1U[j] ∈ us.b1U := List.getElem_mem hj
      rcases h us.b1U[j] (List.mem_append_left _ hmem) with ⟨-, hfound⟩ | hle
      · have hinj := (List.nodup_append.mp us.nodup).1
        rcases hfound with hfound | hfound | hfound
        · obtain ⟨h0, heq⟩ := List.getElem?_eq_some_iff.mp hfound
          exact .inl ((List.Nodup.getElem_inj_iff hinj).mp heq).symm
        · exact absurd rfl ((List.nodup_append.mp us.nodup).2.2 _ hmem _ hfound)
        · obtain ⟨h0, heq⟩ := List.getElem?_eq_some_iff.mp hfound
          exact .inr ((List.Nodup.getElem_inj_iff hinj).mp heq).symm
      · omega
    have hlast := hpos (us.b1U.length - 1) (by omega)
    by_cases htwo : us.b1U.length ≤ 2
    · omega
    · have hone := hpos 1 (by omega)
      omega
  · intro h a ha
    by_cases hlt : us.b2U.length < us.b1U.length
    · obtain ⟨hlen, htwo⟩ := h hlt
      have hne : us.b1U ≠ [] := by
        rintro hnil
        rw [hnil, List.length_nil] at hlen
        omega
      rcases List.mem_append.mp ha with ha | ha
      · obtain ⟨j, hj, rfl⟩ := List.getElem_of_mem ha
        refine .inl ⟨hne, ?_⟩
        by_cases hzero : j = 0
        · subst hzero
          exact .inl (List.getElem?_eq_getElem hj)
        · have hjlen : j = us.b2U.length := by omega
          subst hjlen
          exact .inr (.inr (List.getElem?_eq_getElem hj))
      · exact .inl (found_of_b2U hne ha)
    · exact .inr (by omega)

theorem lookup_eq_findIdx (a : Address) : us.lookup a = us.all.findIdx? (· = a) := by
  rw [lookup, all, List.findIdx?_append]
  cases us.b1U.findIdx? (· = a) with
  | some i => rfl
  | none =>
    simp only [Option.none_or]
    congr 1
    funext j
    exact Nat.add_comm _ _

theorem lookup_eq_some {a : Address} {i : ℕ} : us.lookup a = some i ↔ us.all[i]? = some a := by
  rw [lookup_eq_findIdx, List.findIdx?_eq_some_iff_getElem]
  constructor
  · rintro ⟨hi, heq, -⟩
    rw [List.getElem?_eq_getElem hi, decide_eq_true_eq.mp heq]
  · intro h
    obtain ⟨hi, heq⟩ := List.getElem?_eq_some_iff.mp h
    refine ⟨hi, decide_eq_true heq, ?_⟩
    intro j hj
    rw [Bool.not_eq_true, decide_eq_false_iff_not, ← heq]
    intro hij
    have := (List.Nodup.getElem_inj_iff us.nodup).mp hij
    omega

/-- A meter on a switch. -/
def meterAt (st : State) (k : ℕ × ℕ) : Option Meter := (st.datastore k.1).meters.get k.2

def newMeter (kbps : ℤ) : Meter := ⟨kbps, 100, kbps, 1000⟩

/-- The state after a meter got its new rate. -/
def changed (rate : β → ℤ) (top s meter rows : ℕ) (bandwidth : β) (st : State) : State :=
  { st with
    datastore := modifyMeter st.datastore s meter (rate bandwidth)
    fL := update st.fL top
      fun u s ↦ (st.fL top u s).map fun row ↦ row.filter (·.meter ≠ rows) }

theorem change_eq_done {top s meter rows : ℕ} {bandwidth : β} :
    us.change rate st top s meter rows bandwidth = .done st' ↔
      us.flowRows ≠ 0 ∧ st' = changed rate top s meter rows bandwidth st := by
  rw [change, modifyFL]
  by_cases h : us.flowRows = 0
  · rw [if_pos h]
    exact ⟨nofun, fun hne ↦ absurd h hne.1⟩
  · rw [if_neg h]
    constructor
    · intro hdone
      cases hdone
      exact ⟨h, rfl⟩
    · rintro ⟨-, rfl⟩
      rfl

theorem changed_meterAt (rate : β → ℤ) (top s meter rows : ℕ) (bandwidth : β) (st : State)
    (k : ℕ × ℕ) : meterAt (changed rate top s meter rows bandwidth st) k =
      (if k = (s, meter) then some (some (newMeter (rate bandwidth))) else none).getD
        (meterAt st k) :=
  modifyMeter_meters _ _ _ _ _

/-- The first loop for one entry and switch. -/
def newTurn (us : Users) (rate : β → ℤ) (mL : ℕ → ℕ → ℕ → ℕ) (top : ℕ) (param : List (Address × β))
    (st : State) (x : ℕ × ℕ) : State :=
  match param[x.1]? with
  | some (a, bandwidth) =>
    if us.Found a then changed rate top x.2 (mL top x.1 x.2) (mL top x.1 x.2) bandwidth st else st
  | none => st

def newWrite (us : Users) (rate : β → ℤ) (mL : ℕ → ℕ → ℕ → ℕ) (top : ℕ) (param : List (Address × β))
    (x k : ℕ × ℕ) : Option (Option Meter) :=
  match param[x.1]? with
  | some (a, bandwidth) =>
    if us.Found a ∧ k = (x.2, mL top x.1 x.2) then some (some (newMeter (rate bandwidth))) else none
  | none => none

theorem newTurn_meterAt (mL : ℕ → ℕ → ℕ → ℕ) (top : ℕ) (param : List (Address × β)) (st : State)
    (x k : ℕ × ℕ) : meterAt (us.newTurn rate mL top param st x) k =
      (us.newWrite rate mL top param x k).getD (meterAt st k) := by
  rw [newTurn, newWrite]
  cases param[x.1]? with
  | none => rfl
  | some entry =>
    obtain ⟨a, bandwidth⟩ := entry
    by_cases h : us.Found a
    · simp only [h, if_true, true_and]
      exact changed_meterAt rate top x.2 (mL top x.1 x.2) (mL top x.1 x.2) bandwidth st k
    · simp only [h, if_false, false_and, Option.getD_none]

theorem newTurn_mL (mL : ℕ → ℕ → ℕ → ℕ) (top : ℕ) (param : List (Address × β)) (st : State)
    (x : ℕ × ℕ) : (us.newTurn rate mL top param st x).mL = st.mL := by
  rw [newTurn]
  cases param[x.1]? with
  | none => rfl
  | some entry =>
    simp only
    split <;> rfl

theorem changeNew_eq_done {mL : ℕ → ℕ → ℕ → ℕ} {fuel top : ℕ} {param : List (Address × β)}
    {x : ℕ × ℕ} (hmL : st.mL = mL) {a : Address} {bandwidth : β}
    (hx : param[x.1]? = some (a, bandwidth)) :
    us.changeNew rate fuel top param st x = .done st' ↔
      ((∃ check, us.search a fuel 0 = .done check) ∧ (us.Found a → us.flowRows ≠ 0)) ∧
        st' = us.newTurn rate mL top param st x := by
  subst hmL
  rw [changeNew, newTurn, hx]
  simp only
  rw [Outcome.bind_eq_done]
  constructor
  · rintro ⟨check, hcheck, hturn⟩
    obtain ⟨-, hsome⟩ := search_done hcheck
    cases check with
    | none =>
      have hnot : ¬us.Found a := fun h ↦ Bool.false_ne_true (hsome.mpr h)
      cases hturn
      exact ⟨⟨⟨_, hcheck⟩, fun h ↦ absurd h hnot⟩, (if_neg hnot).symm⟩
    | some i =>
      have hfound : us.Found a := hsome.mp rfl
      obtain ⟨hrows, rfl⟩ := change_eq_done.mp hturn
      exact ⟨⟨⟨_, hcheck⟩, fun _ ↦ hrows⟩, (if_pos hfound).symm⟩
  · rintro ⟨⟨⟨check, hcheck⟩, hrows⟩, rfl⟩
    obtain ⟨-, hsome⟩ := search_done hcheck
    refine ⟨check, hcheck, ?_⟩
    cases check with
    | none =>
      have hnot : ¬us.Found a := fun h ↦ Bool.false_ne_true (hsome.mpr h)
      rw [if_neg hnot]
    | some i =>
      have hfound : us.Found a := hsome.mp rfl
      rw [if_pos hfound]
      exact change_eq_done.mpr ⟨hrows hfound, rfl⟩

/-- The last loop for one entry. -/
def oldTurn (us : Users) (rate : β → ℤ) (mL : ℕ → ℕ → ℕ → ℕ) (top : ℕ) (bandwidth : β) (st : State)
    (x : Address × β) : State :=
  match us.lookup x.1 with
  | some check =>
    (List.range switches).foldl
      (fun st s ↦ changed rate top s (mL top check s) (mL top (us.nou - 1) s) bandwidth st) st
  | none => st

def oldWrite (us : Users) (rate : β → ℤ) (mL : ℕ → ℕ → ℕ → ℕ) (top : ℕ) (bandwidth : β)
    (x : Address × β) (k : ℕ × ℕ) : Option (Option Meter) :=
  match us.lookup x.1 with
  | some check =>
    if k.1 < switches ∧ k.2 = mL top check k.1 then some (some (newMeter (rate bandwidth))) else none
  | none => none

theorem oldTurn_meterAt (mL : ℕ → ℕ → ℕ → ℕ) (top : ℕ) (bandwidth : β) (st : State)
    (x : Address × β) (k : ℕ × ℕ) : meterAt (us.oldTurn rate mL top bandwidth st x) k =
      (us.oldWrite rate mL top bandwidth x k).getD (meterAt st k) := by
  rw [oldTurn, oldWrite]
  cases us.lookup x.1 with
  | none => rfl
  | some check =>
    have hstep := fun (st : State) (s : ℕ) (k : ℕ × ℕ) ↦
      changed_meterAt rate top s (mL top check s) (mL top (us.nou - 1) s) bandwidth st k
    simp only
    split
    · rename_i hk
      refine Fold.get_of_written hstep ⟨k.1, List.mem_range.mpr hk.1, if_pos ?_⟩ ?_ st
      · exact Prod.ext rfl hk.2
      · intro s _ v hv
        split at hv
        · exact (Option.some.inj hv).symm
        · cases hv
    · rename_i hk
      apply Fold.get_of_unwritten hstep
      intro s hs
      apply if_neg
      rintro rfl
      exact hk ⟨List.mem_range.mp hs, rfl⟩

theorem oldTurn_mL (mL : ℕ → ℕ → ℕ → ℕ) (top : ℕ) (bandwidth : β) (st : State)
    (x : Address × β) : (us.oldTurn rate mL top bandwidth st x).mL = st.mL := by
  rw [oldTurn]
  cases us.lookup x.1 with
  | none => rfl
  | some check =>
    exact List.foldlRecOn (motive := fun r : State ↦ r.mL = st.mL) _ _ rfl (fun _ hr _ _ ↦ hr)

theorem changeEntry_eq_done {mL : ℕ → ℕ → ℕ → ℕ} {top : ℕ} {bandwidth : β} {x : Address × β}
    (hmL : st.mL = mL) {check : ℕ} (hcheck : us.lookup x.1 = some check)
    (hpos : ∀ s < switches, mL top check s ≠ 0) :
    us.changeEntry rate top bandwidth st x = .done st' ↔
      us.flowRows ≠ 0 ∧ st' = us.oldTurn rate mL top bandwidth st x := by
  rw [changeEntry, oldTurn, hcheck]
  have hloop : Outcome.loop (us.changeOld rate top bandwidth check) st (List.range switches) =
      .done st' ↔ (∀ s ∈ List.range switches, us.flowRows ≠ 0) ∧
        st' = (List.range switches).foldl
          (fun st s ↦ changed rate top s (mL top check s) (mL top (us.nou - 1) s) bandwidth st) st := by
    refine Outcome.loop_eq_done (I := fun r : State ↦ r.mL = mL) (R := fun _ ↦ us.flowRows ≠ 0)
      ?_ ?_ hmL
    · rintro r rfl s hs r'
      rw [changeOld, if_pos (hpos s (List.mem_range.mp hs))]
      exact change_eq_done
    · exact fun r hr s ↦ hr
  simp only
  rw [hloop]
  refine and_congr_left fun _ ↦ ?_
  exact ⟨fun h ↦ h 0 (List.mem_range.mpr (Nat.succ_pos 4)), fun h _ _ ↦ h⟩

/-- What the set-up leaves and no iteration changes. -/
structure Known (us : Users) (st : State) : Prop where
  nou_pos : 0 < us.nou
  mL : ∀ top < 2, ∀ u < us.nou, ∀ s < switches, st.mL top u s = top * us.nou + u + 1
  topNum : st.topNum < 2

/-- The topology that an iteration sets up first, and the other one. -/
def newTop (st : State) : ℕ := if st.topNum = 0 then 1 else 0

def oldTop (st : State) : ℕ := if st.topNum = 0 then 0 else 1

theorem newTop_lt (st : State) : newTop st < 2 := by
  unfold newTop
  split <;> omega

theorem oldTop_lt (st : State) : oldTop st < 2 := by
  unfold oldTop
  split <;> omega

theorem newTop_ne_oldTop (st : State) : newTop st ≠ oldTop st := by
  unfold newTop oldTop
  split <;> omega

theorem top_cases (st : State) {top : ℕ} (h : top < 2) : top = newTop st ∨ top = oldTop st := by
  unfold newTop oldTop
  split <;> omega

theorem Known.mL_ne_zero (hst : us.Known st) {top u s : ℕ} (htop : top < 2) (hu : u < us.nou)
    (hs : s < switches) : st.mL top u s ≠ 0 := by
  rw [hst.mL top htop u hu s hs]
  omega

theorem Known.mL_inj (hst : us.Known st) {top top' u u' s : ℕ} (htop : top < 2) (htop' : top' < 2)
    (hu : u < us.nou) (hu' : u' < us.nou) (hs : s < switches)
    (heq : st.mL top u s = st.mL top' u' s) : top = top' ∧ u = u' := by
  rw [hst.mL top htop u hu s hs, hst.mL top' htop' u' hu' s hs] at heq
  obtain rfl | rfl : top = 0 ∨ top = 1 := by omega
  · obtain rfl | rfl : top' = 0 ∨ top' = 1 := by omega
    · omega
    · omega
  · obtain rfl | rfl : top' = 0 ∨ top' = 1 := by omega
    · omega
    · omega

theorem mem_product {x : ℕ × ℕ} : x ∈ (List.range us.nou).product (List.range switches) ↔
    x.1 < us.nou ∧ x.2 < switches := by
  rw [← List.mem_range, ← List.mem_range]
  exact List.mem_product

/-- A request that lists every user exactly once. -/
def Lists (us : Users) (req : List (Address × β)) : Prop := (req.map Prod.fst).Perm us.all

theorem Lists.length {req : List (Address × β)} (h : us.Lists req) : req.length = us.nou := by
  rw [nou, ← List.Perm.length_eq h, List.length_map]

theorem Lists.lookup {req : List (Address × β)} (h : us.Lists req) {x : Address × β} (hx : x ∈ req) :
    ∃ check < us.nou, us.lookup x.1 = some check := by
  have hmem : x.1 ∈ us.all := h.mem_iff.mp (List.mem_map_of_mem hx)
  obtain ⟨i, hi, heq⟩ := List.getElem_of_mem hmem
  exact ⟨i, hi, lookup_eq_some.mpr (by rw [List.getElem?_eq_getElem hi, heq])⟩

theorem Lists.entry {req : List (Address × β)} (h : us.Lists req) {i : ℕ} {a : Address}
    (hi : us.all[i]? = some a) : ∃ bandwidth, (a, bandwidth) ∈ req := by
  have hmem : a ∈ req.map Prod.fst := h.mem_iff.mpr (List.mem_of_getElem? hi)
  obtain ⟨⟨a', bandwidth⟩, hx, rfl⟩ := List.mem_map.mp hmem
  exact ⟨bandwidth, hx⟩

theorem Known.request_ne_nil (hst : us.Known st) {req : List (Address × β)} (hreq : us.Lists req) :
    req ≠ [] := by
  rintro rfl
  exact absurd hreq.length hst.nou_pos.ne

/-- The states before and after the last loop. -/
def afterNew (us : Users) (rate : β → ℤ) (st : State) (req : List (Address × β)) : State :=
  us.recreate (newTop st) (((List.range us.nou).product (List.range switches)).foldl
    (us.newTurn rate st.mL (newTop st) req) st)

def afterOld (us : Users) (rate : β → ℤ) (st : State) (first : β) (req : List (Address × β)) : State :=
  { req.foldl (us.oldTurn rate st.mL (oldTop st) first) (us.afterNew rate st req) with
    topNum := newTop st }

theorem afterNew_mL (rate : β → ℤ) (st : State) (req : List (Address × β)) :
    (us.afterNew rate st req).mL = st.mL :=
  List.foldlRecOn (motive := fun r : State ↦ r.mL = st.mL) _ _ rfl
    (fun _ hr x _ ↦ (newTurn_mL _ _ _ _ x).trans hr)

theorem newLoop_eq_done {fuel : ℕ} {req : List (Address × β)} (hreq : us.Lists req) :
    Outcome.loop (us.changeNew rate fuel (newTop st) req) st
        ((List.range us.nou).product (List.range switches)) = .done st' ↔
      (∀ y ∈ req, (∃ check, us.search y.1 fuel 0 = .done check) ∧
        (us.Found y.1 → us.flowRows ≠ 0)) ∧
      st' = ((List.range us.nou).product (List.range switches)).foldl
        (us.newTurn rate st.mL (newTop st) req) st := by
  rw [Outcome.loop_eq_done (I := fun r : State ↦ r.mL = st.mL)
    (R := fun k : ℕ × ℕ ↦ ∀ y, req[k.1]? = some y →
      (∃ check, us.search y.1 fuel 0 = .done check) ∧ (us.Found y.1 → us.flowRows ≠ 0))
    (g := us.newTurn rate st.mL (newTop st) req) _ (fun r hr k ↦ (newTurn_mL _ _ _ _ k).trans hr) rfl]
  · refine and_congr_left fun _ ↦ ⟨fun h y hy ↦ ?_, fun h k hk y hy ↦ h y (List.mem_of_getElem? hy)⟩
    obtain ⟨i, hi, heq⟩ := List.getElem_of_mem hy
    apply h (i, 0) (mem_product.mpr ⟨hreq.length ▸ hi, Nat.succ_pos 4⟩) y
    rw [List.getElem?_eq_getElem hi, heq]
  · intro r hr k hk r'
    have hlt : k.1 < req.length := by
      rw [hreq.length]
      exact (mem_product.mp hk).1
    rw [changeNew_eq_done hr (List.getElem?_eq_getElem hlt)]
    refine and_congr_left fun _ ↦ ⟨fun h y hy ↦ ?_, fun h ↦ h _ (List.getElem?_eq_getElem hlt)⟩
    rw [List.getElem?_eq_getElem hlt] at hy
    cases hy
    exact h

theorem oldLoop_eq_done (hst : us.Known st) {first : β} {req : List (Address × β)}
    (hreq : us.Lists req) :
    Outcome.loop (us.changeEntry rate (oldTop st) first) (us.afterNew rate st req) req = .done st' ↔
      (∀ y ∈ req, us.flowRows ≠ 0) ∧
      st' = req.foldl (us.oldTurn rate st.mL (oldTop st) first) (us.afterNew rate st req) := by
  apply Outcome.loop_eq_done (I := fun r : State ↦ r.mL = st.mL) (R := fun _ ↦ us.flowRows ≠ 0) _
    (fun r hr y ↦ (oldTurn_mL _ _ _ _ y).trans hr) (afterNew_mL rate st req)
  intro r hr y hy r'
  obtain ⟨check, hlt, hcheck⟩ := hreq.lookup hy
  exact changeEntry_eq_done hr hcheck (fun s hs ↦ hst.mL_ne_zero (oldTop_lt st) hlt hs)

/-- An iteration ends when the first search ends for every user and `f_l` has rows. -/
theorem controlLoop_eq_done (hst : us.Known st) {fuel : ℕ} {x : Address × β}
    {req : List (Address × β)} (hreq : us.Lists (x :: req)) :
    us.controlLoop rate fuel st (x :: req) = .done st' ↔
      ((∀ y ∈ x :: req, ∃ check, us.search y.1 fuel 0 = .done check) ∧ us.flowRows ≠ 0) ∧
        st' = us.afterOld rate st x.2 (x :: req) := by
  change (Outcome.loop (us.changeNew rate fuel (newTop st) (x :: req)) st
      ((List.range us.nou).product (List.range switches))).bind (fun r ↦
    (us.changeAll rate (oldTop st) (us.recreate (newTop st) r) (x :: req)).bind fun r ↦
      .done { r with topNum := newTop st }) = .done st' ↔ _
  rw [Outcome.bind_eq_done]
  constructor
  · rintro ⟨st₁, hloop, hrest⟩
    obtain ⟨hends, rfl⟩ := (newLoop_eq_done hreq).mp hloop
    obtain ⟨st₂, hall, hdone⟩ := Outcome.bind_eq_done.mp hrest
    obtain ⟨hrows, rfl⟩ := (oldLoop_eq_done hst hreq).mp hall
    cases hdone
    exact ⟨⟨fun y hy ↦ (hends y hy).1, hrows x List.mem_cons_self⟩, rfl⟩
  · rintro ⟨⟨hends, hrows⟩, rfl⟩
    refine ⟨_, (newLoop_eq_done hreq).mpr ⟨fun y hy ↦ ⟨hends y hy, fun _ ↦ hrows⟩, rfl⟩, ?_⟩
    exact Outcome.bind_eq_done.mpr ⟨_, (oldLoop_eq_done hst hreq).mpr ⟨fun _ _ ↦ hrows, rfl⟩, rfl⟩

theorem recreate_meterAt (top : ℕ) (st : State) (k : ℕ × ℕ) :
    meterAt (us.recreate top st) k = meterAt st k := by
  rw [meterAt, recreate]
  simp only [createTopology_meters]
  rfl

/-- The last loop gives the meters of the old topology one rate. -/
theorem afterOld_old (rate : β → ℤ) (first : β) {req : List (Address × β)}
    (hreq : us.Lists req) {u s : ℕ} (hu : u < us.nou) (hs : s < switches) :
    meterAt (us.afterOld rate st first req) (s, st.mL (oldTop st) u s) =
      some (newMeter (rate first)) := by
  obtain ⟨bandwidth, hx⟩ := hreq.entry (List.getElem?_eq_getElem hu)
  have hlookup : us.lookup us.all[u] = some u := lookup_eq_some.mpr (List.getElem?_eq_getElem hu)
  refine Fold.get_of_written (g := meterAt) (w := us.oldWrite rate st.mL (oldTop st) first)
    (fun r x k ↦ oldTurn_meterAt st.mL (oldTop st) first r x k) ⟨_, hx, ?_⟩ ?_ _
  · rw [oldWrite, hlookup]
    exact if_pos ⟨hs, rfl⟩
  · intro y hy v hv
    rw [oldWrite] at hv
    obtain ⟨check, hlt, hcheck⟩ := hreq.lookup hy
    rw [hcheck] at hv
    simp only at hv
    split at hv
    · exact (Option.some.inj hv).symm
    · cases hv

theorem afterOld_other (rate : β → ℤ) (first : β) {req : List (Address × β)}
    (hreq : us.Lists req) {k : ℕ × ℕ}
    (hk : ∀ u < us.nou, k.1 < switches → k.2 ≠ st.mL (oldTop st) u k.1) :
    meterAt (us.afterOld rate st first req) k = meterAt (us.afterNew rate st req) k := by
  refine Fold.get_of_unwritten (g := meterAt) (w := us.oldWrite rate st.mL (oldTop st) first)
    (fun r x k ↦ oldTurn_meterAt st.mL (oldTop st) first r x k) ?_ _
  intro y hy
  obtain ⟨check, hlt, hcheck⟩ := hreq.lookup hy
  rw [oldWrite, hcheck]
  exact if_neg fun h ↦ hk check hlt h.1 h.2

/-- The first loop gives the meters of the new topology the rates in the order of the
request, where the first search finds the address. -/
theorem afterNew_found (hst : us.Known st) (rate : β → ℤ) {req : List (Address × β)}
    (hreq : us.Lists req) {u s : ℕ} {x : Address × β} (hx : req[u]? = some x)
    (hfound : us.Found x.1) (hs : s < switches) :
    meterAt (us.afterNew rate st req) (s, st.mL (newTop st) u s) = some (newMeter (rate x.2)) := by
  have hu : u < us.nou := hreq.length ▸ (List.getElem?_eq_some_iff.mp hx).1
  rw [afterNew, recreate_meterAt]
  refine Fold.get_of_written (g := meterAt) (w := us.newWrite rate st.mL (newTop st) req)
    (fun r x k ↦ newTurn_meterAt st.mL (newTop st) req r x k)
    ⟨(u, s), mem_product.mpr ⟨hu, hs⟩, ?_⟩ ?_ _
  · rw [newWrite, hx]
    exact if_pos ⟨hfound, rfl⟩
  · intro k hk v hv
    obtain ⟨hk1, hk2⟩ := mem_product.mp hk
    rw [newWrite] at hv
    split at hv
    · rename_i a bandwidth hy
      split at hv
      · rename_i hwrite
        obtain ⟨rfl, hmeter⟩ := Prod.mk.inj hwrite.2
        obtain ⟨-, hku⟩ := hst.mL_inj (newTop_lt st) (newTop_lt st) hu hk1 hk2 hmeter
        rw [← hku, hx] at hy
        cases hy
        exact (Option.some.inj hv).symm
      · cases hv
    · cases hv

theorem afterNew_other (rate : β → ℤ) {req : List (Address × β)} {k : ℕ × ℕ}
    (hk : ∀ u x, req[u]? = some x → u < us.nou → us.Found x.1 → k.1 < switches →
      k.2 ≠ st.mL (newTop st) u k.1) :
    meterAt (us.afterNew rate st req) k = meterAt st k := by
  rw [afterNew, recreate_meterAt]
  refine Fold.get_of_unwritten (g := meterAt) (w := us.newWrite rate st.mL (newTop st) req)
    (fun r x k ↦ newTurn_meterAt st.mL (newTop st) req r x k) ?_ _
  intro y hy
  obtain ⟨hy1, hy2⟩ := mem_product.mp hy
  rw [newWrite]
  split
  · rename_i a bandwidth hx
    refine if_neg ?_
    rintro ⟨hfound, rfl⟩
    exact hk y.1 _ hx hy1 hfound hy2 rfl
  · rfl

/-- A meter has a rate. -/
def HasRate (st : State) (k : ℕ × ℕ) (kbps : ℤ) : Prop :=
  ∃ m, meterAt st k = some m ∧ m.bandRate = kbps ∧ m.dropRate = kbps

theorem hasRate_newMeter {k : ℕ × ℕ} {kbps r : ℤ} (h : meterAt st k = some (newMeter kbps)) :
    HasRate st k r ↔ kbps = r := by
  constructor
  · rintro ⟨m, hm, hrate, -⟩
    cases h.symm.trans hm
    exact hrate
  · rintro rfl
    exact ⟨_, h, rfl, rfl⟩

/-- One iteration ends, gives every user of both topologies the rate that was requested for
him on every switch, and changes no other meter. -/
def AppliesRates (us : Users) (rate : β → ℤ) (st : State) (req : List (Address × β)) : Prop :=
  ∃ fuel st', us.controlLoop rate fuel st req = .done st' ∧
    (∀ top < 2, ∀ u, ∀ x ∈ req, us.all[u]? = some x.1 → ∀ s < switches,
      HasRate st' (s, st.mL top u s) (rate x.2)) ∧
    ∀ k : ℕ × ℕ, (∀ top < 2, ∀ u < us.nou, ¬(k.1 < switches ∧ k.2 = st.mL top u k.1)) →
      meterAt st' k = meterAt st k

/-- There are at most 512 users and few enough on base station 1; all requested rates are
equal; and where the first search does not find the address of an entry, the meter of the
new topology at the position of the entry has this rate already. -/
def RatesFit (us : Users) (rate : β → ℤ) (st : State) (req : List (Address × β)) : Prop :=
  us.nou ≤ 512 ∧
    (us.b2U.length < us.b1U.length → us.b1U.length = us.b2U.length + 1 ∧ us.b1U.length ≤ 2) ∧
    (∀ x ∈ req, ∀ y ∈ req, rate x.2 = rate y.2) ∧
    ∀ u x, req[u]? = some x → ¬us.Found x.1 → ∀ s < switches,
      HasRate st (s, st.mL (newTop st) u s) (rate x.2)

theorem flowRows_ne_zero (hpos : 0 < us.nou) : us.flowRows ≠ 0 ↔ us.nou ≤ 512 := by
  rw [flowRows, Nat.div_ne_zero_iff]
  exact ⟨fun h ↦ h.2, fun h ↦ ⟨by omega, h⟩⟩

theorem afterOld_new (hst : us.Known st) (rate : β → ℤ) (first : β) {req : List (Address × β)}
    (hreq : us.Lists req) {u s : ℕ} (hu : u < us.nou) :
    meterAt (us.afterOld rate st first req) (s, st.mL (newTop st) u s) =
      meterAt (us.afterNew rate st req) (s, st.mL (newTop st) u s) := by
  apply afterOld_other rate first hreq
  intro v hv hs heq
  exact newTop_ne_oldTop st (hst.mL_inj (newTop_lt st) (oldTop_lt st) hu hv hs heq).1

theorem afterNew_notFound (hst : us.Known st) (rate : β → ℤ) {req : List (Address × β)} {u s : ℕ}
    {x : Address × β} (hx : req[u]? = some x) (hu : u < us.nou) (hnot : ¬us.Found x.1) :
    meterAt (us.afterNew rate st req) (s, st.mL (newTop st) u s) =
      meterAt st (s, st.mL (newTop st) u s) := by
  apply afterNew_other
  intro v y hy hv hfound hs heq
  obtain ⟨-, rfl⟩ := hst.mL_inj (newTop_lt st) (newTop_lt st) hu hv hs heq
  rw [hx] at hy
  cases hy
  exact hnot hfound

theorem ratesFit_of_applies (hst : us.Known st) {req : List (Address × β)} (hreq : us.Lists req)
    (h : us.AppliesRates rate st req) : us.RatesFit rate st req := by
  obtain ⟨fuel, st', hdone, hrates, -⟩ := h
  cases req with
  | nil => exact absurd rfl (hst.request_ne_nil hreq)
  | cons x req =>
    obtain ⟨⟨hends, hrows⟩, rfl⟩ := (controlLoop_eq_done hst hreq).mp hdone
    have hsame : ∀ y ∈ x :: req, rate x.2 = rate y.2 := by
      intro y hy
      obtain ⟨u, hu, hlookup⟩ := hreq.lookup hy
      have hs : 0 < switches := Nat.succ_pos 4
      have hrate := hrates (oldTop st) (oldTop_lt st) u y hy (lookup_eq_some.mp hlookup) 0 hs
      exact (hasRate_newMeter (afterOld_old rate x.2 hreq hu hs)).mp hrate
    refine ⟨(flowRows_ne_zero hst.nou_pos).mp hrows, ?_, ?_, ?_⟩
    · rw [← ends_iff]
      intro a ha
      obtain ⟨u, hu, rfl⟩ := List.getElem_of_mem ha
      obtain ⟨bandwidth, hy⟩ := hreq.entry (List.getElem?_eq_getElem hu)
      obtain ⟨check, hcheck⟩ := hends _ hy
      exact (search_done hcheck).1
    · exact fun y hy z hz ↦ (hsame y hy).symm.trans (hsame z hz)
    · intro u y hy hnot s hs
      have hu : u < us.nou := hreq.length ▸ (List.getElem?_eq_some_iff.mp hy).1
      obtain ⟨bandwidth, hz⟩ := hreq.entry (List.getElem?_eq_getElem hu)
      have hrate := hrates (newTop st) (newTop_lt st) u _ hz (List.getElem?_eq_getElem hu) s hs
      rw [HasRate, afterOld_new hst rate x.2 hreq hu, afterNew_notFound hst rate hy hu hnot] at hrate
      rw [← hsame y (List.mem_of_getElem? hy), hsame _ hz]
      exact hrate

theorem applies_of_ratesFit (hst : us.Known st) {req : List (Address × β)} (hreq : us.Lists req)
    (h : us.RatesFit rate st req) : us.AppliesRates rate st req := by
  obtain ⟨hnou, hends, hsame, hnotFound⟩ := h
  cases req with
  | nil => exact absurd rfl (hst.request_ne_nil hreq)
  | cons x req =>
    have hends' : ∀ y ∈ x :: req, ∃ check, us.search y.1 2 0 = .done check := by
      intro y hy
      apply search_ends _ 0
      apply ends_iff.mpr hends
      exact hreq.mem_iff.mp (List.mem_map_of_mem hy)
    refine ⟨2, _, (controlLoop_eq_done hst hreq).mpr
      ⟨⟨hends', (flowRows_ne_zero hst.nou_pos).mpr hnou⟩, rfl⟩, ?_, ?_⟩
    · intro top htop u y hy hu s hs
      have hlt : u < us.nou := (List.getElem?_eq_some_iff.mp hu).1
      rcases top_cases st htop with rfl | rfl
      · have hlen : u < (x :: req).length := hreq.length.symm ▸ hlt
        have hz := List.getElem?_eq_getElem hlen
        rw [HasRate, afterOld_new hst rate x.2 hreq hlt, hsame y hy _ (List.mem_of_getElem? hz)]
        by_cases hfound : us.Found (x :: req)[u].1
        · exact ⟨_, afterNew_found hst rate hreq hz hfound hs, rfl, rfl⟩
        · rw [afterNew_notFound hst rate hz hlt hfound]
          exact hnotFound u _ hz hfound s hs
      · rw [hasRate_newMeter (afterOld_old rate x.2 hreq hlt hs)]
        exact hsame x List.mem_cons_self y hy
    · intro k hk
      refine (afterOld_other rate x.2 hreq fun u hu hs heq ↦ ?_).trans
        (afterNew_other rate fun u y _ hu _ hs heq ↦ ?_)
      · exact hk (oldTop st) (oldTop_lt st) u hu ⟨hs, heq⟩
      · exact hk (newTop st) (newTop_lt st) u hu ⟨hs, heq⟩

end Users

end EdgeSlice.Sdn.BandwidthLimiter
