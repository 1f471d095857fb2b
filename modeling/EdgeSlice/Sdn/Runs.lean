import EdgeSlice.Sdn.CreateTopology
import EdgeSlice.Sdn.Switchover

namespace EdgeSlice.Sdn

open Function

namespace Network

/-- What holds in every state, also after a run that ended early. -/
structure Known (net : Network) (st : State) : Prop where
  meters : net.MetersKnown st.mL
  topology : ∀ u < net.users.length, st.topNum u = 0 ∨ st.topNum u = 1
  arp : st.topNum net.users.length = -1
  groups : net.GroupsReady st.datastore
  tidy : ∀ s < net.switches, net.Tidy (st.datastore s)

/-- On a switch the user has the flows of the selected topology and none of the other. -/
def Settled (net : Network) (st : State) (u s : ℕ) : Prop :=
  ∀ a, net.users[u]? = some a →
    Filled net.maxNumOfFlowsPerUser (st.datastore s) (meterNum u (st.topNum u).toNat)
      (net.flowsOn u (st.topNum u).toNat a s) ∧
    Bare (st.datastore s) (meterNum u (1 - st.topNum u).toNat)

variable {β : Type*} {net : Network} {rate : β → ℤ} {st : State}

theorem session_sized (net : Network) (st : State) : (net.session st).Sized net :=
  ⟨List.length_map _, List.length_map _⟩

theorem mem_session_mods {v : ℕ} {a : Address} (h : (net.session st).mods[v]? = some a) :
    a = noUser := by
  have ha := List.mem_of_getElem? h
  rw [Session.mods, List.mem_append] at ha
  rcases ha with ha | ha
  · obtain ⟨-, -, rfl⟩ := List.mem_map.mp ha
    rfl
  · obtain ⟨-, -, rfl⟩ := List.mem_map.mp ha
    rfl

theorem user_ne_noUser {v : ℕ} {a : Address} (h : net.users[v]? = some a) : a ≠ noUser := by
  rintro rfl
  rcases net.isAddress _ (List.mem_of_getElem? h) 'n' List.mem_cons_self with h | h
  · revert h
    decide
  · revert h
    decide

/-- The variables when the main loop ends. -/
def switched (net : Network) (rate : β → ℤ) (req : Request β) (st : State) : Session :=
  (net.found req).foldl (net.turnUser rate st.mL) (net.session st)

theorem found_lt (req : Request β) : ∀ p ∈ net.found req, p.1 < net.users.length :=
  fun _ ↦ mem_found_lt

theorem switched_switched (hst : net.Known st) (rate : β → ℤ) (req : Request β) :
    Switched net ((net.found req).map Prod.fst) (net.session st) (net.switched rate req st) :=
  turnUsers_switched rate hst.meters hst.topology (found_lt req) (fun s hs ↦ (hst.tidy s hs).placed)

theorem switched_arp (hst : net.Known st) (rate : β → ℤ) (req : Request β) :
    (net.switched rate req st).topNum net.users.length = -1 := by
  refine ((switched_switched hst rate req).others _ (fun hmem ↦ ?_)).trans hst.arp
  obtain ⟨p, hp, hlt⟩ := List.mem_map.mp hmem
  have := found_lt req p hp
  omega

theorem switched_mods (rate : β → ℤ) (req : Request β) {v : ℕ} {a : Address} :
    (a, v) ∈ (net.switched rate req st).mods.zipIdx ∧ a ≠ noUser ↔
      v ∈ (net.found req).map Prod.fst ∧ net.users[v]? = some a := by
  have hmods := (turnUsers_mods rate st.mL (found_lt req) (session_sized net st)).2 v
  rw [← switched] at hmods
  rw [List.mem_zipIdx_iff_getElem?, hmods]
  by_cases hv : v ∈ (net.found req).map Prod.fst
  · rw [if_pos hv]
    exact ⟨fun h ↦ ⟨hv, h.1⟩, fun h ↦ ⟨h.2, user_ne_noUser h.2⟩⟩
  · rw [if_neg hv]
    exact ⟨fun h ↦ absurd (mem_session_mods h.1) h.2, fun h ↦ absurd h.1 hv⟩

theorem switched_entries (hst : net.Known st) (rate : β → ℤ) (req : Request β) :
    Entries net st.mL (net.switched rate req st).topNum (net.switched rate req st).mods.zipIdx := by
  have hx := switched_switched hst rate req
  have hlt : ∀ x ∈ (net.switched rate req st).mods.zipIdx, x.1 ≠ noUser →
      x.2 < net.users.length := by
    rintro ⟨a, v⟩ hmem hname
    exact (List.getElem?_eq_some_iff.mp ((switched_mods rate req).mp ⟨hmem, hname⟩).2).1
  refine ⟨?_, ?_, ?_, ?_⟩
  · rintro ⟨a, v⟩ hmem hname
    exact ((switched_mods rate req).mp ⟨hmem, hname⟩).2
  · intro x hmem hname
    exact toNat_lt_two (hx.topology _ (hlt x hmem hname))
  · intro x hmem hname
    have hlt' := hlt x hmem hname
    exact hst.meters x.2 (lt_nou hlt') _ (toNat_lt_two (hx.topology _ hlt'))
  · rw [List.zipIdx_map_snd]
    exact List.nodup_range'

/-- Names that are not found leave everything as it is. -/
theorem multipleSwitchTest_none {req : Request β} (hfound : net.found req = []) :
    net.multipleSwitchTest rate req st = (Traced.start st.datastore, st) := by
  have hloop : net.changeUsers rate st.mL req (net.session st) = .ok (net.session st) := by
    cases req with
    | nil => rfl
    | cons e req =>
      rw [found] at hfound
      rw [changeUsers]
      cases h : net.lookup e.1 with
      | none => rfl
      | some u =>
        rw [h] at hfound
        cases hfound
  rw [multipleSwitchTest, hloop]
  rfl

theorem multipleSwitchTest_eq (hst : net.Known st) (hrun : net.switches = 0 ∨ 0 < net.flowRows)
    {req : Request β} (hfound : net.found req ≠ []) {x : Session}
    (hx : net.switched rate req st = x) {c : Controller}
    (hc : x.mods.zipIdx.foldl (net.addUser st.mL x.topNum) x.controller = c) :
    net.multipleSwitchTest rate req st = (c, ⟨c.now, x.topNum, st.mL⟩) := by
  have hloop := changeUsers_eq rate hst.meters hrun req (x := net.session st) hst.topology
  rw [← switched, hx] at hloop
  have hfoundFlag : x.found = true := by
    have h := turnUsers_found net rate st.mL (net.found req) (net.session st)
    rw [← switched, hx] at h
    rw [h, Bool.or_eq_true, Bool.not_eq_true', List.isEmpty_eq_false_iff]
    exact .inr hfound
  have hsized : x.b1UMod.length = net.b1U.length ∧ x.b2UMod.length = net.b2U.length := by
    rw [← hx]
    exact (turnUsers_mods rate st.mL (found_lt req) (session_sized net st)).1
  have hlen : x.b1UMod.length + x.b2UMod.length = net.users.length := by
    rw [hsized.1, hsized.2, users, List.length_append]
  have harp : x.topNum net.users.length = -1 := by
    rw [← hx]
    exact switched_arp hst rate req
  have htopology : net.createTopology x.b1UMod x.b2UMod st.mL x.topNum x.controller =
      (c, x.topNum) := by
    have hne : ¬ x.topNum net.users.length = 0 := by
      rw [harp]
      decide
    rw [createTopology]
    simp only [hlen]
    rw [if_neg hne, ← harp, update_eq_self, createUsers_eq hsized.1, ← Session.mods, hc]
  rw [multipleSwitchTest, hloop]
  dsimp only
  rw [if_pos hfoundFlag, htopology]

/-- What a run does that finds the users `us` and does not end early. -/
structure Moved (net : Network) (us : List ℕ) (st st' : State) (c : Controller) : Prop where
  datastore : st'.datastore = c.now
  known : net.Known st'
  others : ∀ u, u ∉ us → st'.topNum u = st.topNum u
  within : (Traced.start st.datastore).Within (SameOutside (net.metersOf us)) c
  settled : ∀ u ∈ us, ∀ s < net.switches, net.Settled st' u s

theorem multipleSwitchTest_moved (hst : net.Known st)
    (hrun : net.switches = 0 ∨ 0 < net.flowRows) (rate : β → ℤ) (req : Request β) :
    net.Moved ((net.found req).map Prod.fst) st (net.multipleSwitchTest rate req st).2
      (net.multipleSwitchTest rate req st).1 := by
  by_cases hfound : net.found req = []
  · rw [multipleSwitchTest_none hfound, hfound]
    exact ⟨rfl, hst, fun _ _ ↦ rfl, .refl (SameOutside.refl _) _, List.forall_mem_nil _⟩
  · rw [multipleSwitchTest_eq hst hrun hfound rfl rfl]
    have hx := switched_switched hst rate req
    have hxs := switched_entries hst rate req
    have hadd := addUsers_within hxs (net.switched rate req st).controller
    have htidy : ∀ s < net.switches, net.Tidy ((net.switched rate req st).controller.now s) :=
      fun s hs ↦ (hst.tidy s hs).of_kept (hx.kept s)
    have hbare : ∀ s < net.switches, ∀ x ∈ (net.switched rate req st).mods.zipIdx,
        x.1 ≠ noUser → Bare ((net.switched rate req st).controller.now s)
          (meterNum x.2 ((net.switched rate req st).topNum x.2).toNat) := by
      rintro s hs ⟨a, v⟩ hmem hname
      exact hx.bare v ((switched_mods rate req).mp ⟨hmem, hname⟩).1 _
        (hxs.topology _ hmem hname) s hs
    have hwithin : (Traced.start st.datastore).Within
        (SameOutside (net.metersOf ((net.found req).map Prod.fst)))
        ((net.switched rate req st).mods.zipIdx.foldl
          (net.addUser st.mL (net.switched rate req st).topNum)
          (net.switched rate req st).controller) := by
      refine hx.within.trans SameOutside.trans (hadd.mono (fun _ _ ↦ SameOutside.mono ?_))
      rintro s m ⟨hs, ⟨a, v⟩, hmem, hname, rfl⟩
      exact ⟨hs, v, ((switched_mods rate req).mp ⟨hmem, hname⟩).1, _,
        hxs.topology _ hmem hname, rfl⟩
    refine ⟨rfl, ⟨hst.meters, hx.topology, switched_arp hst rate req, ?_, ?_⟩, hx.others, hwithin, ?_⟩
    · intro g hg hpos
      rw [← hst.groups g hg hpos]
      exact congrFun (hwithin.now.groups _).symm _
    · intro s hs
      exact (addUsers_spec hxs (htidy s hs) (hbare s hs)).1
    · intro u hu s hs a ha
      obtain ⟨hmem, hname⟩ := (switched_mods rate req).mpr ⟨hu, ha⟩
      refine ⟨(addUsers_spec hxs (htidy s hs) (hbare s hs)).2 (a, u) hmem hname, ?_⟩
      have hlt := (List.getElem?_eq_some_iff.mp ha).1
      have hother := toNat_lt_two (otherTopology_mem (hx.topology u hlt))
      refine (hadd.now.bare ?_).mpr (hx.bare u hu _ hother s hs)
      rintro ⟨-, y, hy, hyname, hm⟩
      obtain ⟨huy, ht⟩ := meterNum_inj hother (hxs.topology y hy hyname) hm
      rw [← huy] at ht
      have htop := hx.topology u hlt
      omega

/-- A user who is found once gets the rate on the meters of his other topology. -/
theorem multipleSwitchTest_selected (hst : net.Known st)
    (hrun : net.switches = 0 ∨ 0 < net.flowRows) (rate : β → ℤ) {req : Request β}
    (hnodup : ((net.found req).map Prod.fst).Nodup) {q : ℕ × β} (hq : q ∈ net.found req) :
    (net.multipleSwitchTest rate req st).2.topNum q.1 = 1 - st.topNum q.1 ∧
      ∀ s < net.switches, ((net.multipleSwitchTest rate req st).2.datastore s).meters.get
        (meterNum q.1 (1 - st.topNum q.1).toNat) = some ⟨rate q.2, 100, rate q.2, 1000⟩ := by
  have hselected := turnUsers_selected rate (x := net.session st) hst.meters hst.topology
    (found_lt req) hnodup (fun s hs ↦ (hst.tidy s hs).placed) q hq
  rw [← switched] at hselected
  rw [multipleSwitchTest_eq hst hrun (List.ne_nil_of_mem hq) rfl rfl]
  refine ⟨hselected.1, fun s hs ↦ ?_⟩
  dsimp only
  rw [addUsers_same (·.meters) (fun _ _ ↦ rfl)]
  exact hselected.2 s hs

/-- The datastore that is left when there are no rows in `f_l`. -/
theorem multipleSwitchTest_error (hst : net.Known st) (hn : 0 < net.switches)
    (hrows : net.flowRows = 0) {req : Request β} {p : ℕ × β} {ps : List (ℕ × β)}
    (hfound : net.found req = p :: ps) {c : Controller}
    (hc : net.turnSwitch rate (st.mL p.1 (1 - st.topNum p.1).toNat)
      (st.mL p.1 (st.topNum p.1).toNat) p.2 (Traced.start st.datastore) 0 = c) :
    net.multipleSwitchTest rate req st = (c, { st with datastore := c.now }) := by
  have hloop := changeUsers_error rate hst.meters hn hrows hfound (x := net.session st)
    hst.topology
  have hcontroller : (net.session st).controller = Traced.start st.datastore := rfl
  have htopNum : (net.session st).topNum = st.topNum := rfl
  rw [hcontroller, htopNum, hc] at hloop
  rw [multipleSwitchTest, hloop]

theorem multipleSwitchTest_mL (net : Network) (rate : β → ℤ) (req : Request β) (st : State) :
    (net.multipleSwitchTest rate req st).2.mL = st.mL := by
  rw [multipleSwitchTest]
  split
  · rfl
  · dsimp only
    split <;> rfl

theorem Known.multipleSwitchTest (hst : net.Known st) (rate : β → ℤ) (req : Request β) :
    net.Known (net.multipleSwitchTest rate req st).2 := by
  by_cases hrun : net.switches = 0 ∨ 0 < net.flowRows
  · exact (multipleSwitchTest_moved hst hrun rate req).known
  · cases hfound : net.found req with
    | nil =>
      rw [multipleSwitchTest_none hfound]
      exact hst
    | cons p ps =>
      rw [multipleSwitchTest_error hst (by omega) (by omega) hfound rfl]
      refine ⟨hst.meters, hst.topology, hst.arp, ?_, ?_⟩
      · intro g hg hpos
        rw [← hst.groups g hg hpos]
        exact congrFun ((turnSwitch_within _ 0).now.groups _).symm _
      · intro s hs
        exact (hst.tidy s hs).of_kept (turnSwitch_kept _ 0 s)

/-- A user who is not found keeps what he has. -/
theorem Moved.settled_of_not_mem {us : List ℕ} {st' : State} {c : Controller}
    (h : net.Moved us st st' c) {u : ℕ} (hu : u ∉ us) (hlt : u < net.users.length) {s : ℕ}
    (hs : net.Settled st u s) : net.Settled st' u s := by
  intro a ha
  obtain ⟨hfilled, hbare⟩ := hs a ha
  rw [← h.others u hu] at hfilled hbare
  have ht := h.known.topology u hlt
  rw [h.datastore]
  exact ⟨h.within.now.filled (not_metersOf hu (toNat_lt_two ht) s) hfilled,
    (h.within.now.bare (not_metersOf hu (toNat_lt_two (otherTopology_mem ht)) s)).mpr hbare⟩

end Network

end EdgeSlice.Sdn
